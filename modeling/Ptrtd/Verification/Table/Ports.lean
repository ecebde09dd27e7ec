import Ptrtd.Verification.Table.Correctness

/-! # Port 0

No connection is made with local port 0: the lookup gives up before it comes to the listener,
unless the segment has the listener's own key, and then the block is refused. -/

namespace Ptrtd.Table

open SearchTree Transition

variable {rb : Rebalance} {s s' : Tcbs} {p : Arrival} {t u : TcbNode} {i : TableInput}

/-- No connection in the trees has local port 0. -/
def Ported (s : Tcbs) : Prop :=
  ∀ t, t ∈ inorder s.root ∨ t ∈ inorder s.detached → t.listening = false → 0 < t.lport

theorem ported_tcpListen (hlaw : rb.Lawful) : Ported (tcpListen rb) := by
  rintro t (ht | ht) hconn
  · have hlive := (exact_tcpListen hlaw t).mp ht
    obtain rfl := List.mem_singleton.mp hlive
    cases hconn
  · cases ht

/-- A segment to port 0 has the key of what it finds. -/
theorem Arrival.key_of_zero (hfind : p.find s.root = some (some t))
    (hzero : ¬0 < p.lport.toNat) : t.key = p.needle.key := by
  obtain ⟨-, hkey | ⟨hpos, -⟩⟩ := Arrival.find_cases hfind
  · exact hkey
  · exact absurd hpos hzero

theorem Ported.after_new (h : Ported s) (hform : Formed s) (hlaw : rb.Lawful)
    (hfind : p.find s.root = some (some t)) :
    Ported (tcbNew rb s (some p.laddr) p.lport.toNat (some p.raddr) p.rport.toNat false) := by
  rintro u (hu | hu) hconn
  · rcases tcbNew_root hlaw hform.root.sorted (some p.laddr) p.lport.toNat (some p.raddr)
      p.rport.toNat false with ⟨hkey, hperm, -⟩ | ⟨-, hroot⟩
    · rcases List.mem_cons.mp (hperm.mem_iff.mp hu) with rfl | hold
      · by_contra hzero
        exact hkey t (p.find_mem hfind) (p.key_of_zero hfind hzero)
      · exact h u (.inl hold) hconn
    · rw [hroot] at hu
      exact h u (.inl hu) hconn
  · exact h u (.inr hu) hconn

/-- Deleting a block puts nothing new into the trees. -/
theorem tcbDelete_mem (hlaw : rb.Lawful) (hs : tcbDelete rb s t = some s')
    (hu : u ∈ inorder s'.root ∨ u ∈ inorder s'.detached) :
    u ∈ inorder s.root ∨ u ∈ inorder s.detached := by
  obtain ⟨⟨root, detached⟩, herase, rfl⟩ := Option.map_eq_some_iff.mp hs
  rw [rbErase] at herase
  split at herase
  · next hroot =>
      obtain ⟨rfl, rfl⟩ := Prod.mk.inj (Option.some.inj herase)
      rw [hlaw.erase t _ hroot] at hu
      exact hu.imp List.mem_of_mem_erase id
  · split at herase
    · next hdet =>
        rcases hlaw.eraseDetached t _ _ _ hdet herase with ⟨rfl, heq⟩ | ⟨rfl, heq⟩
        · rw [heq] at hu
          exact .inr (hu.elim (absurd · List.not_mem_nil) List.mem_of_mem_erase)
        · rw [heq] at hu
          exact .inr (hu.elim List.mem_of_mem_erase (absurd · List.not_mem_nil))
    · split at herase
      · obtain ⟨rfl, rfl⟩ := Prod.mk.inj (Option.some.inj herase)
        exact .inr (hu.elim (absurd · List.not_mem_nil) id)
      · obtain ⟨rfl, rfl⟩ := Prod.mk.inj (Option.some.inj herase)
        exact .inl (hu.elim (absurd · List.not_mem_nil) id)

theorem Ported.step (h : Ported s) (hform : Formed s) (hlaw : rb.Lawful)
    (hs : tableStep rb s i = some s') : Ported s' := by
  rcases tableStep_cases hs with rfl | ⟨p, t, rfl, hfind, -, -, rfl⟩ | ⟨t, -, rfl, -, hdelete⟩
  · exact h
  · exact h.after_new hform hlaw hfind
  · exact fun u hu => h u (tcbDelete_mem hlaw hdelete hu)

theorem TableReached.ported (hlaw : rb.Lawful) (h : TableReached rb s) : Ported s := by
  have hinv : Formed s ∧ Ported s := by
    induction h with
    | refl => exact ⟨formed_tcpListen hlaw, ported_tcpListen hlaw⟩
    | tail _ _ hstep ih => exact ⟨ih.1.step hlaw hstep, ih.2.step ih.1 hlaw hstep⟩
  exact hinv.2

/-- A segment to port 0 never finds a connection. -/
theorem listening_of_zero (hlaw : rb.Lawful) (h : TableReached rb s)
    (hfind : p.find s.root = some (some t)) (hzero : p.lport.toNat = 0) : t.listening = true := by
  by_contra hnot
  have hconn := Bool.eq_false_iff.mpr hnot
  have hkey := (h.formed hlaw).key_of_find hfind hconn
  have hpos := h.ported hlaw t (.inl (p.find_mem hfind)) hconn
  have hlport := (Arrival.key_needle.mp hkey).2.1
  omega

/-- The table after the first SYN of a client, to a port that is not 0. -/
theorem tableReached_first (hlaw : rb.Lawful) (hpos : 0 < p.lport.toNat) :
    let s := tcbNew rb (tcpListen rb) (some p.laddr) p.lport.toNat (some p.raddr) p.rport.toNat
      false
    TableReached rb s ∧ firstNode p ∈ inorder s.root ∧ p.find s.root = some (some (firstNode p)) ∧
      ∀ t ∈ s.live, t.listening = false → t = firstNode p := by
  intro s
  have hform := formed_tcpListen hlaw
  have hexact := exact_tcpListen hlaw
  have hlist : (tcpListen rb).live = [tcbNode 0 true none 0 none 0] := rfl
  have hlistener : tcbNode 0 true none 0 none 0 ∈ inorder (tcpListen rb).root :=
    (hexact _).mpr (by rw [hlist]; exact List.mem_singleton_self _)
  have hfree : ∀ u ∈ inorder (tcpListen rb).root, u.key ≠ p.needle.key := by
    intro u hu hkey
    have hlive := (hexact u).mp hu
    rw [hlist] at hlive
    obtain rfl := List.mem_singleton.mp hlive
    have hlport : (0 : ℕ) = p.lport.toNat := (Arrival.key_needle.mp hkey).2.1
    omega
  -- a SYN with the key of the segment finds the listener
  have hfind : ({ p with tcp := { p.tcp with flags := 0x2 } } : Arrival).find (tcpListen rb).root =
      some (some (tcbNode 0 true none 0 none 0)) := by
    have hnone : SearchTree.find (tcbcmp p.needle) (tcpListen rb).root = none :=
      (find_eq_none_iff hform.root.sorted compares_tcbcmp).mpr hfree
    have hneedle : ({ p with tcp := { p.tcp with flags := 0x2 } } : Arrival).needle = p.needle :=
      rfl
    have hwild : SearchTree.find (tcbcmp wildcard) (tcpListen rb).root =
        some (tcbNode 0 true none 0 none 0) :=
      SearchTree.find_of_mem hform.root.sorted compares_tcbcmp hlistener rfl
    rw [Arrival.find_eq, hneedle, hnone]
    dsimp only
    rw [if_pos hpos, hwild]
    rfl
  have hstep : tableStep rb (tcpListen rb)
      (.segment { p with tcp := { p.tcp with flags := 0x2 } }) = some s := by
    rw [tableStep, handleArrival, hfind, Option.map_some]
    rfl
  have hreach : TableReached rb s := .single trivial hstep
  have hmem : firstNode p ∈ inorder s.root := by
    rcases tcbNew_root hlaw hform.root.sorted (some p.laddr) p.lport.toNat (some p.raddr)
      p.rport.toNat false with ⟨-, hperm, -⟩ | ⟨⟨u, hu, hkey⟩, -⟩
    · exact hperm.mem_iff.mpr List.mem_cons_self
    · exact absurd hkey (hfree u hu)
  refine ⟨hreach, hmem, (hreach.formed hlaw).find_of_mem hmem rfl, ?_⟩
  intro t ht hconn
  have hlive : s.live = [firstNode p, tcbNode 0 true none 0 none 0] := rfl
  rw [hlive] at ht
  rcases List.mem_cons.mp ht with rfl | hold
  · rfl
  · obtain rfl := List.mem_singleton.mp hold
    cases hconn

end Ptrtd.Table
