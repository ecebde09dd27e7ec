import Ptrtd.Verification.Table.Correctness

/-! # The recursion of `tcb_find`

`tcb_find` calls itself with fewer arguments given when it finds nothing. Once the remote address
is not given it changes nothing any more, so that it returns only with a block. -/

namespace Ptrtd.Table

open SearchTree Transition

variable {root : TcbTree} {laddr raddr : Option Addr} {lport rport : ℕ}

/-- A block of the table has the key of these arguments. -/
def Present (root : TcbTree) (laddr : Option Addr) (lport : ℕ) (raddr : Option Addr)
    (rport : ℕ) : Prop :=
  ∃ t ∈ inorder root, t.key = (tcbNode 0 false laddr lport raddr rport).key

/-- `tcb_find` returns, and with `NULL` if neither the key of its arguments nor one with the
remote end, the local address or everything left open is in the table. -/
def Answers (root : TcbTree) (laddr : Option Addr) (lport : ℕ) (raddr : Option Addr)
    (rport : ℕ) : Prop :=
  ∃ depth v, tcbFind root depth laddr lport raddr rport = some v ∧
    (¬Present root laddr lport raddr rport → ¬Present root laddr lport none 0 →
      ¬Present root none lport none 0 → ¬Present root none 0 none 0 → v = none)

/-- The first two keys that `tcb_find` looks for settle the lookup: the one of its arguments is in
the table, or the one it goes on with is, or there is none to go on with. -/
def Settles (root : TcbTree) (laddr : Option Addr) (lport : ℕ) (raddr : Option Addr)
    (rport : ℕ) : Prop :=
  Present root laddr lport raddr rport ∨
    match raddr, laddr with
    | none, _ => Present root laddr lport none 0
    | some _, none => Present root none lport none 0
    | some _, some _ => lport = 0 ∨ Present root none 0 none 0

theorem present_iff (h : Sorted TcbNode.key root) : Present root laddr lport raddr rport ↔
    ∃ t, find (tcbcmp (tcbNode 0 false laddr lport raddr rport)) root = some t := by
  constructor
  · rintro ⟨t, ht, hkey⟩
    exact ⟨t, find_of_mem h compares_tcbcmp ht hkey⟩
  · rintro ⟨t, hfind⟩
    exact ⟨t, find_mem hfind, find_key compares_tcbcmp hfind⟩

theorem not_present_iff (h : Sorted TcbNode.key root) : ¬Present root laddr lport raddr rport ↔
    find (tcbcmp (tcbNode 0 false laddr lport raddr rport)) root = none := by
  rw [present_iff h, not_exists, Option.eq_none_iff_forall_ne_some]

/-- One call that finds its key. -/
theorem tcbFind_present (h : Sorted TcbNode.key root)
    (hp : Present root laddr lport raddr rport) (depth : ℕ) :
    ∃ t, tcbFind root (depth + 1) laddr lport raddr rport = some (some t) := by
  obtain ⟨t, hfind⟩ := (present_iff h).mp hp
  exact ⟨t, by rw [tcbFind, hfind]⟩

/-- One call that does not. -/
theorem tcbFind_absent (h : Sorted TcbNode.key root)
    (hp : ¬Present root laddr lport raddr rport) (depth : ℕ) :
    tcbFind root (depth + 1) laddr lport raddr rport =
      if raddr.isNone then tcbFind root depth laddr lport none 0
      else if laddr.isNone then tcbFind root depth none lport none 0
      else if lport > 0 then tcbFind root depth none 0 none 0
      else some none := by
  rw [tcbFind, (not_present_iff h).mp hp]

/-- The calls without a remote address return with a block or not at all. -/
theorem anyRemote_returns_iff (h : Sorted TcbNode.key root) (depth : ℕ) :
    (∃ v, tcbFind root depth laddr lport none 0 = some v) ↔
      0 < depth ∧ Present root laddr lport none 0 := by
  cases depth with
  | zero => simp [tcbFind]
  | succ depth =>
      rw [tcbFind_anyRemote, present_iff h]
      cases find (tcbcmp (tcbNode 0 false laddr lport none 0)) root <;> simp

/-- What is found has one of the keys. -/
theorem present_of_tcbFind {depth : ℕ} {t : TcbNode}
    (h : tcbFind root depth laddr lport raddr rport = some (some t)) :
    Present root laddr lport raddr rport ∨ Present root laddr lport none 0 ∨
      Present root none lport none 0 ∨ Present root none 0 none 0 := by
  have hfound : ∀ {laddr lport raddr rport u},
      find (tcbcmp (tcbNode 0 false laddr lport raddr rport)) root = some u →
        Present root laddr lport raddr rport := fun hfind =>
    ⟨_, find_mem hfind, find_key compares_tcbcmp hfind⟩
  have hany : ∀ {depth laddr lport}, tcbFind root depth laddr lport none 0 = some (some t) →
      Present root laddr lport none 0 := by
    intro depth laddr lport hany
    cases depth with
    | zero => cases hany
    | succ depth =>
        rw [tcbFind_anyRemote] at hany
        obtain ⟨u, hfind, -⟩ := Option.map_eq_some_iff.mp hany
        exact hfound hfind
  cases depth with
  | zero => cases h
  | succ depth =>
      rw [tcbFind] at h
      split at h
      · next u hfind => exact .inl (hfound hfind)
      · split at h
        · exact .inr (.inl (hany h))
        · split at h
          · exact .inr (.inr (.inl (hany h)))
          · split at h
            · exact .inr (.inr (.inr (hany h)))
            · cases h

/-- Returning is all that can go wrong. -/
theorem answers_iff_returns : Answers root laddr lport raddr rport ↔
    ∃ depth v, tcbFind root depth laddr lport raddr rport = some v := by
  constructor
  · rintro ⟨depth, v, hv, -⟩
    exact ⟨depth, v, hv⟩
  · rintro ⟨depth, v, hv⟩
    refine ⟨depth, v, hv, fun hexact hremote haddr hall => ?_⟩
    cases v with
    | none => rfl
    | some t => rcases present_of_tcbFind hv with hp | hp | hp | hp <;> contradiction

theorem returns_iff_settles (h : Sorted TcbNode.key root) :
    (∃ depth v, tcbFind root depth laddr lport raddr rport = some v) ↔
      Settles root laddr lport raddr rport := by
  by_cases hp : Present root laddr lport raddr rport
  · obtain ⟨t, ht⟩ := tcbFind_present h hp 0
    exact iff_of_true ⟨1, some t, ht⟩ (.inl hp)
  · -- the second call decides, whatever the depth
    have hsecond : (∃ depth v, tcbFind root depth laddr lport raddr rport = some v) ↔
        ∃ depth v, (if raddr.isNone then tcbFind root depth laddr lport none 0
          else if laddr.isNone then tcbFind root depth none lport none 0
          else if lport > 0 then tcbFind root depth none 0 none 0
          else some none) = some v := by
      constructor
      · rintro ⟨depth, v, hv⟩
        cases depth with
        | zero => cases hv
        | succ depth => exact ⟨depth, v, tcbFind_absent h hp depth ▸ hv⟩
      · rintro ⟨depth, v, hv⟩
        exact ⟨depth + 1, v, (tcbFind_absent h hp depth).trans hv⟩
    have hdepth : ∀ q : Prop, (∃ depth : ℕ, 0 < depth ∧ q) ↔ q := fun q =>
      ⟨fun ⟨_, _, hq⟩ => hq, fun hq => ⟨1, Nat.one_pos, hq⟩⟩
    rw [hsecond, Settles.eq_def, or_iff_right hp]
    cases raddr with
    | none => simp [anyRemote_returns_iff h, hdepth]
    | some r =>
        cases laddr with
        | none => simp [anyRemote_returns_iff h, hdepth]
        | some l =>
            by_cases hport : lport > 0
            · have hne : lport ≠ 0 := Nat.ne_of_gt hport
              simp [hport, hne, anyRemote_returns_iff h, hdepth]
            · have heq : lport = 0 := Nat.eq_zero_of_not_pos hport
              simp [heq]

/-- `tcb_find` returns exactly if the first two keys that it looks for settle the lookup. -/
theorem answers_iff_settles (root : TcbTree) (hsorted : Sorted TcbNode.key root)
    (laddr : Option Addr) (lport : ℕ) (raddr : Option Addr) (rport : ℕ) :
    Answers root laddr lport raddr rport ↔ Settles root laddr lport raddr rport :=
  answers_iff_returns.trans (returns_iff_settles hsorted)

/-- A segment that no connection in the table takes, while the listener is there. -/
theorem answers_iff_settles_unmatched :
    Answers (tcpListen Rebalance.plain).root (some (host 2)) 80 (some (host 1)) 1000 := by
  have hsorted := (formed_tcpListen Rebalance.lawful_plain).root.sorted
  have hlistener : Present (tcpListen Rebalance.plain).root none 0 none 0 :=
    ⟨tcbNode 0 true none 0 none 0, by decide +kernel, rfl⟩
  exact (answers_iff_settles _ hsorted _ _ _ _).mpr (.inr (.inr hlistener))

/-- After a connection from `::`, port 0, to port 0 has been made and deleted, the lookup of a
segment does not return. -/
theorem recurses_forever : ¬∀ rb : Rebalance, rb.Lawful → ∀ s, TableReached rb s →
    ∀ laddr lport raddr rport, Answers s.root laddr lport raddr rport := by
  intro hall
  have h : (exec (tableStep Rebalance.plain) Always (tcpListen Rebalance.plain)
      [.segment (syn (host 2) 0 .zero 0), .delete (firstNode (syn (host 2) 0 .zero 0))]).any
      (fun s => inorder s.root = []) = true := by
    decide +kernel
  obtain ⟨s, hreach, hs⟩ := exists_run_of_exec h
  have hnil : inorder s.root = [] := of_decide_eq_true hs
  have hroot : s.root = .nil := by
    cases hr : s.root with
    | nil => rfl
    | node red l a r => simp [hr, inorder] at hnil
  obtain ⟨depth, v, hv, -⟩ :=
    hall _ Rebalance.lawful_plain s hreach (some (host 2)) 80 (some (host 1)) 1000
  rw [hroot] at hv
  cases depth with
  | zero => cases hv
  | succ depth =>
      cases depth with
      | zero => cases hv
      | succ depth =>
          change tcbFind .nil (depth + 1) none 0 none 0 = some v at hv
          rw [tcbFind_wildcard] at hv
          cases hv

/-- While the listener is in the table, the lookup of every segment returns. -/
theorem Arrival.answers_of_spares {rb : Rebalance} {s : Tcbs} (hlaw : rb.Lawful)
    (hs : Run (tableStep rb) Spares (tcpListen rb) s) (p : Arrival) :
    Answers s.root (some p.laddr) p.lport.toNat (some p.raddr) p.rport.toNat := by
  obtain ⟨h, hexact⟩ := formed_exact_of_spares hlaw hs
  obtain ⟨listener, hlive, hlistening⟩ := h.listener
  have hpresent : Present s.root none 0 none 0 :=
    ⟨listener, (hexact listener).mpr hlive, h.listening listener hlive hlistening⟩
  exact answers_iff_returns.mpr
    ((returns_iff_settles h.root.sorted).mpr (.inr (.inr hpresent)))

end Ptrtd.Table
