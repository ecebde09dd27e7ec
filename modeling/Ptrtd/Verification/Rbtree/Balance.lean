import Ptrtd.Verification.Rbtree.Table

/-! # The balance of the connection table

While no SYN has the key of the listener, the tree stays red-black, no null pointer is followed,
and a lookup compares logarithmically many keys. -/

namespace Ptrtd.Table

open SearchTree Transition

variable {q : TcbMem} {s s' : Tcbs}

/-- No SYN with the key of the listener is handled. -/
def TcbMem.Spares (_ : TcbMem) : TableInput → Prop
  | .segment p => ¬WildcardSyn p
  | .delete _ => True

theorem balanced_tcbNew (h : Balanced s.root) (hsorted : Sorted TcbNode.key s.root)
    (laddr : Option Addr) (lport : ℕ) (raddr : Option Addr) (rport : ℕ) (listening : Bool) :
    Balanced (tcbNew Rebalance.rbtree s laddr lport raddr rport listening).root ∧
      ∀ tree, link tcbcmp (tcbNode s.next listening laddr lport raddr rport) s.root = some tree →
        insertFixOf (tcbNode s.next listening laddr lport raddr rport) tree ≠ none := by
  obtain ⟨t, ht⟩ : ∃ t, tcbNode s.next listening laddr lport raddr rport = t := ⟨_, rfl⟩
  have hroot : (tcbNew Rebalance.rbtree s laddr lport raddr rport listening).root =
      ((link tcbcmp t s.root).map (Rebalance.rbtree.insertColor t)).getD s.root := by
    rw [← ht]
    rfl
  rw [hroot, ht]
  cases hlink : link tcbcmp t s.root with
  | none => exact ⟨h, fun _ heq => by cases heq⟩
  | some tree =>
      have hnodup : (inorder tree).Nodup := Sorted.nodup (link_sorted hsorted compares_tcbcmp hlink)
      obtain ⟨tree', hfix, hbalanced⟩ := h.link hlink hnodup
      constructor
      · change Balanced ((insertFixOf t tree).getD tree)
        rw [hfix]
        exact hbalanced
      · rintro tree'' ⟨⟩
        rw [hfix]
        exact Option.some_ne_none _

theorem balanced_step {i : TableInput} (hbalanced : Balanced s.root) (h : Formed s)
    (hexact : Exact s) (hs : tableStep Rebalance.rbtree s i = some s') : Balanced s'.root := by
  rcases tableStep_cases hs with rfl | ⟨p, t, rfl, -, -, -, rfl⟩ | ⟨t, ht, rfl, -, hdelete⟩
  · exact hbalanced
  · exact (balanced_tcbNew hbalanced h.root.sorted _ _ _ _ _).1
  · have hroot := (hexact t).mpr ht
    obtain ⟨tree, herase, htree⟩ := hbalanced.eraseOf hroot
    rw [tcbDelete, rbErase, if_pos hroot] at hdelete
    obtain rfl := Option.some.inj hdelete
    change Balanced (((eraseOf true t s.root).map Prod.snd).getD (remove t s.root))
    rw [herase]
    exact htree

theorem balanced_of_spares
    (hs : Run (tableStep Rebalance.rbtree) Spares (tcpListen Rebalance.rbtree) s) :
    Balanced s.root := by
  have hstart : Formed (tcpListen Rebalance.rbtree) ∧ Exact (tcpListen Rebalance.rbtree) :=
    ⟨formed_tcpListen Rebalance.lawful_rbtree, exact_tcpListen Rebalance.lawful_rbtree⟩
  have hstep : ∀ s i s', Formed s ∧ Exact s → Spares s i →
      tableStep Rebalance.rbtree s i = some s' →
      Formed s' ∧ Exact s' := fun _ _ _ hinv hok hnext =>
    ⟨hinv.1.step Rebalance.lawful_rbtree hnext,
      hinv.1.exact_step Rebalance.lawful_rbtree hinv.2 hok hnext⟩
  obtain ⟨hrun, -⟩ := hs.strengthen hstart hstep
  apply hrun.invariant
  · exact (balanced_tcbNew (s := ⟨.nil, .nil, [], 0⟩) balanced_nil List.Pairwise.nil _ _ _ _ _).1
  · exact fun _ _ _ hinv hok hnext => balanced_step hinv hok.1.1 hok.1.2 hnext

/-- A step is possible in memory whenever it is allowed. -/
theorem TcbMem.delete_isSome {t : TcbNode} (h : Formed s) (hq : q.Represents s)
    (hbalanced : Balanced s.root) (ht : t ∈ inorder s.root) : (q.delete t).isSome = true := by
  obtain ⟨m', tree, herase, -⟩ := RbMem.erase_of_balanced (hq.holds (Sorted.nodup h.root.sorted))
    hbalanced ht (h.height_le hq).1.le
  rw [TcbMem.delete, herase]
  rfl

/-- While the listener is in the table, two calls of `tcb_find` are enough. -/
theorem Formed.find_isSome (h : Formed s) (hexact : Exact s) (p : Arrival) :
    ∃ found, p.find s.root = some found := by
  rw [Arrival.find_eq]
  cases SearchTree.find (tcbcmp p.needle) s.root with
  | some t => exact ⟨some t, rfl⟩
  | none =>
      dsimp only
      split
      · obtain ⟨listener, hlive, hlistening⟩ := h.listener
        rw [SearchTree.find_of_mem h.root.sorted compares_tcbcmp ((hexact listener).mpr hlive)
          (h.listening listener hlive hlistening)]
        exact ⟨some listener, rfl⟩
      · exact ⟨none, rfl⟩

theorem TcbMem.handleArrival_isSome (h : Formed s) (hexact : Exact s) (hq : q.Represents s)
    (hbalanced : Balanced s.root) (p : Arrival) : (q.handleArrival p).isSome = true := by
  obtain ⟨found, hfind⟩ := h.find_isSome hexact p
  have hfind' : q.find 2 (some p.laddr) p.lport.toNat (some p.raddr) p.rport.toNat =
      some found := (TcbMem.find_eq h hq).trans hfind
  rw [TcbMem.handleArrival, hfind']
  dsimp only [Option.bind_eq_bind, Option.bind_some]
  cases found with
  | none => rfl
  | some t =>
      dsimp only
      split
      · have hdet := eq_nil_of_inorder (h.one.resolve_left (List.ne_nil_of_mem (p.find_mem hfind)))
        rcases TcbMem.new_cases hq (Sorted.nodup h.root.sorted) h.root.live hdet h.fresh
          (h.height_le hq).1 (some p.laddr) p.lport.toNat (some p.raddr) p.rport.toNat false
          with ⟨q', hnew, -⟩ | ⟨-, tree, hlink, hfix⟩
        · rw [hnew]
          rfl
        · exact absurd hfix ((balanced_tcbNew hbalanced h.root.sorted _ _ _ _ _).2 tree hlink)
      · rfl

/-- While no SYN has the key of the listener: the table in memory holds every block in a
red-black tree, every segment is handled and every connection can be deleted without a null
pointer being followed, and the descent of a lookup ends after logarithmically many blocks. -/
theorem balanced_in_memory (hq : TcbMem.Reached TcbMem.Spares q) :
    ∃ s, Run (tableStep Rebalance.rbtree) Spares (tcpListen Rebalance.rbtree) s ∧
      q.Represents s ∧ Exact s ∧ Balanced s.root ∧
      (∀ p, (q.step (.segment p)).isSome = true) ∧
      (∀ t ∈ q.live, t.listening = false → (q.step (.delete t)).isSome = true) ∧
      ∀ needle, findRb q.mem needle (2 * Nat.log 2 (q.live.length + 1)) q.mem.root =
        some (SearchTree.find (tcbcmp needle) s.root) := by
  obtain ⟨s, hrun, h, hrep⟩ := hq.reached Spares fun q s i hok => by
    cases i with
    | segment p => exact hok
    | delete t => trivial
  have hexact := (formed_exact_of_spares Rebalance.lawful_rbtree hrun).2
  have hbalanced := balanced_of_spares hrun
  refine ⟨s, hrun, hrep, hexact, hbalanced, fun p => ?_, fun t ht hconn => ?_, fun needle => ?_⟩
  · exact TcbMem.handleArrival_isSome h hexact hrep hbalanced p
  · rw [TcbMem.step, if_pos ⟨ht, hconn⟩]
    rw [hrep.live] at ht
    exact TcbMem.delete_isSome h hrep hbalanced ((hexact t).mpr ht)
  · have hlength : (inorder s.root).length ≤ q.live.length := by
      rw [hrep.live]
      exact ((Sorted.nodup h.root.sorted).subperm fun t ht => (hexact t).mp ht).length_le
    rw [hrep.root]
    refine findRb_eq hrep.tree (hbalanced.height_le.trans ?_)
    exact Nat.mul_le_mul_left 2 (Nat.log_mono_right (Nat.succ_le_succ hlength))

theorem balanced_in_memory_syn :
    ∃ q₀ q, TcbMem.tcpListen (fun _ => .zero) = some q₀ ∧
        q₀.step (.segment (syn .zero 2 .zero 1)) = some q ∧
      ∃ s, Run (tableStep Rebalance.rbtree) Spares (tcpListen Rebalance.rbtree) s ∧
        q.Represents s ∧ Exact s ∧ Balanced s.root ∧
        (∀ p, (q.step (.segment p)).isSome = true) ∧
        (∀ t ∈ q.live, t.listening = false → (q.step (.delete t)).isSome = true) ∧
        ∀ needle, findRb q.mem needle (2 * Nat.log 2 (q.live.length + 1)) q.mem.root =
          some (SearchTree.find (tcbcmp needle) s.root) := by
  obtain ⟨q₀, q, hstart, hnext⟩ := TcbMem.accepts
  have hspares : q₀.Spares (.segment (syn .zero 2 .zero 1)) :=
    (by decide : ¬WildcardSyn (syn .zero 2 .zero 1))
  exact ⟨q₀, q, hstart, hnext, balanced_in_memory ⟨_, _, hstart, .tail .refl hspares hnext⟩⟩

end Ptrtd.Table
