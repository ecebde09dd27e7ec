import Ptrtd.Model.Table
import Mathlib.Data.List.Lex
import Mathlib.Data.Prod.Lex

/-! # The connection table

The order of the tree is that of remote port, local port and remote address. The local address
does not enter it. -/

namespace Ptrtd.Table

open SearchTree Transition

/-! ## The order -/

theorem memcmp_neg_iff {as bs : List Uchar} (h : as.length = bs.length) :
    memcmp as bs < 0 ↔ as.map UInt8.toNat < bs.map UInt8.toNat := by
  induction as generalizing bs with
  | nil =>
      obtain rfl : bs = [] := List.length_eq_zero_iff.mp h.symm
      simp [memcmp]
  | cons a as ih =>
      cases bs with
      | nil => cases h
      | cons b bs =>
          have hlen : as.length = bs.length := by simpa using h
          rw [memcmp, List.map_cons, List.map_cons, List.cons_lt_cons_iff]
          by_cases hab : a = b
          · subst hab
            simp [ih hlen]
          · have hne : a.toNat ≠ b.toNat := fun h => hab (UInt8.toNat_inj.mp h)
            simp only [if_neg hab, hne, false_and, or_false]
            omega

theorem memcmp_swap {as bs : List Uchar} : memcmp bs as = -memcmp as bs := by
  induction as generalizing bs with
  | nil => cases bs <;> rfl
  | cons a as ih =>
      cases bs with
      | nil => rfl
      | cons b bs =>
          rw [memcmp, memcmp]
          by_cases hab : a = b
          · rw [if_pos hab, if_pos hab.symm]
            exact ih
          · rw [if_neg hab, if_neg (Ne.symm hab)]
            omega

/-- What `tcbcmp` looks at, in its order. -/
def TcbNode.key (t : TcbNode) : ℕᵒᵈ ×ₗ ℕᵒᵈ ×ₗ List ℕ :=
  toLex (OrderDual.toDual t.rport, toLex (OrderDual.toDual t.lport, t.raddr.bytes.map UInt8.toNat))

theorem TcbNode.key_eq_iff {a b : TcbNode} :
    a.key = b.key ↔ a.rport = b.rport ∧ a.lport = b.lport ∧ a.raddr = b.raddr := by
  have hinj : Function.Injective (List.map UInt8.toNat) :=
    List.map_injective_iff.mpr fun _ _ => UInt8.toNat_inj.mp
  have haddr : a.raddr.bytes = b.raddr.bytes ↔ a.raddr = b.raddr := by
    cases a.raddr
    cases b.raddr
    simp
  simp [TcbNode.key, hinj.eq_iff, haddr]

theorem tcbcmp_swap {a b : TcbNode} : tcbcmp b a = -tcbcmp a b := by
  have hmem : memcmp b.raddr.bytes a.raddr.bytes = -memcmp a.raddr.bytes b.raddr.bytes :=
    memcmp_swap
  simp only [tcbcmp, hmem]
  split <;> split <;> omega

theorem tcbcmp_neg_iff {a b : TcbNode} : tcbcmp a b < 0 ↔ a.key < b.key := by
  have hmem := memcmp_neg_iff (a.raddr.length_eq.trans b.raddr.length_eq.symm)
  rw [TcbNode.key, TcbNode.key, Prod.Lex.toLex_lt_toLex, Prod.Lex.toLex_lt_toLex, ← hmem]
  simp only [OrderDual.toDual_lt_toDual, OrderDual.toDual_inj, tcbcmp]
  split
  · split
    · split <;> omega
    · omega
  · omega

theorem compares_tcbcmp : Compares tcbcmp TcbNode.key where
  neg _ _ := tcbcmp_neg_iff
  pos a b := by
    rw [← tcbcmp_neg_iff, tcbcmp_swap]
    omega

/-! ## Lookup -/

/-- The needle of the first call of `tcb_find`. -/
def Arrival.needle (p : Arrival) : TcbNode :=
  tcbNode 0 false (some p.laddr) p.lport.toNat (some p.raddr) p.rport.toNat

/-- The needle of `tcb_find (NULL, 0, NULL, 0)`. -/
def wildcard : TcbNode := tcbNode 0 false none 0 none 0

/-- Without a remote address `tcb_find` calls itself with the arguments it has been called with,
until it finds a block. -/
theorem tcbFind_anyRemote {root : TcbTree} {depth : ℕ} {laddr : Option Addr} {lport : ℕ} :
    tcbFind root (depth + 1) laddr lport none 0 =
      (find (tcbcmp (tcbNode 0 false laddr lport none 0)) root).map some := by
  induction depth with
  | zero =>
      rw [tcbFind]
      cases find (tcbcmp (tcbNode 0 false laddr lport none 0)) root <;> rfl
  | succ depth ih =>
      rw [tcbFind]
      cases hfind : find (tcbcmp (tcbNode 0 false laddr lport none 0)) root with
      | none => simpa [hfind] using ih
      | some t => rfl

theorem tcbFind_wildcard {root : TcbTree} {depth : ℕ} :
    tcbFind root (depth + 1) none 0 none 0 = (find (tcbcmp wildcard) root).map some :=
  tcbFind_anyRemote

/-- `tcb_find` on a segment: the connection, else the wildcard listener, but only for a local
port other than zero. -/
theorem tcbFind_succ {root : TcbTree} {p : Arrival} {depth : ℕ} :
    tcbFind root (depth + 2) (some p.laddr) p.lport.toNat (some p.raddr) p.rport.toNat =
      match find (tcbcmp p.needle) root with
      | some t => some (some t)
      | none =>
          if p.lport.toNat > 0 then (find (tcbcmp wildcard) root).map some else some none := by
  rw [tcbFind]
  change (match find (tcbcmp p.needle) root with | some t => _ | none => _) = _
  cases find (tcbcmp p.needle) root with
  | some t => rfl
  | none =>
      simp only [Option.isNone_some, Bool.false_eq_true, if_false, tcbFind_wildcard]

/-- The lookup of `handle_tcp` is the value of `tcb_find`, however deep it may recurse. -/
theorem Arrival.find_eq_tcbFind {root : TcbTree} {p : Arrival} {depth : ℕ} :
    p.find root =
      tcbFind root (depth + 2) (some p.laddr) p.lport.toNat (some p.raddr) p.rport.toNat := by
  rw [tcbFind_succ, Arrival.find, tcbFind_succ]

theorem Arrival.find_eq {root : TcbTree} {p : Arrival} :
    p.find root =
      match SearchTree.find (tcbcmp p.needle) root with
      | some t => some (some t)
      | none =>
          if p.lport.toNat > 0 then (SearchTree.find (tcbcmp wildcard) root).map some
          else some none :=
  tcbFind_succ

/-! ## What holds of every table -/

/-- The vendored functions keep the order of the nodes. A detached tree stays detached as a
whole, or is put back under the root as a whole. -/
structure Rebalance.Lawful (rb : Rebalance) : Prop where
  insertColor : ∀ t root, t ∈ inorder root → inorder (rb.insertColor t root) = inorder root
  erase : ∀ t root, t ∈ inorder root → inorder (rb.erase t root) = (inorder root).erase t
  eraseDetached : ∀ t tree root rest, t ∈ inorder tree →
    rb.eraseDetached t tree = some (root, rest) →
      (root = .nil ∧ inorder rest = (inorder tree).erase t) ∨
        (rest = .nil ∧ inorder root = (inorder tree).erase t)

/-- A tree of blocks: in order, all of them allocated, and with the listener unless it is empty. -/
structure Linked (live : List TcbNode) (tree : TcbTree) : Prop where
  sorted : Sorted TcbNode.key tree
  live : ∀ t ∈ inorder tree, t ∈ live
  listener : inorder tree = [] ∨ ∃ t ∈ inorder tree, t.listening = true

/-- What holds of the table in every run. -/
structure Formed (s : Tcbs) : Prop where
  root : Linked s.live s.root
  detached : Linked s.live s.detached
  one : inorder s.root = [] ∨ inorder s.detached = []
  listener : ∃ t ∈ s.live, t.listening = true
  listening : ∀ t ∈ s.live, t.listening = true → t.key = wildcard.key
  fresh : ∀ t ∈ s.live, t.addr < s.next
  nodup : s.live.Nodup

theorem linked_nil {live : List TcbNode} : Linked live .nil where
  sorted := List.Pairwise.nil
  live _ h := by cases h
  listener := .inl rfl

theorem Sorted.nodup {tree : TcbTree} (h : Sorted TcbNode.key tree) :
    (inorder tree).Nodup :=
  h.imp fun hlt heq => absurd (congrArg TcbNode.key heq) (ne_of_lt hlt)

/-- Erasing the block of a connection from a tree. -/
theorem Linked.erase {live : List TcbNode} {tree tree' : TcbTree} {t : TcbNode}
    (h : Linked live tree) (hnodup : live.Nodup) (ht : t.listening = false)
    (heq : inorder tree' = (inorder tree).erase t) : Linked (live.erase t) tree' where
  sorted := h.sorted.sublist (heq ▸ List.erase_sublist)
  live u hu := by
    rw [heq] at hu
    have hmem := (Sorted.nodup h.sorted).mem_erase_iff.mp hu
    exact hnodup.mem_erase_iff.mpr ⟨hmem.1, h.live u hmem.2⟩
  listener := by
    rcases h.listener with hnil | ⟨u, hu, hlisten⟩
    · left
      rw [heq, hnil]
      rfl
    · right
      refine ⟨u, ?_, hlisten⟩
      rw [heq]
      refine (Sorted.nodup h.sorted).mem_erase_iff.mpr ⟨?_, hu⟩
      rintro rfl
      rw [ht] at hlisten
      cases hlisten

/-- A tree that the block is not in is not touched. -/
theorem Linked.keep {live : List TcbNode} {tree : TcbTree} {t : TcbNode}
    (h : Linked live tree) (hnodup : live.Nodup) (ht : t ∉ inorder tree) :
    Linked (live.erase t) tree where
  sorted := h.sorted
  live u hu := hnodup.mem_erase_iff.mpr ⟨fun heq => ht (heq ▸ hu), h.live u hu⟩
  listener := h.listener

/-- More blocks may be allocated. -/
theorem Linked.mono {live live' : List TcbNode} {tree : TcbTree} (h : Linked live tree)
    (hsub : ∀ t ∈ live, t ∈ live') : Linked live' tree where
  sorted := h.sorted
  live t ht := hsub t (h.live t ht)
  listener := h.listener

/-- What `tcb_new` does to the tree: the block is added, unless its key is there. -/
theorem tcbNew_root {rb : Rebalance} {s : Tcbs} (hlaw : rb.Lawful)
    (hs : Sorted TcbNode.key s.root) (laddr : Option Addr) (lport : ℕ) (raddr : Option Addr)
    (rport : ℕ) (listening : Bool) :
    let t := tcbNode s.next listening laddr lport raddr rport
    let root := (tcbNew rb s laddr lport raddr rport listening).root
    ((∀ u ∈ inorder s.root, u.key ≠ t.key) ∧ (inorder root).Perm (t :: inorder s.root) ∧
        Sorted TcbNode.key root) ∨
      ((∃ u ∈ inorder s.root, u.key = t.key) ∧ root = s.root) := by
  intro t root
  by_cases hkey : ∀ u ∈ inorder s.root, u.key ≠ t.key
  · obtain ⟨r, hlink⟩ := Option.isSome_iff_exists.mp (link_isSome compares_tcbcmp hkey)
    have hperm := link_perm hlink
    have hmem : t ∈ inorder r := hperm.mem_iff.mpr List.mem_cons_self
    have hroot : root = rb.insertColor t r := by
      change ((link tcbcmp t s.root).map (rb.insertColor t)).getD s.root = _
      rw [hlink]
      rfl
    have hinorder : inorder root = inorder r := by rw [hroot, hlaw.insertColor t r hmem]
    refine .inl ⟨hkey, ?_, ?_⟩
    · rw [hinorder]
      exact hperm
    · rw [Sorted, hinorder]
      exact link_sorted hs compares_tcbcmp hlink
  · push Not at hkey
    obtain ⟨u, hu, hequal⟩ := hkey
    refine .inr ⟨⟨u, hu, hequal⟩, ?_⟩
    change ((link tcbcmp t s.root).map (rb.insertColor t)).getD s.root = _
    rw [link_of_mem hs compares_tcbcmp hu hequal]
    rfl

theorem formed_tcpListen {rb : Rebalance} (hlaw : rb.Lawful) : Formed (tcpListen rb) := by
  rcases tcbNew_root (s := ⟨.nil, .nil, [], 0⟩) hlaw List.Pairwise.nil none 0 none 0 true with
    ⟨-, hperm, hsorted⟩ | ⟨⟨u, hu, -⟩, -⟩
  · have hlist := List.perm_singleton.mp hperm
    refine ⟨⟨hsorted, fun t ht => ?_, .inr ⟨tcbNode 0 true none 0 none 0, ?_, rfl⟩⟩, linked_nil,
      .inr rfl, ⟨_, List.mem_cons_self, rfl⟩, fun t ht _ => ?_, fun t ht => ?_,
      List.nodup_singleton _⟩
    · exact hperm.mem_iff.mp ht
    · exact hperm.mem_iff.mpr List.mem_cons_self
    · obtain rfl := List.mem_singleton.mp ht
      rfl
    · obtain rfl := List.mem_singleton.mp ht
      exact Nat.zero_lt_one
  · cases hu

/-- A connection is made while the listener is in the table. -/
theorem Formed.after_new {rb : Rebalance} {s : Tcbs} {laddr raddr : Option Addr} {lport rport : ℕ}
    (h : Formed s) (hlaw : rb.Lawful) (hlisten : ∃ t ∈ inorder s.root, t.listening = true) :
    Formed (tcbNew rb s laddr lport raddr rport false) := by
  have hone : inorder s.detached = [] := by
    obtain ⟨t, ht, -⟩ := hlisten
    refine h.one.resolve_left fun hnil => ?_
    rw [hnil] at ht
    cases ht
  obtain ⟨listener, hlive, hlistener⟩ := h.listener
  refine ⟨?_, h.detached.mono fun t ht => List.mem_cons_of_mem _ ht, .inr hone,
    ⟨listener, List.mem_cons_of_mem _ hlive, hlistener⟩, fun t ht hl => ?_, fun t ht => ?_,
    List.nodup_cons.mpr ⟨fun hmem => ?_, h.nodup⟩⟩
  · rcases tcbNew_root hlaw h.root.sorted laddr lport raddr rport false with
      ⟨-, hperm, hsorted⟩ | ⟨-, hroot⟩
    · obtain ⟨l, hl, hlistening⟩ := hlisten
      refine ⟨hsorted, fun t ht => ?_, .inr ⟨l, ?_, hlistening⟩⟩
      · rcases List.mem_cons.mp (hperm.mem_iff.mp ht) with rfl | hold
        · exact List.mem_cons_self
        · exact List.mem_cons_of_mem _ (h.root.live t hold)
      · exact hperm.mem_iff.mpr (List.mem_cons_of_mem _ hl)
    · rw [hroot]
      exact h.root.mono fun t ht => List.mem_cons_of_mem _ ht
  · rcases List.mem_cons.mp ht with rfl | hold
    · cases hl
    · exact h.listening t hold hl
  · rcases List.mem_cons.mp ht with rfl | hold
    · exact Nat.lt_succ_self _
    · exact (h.fresh t hold).trans (Nat.lt_succ_self _)
  · exact absurd (h.fresh _ hmem) (lt_irrefl _)

theorem Formed.after_delete {rb : Rebalance} {s s' : Tcbs} {t : TcbNode} (h : Formed s)
    (hlaw : rb.Lawful) (ht : t.listening = false) (hs : tcbDelete rb s t = some s') :
    Formed s' := by
  obtain ⟨⟨root, detached⟩, herase, rfl⟩ := Option.map_eq_some_iff.mp hs
  have hlisten : ∀ u ∈ s.live.erase t, u.listening = true → u.key = wildcard.key := fun u hu =>
    h.listening u (List.mem_of_mem_erase hu)
  have hfresh : ∀ u ∈ s.live.erase t, u.addr < s.next := fun u hu =>
    h.fresh u (List.mem_of_mem_erase hu)
  have hlistener : ∃ u ∈ s.live.erase t, u.listening = true := by
    obtain ⟨u, hu, hlistening⟩ := h.listener
    refine ⟨u, h.nodup.mem_erase_iff.mpr ⟨?_, hu⟩, hlistening⟩
    rintro rfl
    rw [ht] at hlistening
    cases hlistening
  suffices hlinked : Linked (s.live.erase t) root ∧ Linked (s.live.erase t) detached ∧
      (inorder root = [] ∨ inorder detached = []) by
    exact ⟨hlinked.1, hlinked.2.1, hlinked.2.2, hlistener, hlisten, hfresh, h.nodup.erase t⟩
  rw [rbErase] at herase
  split at herase
  · next hroot =>
      obtain ⟨rfl, rfl⟩ := Prod.mk.inj (Option.some.inj herase)
      have hnil : inorder s.detached = [] := h.one.resolve_left (List.ne_nil_of_mem hroot)
      have hout : t ∉ inorder s.detached := by simp [hnil]
      exact ⟨h.root.erase h.nodup ht (hlaw.erase t _ hroot), h.detached.keep h.nodup hout,
        .inr hnil⟩
  · next hroot =>
      split at herase
      · next hdet =>
          rcases hlaw.eraseDetached t _ _ _ hdet herase with ⟨rfl, heq⟩ | ⟨rfl, heq⟩
          · exact ⟨linked_nil, h.detached.erase h.nodup ht heq, .inl rfl⟩
          · exact ⟨h.detached.erase h.nodup ht heq, linked_nil, .inr rfl⟩
      · next hdet =>
          split at herase
          · obtain ⟨rfl, rfl⟩ := Prod.mk.inj (Option.some.inj herase)
            exact ⟨linked_nil, h.detached.keep h.nodup hdet, .inl rfl⟩
          · obtain ⟨rfl, rfl⟩ := Prod.mk.inj (Option.some.inj herase)
            exact ⟨linked_nil, h.root.keep h.nodup hroot, .inl rfl⟩

/-- What the lookup finds is in the tree, with the key of the segment or that of the listener. -/
theorem Arrival.find_cases {p : Arrival} {root : TcbTree} {t : TcbNode}
    (h : p.find root = some (some t)) : t ∈ inorder root ∧
      (t.key = p.needle.key ∨ 0 < p.lport.toNat ∧ t.key = wildcard.key) := by
  rw [Arrival.find_eq] at h
  cases hfind : SearchTree.find (tcbcmp p.needle) root with
  | some u =>
      rw [hfind] at h
      obtain rfl := Option.some.inj (Option.some.inj h)
      exact ⟨SearchTree.find_mem hfind, .inl (find_key compares_tcbcmp hfind)⟩
  | none =>
      rw [hfind] at h
      dsimp only at h
      split at h
      · next hpos =>
          obtain ⟨u, hu, heq⟩ := Option.map_eq_some_iff.mp h
          obtain rfl := Option.some.inj heq
          exact ⟨SearchTree.find_mem hu, .inr ⟨hpos, find_key compares_tcbcmp hu⟩⟩
      · cases h

theorem Arrival.find_mem {p : Arrival} {root : TcbTree} {t : TcbNode}
    (h : p.find root = some (some t)) : t ∈ inorder root := (Arrival.find_cases h).1

/-- Every step of the table: nothing changes, a connection is made while the listener is found,
or a connection is deleted. -/
theorem tableStep_cases {rb : Rebalance} {s s' : Tcbs} {i : TableInput}
    (h : tableStep rb s i = some s') :
    s' = s ∨
    (∃ p t, i = .segment p ∧ p.find s.root = some (some t) ∧ t.listening = true ∧
      p.tcp.flags = 0x2 ∧
      s' = tcbNew rb s (some p.laddr) p.lport.toNat (some p.raddr) p.rport.toNat false) ∨
    (∃ t ∈ s.live, i = .delete t ∧ t.listening = false ∧ tcbDelete rb s t = some s') := by
  cases i with
  | segment p =>
      obtain ⟨found, hfind, rfl⟩ := Option.map_eq_some_iff.mp h
      cases found with
      | none => exact .inl rfl
      | some t =>
          dsimp only
          split
          · next hsyn => exact .inr (.inl ⟨p, t, rfl, hfind, hsyn.1, hsyn.2, rfl⟩)
          · exact .inl rfl
  | delete t =>
      rw [tableStep] at h
      split at h
      · next hmem => exact .inr (.inr ⟨t, hmem.1, rfl, hmem.2, h⟩)
      · cases h

theorem Formed.step {rb : Rebalance} {s s' : Tcbs} {i : TableInput} (hlaw : rb.Lawful)
    (h : Formed s) (hs : tableStep rb s i = some s') : Formed s' := by
  rcases tableStep_cases hs with rfl | ⟨p, t, rfl, hfind, hlisten, -, rfl⟩ |
    ⟨t, -, rfl, hlisten, hdelete⟩
  · exact h
  · exact h.after_new hlaw ⟨t, p.find_mem hfind, hlisten⟩
  · exact h.after_delete hlaw hlisten hdelete

theorem TableReached.formed {rb : Rebalance} {s : Tcbs} (hlaw : rb.Lawful)
    (h : TableReached rb s) : Formed s :=
  Run.invariant h (formed_tcpListen hlaw) fun _ _ _ hinv _ => hinv.step hlaw

/-! ## Balancing by colour alone

What `rbtree.c` does to a tree of at most two nodes, and a lawful choice for the others. -/

/-- `rb_set_black (root->rb_node)` -/
def setBlack : TcbTree → TcbTree
  | .nil => .nil
  | .node _ l a r => .node false l a r

/-- Two trees put together in order. -/
def join : TcbTree → TcbTree → TcbTree
  | .nil, r => r
  | .node red l a l', r => .node red l a (join l' r)

/-- A node is replaced by its children. -/
def remove (t : TcbNode) : TcbTree → TcbTree
  | .nil => .nil
  | .node red l a r =>
      if t ∈ inorder l then .node red (remove t l) a r
      else if a = t then join l r
      else .node red l a (remove t r)

def Rebalance.plain : Rebalance where
  insertColor _ := setBlack
  erase := remove
  eraseDetached t tree := some (.nil, remove t tree)

theorem inorder_join {l r : TcbTree} : inorder (join l r) = inorder l ++ inorder r := by
  induction l with
  | nil => rfl
  | node red l a l' ihl ihr => simp [join, inorder, ihr]

theorem inorder_remove {t : TcbNode} {tree : TcbTree} :
    inorder (remove t tree) = (inorder tree).erase t := by
  induction tree with
  | nil => rfl
  | node red l a r ihl ihr =>
      rw [remove, inorder, List.erase_append]
      split
      · rw [inorder, ihl]
      · rw [List.erase_cons]
        split
        · next heq => rw [inorder_join, if_pos (beq_iff_eq.mpr heq)]
        · next hne => rw [inorder, ihr, if_neg (mt beq_iff_eq.mp hne)]

theorem Rebalance.lawful_plain : Rebalance.plain.Lawful where
  insertColor t root _ := by cases root <;> rfl
  erase t root _ := inorder_remove
  eraseDetached t tree root rest _ h := by
    obtain ⟨rfl, rfl⟩ := Prod.mk.inj (Option.some.inj h)
    exact .inl ⟨rfl, inorder_remove⟩

/-! ## Finding the connection of a segment -/

/-- The connection of a segment: all four fields agree. -/
def TcbNode.Matches (t : TcbNode) (p : Arrival) : Prop :=
  t.laddr = p.laddr ∧ t.lport = p.lport.toNat ∧ t.raddr = p.raddr ∧ t.rport = p.rport.toNat

instance (t : TcbNode) (p : Arrival) : Decidable (t.Matches p) :=
  inferInstanceAs (Decidable (_ ∧ _ ∧ _ ∧ _))

/-- The lookup finds no connection but that of the segment, and finds it if it is allocated. -/
structure Demuxes (s : Tcbs) (p : Arrival) : Prop where
  only : ∀ t, p.find s.root = some (some t) → t.listening = false → t.Matches p
  found : ∀ t ∈ s.live, t.listening = false → t.Matches p → p.find s.root = some (some t)

/-- No connection in the table differs from the segment in the local address alone, and the
connection of the segment, if it is allocated, is in the table. -/
structure Distinct (s : Tcbs) (p : Arrival) : Prop where
  laddr : ∀ t ∈ inorder s.root, t.listening = false → t.lport = p.lport.toNat →
    t.raddr = p.raddr → t.rport = p.rport.toNat → t.laddr = p.laddr
  linked : ∀ t ∈ s.live, t.listening = false → t.Matches p → t ∈ inorder s.root

theorem Arrival.key_needle {p : Arrival} {t : TcbNode} : t.key = p.needle.key ↔
    t.rport = p.rport.toNat ∧ t.lport = p.lport.toNat ∧ t.raddr = p.raddr :=
  TcbNode.key_eq_iff

/-- A connection in the table is found by every segment with its remote address and ports. -/
theorem Formed.find_of_mem {s : Tcbs} {p : Arrival} {t : TcbNode} (h : Formed s)
    (ht : t ∈ inorder s.root) (hkey : t.key = p.needle.key) :
    p.find s.root = some (some t) := by
  rw [Arrival.find_eq, SearchTree.find_of_mem h.root.sorted compares_tcbcmp ht hkey]

/-- A block with the key of the listener is the listener. -/
theorem Formed.listening_of_key {s : Tcbs} {t : TcbNode} (h : Formed s)
    (ht : t ∈ inorder s.root) (hkey : t.key = wildcard.key) : t.listening = true := by
  rcases h.root.listener with hnil | ⟨l, hl, hlisten⟩
  · rw [hnil] at ht
    cases ht
  · have hequal := h.listening l (h.root.live l hl) hlisten
    rw [h.root.sorted.eq_of_key ht hl (hkey.trans hequal.symm)]
    exact hlisten

/-- A connection is found by its key: the second call of `tcb_find` finds only the listener. -/
theorem Formed.key_of_find {s : Tcbs} {p : Arrival} {t : TcbNode} (h : Formed s)
    (hfind : p.find s.root = some (some t)) (hconn : t.listening = false) :
    t.key = p.needle.key := by
  obtain ⟨hmem, hkey | ⟨-, hkey⟩⟩ := Arrival.find_cases hfind
  · exact hkey
  · have hlisten := h.listening_of_key hmem hkey
    rw [hconn] at hlisten
    cases hlisten

theorem Formed.demuxes_iff {s : Tcbs} (h : Formed s) (p : Arrival) :
    Demuxes s p ↔ Distinct s p := by
  constructor
  · rintro ⟨honly, hfound⟩
    refine ⟨fun t ht hconn hlport hraddr hrport => ?_, fun t ht hconn hmatch => ?_⟩
    · have hkey : t.key = p.needle.key := Arrival.key_needle.mpr ⟨hrport, hlport, hraddr⟩
      exact (honly t (h.find_of_mem ht hkey) hconn).1
    · exact p.find_mem (hfound t ht hconn hmatch)
  · rintro ⟨hladdr, hlinked⟩
    refine ⟨fun t hfind hconn => ?_, fun t ht hconn hmatch => ?_⟩
    · have hmem := p.find_mem hfind
      obtain ⟨hrport, hlport, hraddr⟩ := Arrival.key_needle.mp (h.key_of_find hfind hconn)
      exact ⟨hladdr t hmem hconn hlport hraddr hrport, hlport, hraddr, hrport⟩
    · have hmem := hlinked t ht hconn hmatch
      obtain ⟨-, hlport, hraddr, hrport⟩ := hmatch
      exact h.find_of_mem hmem (Arrival.key_needle.mpr ⟨hrport, hlport, hraddr⟩)

/-- Segments reach their own connection exactly while no other connection of the same remote
address and ports is in the table and their own is in it. -/
theorem demuxes_iff_distinct {rb : Rebalance} {s : Tcbs} (hlaw : rb.Lawful)
    (hs : TableReached rb s) (p : Arrival) : Demuxes s p ↔ Distinct s p :=
  (hs.formed hlaw).demuxes_iff p

/-- The host `n` of the prefix that is all zeros. -/
def host (n : Uchar) : Addr := ⟨List.replicate 15 0 ++ [n], rfl⟩

/-- A SYN from a remote address and port. -/
def syn (laddr : Addr) (lport : BitVec 16) (raddr : Addr) (rport : BitVec 16) : Arrival :=
  { laddr, lport, raddr, rport, tcp := { seq := 0, ack := 0, flags := 0x2, wnd := 0, data := [] } }

/-- The block of a SYN that is the first to make one. -/
def firstNode (p : Arrival) : TcbNode :=
  tcbNode 1 false (some p.laddr) p.lport.toNat (some p.raddr) p.rport.toNat

instance (s : Tcbs) (i : TableInput) : Decidable (Always s i) := inferInstanceAs (Decidable True)

/-- With one connection in the table. -/
theorem demuxes_iff_distinct_one : ∃ s, TableReached Rebalance.plain s ∧
    firstNode (syn (host 2) 80 (host 1) 1000) ∈ inorder s.root ∧
    (Demuxes s (syn (host 2) 80 (host 1) 1000) ↔
      Distinct s (syn (host 2) 80 (host 1) 1000)) := by
  have h : (exec (tableStep Rebalance.plain) Always (tcpListen Rebalance.plain)
      [.segment (syn (host 2) 80 (host 1) 1000)]).any
      (fun s => firstNode (syn (host 2) 80 (host 1) 1000) ∈ inorder s.root) = true := by
    decide +kernel
  obtain ⟨s, hreach, hs⟩ := exists_run_of_exec h
  exact ⟨s, hreach, of_decide_eq_true hs,
    demuxes_iff_distinct Rebalance.lawful_plain hreach _⟩

/-- Two connections that differ in the local address alone are taken for one. -/
theorem confuses_laddr : ¬∀ rb : Rebalance, rb.Lawful →
    ∀ s, TableReached rb s → ∀ p, Demuxes s p := by
  intro hall
  have h : (exec (tableStep Rebalance.plain) Always (tcpListen Rebalance.plain)
      [.segment (syn (host 2) 80 (host 1) 1000)]).any
      (fun s => (syn (host 3) 80 (host 1) 1000).find s.root =
        some (some (firstNode (syn (host 2) 80 (host 1) 1000)))) = true := by
    decide +kernel
  obtain ⟨s, hreach, hs⟩ := exists_run_of_exec h
  have honly := (hall _ Rebalance.lawful_plain s hreach _).only _ (of_decide_eq_true hs) rfl
  revert honly
  decide +kernel

/-! ## The blocks in the table -/

/-- A SYN from `::`, port 0, to port 0. -/
def WildcardSyn (p : Arrival) : Prop :=
  p.lport = 0 ∧ p.rport = 0 ∧ p.raddr = .zero ∧ p.tcp.flags = 0x2

instance (p : Arrival) : Decidable (WildcardSyn p) := inferInstanceAs (Decidable (_ ∧ _ ∧ _ ∧ _))

/-- No such SYN is handled. -/
def Spares : Tcbs → TableInput → Prop
  | _, .segment p => ¬WildcardSyn p
  | _, .delete _ => True

instance (s : Tcbs) (i : TableInput) : Decidable (Spares s i) := by
  cases i with
  | segment p => exact inferInstanceAs (Decidable (¬WildcardSyn p))
  | delete t => exact inferInstanceAs (Decidable True)

/-- The blocks in the table are those allocated. -/
def Exact (s : Tcbs) : Prop := ∀ t, t ∈ inorder s.root ↔ t ∈ s.live

/-- While every block is in the table, a new one is refused exactly for the key of the
listener. -/
theorem Formed.exact_tcbNew {rb : Rebalance} {s : Tcbs} {p : Arrival} {t : TcbNode}
    (h : Formed s) (hlaw : rb.Lawful) (hexact : Exact s)
    (hfind : p.find s.root = some (some t)) (ht : t.listening = true) (hsyn : p.tcp.flags = 0x2) :
    Exact (tcbNew rb s (some p.laddr) p.lport.toNat (some p.raddr) p.rport.toNat false) ↔
      ¬WildcardSyn p := by
  have hzero : t.key = wildcard.key := h.listening t (h.root.live t (p.find_mem hfind)) ht
  have hroot := tcbNew_root hlaw h.root.sorted (some p.laddr) p.lport.toNat (some p.raddr)
    p.rport.toNat false
  dsimp only at hroot
  have hnew : ∀ u : TcbNode, u.key = (tcbNode s.next false (some p.laddr) p.lport.toNat
      (some p.raddr) p.rport.toNat).key ↔ u.key = p.needle.key := fun u => Iff.rfl
  rcases hroot with ⟨hkey, hperm, -⟩ | ⟨⟨u, hu, hkey⟩, hroot⟩
  · refine iff_of_true (fun u => ?_) fun ⟨hlport, hrport, hraddr, _⟩ => ?_
    · rw [hperm.mem_iff, List.mem_cons, hexact u]
      exact List.mem_cons.symm
    · refine hkey t (p.find_mem hfind) ((hnew t).mpr (hzero.trans ?_))
      exact Arrival.key_needle.mpr (by simp [wildcard, tcbNode, hlport, hrport, hraddr])
  · refine iff_of_false (fun hall => ?_) (not_not_intro ?_)
    · have hmem := (hall _).mpr List.mem_cons_self
      rw [hroot] at hmem
      exact lt_irrefl _ (h.fresh _ (h.root.live _ hmem))
    · -- a block with the key of the segment would have been found in place of the listener
      have hfound := h.find_of_mem hu ((hnew u).mp hkey)
      obtain rfl : u = t := Option.some.inj (Option.some.inj (hfound.symm.trans hfind))
      obtain ⟨hrport, hlport, hraddr⟩ :=
        Arrival.key_needle.mp (hzero.symm.trans ((hnew u).mp hkey))
      refine ⟨?_, ?_, hraddr.symm, hsyn⟩
      · exact BitVec.eq_of_toNat_eq hlport.symm
      · exact BitVec.eq_of_toNat_eq hrport.symm

/-- While every block is in the table, deleting one takes out that one. -/
theorem Formed.exact_tcbDelete {rb : Rebalance} {s : Tcbs} {t : TcbNode} (h : Formed s)
    (hlaw : rb.Lawful) (hexact : Exact s) (ht : t ∈ s.live) :
    ∃ s', tcbDelete rb s t = some s' ∧ Exact s' ∧
      ∀ u, u ∈ inorder s'.root ↔ u ∈ inorder s.root ∧ u ≠ t := by
  have hroot := (hexact t).mpr ht
  have hinorder := hlaw.erase t s.root hroot
  have hmem : ∀ u, u ∈ inorder (rb.erase t s.root) ↔ u ∈ inorder s.root ∧ u ≠ t := fun u => by
    rw [hinorder, (Sorted.nodup h.root.sorted).mem_erase_iff, and_comm]
  refine ⟨{ s with root := rb.erase t s.root, live := s.live.erase t }, ?_, fun u => ?_, hmem⟩
  · rw [tcbDelete, rbErase, if_pos hroot]
    rfl
  · rw [hmem, hexact, h.nodup.mem_erase_iff, and_comm]

theorem Formed.exact_step {rb : Rebalance} {s s' : Tcbs} {i : TableInput} (h : Formed s)
    (hlaw : rb.Lawful) (hexact : Exact s) (hok : Spares s i) (hs : tableStep rb s i = some s') :
    Exact s' := by
  rcases tableStep_cases hs with rfl | ⟨p, t, rfl, hfind, ht, hsyn, rfl⟩ |
    ⟨t, ht, rfl, -, hdelete⟩
  · exact hexact
  · exact (h.exact_tcbNew hlaw hexact hfind ht hsyn).mpr hok
  · obtain ⟨u, hu, hnext, -⟩ := h.exact_tcbDelete hlaw hexact ht
    obtain rfl := Option.some.inj (hu.symm.trans hdelete)
    exact hnext

theorem exact_tcpListen {rb : Rebalance} (hlaw : rb.Lawful) : Exact (tcpListen rb) := by
  intro t
  rcases tcbNew_root (s := ⟨.nil, .nil, [], 0⟩) hlaw List.Pairwise.nil none 0 none 0 true with
    ⟨-, hperm, -⟩ | ⟨⟨u, hu, -⟩, -⟩
  · exact hperm.mem_iff
  · cases hu

/-- A SYN with the key of the listener finds the listener. -/
theorem Formed.find_of_wildcardSyn {s : Tcbs} {p : Arrival} (h : Formed s) (hexact : Exact s)
    (hp : WildcardSyn p) : ∃ t, p.find s.root = some (some t) ∧ t.listening = true := by
  obtain ⟨t, ht, hlistening⟩ := h.listener
  obtain ⟨hlport, hrport, hraddr, -⟩ := hp
  have hneedle : wildcard.key = p.needle.key :=
    Arrival.key_needle.mpr (by simp [wildcard, tcbNode, hlport, hrport, hraddr])
  refine ⟨t, h.find_of_mem ((hexact t).mpr ht) ?_, hlistening⟩
  exact (h.listening t ht hlistening).trans hneedle

theorem Formed.exact_handleArrival {rb : Rebalance} {s s' : Tcbs} {p : Arrival} (h : Formed s)
    (hlaw : rb.Lawful) (hexact : Exact s) (hsyn : p.tcp.flags = 0x2)
    (hs : handleArrival rb s p = some s') : Exact s' ↔ ¬WildcardSyn p := by
  by_cases hopen : ∃ t, p.find s.root = some (some t) ∧ t.listening = true
  · obtain ⟨t, hfind, ht⟩ := hopen
    rw [handleArrival, hfind] at hs
    obtain rfl := Option.some.inj hs
    simp only [ht, hsyn, and_self, if_true]
    exact h.exact_tcbNew hlaw hexact hfind ht hsyn
  · rcases tableStep_cases (i := .segment p) hs with rfl | ⟨q, t, hq, hfind, ht, -⟩ | ⟨t, -, hq, -⟩
    · exact iff_of_true hexact fun hp => hopen (h.find_of_wildcardSyn hexact hp)
    · obtain rfl := TableInput.segment.inj hq
      exact absurd ⟨t, hfind, ht⟩ hopen
    · cases hq

/-- What holds of every table in a run that spares the key of the listener. -/
theorem formed_exact_of_spares {rb : Rebalance} {s : Tcbs} (hlaw : rb.Lawful)
    (hs : Run (tableStep rb) Spares (tcpListen rb) s) : Formed s ∧ Exact s := by
  obtain ⟨hrun, h⟩ := hs.strengthen (formed_tcpListen hlaw) fun _ _ _ hinv _ => hinv.step hlaw
  exact ⟨h, hrun.invariant (exact_tcpListen hlaw)
    fun _ _ _ hinv hok => hok.1.exact_step hlaw hinv hok.2⟩

/-- There the local address is all that a lookup can get wrong. -/
theorem demuxes_of_spares {rb : Rebalance} {s : Tcbs} (hlaw : rb.Lawful)
    (hs : Run (tableStep rb) Spares (tcpListen rb) s) (p : Arrival) :
    Demuxes s p ↔ ∀ t ∈ s.live, t.listening = false → t.lport = p.lport.toNat →
      t.raddr = p.raddr → t.rport = p.rport.toNat → t.laddr = p.laddr := by
  obtain ⟨h, hexact⟩ := formed_exact_of_spares hlaw hs
  rw [h.demuxes_iff]
  constructor
  · intro hdistinct t ht
    exact hdistinct.laddr t ((hexact t).mpr ht)
  · intro hall
    exact ⟨fun t ht => hall t ((hexact t).mp ht), fun t ht _ _ => (hexact t).mpr ht⟩

/-- Unless a SYN from `::`, port 0, to port 0 is handled, the table holds the listener and every
connection that has not been deleted, and a deletion takes out no other. The first such SYN makes
a block that is not in the table. -/
theorem exact_of_spares {rb : Rebalance} {s : Tcbs} (hlaw : rb.Lawful)
    (hs : Run (tableStep rb) Spares (tcpListen rb) s) :
    Exact s ∧ (∃ t ∈ inorder s.root, t.listening = true) ∧
      (∀ t ∈ s.live, ∃ s', tcbDelete rb s t = some s' ∧ Exact s' ∧
        ∀ u, u ∈ inorder s'.root ↔ u ∈ inorder s.root ∧ u ≠ t) ∧
      ∀ p s', p.tcp.flags = 0x2 → handleArrival rb s p = some s' →
        (Exact s' ↔ ¬WildcardSyn p) := by
  obtain ⟨h, hexact⟩ := formed_exact_of_spares hlaw hs
  obtain ⟨listener, hlive, hlistening⟩ := h.listener
  exact ⟨hexact, ⟨listener, (hexact listener).mpr hlive, hlistening⟩,
    fun t ht => h.exact_tcbDelete hlaw hexact ht,
    fun p s' hsyn harrive => h.exact_handleArrival hlaw hexact hsyn harrive⟩

/-- One connection is made and deleted. -/
theorem exact_of_spares_one : ∃ s,
    Run (tableStep Rebalance.plain) Spares (tcpListen Rebalance.plain) s ∧ s.next = 2 ∧
      Exact s := by
  have h : (exec (tableStep Rebalance.plain) Spares (tcpListen Rebalance.plain)
      [.segment (syn (host 2) 80 (host 1) 1000),
        .delete (firstNode (syn (host 2) 80 (host 1) 1000))]).any
      (fun s => s.next = 2) = true := by
    decide +kernel
  obtain ⟨s, hrun, hs⟩ := exists_run_of_exec h
  exact ⟨s, hrun, of_decide_eq_true hs, (exact_of_spares Rebalance.lawful_plain hrun).1⟩

/-- A connection from `::`, port 0, to port 0 takes everything out of the table when it is
deleted, the listener too. -/
theorem empties_table : ¬∀ rb : Rebalance, rb.Lawful → ∀ s, TableReached rb s → Exact s := by
  intro hall
  have h : (exec (tableStep Rebalance.plain) Always (tcpListen Rebalance.plain)
      [.segment (syn (host 2) 0 .zero 0), .delete (firstNode (syn (host 2) 0 .zero 0))]).any
      (fun s => inorder s.root = [] ∧ tcbNode 0 true none 0 none 0 ∈ s.live) = true := by
    decide +kernel
  obtain ⟨s, hreach, hs⟩ := exists_run_of_exec h
  obtain ⟨hnil, hlive⟩ := of_decide_eq_true hs
  have hmem := (hall _ Rebalance.lawful_plain s hreach _).mpr hlive
  rw [hnil] at hmem
  cases hmem

end Ptrtd.Table
