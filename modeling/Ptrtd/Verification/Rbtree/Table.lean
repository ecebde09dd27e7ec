import Ptrtd.Model.TcbMem
import Ptrtd.Verification.Rbtree.Correctness
import Ptrtd.Verification.Table.Correctness

/-! # The connection table over `rbtree.c`

What `rbtree.c` computes is a lawful way to rebalance, and the table in memory refines the table
with it. -/

namespace Ptrtd.Table

open SearchTree Transition

/-! ## What the functions compute -/

/-- What `rbtree.c` does to the tree of a table. Where it follows a null pointer, any tree of the
same order stands for the result. -/
def Rebalance.rbtree : Rebalance where
  insertColor t root := (insertFixOf t root).getD root
  erase t root := ((eraseOf true t root).map Prod.snd).getD (remove t root)
  eraseDetached t tree :=
    (eraseOf false t tree).map fun (held, rest) => if held then (rest, .nil) else (.nil, rest)

theorem Rebalance.lawful_rbtree : Rebalance.rbtree.Lawful where
  insertColor t root _ := by
    rw [Rebalance.rbtree]
    dsimp only
    cases hfix : insertFixOf t root with
    | none => rfl
    | some tree => exact inorder_insertFixOf hfix
  erase t root _ := by
    rw [Rebalance.rbtree]
    dsimp only
    cases herase : eraseOf true t root with
    | none => exact inorder_remove
    | some result => exact inorder_eraseOf herase
  eraseDetached t tree root rest _ h := by
    obtain ⟨⟨held, tree'⟩, herase, hsplit⟩ := Option.map_eq_some_iff.mp h
    cases held with
    | true =>
        obtain ⟨rfl, rfl⟩ := Prod.mk.inj hsplit
        exact .inr ⟨rfl, inorder_eraseOf herase⟩
    | false =>
        obtain ⟨rfl, rfl⟩ := Prod.mk.inj hsplit
        exact .inl ⟨rfl, inorder_eraseOf herase⟩

/-! ## The descent -/

variable {m m₀ : RbMem TcbNode} {t : TcbNode} {tree root : TcbTree} {path : List (Frame TcbNode)}
  {fuel : ℕ}

/-- The loop of `tcb_find_rb` computes the descent. -/
theorem findRb_eq {p : Option TcbNode} (h : m.Tree p tree) (hfuel : height tree ≤ fuel) :
    findRb m t fuel (rootOf tree) = some (find (tcbcmp t) tree) := by
  induction tree generalizing p fuel with
  | nil =>
      cases fuel <;> rfl
  | node red l a r ihl ihr =>
      obtain ⟨⟨-, -, hl, hr⟩, htl, htr⟩ := h
      obtain ⟨fuel, rfl⟩ := Nat.exists_eq_succ_of_ne_zero (Nat.ne_zero_of_lt
        (Nat.lt_of_lt_of_le (Nat.succ_pos _) hfuel))
      have hmax : max (height l) (height r) ≤ fuel := Nat.le_of_succ_le_succ hfuel
      rw [rootOf, findRb, find]
      split
      · rw [hl, ihl htl ((le_max_left _ _).trans hmax)]
      · split
        · rw [hr, ihr htr ((le_max_right _ _).trans hmax)]
        · rfl

/-- The loop of `tcb_insert` goes the way down. -/
theorem insertPlace_eq (path : List (Frame TcbNode))
    (h : RbMem.Holds m₀ m true (plug tree path)) (hfuel : height tree < fuel) :
    insertPlace m t fuel (above path) (RbMem.linkOf path) =
      some ((place (tcbcmp t) tree path).map fun path => (above path, RbMem.linkOf path)) := by
  induction tree generalizing path fuel with
  | nil =>
      obtain ⟨fuel, rfl⟩ := Nat.exists_eq_succ_of_ne_zero (Nat.ne_zero_of_lt hfuel)
      rw [insertPlace, h.follow]
      rfl
  | node red l a r ihl ihr =>
      obtain ⟨fuel, rfl⟩ := Nat.exists_eq_succ_of_ne_zero (Nat.ne_zero_of_lt hfuel)
      have hmax : max (height l) (height r) < fuel := Nat.lt_of_succ_lt_succ hfuel
      rw [insertPlace, h.follow, place]
      dsimp only [rootOf]
      split
      · exact ihl (⟨.left, red, a, r⟩ :: path) h (lt_of_le_of_lt (le_max_left _ _) hmax)
      · split
        · exact ihr (⟨.right, red, a, l⟩ :: path) h
            (lt_of_le_of_lt (le_max_right _ _) hmax)
        · rfl

/-- `tcb_insert` computes the link and the repair. -/
theorem insertNode_refines (h : RbMem.Holds m₀ m true root) (ht : t ∉ inorder root)
    (hfuel : height root < fuel) :
    match link tcbcmp t root with
    | none => insertNode fuel t m = some none
    | some tree => Option.Rel (fun r tree' => ∃ m', r = some m' ∧ RbMem.Holds m₀ m' true tree')
        (insertNode fuel t m) (insertFixOf t tree) := by
  have hplace := insertPlace_eq (t := t) [] h hfuel
  have hlink := link_eq_place tcbcmp t root []
  cases hdown : place (tcbcmp t) root [] with
  | none =>
      rw [hdown] at hplace hlink
      have hnone : link tcbcmp t root = none := by
        rw [← Option.map_eq_none_iff]
        exact hlink
      have hloop : insertPlace m t fuel none .root = some none := hplace
      rw [hnone]
      dsimp only
      rw [insertNode, hloop]
      rfl
  | some path =>
      rw [hdown] at hplace hlink
      have hplug := plug_place hdown
      rw [plug_nil] at hplug
      obtain ⟨tree, htree, hnode⟩ := Option.map_eq_some_iff.mp hlink
      obtain rfl : tree = plug (.node true .nil t .nil) path := hnode
      have hnil : RbMem.Holds m₀ m true (plug .nil path) := by
        rw [hplug]
        exact h
      have hnot : t ∉ inorder (plug .nil path) := by
        rw [hplug]
        exact ht
      have hlength : path.length < fuel := by
        have hle := length_add_height_le .nil path
        rw [hplug] at hle
        omega
      have hlinked := hnil.linkNode hnot
      have hrefines := RbMem.insertColor_refines hlinked rfl hlength
      have hloop : insertPlace m t fuel none .root =
        some (some (above path, RbMem.linkOf path)) := hplace
      rw [htree]
      dsimp only
      rw [insertNode, hloop, insertFixOf_plug hlinked.nodup]
      exact Lockstep.rel_map hrefines fun m' tree' hholds => ⟨m', rfl, hholds⟩

/-! ## The table in memory -/

/-- The trees of the table are in memory, `tcblist` leads to the one, and the blocks in neither
are as `memset` has left them. -/
structure TcbMem.Represents (q : TcbMem) (s : Tcbs) : Prop where
  live : q.live = s.live
  next : q.next = s.next
  root : q.mem.root = rootOf s.root
  tree : q.mem.Tree none s.root
  detached : q.mem.Tree none s.detached
  unlinked : ∀ t ∈ s.live, t ∉ inorder s.root → t ∉ inorder s.detached → q.mem.node t = .zero

variable {q q' : TcbMem} {s : Tcbs}

theorem eq_nil_of_inorder (h : inorder tree = []) : tree = .nil := by
  cases tree with
  | nil => rfl
  | node red l a r => simp [inorder] at h

/-- The tree under `tcblist` is no higher than there are blocks. -/
theorem Formed.height_le (h : Formed s) (hq : q.Represents s) :
    height s.root < q.rounds ∧ height s.detached < q.rounds := by
  have hsub : ∀ {tree}, Linked s.live tree → height tree < q.rounds := fun {tree} hlinked => by
    have hlength : (inorder tree).length ≤ s.live.length :=
      ((Sorted.nodup hlinked.sorted).subperm fun t ht => hlinked.live t ht).length_le
    have hheight := height_le_length (t := tree)
    rw [TcbMem.rounds, hq.live]
    omega
  exact ⟨hsub h.root, hsub h.detached⟩

theorem TcbMem.Represents.holds (hq : q.Represents s) (hnodup : (inorder s.root).Nodup) :
    RbMem.Holds q.mem q.mem true s.root where
  tree := hq.tree
  root := hq.root
  nodup := hnodup
  rest _ _ := rfl

theorem TcbMem.find_eq (h : Formed s) (hq : q.Represents s) {depth : ℕ} {laddr raddr : Option Addr}
    {lport rport : ℕ} :
    q.find depth laddr lport raddr rport = tcbFind s.root depth laddr lport raddr rport := by
  induction depth generalizing laddr lport raddr rport with
  | zero => rfl
  | succ depth ih =>
      rw [TcbMem.find, tcbFind, hq.root, findRb_eq hq.tree (h.height_le hq).1.le]
      dsimp only [Option.bind_eq_bind, Option.bind_some]
      cases SearchTree.find (tcbcmp (tcbNode 0 false laddr lport raddr rport)) s.root with
      | some t => rfl
      | none =>
          dsimp only
          rw [ih, ih, ih]

/-- `tcb_new` in memory: the table gets the block, or `rb_insert_color` follows a null pointer. -/
theorem TcbMem.new_cases (hq : q.Represents s) (hnodup : (inorder s.root).Nodup)
    (hsub : ∀ u ∈ inorder s.root, u ∈ s.live) (hdetached : s.detached = .nil)
    (hfresh : ∀ u ∈ s.live, u.addr < s.next) (hheight : height s.root < q.rounds)
    (laddr : Option Addr) (lport : ℕ) (raddr : Option Addr) (rport : ℕ) (listening : Bool) :
    let t := tcbNode s.next listening laddr lport raddr rport
    (∃ q', q.new laddr lport raddr rport listening = some q' ∧
        q'.Represents (tcbNew Rebalance.rbtree s laddr lport raddr rport listening)) ∨
      q.new laddr lport raddr rport listening = none ∧
        ∃ tree, link tcbcmp t s.root = some tree ∧ insertFixOf t tree = none := by
  intro t
  have ht : t ∉ s.live := fun hmem => lt_irrefl _ (hfresh t hmem)
  have htroot : t ∉ inorder s.root := fun hmem => ht (hsub t hmem)
  obtain ⟨m₁, hm₁⟩ : ∃ m₁, q.mem.setNode t .zero = m₁ := ⟨_, rfl⟩
  have h₁ : ∀ u, u ≠ t → m₁.node u = q.mem.node u := fun u hu => by
    rw [← hm₁, RbMem.node_setNode_ne hu]
  have hholds : RbMem.Holds m₁ m₁ true s.root := by
    refine ⟨hq.tree.congr fun u hu => h₁ u (ne_of_mem_of_not_mem hu htroot), ?_, hnodup,
      fun _ _ => rfl⟩
    rw [← hm₁]
    exact hq.root
  have hinsert := insertNode_refines hholds htroot hheight
  have hnode : q.new laddr lport raddr rport listening =
      (insertNode q.rounds t m₁).bind fun inserted =>
        some { mem := inserted.getD m₁, live := t :: q.live, next := q.next + 1 } := by
    rw [TcbMem.new, hq.next, ← hm₁]
    rfl
  rw [hnode]
  cases hlink : link tcbcmp t s.root with
  | none =>
      rw [hlink] at hinsert
      have hroot : (tcbNew Rebalance.rbtree s laddr lport raddr rport listening).root = s.root := by
        change ((link tcbcmp t s.root).map (Rebalance.rbtree.insertColor t)).getD s.root = _
        rw [hlink]
        rfl
      refine .inl ⟨_, by rw [hinsert]; rfl, congrArg (t :: ·) hq.live, congrArg (· + 1) hq.next,
        ?_, ?_, ?_, fun u hu hur hud => ?_⟩
      · rw [hroot]
        exact hholds.root
      · rw [hroot]
        exact hholds.tree
      · rw [tcbNew, hdetached]
        trivial
      · rw [hroot] at hur
        rw [tcbNew, hdetached] at hud
        by_cases hut : u = t
        · subst hut
          rw [← hm₁, RbMem.setNode]
          exact Function.update_self _ _ _
        · have hold : u ∈ s.live := (List.mem_cons.mp hu).resolve_left hut
          refine (h₁ u hut).trans (hq.unlinked u hold hur ?_)
          rw [hdetached]
          exact hud
  | some tree =>
      rw [hlink] at hinsert
      dsimp only at hinsert
      cases hfix : insertFixOf t tree with
      | none =>
          rw [hfix] at hinsert
          refine .inr ⟨?_, tree, rfl, hfix⟩
          rw [Lockstep.eq_none_of_rel hinsert]
          rfl
      | some tree' =>
          rw [hfix] at hinsert
          obtain ⟨r, hresult, m', rfl, hdone⟩ := Lockstep.exists_of_rel hinsert
          have hroot : (tcbNew Rebalance.rbtree s laddr lport raddr rport listening).root =
              tree' := by
            change ((link tcbcmp t s.root).map (Rebalance.rbtree.insertColor t)).getD s.root = _
            rw [hlink]
            change (insertFixOf t tree).getD tree = _
            rw [hfix]
            rfl
          have hperm : (inorder tree').Perm (t :: inorder s.root) := by
            rw [inorder_insertFixOf hfix]
            exact link_perm hlink
          refine .inl ⟨_, by rw [hresult]; rfl, congrArg (t :: ·) hq.live,
            congrArg (· + 1) hq.next, ?_, ?_, ?_, fun u hu hur hud => ?_⟩
          · rw [hroot]
            exact hdone.root
          · rw [hroot]
            exact hdone.tree
          · rw [tcbNew, hdetached]
            trivial
          · rw [hroot] at hur
            rw [tcbNew, hdetached] at hud
            have hnot : u ∉ t :: inorder s.root := mt hperm.mem_iff.mpr hur
            rw [List.mem_cons, not_or] at hnot
            have hold : u ∈ s.live := (List.mem_cons.mp hu).resolve_left hnot.1
            refine (hdone.rest u hur).trans ((h₁ u hnot.1).trans (hq.unlinked u hold hnot.2 ?_))
            rw [hdetached]
            exact hud

/-- `rb_erase` of a block that has never been linked: the pointer is set to `NULL`. -/
theorem erase_unlinked {n : ℕ} (ht : m.node t = .zero) :
    m.erase n t = some (m.setRoot none) := by
  have hchild : ∀ s, m.child s t = none := fun s => by
    cases s <;> rw [RbMem.child, ht] <;> rfl
  have hparent : m.parent t = none := by rw [RbMem.parent, ht]; rfl
  have hred : m.red t = true := by rw [RbMem.red, ht]; rfl
  rw [RbMem.erase, hchild, hchild]
  dsimp only
  rw [RbMem.eraseSingle, hparent, hred]
  rfl

/-- What `rb_erase` does to a tree, in memory and as a tree. -/
theorem erase_tree {held : Bool} {q₀ : RbMem TcbNode} {n : ℕ} (h : RbMem.Holds m m held tree)
    (ht : t ∈ inorder tree) (hheight : height tree ≤ n) (herase : m.erase n t = some q₀) :
    ∃ held' tree', eraseOf held t tree = some (held', tree') ∧ RbMem.Holds m q₀ held' tree' := by
  obtain ⟨red, l, r, path, rfl⟩ := RbMem.exists_place ht
  have hrefines := RbMem.erase_refines h hheight
  rw [herase] at hrefines
  obtain ⟨⟨held', tree'⟩, hresult, hholds⟩ := Lockstep.rel_exists hrefines
  exact ⟨held', tree', by rw [eraseOf_plug h.nodup, hresult], hholds⟩

/-- `tcb_delete` in memory is `tcb_delete` on the table. -/
theorem TcbMem.delete_refines (h : Formed s) (hq : q.Represents s) (ht : t ∈ s.live)
    (hdelete : q.delete t = some q') :
    ∃ s', tcbDelete Rebalance.rbtree s t = some s' ∧ q'.Represents s' := by
  obtain ⟨hroot, hdet⟩ := h.height_le hq
  obtain ⟨mem, herase, hq'⟩ := Option.bind_eq_some_iff.mp hdelete
  obtain rfl := Option.some.inj hq'
  have hlive : q.live.erase t = s.live.erase t := by rw [hq.live]
  have hold : ∀ u ∈ s.live.erase t, u ∈ s.live ∧ u ≠ t := fun u hu =>
    (h.nodup.mem_erase_iff.mp hu).symm
  rw [tcbDelete, rbErase]
  by_cases hmem : t ∈ inorder s.root
  · rw [if_pos hmem]
    have hnil := eq_nil_of_inorder (h.one.resolve_left (List.ne_nil_of_mem hmem))
    have hnodup := Sorted.nodup h.root.sorted
    obtain ⟨held, tree, hof, hholds⟩ := erase_tree (hq.holds hnodup) hmem hroot.le herase
    obtain rfl := eraseOf_held hof
    have hresult : Rebalance.rbtree.erase t s.root = tree := by
      change ((eraseOf true t s.root).map Prod.snd).getD (remove t s.root) = tree
      rw [hof]
      rfl
    refine ⟨_, rfl, hlive, hq.next, ?_, ?_, ?_, fun u hu hur hud => ?_⟩
    · rw [hresult]
      exact hholds.root
    · rw [hresult]
      exact hholds.tree
    · dsimp only
      rw [hnil]
      trivial
    · rw [hresult] at hur
      obtain ⟨hulive, hut⟩ := hold u hu
      refine (hholds.rest u hur).trans (hq.unlinked u hulive ?_ hud)
      rw [inorder_eraseOf hof, hnodup.mem_erase_iff] at hur
      exact fun hin => hur ⟨hut, hin⟩
  · rw [if_neg hmem]
    by_cases hmem' : t ∈ inorder s.detached
    · rw [if_pos hmem']
      have hnil := eq_nil_of_inorder (h.one.resolve_right (List.ne_nil_of_mem hmem'))
      have hnodup := Sorted.nodup h.detached.sorted
      have hlost : RbMem.Holds q.mem q.mem false s.detached :=
        ⟨hq.detached, by rw [hq.root, hnil]; rfl, hnodup, fun _ _ => rfl⟩
      obtain ⟨held, tree, hof, hholds⟩ := erase_tree hlost hmem' hdet.le herase
      have hresult : Rebalance.rbtree.eraseDetached t s.detached =
          some (if held then (tree, .nil) else (.nil, tree)) := by
        change (eraseOf false t s.detached).map _ = _
        rw [hof]
        rfl
      have hzero : ∀ u ∈ s.live.erase t, u ∉ inorder tree → mem.node u = .zero := fun u hu hur => by
        obtain ⟨hulive, hut⟩ := hold u hu
        refine (hholds.rest u hur).trans (hq.unlinked u hulive ?_ ?_)
        · rw [hnil]
          exact List.not_mem_nil
        · rw [inorder_eraseOf hof, hnodup.mem_erase_iff] at hur
          exact fun hin => hur ⟨hut, hin⟩
      rw [hresult]
      cases held with
      | true => exact ⟨_, rfl, hlive, hq.next, hholds.root, hholds.tree, trivial,
          fun u hu hur _ => hzero u hu hur⟩
      | false => exact ⟨_, rfl, hlive, hq.next, hholds.root, trivial, hholds.tree,
          fun u hu _ hud => hzero u hu hud⟩
    · rw [if_neg hmem']
      rw [erase_unlinked (hq.unlinked t ht hmem hmem')] at herase
      obtain rfl := Option.some.inj herase
      split
      · next hroot =>
          refine ⟨_, rfl, hlive, hq.next, rfl, trivial, hq.detached.congr fun _ _ => rfl,
            fun u hu hur hud => ?_⟩
          refine hq.unlinked u (hold u hu).1 ?_ hud
          rw [hroot]
          exact hur
      · next tree hne =>
          have hdetnil : inorder s.detached = [] := h.one.resolve_left fun hempty =>
            hne (eq_nil_of_inorder hempty)
          refine ⟨_, rfl, hlive, hq.next, rfl, trivial, hq.tree.congr fun _ _ => rfl,
            fun u hu _ hud => ?_⟩
          refine hq.unlinked u (hold u hu).1 hud ?_
          rw [hdetnil]
          exact List.not_mem_nil

/-- The listener is the first block. -/
theorem TcbMem.tcpListen_represents (node : TcbNode → RbNode TcbNode) :
    ∃ q, TcbMem.tcpListen node = some q ∧ q.Represents (Table.tcpListen Rebalance.rbtree) := by
  have hempty : TcbMem.Represents ⟨⟨node, none⟩, [], 0⟩ ⟨.nil, .nil, [], 0⟩ :=
    ⟨rfl, rfl, rfl, trivial, trivial, fun _ h => absurd h List.not_mem_nil⟩
  rcases TcbMem.new_cases hempty List.nodup_nil (fun _ h => absurd h List.not_mem_nil) rfl
    (fun _ h => absurd h List.not_mem_nil) (Nat.succ_pos _) none 0 none 0 true with
    hnew | ⟨-, tree, hlink, hfix⟩
  · exact hnew
  · obtain rfl := Option.some.inj hlink
    have hone := insertFixOf_plug (show (inorder (plug (.node true .nil
      (tcbNode 0 true none 0 none 0) .nil) [])).Nodup from List.nodup_singleton _)
    exact absurd (hfix.symm.trans hone) (by simp [insertFix])

/-- A step of the table in memory is a step of the table. -/
theorem TcbMem.step_refines {i : TableInput} (h : Formed s) (hq : q.Represents s)
    (hs : q.step i = some q') :
    ∃ s', tableStep Rebalance.rbtree s i = some s' ∧ q'.Represents s' := by
  cases i with
  | segment p =>
      obtain ⟨found, hfind, hnext⟩ := Option.bind_eq_some_iff.mp hs
      rw [TcbMem.find_eq h hq] at hfind
      have hfind' : p.find s.root = some found := hfind
      rw [tableStep, Table.handleArrival, hfind']
      cases found with
      | none =>
          obtain rfl := Option.some.inj hnext
          exact ⟨s, rfl, hq⟩
      | some t =>
          dsimp only at hnext
          split at hnext
          · next hsyn =>
              have hmem := p.find_mem hfind'
              have hdet := eq_nil_of_inorder (h.one.resolve_left (List.ne_nil_of_mem hmem))
              rcases TcbMem.new_cases hq (Sorted.nodup h.root.sorted) h.root.live hdet h.fresh
                (h.height_le hq).1 (some p.laddr) p.lport.toNat (some p.raddr) p.rport.toNat false
                with ⟨q'', hnew, hrep⟩ | ⟨hnone, -⟩
              · obtain rfl := Option.some.inj (hnew.symm.trans hnext)
                refine ⟨_, rfl, ?_⟩
                dsimp only
                rw [if_pos hsyn]
                exact hrep
              · rw [hnone] at hnext
                cases hnext
          · next hsyn =>
              obtain rfl := Option.some.inj hnext
              refine ⟨_, rfl, ?_⟩
              dsimp only
              rw [if_neg hsyn]
              exact hq
  | delete t =>
      rw [TcbMem.step, hq.live] at hs
      rw [tableStep]
      split at hs
      · next hcond =>
          rw [if_pos hcond]
          exact TcbMem.delete_refines h hq hcond.1 hs
      · cases hs

/-! ## Runs -/

/-- The tables in memory that occur, whatever the memory held before. -/
def TcbMem.Reached (ok : TcbMem → TableInput → Prop) (q : TcbMem) : Prop :=
  ∃ node q₀, TcbMem.tcpListen node = some q₀ ∧ Run TcbMem.step ok q₀ q

/-- What holds of the table in memory holds of it in every run. -/
theorem TcbMem.Reached.reached {ok : TcbMem → TableInput → Prop}
    (ok' : Tcbs → TableInput → Prop) (h : TcbMem.Reached ok q) (hok : ∀ q s i, ok q i → ok' s i) :
    ∃ s, Run (tableStep Rebalance.rbtree) ok' (Table.tcpListen Rebalance.rbtree) s ∧
      Formed s ∧ q.Represents s := by
  obtain ⟨node, q₀, hstart, hrun⟩ := h
  obtain ⟨q₁, hstart', hrep⟩ := TcbMem.tcpListen_represents node
  obtain rfl := Option.some.inj (hstart.symm.trans hstart')
  induction hrun with
  | refl => exact ⟨_, .refl, formed_tcpListen Rebalance.lawful_rbtree, hrep⟩
  | tail _ hcond hnext ih =>
      obtain ⟨s, hreach, hformed, hq⟩ := ih
      obtain ⟨s', hs', hq'⟩ := TcbMem.step_refines hformed hq hnext
      exact ⟨s', hreach.tail (hok _ _ _ hcond) hs', hformed.step Rebalance.lawful_rbtree hs', hq'⟩

/-- In every run the pointers that `tcb.c` and `rbtree.c` follow and write are those of a table
with lawful rebalancing, and every lookup has the same value. -/
theorem table_in_memory (hq : TcbMem.Reached Always q) :
    ∃ s, TableReached Rebalance.rbtree s ∧ Rebalance.rbtree.Lawful ∧ q.Represents s ∧
      ∀ depth laddr lport raddr rport,
        q.find depth laddr lport raddr rport = tcbFind s.root depth laddr lport raddr rport := by
  obtain ⟨s, hrun, hformed, hrep⟩ := hq.reached Always fun _ _ _ _ => trivial
  exact ⟨s, hrun, Rebalance.lawful_rbtree, hrep, fun _ _ _ _ _ => TcbMem.find_eq hformed hrep⟩

/-- The listener, and the connection that a SYN makes. -/
theorem TcbMem.accepts : ∃ q₀ q, TcbMem.tcpListen (fun _ => .zero) = some q₀ ∧
    q₀.step (.segment (syn .zero 2 .zero 1)) = some q :=
  ⟨_, _, rfl, rfl⟩

theorem table_in_memory_syn :
    ∃ q₀ q, TcbMem.tcpListen (fun _ => .zero) = some q₀ ∧
        q₀.step (.segment (syn .zero 2 .zero 1)) = some q ∧
      ∃ s, TableReached Rebalance.rbtree s ∧ Rebalance.rbtree.Lawful ∧ q.Represents s ∧
        ∀ depth laddr lport raddr rport,
          q.find depth laddr lport raddr rport = tcbFind s.root depth laddr lport raddr rport := by
  obtain ⟨q₀, q, hstart, hnext⟩ := TcbMem.accepts
  exact ⟨q₀, q, hstart, hnext, table_in_memory ⟨_, _, hstart, .tail .refl trivial hnext⟩⟩

end Ptrtd.Table
