import Mathlib.Data.List.Nodup
import Ptrtd.Library.Lockstep
import Ptrtd.Library.RedBlack
import Ptrtd.Model.Rbtree

/-! # Trees in memory

What it means for a tree to be in memory, also seen from a place in it, and what the writes of
`rbtree.c` do to it. -/

namespace Ptrtd.RbMem

open SearchTree

variable {α : Type*} {m m₀ m' : RbMem α} {t t' near far near' far' : ColoredTree α} {a b x y : α}
  {red red' held : Bool} {s s' : Side} {p q hole : Option α} {f : Frame α} {path : List (Frame α)}

/-- The nodes of a tree, below the pointer `p`. -/
def Tree (m : RbMem α) : Option α → ColoredTree α → Prop
  | _, .nil => True
  | p, .node red l a r =>
      (m.parent a = p ∧ m.red a = red ∧ m.child .left a = rootOf l ∧ m.child .right a = rootOf r) ∧
        Tree m (some a) l ∧ Tree m (some a) r

/-- The nodes of a way up, with a pointer to what is at the place. -/
def Above (m : RbMem α) : Option α → List (Frame α) → Prop
  | _, [] => True
  | hole, f :: path =>
      (m.parent f.label = above path ∧ m.red f.label = f.red ∧ m.child f.side f.label = hole ∧
        m.child f.side.other f.label = rootOf f.sibling) ∧
          Tree m (some f.label) f.sibling ∧ Above m (some f.label) path

/-- The tree is in memory, and the other nodes are as in `m₀`. The root is what the pointer leads
to, unless the pointer is `NULL`. -/
structure Holds (m₀ m : RbMem α) (held : Bool) (t : ColoredTree α) : Prop where
  tree : m.Tree none t
  root : m.root = if held then rootOf t else none
  nodup : (inorder t).Nodup
  rest : ∀ x ∉ inorder t, m.node x = m₀.node x

/-- Two nodes: 1, which is black, and 2 to the right of it, which is red. -/
def pair : RbMem ℕ :=
  ⟨fun | 1 => ⟨none, false, some 2, none⟩ | 2 => ⟨some 1, true, none, none⟩ | _ => .zero, some 1⟩

theorem holds_pair : Holds pair pair true (.node false .nil 1 (.node true .nil 2 .nil)) where
  tree := ⟨⟨rfl, rfl, rfl, rfl⟩, trivial, ⟨rfl, rfl, rfl, rfl⟩, trivial, trivial⟩
  root := rfl
  nodup := by decide
  rest _ _ := rfl

/-! ## Reading -/

theorem tree_branch : m.Tree p (branch s red near a far) ↔
    (m.parent a = p ∧ m.red a = red ∧ m.child s a = rootOf near ∧
      m.child s.other a = rootOf far) ∧ m.Tree (some a) near ∧ m.Tree (some a) far := by
  cases s
  · rfl
  · simp only [branch, Tree, Side.other]
    tauto

/-- A tree seen from a place. -/
theorem tree_plug : m.Tree none (plug t path) ↔
    m.Tree (above path) t ∧ m.Above (rootOf t) path := by
  induction path generalizing t with
  | nil => simp [above, Above]
  | cons f path ih =>
      rw [plug_cons, ih, Frame.fill, tree_branch, rootOf_branch, above, Above]
      tauto

theorem child_of_agree (h : m'.node x = m.node x) : m'.child s x = m.child s x := by
  cases s <;> simp only [child, h]

/-- A tree is not changed by writes elsewhere. -/
theorem Tree.congr (h : m.Tree p t) (heq : ∀ x ∈ inorder t, m'.node x = m.node x) :
    m'.Tree p t := by
  induction t generalizing p with
  | nil => trivial
  | node red l a r ihl ihr =>
      obtain ⟨⟨hparent, hred, hl, hr⟩, htl, htr⟩ := h
      have ha := heq a (mem_inorder_node.mpr (.inr (.inl rfl)))
      refine ⟨⟨?_, ?_, ?_, ?_⟩, ihl htl fun x hx => ?_, ihr htr fun x hx => ?_⟩
      · rw [parent, ha]
        exact hparent
      · rw [RbMem.red, ha]
        exact hred
      · rw [child_of_agree ha, hl]
      · rw [child_of_agree ha, hr]
      · exact heq x (mem_inorder_node.mpr (.inl hx))
      · exact heq x (mem_inorder_node.mpr (.inr (.inr hx)))

theorem Above.congr (h : m.Above hole path) (heq : ∀ x ∈ sides path, m'.node x = m.node x) :
    m'.Above hole path := by
  induction path generalizing hole with
  | nil => trivial
  | cons f path ih =>
      obtain ⟨⟨hparent, hred, hhole, hsib⟩, htree, hrest⟩ := h
      have ha := heq f.label (mem_sides_cons.mpr (.inl rfl))
      refine ⟨⟨?_, ?_, ?_, ?_⟩, htree.congr fun x hx => ?_, ih hrest fun x hx => ?_⟩
      · rw [parent, ha]
        exact hparent
      · rw [RbMem.red, ha]
        exact hred
      · rw [child_of_agree ha, hhole]
      · rw [child_of_agree ha, hsib]
      · exact heq x (mem_sides_cons.mpr (.inr (.inl hx)))
      · exact heq x (mem_sides_cons.mpr (.inr (.inr hx)))

theorem Tree.isBlack (h : m.Tree p t) : m.isBlack (rootOf t) = !isRed t := by
  cases t with
  | nil => rfl
  | node red l a r =>
      rw [rootOf, RbMem.isBlack, h.1.2.1]
      rfl

/-- Going down one side leads to the first node in the order from that side. -/
theorem descend_eq {fuel : ℕ} (h : m.Tree p t) (hx : rootOf t = some x)
    (hfuel : height t ≤ fuel) : m.descend s fuel x = (elements s t).head? := by
  induction fuel generalizing p t x with
  | zero =>
      cases t with
      | nil => cases hx
      | node red l a r => exact absurd hfuel (Nat.not_succ_le_zero _)
  | succ fuel ih =>
      rcases exists_branch s t with rfl | ⟨red, near, a, far, rfl⟩
      · cases hx
      obtain ⟨⟨-, -, hnear, -⟩, htnear, -⟩ := tree_branch.mp h
      rw [rootOf_branch] at hx
      obtain rfl := Option.some.inj hx
      rw [height_branch] at hfuel
      rw [descend, hnear, elements_branch]
      cases hroot : rootOf near with
      | none =>
          obtain rfl := rootOf_eq_none_iff.mp hroot
          cases s <;> rfl
      | some y =>
          dsimp only
          rw [ih htnear hroot (by omega), List.head?_append_of_ne_nil _ (elements_ne_nil hroot)]

/-! ## A tree seen from a place -/

theorem Holds.place (h : Holds m₀ m held (plug t path)) :
    m.Tree (above path) t ∧ m.Above (rootOf t) path ∧ (inorder t).Nodup ∧ (sides path).Nodup ∧
      ∀ x ∈ inorder t, x ∉ sides path := by
  obtain ⟨htree, habove⟩ := tree_plug.mp h.tree
  exact ⟨htree, habove, nodup_plug.mp h.nodup⟩

theorem Holds.fields (h : Holds m₀ m held (plug (branch s red near a far) path)) :
    m.parent a = above path ∧ m.red a = red ∧ m.child s a = rootOf near ∧
      m.child s.other a = rootOf far :=
  (tree_branch.mp h.place.1).1

theorem Holds.frame (h : Holds m₀ m held (plug t (f :: path))) :
    m.parent f.label = above path ∧ m.red f.label = f.red ∧ m.child f.side f.label = rootOf t ∧
      m.child f.side.other f.label = rootOf f.sibling :=
  h.place.2.1.1

theorem Holds.parent_eq (h : Holds m₀ m held (plug t path)) (hx : rootOf t = some x) :
    m.parent x = above path := by
  rcases exists_branch .left t with rfl | ⟨red, near, a, far, rfl⟩
  · cases hx
  · rw [rootOf_branch] at hx
    cases hx
    exact h.fields.1

/-- Two subtrees of a node have different roots, unless both are empty. -/
theorem Holds.siblings (h : Holds m₀ m held (plug t (f :: path)))
    (hsome : rootOf t ≠ none ∨ rootOf f.sibling ≠ none) : rootOf t ≠ rootOf f.sibling := by
  intro heq
  obtain ⟨-, -, -, -, hdisjoint⟩ := h.place
  obtain ⟨x, hx⟩ : ∃ x, rootOf t = some x := by
    rw [← heq, or_self] at hsome
    exact Option.ne_none_iff_exists'.mp hsome
  refine hdisjoint x (rootOf_mem hx) (mem_sides_cons.mpr (.inr (.inl ?_)))
  exact rootOf_mem (heq ▸ hx)

/-- The test that tells the side of a place. -/
theorem Holds.side_eq (h : Holds m₀ m held (plug t (f :: path)))
    (hsome : rootOf t ≠ none ∨ rootOf f.sibling ≠ none) [DecidableEq α] :
    (if m.child .left f.label = rootOf t then Side.left else .right) = f.side := by
  obtain ⟨-, -, hhole, hsib⟩ := h.frame
  cases hside : f.side with
  | left =>
      rw [hside] at hhole
      rw [if_pos hhole]
  | right =>
      rw [hside] at hsib
      refine if_neg fun heq => h.siblings hsome ?_
      rw [← heq]
      exact hsib

/-- The pointer that leads to a place. -/
def linkOf : List (Frame α) → Link α
  | [] => .root
  | f :: _ => .child f.side f.label

theorem Holds.follow (h : Holds m₀ m true (plug t path)) :
    m.follow (linkOf path) = rootOf t := by
  cases path with
  | nil => exact h.root
  | cons f path => exact h.frame.2.2.1

/-- The other subtree of the node above a place. -/
theorem holds_sibling : Holds m₀ m held (plug t (f :: path)) ↔
    Holds m₀ m held (plug f.sibling (⟨f.side.other, f.red, f.label, t⟩ :: path)) := by
  rw [plug_cons, plug_cons, Frame.fill, Frame.fill, branch_other]

theorem holds_near : Holds m₀ m held (plug (branch s red near a far) path) ↔
    Holds m₀ m held (plug near (⟨s, red, a, far⟩ :: path)) := Iff.rfl

theorem holds_far : Holds m₀ m held (plug (branch s red near a far) path) ↔
    Holds m₀ m held (plug far (⟨s.other, red, a, near⟩ :: path)) := by
  rw [plug_cons, Frame.fill, branch_other]

/-- The node at a place is not the root of the tree. -/
theorem Holds.ne_root (h : Holds m₀ m held (plug t (f :: path)))
    (hstop : ¬(isNil t = true ∧ held = false)) : rootOf t ≠ m.root := by
  intro heq
  rw [h.root] at heq
  cases held with
  | false =>
      refine hstop ⟨isNil_iff.mpr (rootOf_eq_none_iff.mp heq), rfl⟩
  | true =>
      obtain ⟨x, hx, hmem⟩ := rootOf_plug_mem t f path
      rw [if_pos rfl, hx] at heq
      exact h.place.2.2.2.2 x (rootOf_mem heq) hmem

/-- Whether both children of the sibling are black. -/
theorem Holds.both_black (h : Holds m₀ m held (plug (branch s red near b far) path)) :
    (m.isBlack (m.child .left b) ∧ m.isBlack (m.child .right b)) ↔
      isRed near = false ∧ isRed far = false := by
  obtain ⟨⟨-, -, hnear, hfar⟩, htnear, htfar⟩ := tree_branch.mp h.place.1
  have hn := htnear.isBlack
  have hf := htfar.isBlack
  rw [← hnear] at hn
  rw [← hfar] at hf
  cases s with
  | left =>
      rw [Side.other] at hf
      simp [hn, hf]
  | right =>
      rw [Side.other] at hf
      rw [hn, hf, and_comm]
      simp

/-! ## Writing -/

section Writes

variable [DecidableEq α]

theorem node_setNode_ne {n : RbNode α} (h : y ≠ x) : (m.setNode x n).node y = m.node y :=
  Function.update_of_ne h _ _

theorem node_setParent_ne (h : y ≠ x) : (m.setParent x p).node y = m.node y :=
  node_setNode_ne h

theorem node_setRed_ne (h : y ≠ x) : (m.setRed x red).node y = m.node y :=
  node_setNode_ne h

theorem node_setChild_ne (h : y ≠ x) : (m.setChild s x p).node y = m.node y := by
  cases s <;> exact node_setNode_ne h

theorem node_setParentOf_ne (h : q ≠ some y) : (m.setParentOf q p).node y = m.node y := by
  cases q with
  | none => rfl
  | some x => exact node_setParent_ne fun heq => h (by rw [heq])

theorem node_replaceChild_ne (h : q ≠ some y) :
    (m.replaceChild s q x p).node y = m.node y := by
  cases q with
  | none => rfl
  | some a =>
      have hne : y ≠ a := fun heq => h (by rw [heq])
      rw [replaceChild]
      split <;> exact node_setChild_ne hne

@[simp] theorem parent_setParent : (m.setParent x p).parent x = p := by
  simp [setParent, setNode, parent]

@[simp] theorem red_setParent : (m.setParent x p).red y = m.red y := by
  by_cases h : y = x
  · subst h
    simp [setParent, setNode, RbMem.red]
  · rw [RbMem.red, node_setParent_ne h, RbMem.red]

@[simp] theorem child_setParent : (m.setParent x p).child s y = m.child s y := by
  by_cases h : y = x
  · subst h
    cases s <;> simp [setParent, setNode, child]
  · exact child_of_agree (node_setParent_ne h)

@[simp] theorem parent_setRed : (m.setRed x red).parent y = m.parent y := by
  by_cases h : y = x
  · subst h
    simp [setRed, setNode, parent]
  · rw [parent, node_setRed_ne h, parent]

@[simp] theorem red_setRed : (m.setRed x red).red x = red := by
  simp [setRed, setNode, RbMem.red]

@[simp] theorem child_setRed : (m.setRed x red).child s y = m.child s y := by
  by_cases h : y = x
  · subst h
    cases s <;> simp [setRed, setNode, child]
  · exact child_of_agree (node_setRed_ne h)

@[simp] theorem parent_setChild : (m.setChild s x p).parent y = m.parent y := by
  by_cases h : y = x
  · subst h
    cases s <;> simp [setChild, setNode, parent]
  · rw [parent, node_setChild_ne h, parent]

@[simp] theorem red_setChild : (m.setChild s x p).red y = m.red y := by
  by_cases h : y = x
  · subst h
    cases s <;> simp [setChild, setNode, RbMem.red]
  · rw [RbMem.red, node_setChild_ne h, RbMem.red]

@[simp] theorem child_setChild : (m.setChild s x p).child s x = p := by
  cases s <;> simp [setChild, setNode, child]

@[simp] theorem child_setChild_other : (m.setChild s x p).child s.other y = m.child s.other y := by
  by_cases h : y = x
  · subst h
    cases s <;> simp [setChild, setNode, child, Side.other]
  · exact child_of_agree (node_setChild_ne h)

@[simp] theorem child_setChild_of_other :
    (m.setChild s.other x p).child s y = m.child s y := by
  have h := child_setChild_other (m := m) (s := s.other) (x := x) (y := y) (p := p)
  rwa [Side.other_other] at h

theorem child_setChild_ne (h : y ≠ x) : (m.setChild s x p).child s' y = m.child s' y :=
  child_of_agree (node_setChild_ne h)

theorem root_setParent : (m.setParent x p).root = m.root := rfl

theorem root_setRed : (m.setRed x red).root = m.root := rfl

theorem root_setChild : (m.setChild s x p).root = m.root := by
  cases s <;> rfl

theorem root_setParentOf : (m.setParentOf q p).root = m.root := by
  cases q <;> rfl

theorem root_replaceChild : (m.replaceChild s (some a) x p).root = m.root := by
  rw [replaceChild]
  split <;> exact root_setChild

theorem child_setParentOf : (m.setParentOf q p).child s y = m.child s y := by
  cases q with
  | none => rfl
  | some x => exact child_setParent

/-- Writes to different nodes may be exchanged. -/
theorem setNode_comm {n n' : RbNode α} (h : x ≠ y) :
    (m.setNode x n).setNode y n' = (m.setNode y n').setNode x n := by
  rw [setNode, setNode, setNode, setNode, Function.update_comm h]

theorem setChild_eq (s : Side) (x : α) (p : Option α) :
    ∃ g : RbNode α → RbNode α, ∀ m : RbMem α, m.setChild s x p = m.setNode x (g (m.node x)) := by
  cases s with
  | left => exact ⟨fun n => { n with left := p }, fun _ => rfl⟩
  | right => exact ⟨fun n => { n with right := p }, fun _ => rfl⟩

theorem replaceChild_comm {g : RbNode α → RbNode α} (h : q ≠ some y) :
    (m.replaceChild s q x p).setNode y (g ((m.replaceChild s q x p).node y)) =
      (m.setNode y (g (m.node y))).replaceChild s q x p := by
  rw [node_replaceChild_ne h]
  cases q with
  | none => rfl
  | some z =>
      have hne : z ≠ y := fun heq => h (by rw [heq])
      have hchild : ∀ s', (m.setNode y (g (m.node y))).setChild s' z p =
          (m.setChild s' z p).setNode y (g (m.node y)) := fun s' => by
        obtain ⟨k, hk⟩ := setChild_eq s' z p
        rw [hk, hk, node_setNode_ne hne, setNode_comm hne]
      rw [replaceChild, replaceChild, child_of_agree (node_setNode_ne hne)]
      split
      · exact (hchild s).symm
      · exact (hchild s.other).symm

theorem replaceChild_setChild (h : q ≠ some y) {v : Option α} :
    (m.replaceChild s q x p).setChild s' y v = (m.setChild s' y v).replaceChild s q x p := by
  obtain ⟨k, hk⟩ := setChild_eq s' y v
  rw [hk, hk]
  exact replaceChild_comm h

theorem replaceChild_setParentOf {v w : Option α} (h : ∀ y, v = some y → q ≠ some y) :
    (m.replaceChild s q x p).setParentOf v w = (m.setParentOf v w).replaceChild s q x p := by
  cases v with
  | none => rfl
  | some y => exact replaceChild_comm (g := fun n => { n with parent := w }) (h y rfl)

/-- The tree gets another parent. -/
theorem Tree.setParentOf (h : m.Tree p t) (hnodup : (inorder t).Nodup) :
    (m.setParentOf (rootOf t) q).Tree q t := by
  cases t with
  | nil => trivial
  | node red l a r =>
      obtain ⟨⟨-, hred, hl, hr⟩, htl, htr⟩ := h
      obtain ⟨-, -, hal, har, -⟩ := (nodup_branch (s := .left)).mp hnodup
      rw [rootOf, RbMem.setParentOf]
      refine ⟨⟨parent_setParent, ?_, ?_, ?_⟩, htl.congr fun x hx => ?_, htr.congr fun x hx => ?_⟩
      · rw [red_setParent, hred]
      · rw [child_setParent, hl]
      · rw [child_setParent, hr]
      · exact node_setParent_ne (ne_of_mem_of_not_mem hx hal)
      · exact node_setParent_ne (ne_of_mem_of_not_mem hx har)

theorem node_assign_ne (h : y ∉ sides path) :
    (m.assign (linkOf path) p).node y = m.node y := by
  cases path with
  | nil => rfl
  | cons f path => exact node_setChild_ne fun heq => h (mem_sides_cons.mpr (.inl heq))

/-- Another pointer at the place. -/
theorem Above.assign (h : m.Above hole path) (hnodup : (sides path).Nodup) :
    (m.assign (linkOf path) p).Above p path := by
  cases path with
  | nil => trivial
  | cons f path =>
      obtain ⟨⟨hparent, hred, -, hsib⟩, htree, hrest⟩ := h
      obtain ⟨⟨-, hlabel⟩, -, hlabel', -⟩ := nodup_sides_cons.mp hnodup
      rw [linkOf, RbMem.assign]
      refine ⟨⟨?_, ?_, child_setChild, ?_⟩, htree.congr fun y hy => ?_, hrest.congr fun y hy => ?_⟩
      · rw [parent_setChild, hparent]
      · rw [red_setChild, hred]
      · rw [child_setChild_other, hsib]
      · exact node_setChild_ne (ne_of_mem_of_not_mem hy hlabel)
      · exact node_setChild_ne (ne_of_mem_of_not_mem hy hlabel')

/-- The test on the parent's child tells the side. -/
theorem replaceChild_eq (h : m.Above (some x) path) (hx : x ∉ sides path) :
    m.replaceChild s (above path) x p = m.assign (linkOf path) p := by
  cases path with
  | nil => rfl
  | cons f path =>
      obtain ⟨⟨-, -, hhole, hsib⟩, -⟩ := h
      rw [mem_sides_cons, not_or, not_or] at hx
      rw [above, replaceChild, linkOf, RbMem.assign]
      by_cases hside : f.side = s
      · rw [if_pos (hside ▸ hhole), hside]
      · have hother := Side.eq_other_of_ne hside
        rw [hother, Side.other_other] at hsib
        rw [if_neg fun heq => hx.2.1 (rootOf_mem (hsib ▸ heq)), hother]

theorem Above.replaceChild (h : m.Above (some x) path) (hx : x ∉ sides path)
    (hnodup : (sides path).Nodup) : (m.replaceChild s (above path) x p).Above p path := by
  rw [replaceChild_eq h hx]
  exact h.assign hnodup

/-! ## Writing at a place -/

/-- The root pointer after a node has got another subtree. -/
theorem root_replace (t' : ColoredTree α)
    (h : m.root = if held then rootOf (plug t path) else none) :
    (m.replaceChild s (above path) x (rootOf t')).root =
      if held || path.isEmpty then rootOf (plug t' path) else none := by
  cases path with
  | nil => simp [RbMem.replaceChild, above, setRoot]
  | cons f path =>
      rw [above, root_replaceChild, h, rootOf_plug_cons t t']
      simp

/-- A node is recoloured. -/
theorem Holds.setRed (h : Holds m₀ m held (plug (branch s red near a far) path))
    (red' : Bool) :
    Holds m₀ (m.setRed a red') held (plug (branch s red' near a far) path) := by
  obtain ⟨htree, habove, hnodup, hsides, hdisjoint⟩ := h.place
  obtain ⟨⟨hparent, -, hnear, hfar⟩, htnear, htfar⟩ := tree_branch.mp htree
  obtain ⟨-, -, han, haf, -⟩ := nodup_branch.mp hnodup
  have ha := hdisjoint a (mem_branch.mpr (.inr (.inl rfl)))
  have horder : inorder (plug (branch s red' near a far) path) =
      inorder (plug (branch s red near a far) path) :=
    inorder_plug_congr (inorder_branch rfl rfl)
  refine ⟨tree_plug.mpr ⟨tree_branch.mpr ⟨⟨?_, red_setRed, ?_, ?_⟩, ?_, ?_⟩, ?_⟩, ?_, ?_, ?_⟩
  · rw [parent_setRed, hparent]
  · rw [child_setRed, hnear]
  · rw [child_setRed, hfar]
  · exact htnear.congr fun y hy => node_setRed_ne (ne_of_mem_of_not_mem hy han)
  · exact htfar.congr fun y hy => node_setRed_ne (ne_of_mem_of_not_mem hy haf)
  · rw [rootOf_branch] at habove ⊢
    exact habove.congr fun y hy => node_setRed_ne (ne_of_mem_of_not_mem hy ha)
  · rw [root_setRed, h.root]
    cases path with
    | nil => simp
    | cons f path => rw [rootOf_plug_cons]
  · rw [horder]
    exact h.nodup
  · intro y hy
    rw [horder] at hy
    have hne : y ≠ a := by
      rintro rfl
      exact hy (mem_plug_iff.mpr (.inl (mem_branch.mpr (.inr (.inl rfl)))))
    rw [node_setRed_ne hne, h.rest y hy]

/-- `rb_set_black` -/
theorem Holds.setBlack (h : Holds m₀ m held (plug t path)) (hx : rootOf t = some x) :
    Holds m₀ (m.setRed x false) held (plug (blacken t) path) := by
  rcases exists_branch .left t with rfl | ⟨red, near, a, far, rfl⟩
  · cases hx
  · rw [rootOf_branch] at hx
    cases hx
    rw [blacken_branch]
    exact h.setRed false

/-- What a rotation writes. -/
theorem rotate_eq (hright : m.child s.other a = some b) (hab : b ≠ a) :
    RbMem.rotate s a m = some ((((((m.setChild s.other a (m.child s b)).setParentOf (m.child s b)
      (some a)).setChild s b (some a)).setParent b (m.parent a)).replaceChild s (m.parent a) a
        (some b)).setParent a (some b)) := by
  rw [RbMem.rotate, hright, Option.bind_eq_bind, Option.bind_some]
  dsimp only
  rw [child_setChild_ne hab]

/-- A rotation. At the root it sets the pointer. -/
theorem Holds.rotate
    (h : Holds m₀ m held
      (plug (branch s red near a (branch s red' near' b far')) path)) :
    ∃ m', RbMem.rotate s a m = some m' ∧ Holds m₀ m' (held || path.isEmpty)
      (plug (branch s red' (branch s red near a near') b far') path) := by
  obtain ⟨htree, habove, hnodup, hsides, hdisjoint⟩ := h.place
  obtain ⟨⟨hpa, hra, hna, hfa⟩, htnear, htb⟩ := tree_branch.mp htree
  obtain ⟨⟨-, hrb, hnb, hfb⟩, htnear', htfar'⟩ := tree_branch.mp htb
  obtain ⟨-, hnodupb, han, hab, hnf⟩ := nodup_branch.mp hnodup
  obtain ⟨hnodup', -, hbn, hbf, hnf'⟩ := nodup_branch.mp hnodupb
  rw [rootOf_branch] at hfa habove
  simp only [mem_branch, not_or] at hab hnf hdisjoint
  have hba : b ≠ a := Ne.symm hab.2.1
  have hnear' : ∀ y, y ∉ inorder near' → rootOf near' ≠ some y := fun y hy heq =>
    hy (rootOf_mem heq)
  have hpath : ∀ y, y ∉ sides path → above path ≠ some y := fun y hy heq =>
    hy (mem_sides_of_above heq)
  refine ⟨_, rotate_eq hfa hba, ?_⟩
  rw [hnb, hpa]
  -- Which nodes the writes leave alone, from the beginning or from some write on.
  obtain ⟨m₁, hm₁⟩ : ∃ m₁, m.setChild s.other a (rootOf near') = m₁ := ⟨_, rfl⟩
  obtain ⟨m₂, hm₂⟩ : ∃ m₂, m₁.setParentOf (rootOf near') (some a) = m₂ := ⟨_, rfl⟩
  obtain ⟨m₄, hm₄⟩ : ∃ m₄, (m₂.setChild s b (some a)).setParent b (above path) = m₄ := ⟨_, rfl⟩
  obtain ⟨m₅, hm₅⟩ : ∃ m₅, m₄.replaceChild s (above path) a (some b) = m₅ := ⟨_, rfl⟩
  rw [hm₁, hm₂, hm₄, hm₅]
  have h₁ : ∀ y, y ≠ a → m₁.node y = m.node y := fun y ha => by
    rw [← hm₁, node_setChild_ne ha]
  have h₂ : ∀ y, y ∉ inorder near' → m₂.node y = m₁.node y := fun y hy => by
    rw [← hm₂, node_setParentOf_ne (hnear' y hy)]
  have h₄ : ∀ y, y ≠ b → m₄.node y = m₂.node y := fun y hy => by
    rw [← hm₄, node_setParent_ne hy, node_setChild_ne hy]
  have h₅ : ∀ y, y ∉ sides path → m₅.node y = m₄.node y := fun y hy => by
    rw [← hm₅, node_replaceChild_ne (hpath y hy)]
  have h₆ : ∀ y, y ≠ a → (m₅.setParent a (some b)).node y = m₅.node y := fun y hy =>
    node_setParent_ne hy
  have hkeep : ∀ y, y ≠ a → y ≠ b → y ∉ inorder near' → y ∉ sides path →
      (m₅.setParent a (some b)).node y = m.node y := fun y ha hb hn hs =>
    (h₆ y ha).trans ((h₅ y hs).trans ((h₄ y hb).trans ((h₂ y hn).trans (h₁ y ha))))
  have hsa : a ∉ sides path := hdisjoint a (.inr (.inl rfl))
  have hsb : b ∉ sides path := hdisjoint b (.inr (.inr (.inr (.inl rfl))))
  have ha₅ : m₅.node a = m₁.node a :=
    (h₅ a hsa).trans ((h₄ a hab.2.1).trans (h₂ a hab.1))
  have hb₄ : (m₅.setParent a (some b)).node b = m₄.node b := (h₆ b hba).trans (h₅ b hsb)
  have hb₂ : m₂.node b = m.node b := (h₂ b hbn).trans (h₁ b hba)
  have horder : inorder (plug (branch s red'
      (branch s red near a near') b far') path) =
        inorder (plug (branch s red near a
          (branch s red' near' b far')) path) :=
    inorder_plug_congr (inorder_rotate rotate_branch)
  refine ⟨tree_plug.mpr ⟨tree_branch.mpr ⟨⟨?_, ?_, ?_, ?_⟩, tree_branch.mpr ⟨⟨parent_setParent,
    ?_, ?_, ?_⟩, ?_, ?_⟩, ?_⟩, ?_⟩, ?_, ?_, fun y hy => ?_⟩
  · rw [parent, hb₄, ← hm₄]
    exact parent_setParent
  · rw [RbMem.red, hb₄, ← RbMem.red, ← hm₄, red_setParent, red_setChild, RbMem.red, hb₂]
    exact hrb
  · rw [child_of_agree hb₄, ← hm₄, child_setParent, child_setChild, rootOf_branch]
  · rw [child_of_agree hb₄, ← hm₄, child_setParent, child_setChild_other, child_of_agree hb₂, hfb]
  · rw [red_setParent, RbMem.red, ha₅, ← RbMem.red, ← hm₁, red_setChild, hra]
  · rw [child_setParent, child_of_agree ha₅, ← hm₁, child_setChild_of_other, hna]
  · rw [child_setParent, child_of_agree ha₅, ← hm₁, child_setChild]
  · exact htnear.congr fun y hy => hkeep y (ne_of_mem_of_not_mem hy han) (hnf y hy).2.1
      (hnf y hy).1 (hdisjoint y (.inl hy))
  · have hmoved : m₂.Tree (some a) near' := by
      rw [← hm₂]
      exact (htnear'.congr fun y hy => h₁ y (ne_of_mem_of_not_mem hy hab.1)).setParentOf hnodup'
    exact hmoved.congr fun y hy => (h₆ y (ne_of_mem_of_not_mem hy hab.1)).trans
      ((h₅ y (hdisjoint y (.inr (.inr (.inl hy))))).trans (h₄ y (ne_of_mem_of_not_mem hy hbn)))
  · exact htfar'.congr fun y hy => hkeep y (ne_of_mem_of_not_mem hy hab.2.2)
      (ne_of_mem_of_not_mem hy hbf) (fun hn => hnf' y hn hy)
      (hdisjoint y (.inr (.inr (.inr (.inr hy)))))
  · have habove₄ : m₄.Above (some a) path := habove.congr fun y hy => by
      have hne : ∀ z, z ∉ sides path → y ≠ z := fun z hz => ne_of_mem_of_not_mem hy hz
      refine (h₄ y (hne b hsb)).trans ((h₂ y fun hn => ?_).trans (h₁ y (hne a hsa)))
      exact hdisjoint y (.inr (.inr (.inl hn))) hy
    rw [rootOf_branch]
    refine Above.congr (m := m₅) ?_ fun y hy => h₆ y (ne_of_mem_of_not_mem hy hsa)
    rw [← hm₅]
    exact habove₄.replaceChild hsa hsides
  · have hroot₄ : m₄.root = if held then rootOf (plug (branch s red near a
        (branch s red' near' b far')) path) else none := by
      rw [← h.root, ← hm₄, root_setParent, root_setChild, ← hm₂, root_setParentOf, ← hm₁,
        root_setChild]
    have hroot₅ := root_replace (s := s) (x := a)
      (branch s red' (branch s red near a near') b far') hroot₄
    rw [rootOf_branch] at hroot₅
    rw [root_setParent, ← hm₅]
    exact hroot₅
  · rw [horder]
    exact h.nodup
  · rw [horder, mem_plug_iff, mem_branch, mem_branch] at hy
    push Not at hy
    rw [hkeep y hy.1.2.1 hy.1.2.2.2.1 hy.1.2.2.1 hy.2]
    refine h.rest y ?_
    rw [mem_plug_iff, mem_branch, mem_branch]
    push Not
    exact hy

/-- A rotation that brings the child on the side up. -/
theorem Holds.rotate_other
    (h : Holds m₀ m held (plug (branch s red (branch s red' near' b far') a far) path)) :
    ∃ m', RbMem.rotate s.other a m = some m' ∧ Holds m₀ m' (held || path.isEmpty)
      (plug (branch s red' near' b (branch s red far' a far)) path) := by
  have hview : Holds m₀ m held
      (plug (branch s.other red far a (branch s.other red' far' b near')) path) := by
    rw [branch_other, branch_other]
    exact h
  have hrotated := hview.rotate
  simp only [branch_other] at hrotated
  exact hrotated

end Writes

end Ptrtd.RbMem
