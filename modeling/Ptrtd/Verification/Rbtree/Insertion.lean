import Ptrtd.Verification.Rbtree.Memory

/-! # Insertion in memory

`rb_insert_color` does to the tree in memory what `insertFix` does to the tree. -/

namespace Ptrtd.RbMem

open SearchTree

variable {α : Type*} [DecidableEq α] {m m₀ m' : RbMem α} {t t' : ColoredTree α} {a x node : α}
  {f g : Frame α} {path : List (Frame α)} {fuel : ℕ}

/-! ## A new leaf -/

/-- `rb_link_node` makes a red leaf. -/
theorem Holds.linkNode (h : Holds m₀ m true (plug .nil path))
    (hx : x ∉ inorder (plug .nil path)) :
    Holds m₀ (m.linkNode x (above path) (linkOf path)) true
      (plug (.node true .nil x .nil) path) := by
  obtain ⟨-, habove, -, hsides, -⟩ := h.place
  have hxs : x ∉ sides path := fun hin => hx (mem_plug_iff.mpr (.inr hin))
  obtain ⟨m₁, hm₁⟩ : ∃ m₁, m.setNode x ⟨above path, true, none, none⟩ = m₁ := ⟨_, rfl⟩
  have h₁ : ∀ y, y ≠ x → m₁.node y = m.node y := fun y hy => by
    rw [← hm₁, node_setNode_ne hy]
  have hleaf : (m₁.assign (linkOf path) (some x)).node x = ⟨above path, true, none, none⟩ := by
    rw [node_assign_ne hxs, ← hm₁, setNode]
    exact Function.update_self _ _ _
  rw [RbMem.linkNode, hm₁]
  refine ⟨tree_plug.mpr ⟨⟨⟨?_, ?_, ?_, ?_⟩, trivial, trivial⟩, ?_⟩, ?_, nodup_plug.mpr ⟨?_, hsides,
    fun y hy => ?_⟩, fun y hy => ?_⟩
  · rw [parent, hleaf]
  · rw [RbMem.red, hleaf]
  · rw [child, hleaf]
    rfl
  · rw [child, hleaf]
    rfl
  · exact (habove.congr fun y hy => h₁ y (ne_of_mem_of_not_mem hy hxs)).assign hsides
  · cases path with
    | nil => rfl
    | cons f path =>
        rw [linkOf, assign, root_setChild, ← hm₁, if_pos rfl, rootOf_plug_cons _ .nil]
        exact h.root
  · exact List.nodup_singleton x
  · obtain rfl := List.mem_singleton.mp hy
    exact hxs
  · rw [mem_plug_iff, not_or] at hy
    have hyx : y ≠ x := fun heq => hy.1 (heq ▸ List.mem_singleton_self x)
    rw [node_assign_ne hy.2, h₁ y hyx]
    refine h.rest y ?_
    rw [mem_plug_iff, not_or]
    exact ⟨List.not_mem_nil, hy.2⟩

/-! ## The repair -/

/-- The last assignment: the root becomes black. -/
theorem Holds.blackenRoot (h : Holds m₀ m true t) (hx : rootOf t ≠ none) :
    ∃ m', (do let root ← m.root; some (m.setRed root false)) = some m' ∧
      Holds m₀ m' true (blacken t) := by
  obtain ⟨x, hx⟩ := Option.ne_none_iff_exists'.mp hx
  have hroot : m.root = some x := by rw [h.root, if_pos rfl, hx]
  refine ⟨m.setRed x false, by rw [hroot]; rfl, ?_⟩
  have hplug : Holds m₀ m true (plug t []) := h
  exact hplug.setBlack hx

/-- A black parent, or none, ends the loop. -/
theorem insertColor_stop (fuel : ℕ) (h : Holds m₀ m true (plug t path)) (hx : rootOf t = some node)
    (hblack : ∀ f ∈ path.head?, f.red = false) :
    ∃ m', insertColor (fuel + 1) node m = some m' ∧
      Holds m₀ m' true (blacken (plug t path)) := by
  have hparent := h.parent_eq hx
  cases path with
  | nil =>
      rw [insertColor, hparent]
      exact h.blackenRoot (by rw [plug_nil, hx]; exact Option.some_ne_none _)
  | cons f path =>
      have hred : m.red f.label = false := h.frame.2.1.trans (hblack f rfl)
      have hroot : rootOf (plug t (f :: path)) ≠ none := by
        rw [Ne, rootOf_eq_none_iff]
        intro hnil
        have hmem : node ∈ inorder (plug t (f :: path)) := mem_plug_iff.mpr (.inl (rootOf_mem hx))
        rw [hnil] at hmem
        cases hmem
      rw [insertColor, hparent]
      dsimp only [above]
      rw [if_neg (by simp [hred])]
      exact h.blackenRoot hroot

/-- A red uncle: three nodes are recoloured. -/
theorem insertRound_recolor (node : α) (h : Holds m₀ m true (plug t (f :: g :: path)))
    (huncle : isRed g.sibling = true) :
    ∃ m', insertRound g.side g.label f.label node m = some (m', g.label) ∧ Holds m₀ m' true
      (plug (branch g.side true (blacken (f.fill t)) g.label (blacken g.sibling)) path) := by
  obtain ⟨u, hu⟩ : ∃ u, rootOf g.sibling = some u := by
    rw [← Option.ne_none_iff_exists', Ne, rootOf_eq_none_iff]
    intro hnil
    rw [hnil] at huncle
    cases huncle
  have hg : Holds m₀ m true (plug (f.fill t) (g :: path)) := h
  have hchild : m.child g.side.other g.label = some u := hg.frame.2.2.2.trans hu
  have hred : m.isBlack (some u) = false := by
    rw [← hu, hg.place.2.1.2.1.isBlack, huncle]
    rfl
  have hround : insertRound g.side g.label f.label node m =
      some (((m.setRed u false).setRed f.label false).setRed g.label true, g.label) := by
    rw [insertRound, hchild, if_neg (by simp [hred])]
    rfl
  refine ⟨_, hround, ?_⟩
  have hfar : Holds m₀ m true
      (plug g.sibling (⟨g.side.other, g.red, g.label, f.fill t⟩ :: path)) := by
    rw [plug_cons, Frame.fill, branch_other]
    exact h
  have hsecond := hfar.setBlack hu
  rw [plug_cons, Frame.fill, branch_other] at hsecond
  have hparent : Holds m₀ ((m.setRed u false)) true
      (plug (f.fill t) (⟨g.side, g.red, g.label, blacken g.sibling⟩ :: path)) := hsecond
  have hthird := hparent.setBlack rootOf_fill
  exact Holds.setRed hthird true

/-- The parent is rotated if the node is on its inner side. -/
theorem insertInner_spec (h : Holds m₀ m true (plug t (f :: path))) (hx : rootOf t = some node)
    (s : Side) : ∃ m' node' t' f', straighten s f t = some (Frame.fill f' t') ∧ f'.side = s ∧
      rootOf t' = some node' ∧ insertInner s f.label node m = some (m', f'.label, node') ∧
        Holds m₀ m' true (plug t' (f' :: path)) := by
  obtain ⟨-, -, hhole, hsib⟩ := h.frame
  by_cases hside : f.side = s
  · subst hside
    refine ⟨m, node, t, f, if_pos rfl, rfl, hx, ?_, h⟩
    rw [insertInner, hsib, if_neg]
    rw [← hx]
    exact (h.siblings (.inl (by simp [hx]))).symm
  · have hother := Side.eq_other_of_ne hside
    rcases exists_branch s t with rfl | ⟨red, near, x, far, rfl⟩
    · cases hx
    · rw [rootOf_branch] at hx hhole
      obtain rfl := Option.some.inj hx
      rw [plug_cons, fill_eq_of_other hother] at h
      obtain ⟨m', hrotate, hholds⟩ := h.rotate
      rw [Bool.true_or] at hholds
      refine ⟨m', f.label, branch s f.red f.sibling f.label near, ⟨s, red, x, far⟩, ?_, rfl,
        rootOf_branch, ?_, hholds⟩
      · rw [straighten, if_neg hside, fill_eq_of_other hother, rotate_branch]
        rfl
      · rw [hother] at hhole
        rw [insertInner, if_pos hhole, hrotate]
        rfl

/-- The uncle is black: the rotations leave a black node above. -/
theorem insertRound_rotate (h : Holds m₀ m true (plug t (f :: g :: path)))
    (hx : rootOf t = some node) (huncle : isRed g.sibling = false) :
    ∃ m' parent node' t' f', straighten g.side f t = some parent ∧
      SearchTree.rotate g.side.other (branch g.side true (blacken parent) g.label g.sibling) =
        some (Frame.fill f' t') ∧
      insertRound g.side g.label f.label node m = some (m', node') ∧
      rootOf t' = some node' ∧ f'.red = false ∧ Holds m₀ m' true (plug t' (f' :: path)) := by
  have hg : Holds m₀ m true (plug (f.fill t) (g :: path)) := h
  have hblack : m.isBlack (m.child g.side.other g.label) = true := by
    rw [hg.frame.2.2.2, hg.place.2.1.2.1.isBlack, huncle]
    rfl
  obtain ⟨m₁, node', t', f', hstraight, hside, hx', hinner, h₁⟩ := insertInner_spec h hx g.side
  have hfill : Holds m₀ m₁ true (plug (f'.fill t') (g :: path)) := h₁
  have h₂ := hfill.setBlack rootOf_fill
  rw [Frame.fill, hside, blacken_branch] at h₂
  have h₃ : Holds m₀ (m₁.setRed f'.label false) true
      (plug (branch g.side g.red (branch g.side false t' f'.label f'.sibling) g.label g.sibling)
        path) := h₂
  obtain ⟨m', hrotate, hholds⟩ := (h₃.setRed true).rotate_other
  rw [Bool.true_or] at hholds
  refine ⟨m', _, node', t', ⟨g.side, false, f'.label, branch g.side true f'.sibling g.label
    g.sibling⟩, hstraight, ?_, ?_, hx', rfl, hholds⟩
  · rw [Frame.fill, hside, blacken_branch, SearchTree.rotate_other]
    rfl
  · rw [insertRound, if_pos hblack, hinner]
    dsimp only [Option.bind_eq_bind, Option.bind_some]
    rw [hrotate]
    rfl

/-- `rb_insert_color` computes the repair, with enough rounds. -/
theorem insertColor_refines (h : Holds m₀ m true (plug t path)) (hx : rootOf t = some node)
    (hfuel : path.length < fuel) :
    Option.Rel (Holds m₀ · true ·) (insertColor fuel node m) (insertFix t path) := by
  induction t, path using insertFix.induct generalizing m node fuel with
  | case1 t =>
      obtain ⟨fuel, rfl⟩ := Nat.exists_eq_succ_of_ne_zero (Nat.ne_zero_of_lt hfuel)
      obtain ⟨m', heq, hholds⟩ := insertColor_stop fuel h hx (by simp)
      rw [heq]
      exact .some hholds
  | case2 t f hred =>
      obtain ⟨fuel, rfl⟩ := Nat.exists_eq_succ_of_ne_zero (Nat.ne_zero_of_lt hfuel)
      obtain ⟨hparent, hfred, -⟩ := h.frame
      rw [insertColor, h.parent_eq hx, insertFix, if_pos hred]
      dsimp only [above]
      rw [if_pos (hfred.trans hred), hparent]
      exact .none
  | case3 t f hblack =>
      obtain ⟨fuel, rfl⟩ := Nat.exists_eq_succ_of_ne_zero (Nat.ne_zero_of_lt hfuel)
      obtain ⟨m', heq, hholds⟩ := insertColor_stop fuel h hx (by simpa using hblack)
      rw [heq, insertFix, if_neg hblack]
      exact .some hholds
  | case4 t f g path hred huncle ih =>
      obtain ⟨fuel, rfl⟩ := Nat.exists_eq_succ_of_ne_zero (Nat.ne_zero_of_lt hfuel)
      obtain ⟨hparent, hfred, -⟩ := h.frame
      have hg : Holds m₀ m true (plug (f.fill t) (g :: path)) := h
      have hside := hg.side_eq (by simp)
      rw [rootOf_fill] at hside
      obtain ⟨m', hround, hholds⟩ := insertRound_recolor node h huncle
      rw [insertColor, h.parent_eq hx, insertFix, if_pos hred, if_pos huncle]
      dsimp only [above]
      rw [if_pos (hfred.trans hred), hparent]
      dsimp only [above, Option.bind_eq_bind, Option.bind_some]
      rw [hside, hround]
      refine ih hholds rootOf_branch ?_
      simp only [List.length_cons] at hfuel
      omega
  | case5 t f g path hred huncle =>
      obtain ⟨fuel, rfl⟩ := Nat.exists_eq_succ_of_ne_zero (Nat.ne_zero_of_lt hfuel)
      obtain ⟨hparent, hfred, -⟩ := h.frame
      have hg : Holds m₀ m true (plug (f.fill t) (g :: path)) := h
      have hside := hg.side_eq (by simp)
      rw [rootOf_fill] at hside
      obtain ⟨m', parent, node', t', f', hstraight, htop, hround, hx', hblack, hholds⟩ :=
        insertRound_rotate h hx (by simpa using huncle)
      obtain ⟨fuel, rfl⟩ : ∃ k, fuel = k + 1 := by
        simp only [List.length_cons] at hfuel
        exact ⟨fuel - 1, by omega⟩
      obtain ⟨m'', hstop, hdone⟩ :=
        insertColor_stop fuel hholds hx' (by simpa using hblack)
      rw [insertColor, h.parent_eq hx, insertFix, if_pos hred, if_neg huncle]
      dsimp only [above]
      rw [if_pos (hfred.trans hred), hparent]
      dsimp only [above, Option.bind_eq_bind, Option.bind_some]
      rw [hside, hround, hstraight]
      dsimp only [Option.bind_some]
      rw [hstop, htop]
      exact .some hdone
  | case6 t f g path hblack =>
      obtain ⟨fuel, rfl⟩ := Nat.exists_eq_succ_of_ne_zero (Nat.ne_zero_of_lt hfuel)
      obtain ⟨m', heq, hholds⟩ := insertColor_stop fuel h hx (by simpa using hblack)
      rw [heq, insertFix, if_neg hblack]
      exact .some hholds

end Ptrtd.RbMem
