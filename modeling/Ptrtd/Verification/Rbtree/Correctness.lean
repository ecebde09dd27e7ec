import Ptrtd.Verification.Rbtree.Erasure
import Ptrtd.Verification.Rbtree.Insertion

/-! # The functions of `rbtree.c` on red-black trees

No null pointer is followed, the loops end after logarithmically many rounds, and the tree is
red-black again. -/

namespace Ptrtd.RbMem

open Lockstep SearchTree

variable {α : Type*} [DecidableEq α] {m m' : RbMem α} {t : ColoredTree α} {x : α} {held : Bool}
  {path : List (Frame α)} {fuel : ℕ}

/-- A place found by its element. -/
theorem exists_place (hx : x ∈ inorder t) :
    ∃ red l r path, t = plug (.node red l x r) path := by
  obtain ⟨⟨t', path⟩, hlocate⟩ := Option.ne_none_iff_exists'.mp
    (mt locate_eq_none_iff.mp (not_not_intro hx) : locate x t [] ≠ none)
  obtain ⟨hplug, red, l, r, rfl⟩ := locate_plug hlocate
  exact ⟨red, l, r, path, hplug.symm⟩

theorem balanced_pair : Balanced (.node false .nil 1 (.node true .nil 2 .nil) : ColoredTree ℕ) :=
  ⟨rfl, 1, 0, rfl, rfl, ⟨rfl, rfl⟩, rfl, rfl⟩

/-- A new leaf at any free place, and the repair. -/
theorem insertColor_correct (h : Holds m m true (plug .nil path))
    (hbalanced : Balanced (plug .nil path)) (hx : x ∉ inorder (plug .nil path))
    (hfuel : 2 * Nat.log 2 ((inorder (plug .nil path)).length + 1) < fuel) :
    ∃ m' t', (m.linkNode x (above path) (linkOf path)).insertColor fuel x = some m' ∧
      Holds m m' true t' ∧ Balanced t' ∧
        inorder t' = (after .right path).reverse ++ x :: after .left path := by
  obtain ⟨n, hleaf, hfits, -⟩ := redBlack_of_plug hbalanced.2.choose_spec hbalanced.1
  obtain rfl : n = 0 := hleaf
  have hnew : RedBlack (.node true .nil x .nil) 0 := ⟨⟨rfl, rfl⟩, rfl, rfl⟩
  have hlength : path.length < fuel := by
    have hle := length_add_height_le .nil path
    have hheight := hbalanced.height_le
    omega
  obtain ⟨t', hfix, hbalanced'⟩ := insertFix_balanced hnew rfl hfits
  have hrefines := insertColor_refines (h.linkNode hx) rfl hlength
  rw [hfix] at hrefines
  obtain ⟨m', hresult, hholds⟩ := exists_of_rel hrefines
  have hrest : Holds m m' true t' := hholds
  refine ⟨m', t', hresult, hrest, hbalanced', ?_⟩
  rw [inorder_insertFix hfix, inorder_plug]
  simp [inorder]

/-- Below 2 there would be two red nodes. -/
theorem insertColor_correct_pair : ∃ m' t', (pair.linkNode 3 (some 2) (.child .right 2)).insertColor
    4 3 = some m' ∧ Holds pair m' true t' ∧ Balanced t' ∧ inorder t' = [1, 2, 3] :=
  insertColor_correct (show Holds pair pair true
    (plug .nil [⟨.right, true, 2, .nil⟩, ⟨.right, false, 1, .nil⟩]) from holds_pair)
    balanced_pair (by decide) (by decide)

/-- Any node, in any tree: whatever the shape, and whether the root pointer leads to the tree or
not, the others stay in order if the function returns. -/
theorem erase_keeps_order (h : Holds m m held t) (hx : x ∈ inorder t) (hfuel : height t ≤ fuel)
    (hresult : m.erase fuel x = some m') :
    ∃ held' t', Holds m m' held' t' ∧ inorder t' = (inorder t).erase x ∧
      (held = true → held' = true) := by
  obtain ⟨red, l, r, path, rfl⟩ := exists_place hx
  have hrefines := erase_refines h hfuel
  rw [hresult] at hrefines
  obtain ⟨⟨held', t'⟩, hfix, hholds⟩ := rel_exists hrefines
  refine ⟨held', t', hholds, ?_, ?_⟩
  · rw [← eraseOf_plug h.nodup] at hfix
    exact inorder_eraseOf hfix
  · rintro rfl
    exact eraseAt_held hfix

theorem holds_lost : Holds (pair.setRoot none) (pair.setRoot none) false
    (.node false .nil 1 (.node true .nil 2 .nil)) where
  tree := ⟨⟨rfl, rfl, rfl, rfl⟩, trivial, ⟨rfl, rfl, rfl, rfl⟩, trivial, trivial⟩
  root := rfl
  nodup := by decide
  rest _ _ := rfl

/-- The root of a lost tree is taken out. -/
theorem erase_keeps_order_lost : ∃ m', (pair.setRoot none).erase 3 1 = some m' ∧
    ∃ held' t', Holds (pair.setRoot none) m' held' t' ∧ inorder t' = [2] ∧
      (false = true → held' = true) :=
  ⟨_, rfl, erase_keeps_order (x := 1) holds_lost (by decide) (show _ ≤ 3 by decide) rfl⟩

theorem erase_of_balanced (h : Holds m m true t) (hbalanced : Balanced t) (hx : x ∈ inorder t)
    (hfuel : height t ≤ fuel) :
    ∃ m' t', m.erase fuel x = some m' ∧ Holds m m' true t' ∧ Balanced t' ∧
      inorder t' = (inorder t).erase x := by
  obtain ⟨red, l, r, path, rfl⟩ := exists_place hx
  obtain ⟨t', herase, hbalanced'⟩ := eraseAt_balanced hbalanced
  have hrefines := erase_refines h hfuel
  rw [herase] at hrefines
  obtain ⟨m', hresult, hholds⟩ := exists_of_rel hrefines
  refine ⟨m', t', hresult, hholds, hbalanced', ?_⟩
  rw [← eraseOf_plug h.nodup] at herase
  exact inorder_eraseOf herase

/-- Any node of a red-black tree is taken out. -/
theorem erase_correct (h : Holds m m true t) (hbalanced : Balanced t) (hx : x ∈ inorder t)
    (hfuel : 2 * Nat.log 2 ((inorder t).length + 1) ≤ fuel) :
    ∃ m' t', m.erase fuel x = some m' ∧ Holds m m' true t' ∧ Balanced t' ∧
      inorder t' = (inorder t).erase x :=
  erase_of_balanced h hbalanced hx (hbalanced.height_le.trans hfuel)

theorem erase_correct_pair : ∃ m' t', pair.erase 2 1 = some m' ∧ Holds pair m' true t' ∧
    Balanced t' ∧ inorder t' = [2] :=
  erase_correct holds_pair balanced_pair (by decide) (by decide)

end Ptrtd.RbMem
