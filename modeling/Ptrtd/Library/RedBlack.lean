import Mathlib.Data.Nat.Log
import Mathlib.Tactic.Ring
import Ptrtd.Library.Zipper

/-! # Red-black trees

A red node has no red child, and every way down passes the same number of black nodes. Insertion
leaves a red node at a place, and deletion a subtree that is one black node short; both are
repaired on the way up. Where the shape of the tree does not allow a step there is no result. -/

namespace Ptrtd.SearchTree

variable {α : Type*} {t t' l r near far : ColoredTree α} {a b x : α} {red : Bool} {s : Side}
  {n k : ℕ} {f : Frame α} {path inner : List (Frame α)}

/-! ## The invariant -/

/-- No red node has a red child, and every way down passes `n` black nodes. -/
def RedBlack : ColoredTree α → ℕ → Prop
  | .nil, n => n = 0
  | .node true l _ r, n => (isRed l = false ∧ isRed r = false) ∧ RedBlack l n ∧ RedBlack r n
  | .node false l _ r, n => ∃ k, n = k + 1 ∧ RedBlack l k ∧ RedBlack r k

/-- A red-black tree, whose root is black. -/
def Balanced (t : ColoredTree α) : Prop :=
  isRed t = false ∧ ∃ n, RedBlack t n

/-- The node above a place, which is there and black. -/
def BlackAbove : List (Frame α) → Prop
  | [] => False
  | f :: _ => f.red = false

/-- A subtree with `n` black nodes on every way down fits at the place. -/
def Fits : List (Frame α) → ℕ → Prop
  | [], _ => True
  | f :: path, n =>
      RedBlack f.sibling n ∧ (f.red = true → isRed f.sibling = false ∧ BlackAbove path) ∧
        Fits path (if f.red then n else n + 1)

theorem blackAbove_cons : BlackAbove (f :: path) ↔ f.red = false := Iff.rfl

theorem redBlack_red : RedBlack (branch s true near a far) n ↔
    (isRed near = false ∧ isRed far = false) ∧ RedBlack near n ∧ RedBlack far n := by
  cases s
  · rfl
  · rw [branch, RedBlack, and_comm (a := isRed far = false), and_comm (a := RedBlack far n)]

theorem redBlack_black : RedBlack (branch s false near a far) (n + 1) ↔
    RedBlack near n ∧ RedBlack far n := by
  cases s <;> simp [branch, RedBlack, and_comm]

theorem RedBlack.black (h : RedBlack (branch s false near a far) n) :
    ∃ k, n = k + 1 ∧ RedBlack near k ∧ RedBlack far k := by
  obtain ⟨k, rfl⟩ : ∃ k, n = k + 1 := by
    cases s <;> obtain ⟨k, rfl, -⟩ := h <;> exact ⟨k, rfl⟩
  exact ⟨k, rfl, redBlack_black.mp h⟩

/-- The elements do not matter. -/
theorem RedBlack.relabel (h : RedBlack (branch s red near a far) n) (b : α) :
    RedBlack (branch s red near b far) n := by
  cases red with
  | true => exact redBlack_red.mpr (redBlack_red.mp h)
  | false =>
      obtain ⟨k, rfl, hchildren⟩ := h.black
      exact redBlack_black.mpr hchildren

/-- A tree with black nodes below is not empty. -/
theorem RedBlack.exists_branch (h : RedBlack t (n + 1)) (s : Side) :
    ∃ red near a far, t = branch s red near a far := by
  rcases SearchTree.exists_branch s t with rfl | hbranch
  · cases h
  · exact hbranch

theorem RedBlack.blacken_of_red (h : RedBlack t n) (hred : isRed t = true) :
    RedBlack (blacken t) (n + 1) := by
  rcases SearchTree.exists_branch .left t with rfl | ⟨red, near, a, far, rfl⟩
  · cases hred
  · rw [isRed_branch] at hred
    subst hred
    rw [blacken_branch, redBlack_black]
    exact (redBlack_red.mp h).2

theorem blacken_of_black (h : isRed t = false) : blacken t = t := by
  cases t with
  | nil => rfl
  | node red l a r =>
      cases h
      rfl

theorem RedBlack.balanced_blacken (h : RedBlack t n) : Balanced (blacken t) := by
  refine ⟨isRed_blacken, ?_⟩
  cases hred : isRed t with
  | false => exact ⟨n, (blacken_of_black hred).symm ▸ h⟩
  | true => exact ⟨n + 1, h.blacken_of_red hred⟩

theorem balanced_nil : Balanced (.nil : ColoredTree α) :=
  ⟨rfl, 0, rfl⟩

/-- A tree that fits at a place makes a red-black tree, unless a red node comes under a red one. -/
theorem RedBlack.plug (h : RedBlack t n) (hfits : Fits path n)
    (hred : isRed t = true → path = [] ∨ BlackAbove path) : ∃ n, RedBlack (plug t path) n := by
  induction path generalizing t n with
  | nil => exact ⟨n, h⟩
  | cons f path ih =>
      obtain ⟨hsibling, habove, hrest⟩ := hfits
      rw [plug_cons]
      cases hf : f.red with
      | true =>
          have hblack : isRed t = false := by
            by_contra hne
            rcases hred (by simpa using hne) with hnil | hfalse
            · cases hnil
            · rw [BlackAbove, hf] at hfalse
              cases hfalse
          obtain ⟨hsib, hpath⟩ := habove hf
          rw [if_pos hf] at hrest
          refine ih ?_ hrest fun _ => .inr hpath
          rw [Frame.fill, hf, redBlack_red]
          exact ⟨⟨hblack, hsib⟩, h, hsibling⟩
      | false =>
          rw [if_neg (by simp [hf])] at hrest
          refine ih ?_ hrest fun hfill => ?_
          · rw [Frame.fill, hf, redBlack_black]
            exact ⟨h, hsibling⟩
          · rw [isRed_fill, hf] at hfill
            cases hfill

/-- At every place of a red-black tree whose root is black, the tree there is red-black and the
rest fits. -/
theorem redBlack_of_plug (h : RedBlack (plug t path) n) (hroot : isRed (plug t path) = false) :
    ∃ n, RedBlack t n ∧ Fits path n ∧ (isRed t = true → BlackAbove path) := by
  induction path generalizing t with
  | nil => exact ⟨n, h, trivial, fun hred => by rw [plug_nil, hred] at hroot; cases hroot⟩
  | cons f path ih =>
      obtain ⟨m, hfill, hfits, habove⟩ := ih h hroot
      rw [isRed_fill] at habove
      cases hf : f.red with
      | true =>
          rw [Frame.fill, hf, redBlack_red] at hfill
          obtain ⟨⟨ht, hsib⟩, htree, hsibling⟩ := hfill
          refine ⟨m, htree, ⟨hsibling, fun _ => ⟨hsib, habove hf⟩, ?_⟩, fun hred => ?_⟩
          · rw [if_pos hf]
            exact hfits
          · rw [ht] at hred
            cases hred
      | false =>
          rw [Frame.fill, hf] at hfill
          obtain ⟨k, rfl, htree, hsibling⟩ := hfill.black
          refine ⟨k, htree, ⟨hsibling, fun hred => ?_, ?_⟩, fun _ => hf⟩
          · rw [hf] at hred
            cases hred
          · rw [if_neg (by simp [hf])]
            exact hfits

/-! ## The height -/

def height : ColoredTree α → ℕ
  | .nil => 0
  | .node _ l _ r => max (height l) (height r) + 1

/-- Red and black nodes alternate at worst. -/
theorem RedBlack.height_le (h : RedBlack t n) :
    height t ≤ 2 * n + if isRed t then 1 else 0 := by
  induction t generalizing n with
  | nil => simp [height]
  | node red l a r ihl ihr =>
      cases red with
      | true =>
          obtain ⟨⟨hl, hr⟩, htl, htr⟩ := h
          have hbl := ihl htl
          have hbr := ihr htr
          rw [hl, if_neg Bool.false_ne_true] at hbl
          rw [hr, if_neg Bool.false_ne_true] at hbr
          simp only [height, isRed, if_true]
          omega
      | false =>
          obtain ⟨k, rfl, htl, htr⟩ := h
          have hbl := ihl htl
          have hbr := ihr htr
          have hone : ∀ b : Bool, (if b then 1 else 0 : ℕ) ≤ 1 := by decide
          have h1 := hone (isRed l)
          have h2 := hone (isRed r)
          simp only [height, isRed, Bool.false_eq_true, if_false]
          omega

/-- The black nodes alone make a full tree. -/
theorem RedBlack.pow_le (h : RedBlack t n) : 2 ^ n ≤ (inorder t).length + 1 := by
  induction t generalizing n with
  | nil =>
      cases h
      simp
  | node red l a r ihl ihr =>
      cases red with
      | true =>
          have hl := ihl h.2.1
          simp only [inorder, List.length_append, List.length_cons]
          omega
      | false =>
          obtain ⟨k, rfl, htl, htr⟩ := h
          have hl := ihl htl
          have hr := ihr htr
          simp only [inorder, List.length_append, List.length_cons, pow_succ]
          omega

/-- The height is logarithmic. -/
theorem Balanced.height_le (h : Balanced t) :
    height t ≤ 2 * Nat.log 2 ((inorder t).length + 1) := by
  obtain ⟨hblack, n, htree⟩ := h
  have hheight := htree.height_le
  have hlog : n ≤ Nat.log 2 ((inorder t).length + 1) :=
    Nat.le_log_of_pow_le Nat.one_lt_two htree.pow_le
  simp only [hblack, Bool.false_eq_true, if_false] at hheight
  omega

theorem height_branch : height (branch s red near a far) = max (height near) (height far) + 1 := by
  cases s
  · rfl
  · simp [branch, height, max_comm]

/-- A way up is no longer than the tree is high. -/
theorem length_add_height_le (t : ColoredTree α) (path : List (Frame α)) :
    path.length + height t ≤ height (plug t path) := by
  induction path generalizing t with
  | nil => simp
  | cons f path ih =>
      have hrec := ih (f.fill t)
      have hfill : height (f.fill t) = max (height t) (height f.sibling) + 1 := height_branch
      rw [plug_cons, List.length_cons]
      omega

theorem height_le_length : height t ≤ (inorder t).length := by
  induction t with
  | nil => simp [height]
  | node red l a r ihl ihr =>
      simp only [height, inorder, List.length_append, List.length_cons]
      omega

/-! ## Insertion -/

/-- The parent, with the place on the given side of it. -/
def straighten (s : Side) (f : Frame α) (t : ColoredTree α) : Option (ColoredTree α) :=
  if f.side = s then some (f.fill t) else rotate s (f.fill t)

/-- The repair after insertion, from the tree at a place whose root is red. -/
def insertFix : ColoredTree α → List (Frame α) → Option (ColoredTree α)
  | t, [] => some (blacken t)
  | t, [f] => if f.red then none else some (blacken (f.fill t))
  | t, f :: g :: path =>
      if f.red then
        if isRed g.sibling then
          insertFix (branch g.side true (blacken (f.fill t)) g.label (blacken g.sibling)) path
        else do
          let parent ← straighten g.side f t
          let top ← rotate g.side.other (branch g.side true (blacken parent) g.label g.sibling)
          some (blacken (plug top path))
      else some (blacken (plug t (f :: g :: path)))

/-- Repairing does not change the order. -/
theorem inorder_insertFix (h : insertFix t path = some t') :
    inorder t' = inorder (plug t path) := by
  induction t, path using insertFix.induct with
  | case1 t =>
      cases h
      exact inorder_blacken
  | case2 t f hred =>
      rw [insertFix, if_pos hred] at h
      cases h
  | case3 t f hblack =>
      rw [insertFix, if_neg hblack] at h
      cases h
      exact inorder_blacken
  | case4 t f g path hred huncle ih =>
      rw [insertFix, if_pos hred, if_pos huncle] at h
      rw [ih h, plug_cons, plug_cons]
      exact inorder_plug_congr (inorder_branch inorder_blacken inorder_blacken)
  | case5 t f g path hred huncle =>
      rw [insertFix, if_pos hred, if_neg huncle] at h
      obtain ⟨parent, hparent, h⟩ := Option.bind_eq_some_iff.mp h
      obtain ⟨top, htop, h⟩ := Option.bind_eq_some_iff.mp h
      cases h
      have hfill : inorder parent = inorder (f.fill t) := by
        rw [straighten] at hparent
        split at hparent
        · cases hparent
          rfl
        · exact inorder_rotate hparent
      rw [inorder_blacken, plug_cons, plug_cons]
      refine inorder_plug_congr ((inorder_rotate htop).trans ?_)
      exact inorder_branch (inorder_blacken.trans hfill) rfl
  | case6 t f g path hblack =>
      rw [insertFix, if_neg hblack] at h
      cases h
      exact inorder_blacken

/-- The last rotations of the repair: the parent is red and its sibling is not. -/
theorem insertFix_rotate {g : Frame α} (path : List (Frame α)) (ht : RedBlack t n)
    (hred : isRed t = true)
    (hf : f.red = true) (hsib : isRed f.sibling = false) (hfs : RedBlack f.sibling n)
    (huncle : isRed g.sibling = false) (hgs : RedBlack g.sibling n) :
    ∃ top, insertFix t (f :: g :: path) = some (blacken (plug top path)) ∧
      RedBlack top (n + 1) ∧ isRed top = false := by
  rw [insertFix, if_pos hf, if_neg (by simp [huncle]), straighten]
  by_cases hside : f.side = g.side
  · rw [if_pos hside]
    refine ⟨branch g.side false t f.label (branch g.side true f.sibling g.label g.sibling), ?_, ?_,
      isRed_branch⟩
    · rw [fill_eq_of_side hside, Option.bind_eq_bind, Option.bind_some, blacken_branch,
        rotate_other, Option.bind_some]
    · rw [redBlack_black, redBlack_red]
      exact ⟨ht, ⟨hsib, huncle⟩, hfs, hgs⟩
  · rw [if_neg hside, fill_eq_of_other (Side.eq_other_of_ne hside)]
    rcases exists_branch g.side t with rfl | ⟨red, near, x, far, rfl⟩
    · cases hred
    · rw [isRed_branch] at hred
      subst hred
      obtain ⟨⟨hnear, hfar⟩, htn, htf⟩ := redBlack_red.mp ht
      refine ⟨branch g.side false (branch g.side true f.sibling f.label near) x
        (branch g.side true far g.label g.sibling), ?_, ?_, isRed_branch⟩
      · rw [hf, rotate_branch, Option.bind_eq_bind, Option.bind_some, blacken_branch,
          rotate_other, Option.bind_some]
      · rw [redBlack_black, redBlack_red, redBlack_red]
        exact ⟨⟨⟨hsib, hnear⟩, hfs, htn⟩, ⟨hfar, huncle⟩, htf, hgs⟩

/-- The repair ends with a red-black tree. -/
theorem insertFix_balanced (ht : RedBlack t n) (hred : isRed t = true) (hfits : Fits path n) :
    ∃ t', insertFix t path = some t' ∧ Balanced t' := by
  induction t, path using insertFix.induct generalizing n with
  | case1 t => exact ⟨_, rfl, ht.balanced_blacken⟩
  | case2 t f hf => exact (hfits.2.1 hf).2.elim
  | case3 t f hf =>
      rw [insertFix, if_neg hf]
      have hblack : f.red = false := by simpa using hf
      obtain ⟨m, hplug⟩ := ht.plug hfits fun _ => .inr hblack
      exact ⟨_, rfl, hplug.balanced_blacken⟩
  | case4 t f g path hf huncle ih =>
      obtain ⟨hfs, habove, hg, -, hrest⟩ := hfits
      obtain ⟨hsib, hblack⟩ := habove hf
      have hgred : g.red = false := hblack
      simp only [hf, if_true] at hg
      simp only [hf, hgred, if_true, Bool.false_eq_true, if_false] at hrest
      rw [insertFix, if_pos hf, if_pos huncle]
      refine ih ?_ isRed_branch hrest
      rw [redBlack_red]
      refine ⟨⟨isRed_blacken, isRed_blacken⟩, ?_, hg.blacken_of_red huncle⟩
      rw [Frame.fill, blacken_branch, redBlack_black]
      exact ⟨ht, hfs⟩
  | case5 t f g path hf huncle =>
      obtain ⟨hfs, habove, hg, -, hrest⟩ := hfits
      obtain ⟨hsib, hblack⟩ := habove hf
      have hgred : g.red = false := hblack
      simp only [hf, if_true] at hg
      simp only [hf, hgred, if_true, Bool.false_eq_true, if_false] at hrest
      obtain ⟨top, heq, htop, htopred⟩ :=
        insertFix_rotate path ht hred hf hsib hfs (by simpa using huncle) hg
      obtain ⟨m, hplug⟩ := htop.plug hrest fun h => by rw [htopred] at h; cases h
      exact ⟨_, heq, hplug.balanced_blacken⟩
  | case6 t f g path hf =>
      rw [insertFix, if_neg hf]
      have hblack : f.red = false := by simpa using hf
      obtain ⟨m, hplug⟩ := ht.plug hfits fun _ => .inr hblack
      exact ⟨_, rfl, hplug.balanced_blacken⟩

/-! ## Deletion

The tree may hang from nothing, when the pointer to its root has been lost. A rotation at its root
sets the pointer again. `held` says whether the pointer leads to the tree. -/

/-- The sibling, with a red child on the far side. -/
def turnSibling (s : Side) (t : ColoredTree α) : Option (ColoredTree α) :=
  match view s t with
  | none => none
  | some (_, near, a, far) =>
      if isRed far then some t else rotate s.other (branch s true (blacken near) a far)

/-- The rotations that end the repair: the sibling has a red child. -/
def eraseRotate (t : ColoredTree α) (f : Frame α) : Option (ColoredTree α) := do
  let sibling ← turnSibling f.side f.sibling
  match view f.side sibling with
  | none => none
  | some (_, near, a, far) =>
      if isNil far then none
      else rotate f.side (branch f.side false t f.label (branch f.side f.red near a (blacken far)))

/-- The root becomes black if the pointer leads to it. -/
def blackenHeld (held : Bool) (t : ColoredTree α) : ColoredTree α :=
  if held then blacken t else t

/-- The repair after deletion, from a place that is one black node short. -/
def eraseFix (held : Bool) : ColoredTree α → List (Frame α) → Option (Bool × ColoredTree α)
  | t, [] => if isRed t ∨ held ∨ isNil t then some (held, blacken t) else none
  | t, f :: path =>
      if isRed t then some (held, plug (blacken t) (f :: path))
      else if isNil t ∧ held = false then some (held, plug t (f :: path))
      else
        match view f.side f.sibling with
        | none => none
        | some (true, near, b, far) =>
            let f' : Frame α := ⟨f.side, true, f.label, near⟩
            let path' := ⟨f.side, false, b, far⟩ :: path
            let held := held || path.isEmpty
            match view f.side near with
            | none => none
            | some (_, near, b, far) =>
                if isRed near = false ∧ isRed far = false then
                  some (held, plug
                    (branch f.side false t f.label (branch f.side true near b far)) path')
                else (eraseRotate t f').map fun top => (held, blackenHeld held (plug top path'))
        | some (false, near, b, far) =>
            if isRed near = false ∧ isRed far = false then
              eraseFix held (branch f.side f.red t f.label (branch f.side true near b far)) path
            else
              let held := held || path.isEmpty
              (eraseRotate t f).map fun top => (held, blackenHeld held (plug top path))

/-- A subtree takes the place of a node of the given colour. -/
def splice (held red : Bool) (t : ColoredTree α) (path : List (Frame α)) :
    Option (Bool × ColoredTree α) :=
  if red then some (held, plug t path) else eraseFix held t path

/-- Take the node at a place out. The next node in order takes its place if it has two children. -/
def eraseAt (held : Bool) : ColoredTree α → List (Frame α) → Option (Bool × ColoredTree α)
  | .nil, _ => none
  | .node red .nil _ r, path => splice (held || path.isEmpty) red r path
  | .node red l _ .nil, path => splice (held || path.isEmpty) red l path
  | .node red l _ (.node red' l' a' r'), path =>
      let next := first red' l' a' r' []
      splice (held || path.isEmpty) next.1 next.2.2.1
        (next.2.2.2 ++ ⟨.right, red, next.2.1, l⟩ :: path)

theorem inorder_turnSibling (h : turnSibling s t = some t') : inorder t' = inorder t := by
  rw [turnSibling] at h
  split at h
  · cases h
  · next hview =>
      obtain rfl := eq_branch_of_view hview
      split at h
      · cases h
        rfl
      · exact (inorder_rotate h).trans (inorder_branch inorder_blacken rfl)

theorem inorder_eraseRotate (h : eraseRotate t f = some t') : inorder t' = inorder (f.fill t) := by
  obtain ⟨sibling, hsibling, h⟩ := Option.bind_eq_some_iff.mp h
  split at h
  · cases h
  · next hview =>
      obtain rfl := eq_branch_of_view hview
      split at h
      · cases h
      · refine (inorder_rotate h).trans (inorder_branch rfl ?_)
        rw [← inorder_turnSibling hsibling]
        exact inorder_branch rfl inorder_blacken

@[simp] theorem inorder_blackenHeld {held : Bool} : inorder (blackenHeld held t) = inorder t := by
  cases held
  · rfl
  · exact inorder_blacken

theorem inorder_eraseFix {held held' : Bool} (h : eraseFix held t path = some (held', t')) :
    inorder t' = inorder (plug t path) := by
  induction path generalizing t held with
  | nil =>
      rw [eraseFix] at h
      split at h
      · cases h
        exact inorder_blacken
      · cases h
  | cons f path ih =>
      rw [eraseFix] at h
      split at h
      · cases h
        exact inorder_plug_congr inorder_blacken
      split at h
      · cases h
        rfl
      split at h
      · cases h
      · next near b far hview =>
          have hsibling := eq_branch_of_view hview
          have hturn : inorder (f.fill t) =
              inorder (branch f.side false (branch f.side true t f.label near) b far) := by
            rw [Frame.fill, hsibling, ← elements_inj (s := f.side)]
            simp [elements_branch]
          split at h
          · cases h
          · next near' b' far' hnear =>
              rw [plug_cons, inorder_plug_congr hturn]
              split at h
              · cases h
                rw [eq_branch_of_view hnear, plug_cons]
                refine inorder_plug_congr (inorder_branch (inorder_branch rfl ?_) rfl)
                exact inorder_branch rfl rfl
              · obtain ⟨top, htop, heq⟩ := Option.map_eq_some_iff.mp h
                cases heq
                rw [inorder_blackenHeld, plug_cons]
                exact inorder_plug_congr (inorder_branch (inorder_eraseRotate htop) rfl)
      · next near b far hview =>
          have hsibling := eq_branch_of_view hview
          split at h
          · rw [ih h, plug_cons, Frame.fill, hsibling]
            exact inorder_plug_congr (inorder_branch rfl (inorder_branch rfl rfl))
          · obtain ⟨top, htop, heq⟩ := Option.map_eq_some_iff.mp h
            cases heq
            rw [inorder_blackenHeld, plug_cons]
            exact inorder_plug_congr (inorder_eraseRotate htop)

theorem inorder_splice {held held' : Bool} (h : splice held red t path = some (held', t')) :
    inorder t' = inorder (plug t path) := by
  rw [splice] at h
  split at h
  · cases h
    rfl
  · exact inorder_eraseFix h

theorem eraseAt_near {held : Bool} :
    eraseAt held (.node red .nil a r) path = splice (held || path.isEmpty) red r path := rfl

theorem eraseAt_far {held : Bool} (hl : l ≠ .nil) :
    eraseAt held (.node red l a .nil) path = splice (held || path.isEmpty) red l path := by
  cases l with
  | nil => exact absurd rfl hl
  | node => rfl

theorem eraseAt_next {held red' red'' : Bool} {l' r' r'' : ColoredTree α} {a' : α} (hl : l ≠ .nil)
    (h : first red' l' a' r' [] = (red'', b, r'', inner)) :
    eraseAt held (.node red l a (.node red' l' a' r')) path =
      splice (held || path.isEmpty) red'' r'' (inner ++ ⟨.right, red, b, l⟩ :: path) := by
  cases l with
  | nil => exact absurd rfl hl
  | node =>
      rw [eraseAt]
      · simp only [h]
      · exact fun h => hl h

/-- Only the element at the place is gone. -/
theorem inorder_eraseAt {held held' : Bool}
    (h : eraseAt held (.node red l a r) path = some (held', t')) :
    inorder t' = (after .right path).reverse ++ (inorder l ++ inorder r) ++ after .left path := by
  by_cases hl : l = .nil
  · subst hl
    rw [eraseAt_near] at h
    rw [inorder_splice h, inorder_plug]
    rfl
  · cases r with
    | nil =>
        rw [eraseAt_far hl] at h
        rw [inorder_splice h, inorder_plug, inorder, List.append_nil]
    | node redr lr ar rr =>
        obtain ⟨⟨red', b, r', inner⟩, hfirst⟩ : ∃ next, first redr lr ar rr [] = next := ⟨_, rfl⟩
        rw [eraseAt_next hl hfirst] at h
        rw [inorder_splice h, plug_append, plug_cons, inorder_plug, inorder_first hfirst]
        rfl

/-- The red child of the sibling is brought to the far side. -/
theorem turnSibling_spec (hnear : RedBlack near n) (hfar : RedBlack far n)
    (hred : ¬(isRed near = false ∧ isRed far = false)) :
    ∃ red near' b far', turnSibling s (branch s false near a far) =
      some (branch s red near' b far') ∧
        RedBlack near' n ∧ RedBlack far' n ∧ isRed far' = true := by
  rw [turnSibling, view_branch]
  dsimp only
  by_cases hf : isRed far = true
  · rw [if_pos hf]
    exact ⟨false, near, a, far, rfl, hnear, hfar, hf⟩
  · rw [if_neg hf]
    have hfblack : isRed far = false := by simpa using hf
    rcases exists_branch s near with rfl | ⟨red, near', b, far', rfl⟩
    · exact absurd ⟨rfl, hfblack⟩ hred
    · have hnred : red = true := by simpa [hfblack] using hred
      subst hnred
      obtain ⟨⟨-, hfblack'⟩, hn, hf'⟩ := redBlack_red.mp hnear
      rw [blacken_branch, rotate_other]
      refine ⟨false, near', b, branch s true far' a far, rfl, hn, ?_, isRed_branch⟩
      exact redBlack_red.mpr ⟨⟨hfblack', hfblack⟩, hf', hfar⟩

/-- A black sibling with a red child makes up for the missing node. -/
theorem eraseRotate_spec (ht : RedBlack t n) (hnear : RedBlack near n) (hfar : RedBlack far n)
    (hsibling : f.sibling = branch f.side false near b far)
    (hred : ¬(isRed near = false ∧ isRed far = false)) :
    ∃ top, eraseRotate t f = some top ∧ isRed top = f.red ∧
      RedBlack top (if f.red then n + 1 else n + 2) := by
  obtain ⟨red, near', c, far', hturn, hnear', hfar', hfarred⟩ :=
    turnSibling_spec (s := f.side) (a := b) hnear hfar hred
  have hnil : ¬isNil far' = true := by
    rw [isNil_iff]
    rintro rfl
    cases hfarred
  refine ⟨branch f.side f.red (branch f.side false t f.label near') c (blacken far'), ?_,
    isRed_branch, ?_⟩
  · rw [eraseRotate, hsibling, hturn, Option.bind_eq_bind, Option.bind_some, view_branch]
    dsimp only
    rw [if_neg hnil, rotate_branch]
  · have hinner := redBlack_black (s := f.side) (a := f.label).mpr ⟨ht, hnear'⟩
    have houter := hfar'.blacken_of_red hfarred
    cases hf : f.red with
    | true =>
        rw [if_pos rfl, redBlack_red]
        exact ⟨⟨isRed_branch, isRed_blacken⟩, hinner, houter⟩
    | false =>
        rw [if_neg Bool.false_ne_true, redBlack_black]
        exact ⟨hinner, houter⟩

/-- The rotations fit where the node was missing. -/
theorem eraseRotate_balanced (ht : RedBlack t n) (hfits : Fits (f :: path) (n + 1))
    (hsibling : f.sibling = branch f.side false near b far)
    (hred : ¬(isRed near = false ∧ isRed far = false)) :
    ∃ top, eraseRotate t f = some top ∧ Balanced (blackenHeld true (plug top path)) := by
  obtain ⟨hsib, habove, hrest⟩ := hfits
  rw [hsibling, redBlack_black] at hsib
  obtain ⟨top, htop, htopred, hheight⟩ := eraseRotate_spec ht hsib.1 hsib.2 hsibling hred
  have hheight' : RedBlack top (if f.red then n + 1 else n + 1 + 1) := hheight
  obtain ⟨m, hplug⟩ := hheight'.plug hrest fun h => .inr (habove (htopred ▸ h)).2
  exact ⟨top, htop, hplug.balanced_blacken⟩

/-- A subtree that is one black node short: red, so that blackening it is enough, or black. -/
def Short (t : ColoredTree α) (n : ℕ) : Prop :=
  if isRed t then RedBlack (blacken t) (n + 1) else RedBlack t n

theorem RedBlack.short (h : RedBlack t n) : Short t n := by
  rw [Short]
  split
  · next hred => exact h.blacken_of_red hred
  · exact h

theorem isRed_plug (hfits : Fits path n) (hpath : path ≠ []) : isRed (plug t path) = false := by
  induction path generalizing t n with
  | nil => exact absurd rfl hpath
  | cons f path ih =>
      obtain ⟨-, habove, hrest⟩ := hfits
      rw [plug_cons]
      cases path with
      | nil =>
          rw [plug_nil, isRed_fill]
          by_contra hred
          exact (habove (by simpa using hred)).2
      | cons g path => exact ih hrest (List.cons_ne_nil g path)

theorem RedBlack.plug_balanced (h : RedBlack t n) (hblack : isRed t = false)
    (hfits : Fits path n) : Balanced (SearchTree.plug t path) := by
  refine ⟨?_, h.plug hfits fun hred => ?_⟩
  · cases path with
    | nil => exact hblack
    | cons f path => exact isRed_plug hfits (List.cons_ne_nil f path)
  · rw [hblack] at hred
    cases hred

/-- The repair ends with a red-black tree. -/
theorem eraseFix_balanced (ht : Short t n) (hfits : Fits path (n + 1)) :
    ∃ t', eraseFix true t path = some (true, t') ∧ Balanced t' := by
  induction path generalizing t n with
  | nil =>
      rw [eraseFix, if_pos (by simp)]
      refine ⟨_, rfl, ?_⟩
      rw [Short] at ht
      split at ht
      · exact ⟨isRed_blacken, _, ht⟩
      · exact ht.balanced_blacken
  | cons f path ih =>
      rw [eraseFix]
      rw [Short] at ht
      by_cases hred : isRed t = true
      · rw [if_pos hred] at ht
        rw [if_pos hred]
        exact ⟨_, rfl, ht.plug_balanced isRed_blacken hfits⟩
      have hblack : isRed t = false := by simpa using hred
      rw [if_neg hred] at ht
      rw [if_neg hred, if_neg (by simp)]
      obtain ⟨hsib, habove, hrest⟩ := hfits
      obtain ⟨redSib, near, b, far, hsibling⟩ := hsib.exists_branch f.side
      rw [hsibling, view_branch]
      rw [hsibling] at hsib
      cases redSib with
      | true =>
          -- The parent is black, and becomes red above a black sibling.
          obtain ⟨⟨hnearBlack, hfarBlack⟩, hnear, hfar⟩ := redBlack_red.mp hsib
          have hf : f.red = false := by
            by_contra hne
            have hcontra := (habove (by simpa using hne)).1
            rw [hsibling, isRed_branch] at hcontra
            cases hcontra
          rw [if_neg (by simp [hf])] at hrest
          obtain ⟨redNear, near', b', far', rfl⟩ := hnear.exists_branch f.side
          rw [isRed_branch] at hnearBlack
          subst hnearBlack
          have hfits' : Fits ({ side := f.side, red := false, label := b, sibling := far } :: path)
              (n + 1) := ⟨hfar, fun h => absurd h Bool.false_ne_true, hrest⟩
          dsimp only
          rw [view_branch]
          dsimp only
          split
          · next hboth =>
              refine ⟨_, rfl, RedBlack.plug_balanced ?_ isRed_branch hfits'⟩
              obtain ⟨hn, hfr⟩ := redBlack_black.mp hnear
              rw [redBlack_black, redBlack_red]
              exact ⟨ht, hboth, hn, hfr⟩
          · next hone =>
              obtain ⟨top, htop, hbalanced⟩ := eraseRotate_balanced
                (f := ⟨f.side, true, f.label, branch f.side false near' b' far'⟩) ht
                ⟨hnear, fun _ => ⟨isRed_branch, blackAbove_cons.mpr rfl⟩, hfits'⟩ rfl hone
              rw [htop]
              exact ⟨_, rfl, hbalanced⟩
      | false =>
          obtain ⟨hnear, hfar⟩ := redBlack_black.mp hsib
          dsimp only
          split
          · next hboth =>
              refine ih (n := if f.red then n else n + 1) ?_ ?_
              · have hsibRed := redBlack_red (s := f.side) (a := b).mpr ⟨hboth, hnear, hfar⟩
                rw [Short, isRed_branch]
                cases hf : f.red with
                | true =>
                    simp only [if_true, blacken_branch]
                    exact redBlack_black.mpr ⟨ht, hsibRed⟩
                | false =>
                    simp only [Bool.false_eq_true, if_false]
                    exact redBlack_black.mpr ⟨ht, hsibRed⟩
              · cases hf : f.red <;> simpa [hf] using hrest
          · next hone =>
              have hfits' : Fits (f :: path) (n + 1) := by
                refine ⟨?_, habove, hrest⟩
                rw [hsibling]
                exact hsib
              obtain ⟨top, htop, hbalanced⟩ := eraseRotate_balanced ht hfits' hsibling hone
              rw [htop]
              exact ⟨_, rfl, hbalanced⟩

/-- A node of a red-black tree with only one child is black, and its child is red. -/
theorem splice_balanced (hnear : RedBlack (branch s red .nil a t) n) (hfits : Fits path n)
    (hred : red = true → BlackAbove path) :
    ∃ t', splice true red t path = some (true, t') ∧ Balanced t' := by
  rw [splice]
  cases red with
  | true =>
      rw [if_pos rfl]
      obtain ⟨⟨-, hblack⟩, -, ht⟩ := redBlack_red.mp hnear
      exact ⟨_, rfl, ht.plug_balanced hblack hfits⟩
  | false =>
      rw [if_neg Bool.false_ne_true]
      obtain ⟨k, rfl, -, ht⟩ := hnear.black
      exact eraseFix_balanced ht.short hfits

/-- Deletion keeps a tree red-black, wherever the node is. -/
theorem eraseAt_balanced (h : Balanced (plug (.node red l a r) path)) :
    ∃ t', eraseAt true (.node red l a r) path = some (true, t') ∧ Balanced t' := by
  obtain ⟨hroot, m, htree⟩ := h
  obtain ⟨n, hnode, hfits, hred⟩ := redBlack_of_plug htree hroot
  by_cases hl : l = .nil
  · subst hl
    rw [eraseAt_near, Bool.true_or]
    exact splice_balanced (s := .left) hnode hfits hred
  · cases r with
    | nil =>
        rw [eraseAt_far hl, Bool.true_or]
        exact splice_balanced (s := .right) hnode hfits hred
    | node redr lr ar rr =>
        obtain ⟨⟨red', b, r', inner⟩, hfirst⟩ : ∃ next, first redr lr ar rr [] = next := ⟨_, rfl⟩
        obtain ⟨path', hpath, -, hplug⟩ := first_spec hfirst
        rw [List.append_nil] at hpath
        subst hpath
        rw [eraseAt_next hl hfirst, Bool.true_or]
        -- The node that moves up takes the colour that was there.
        have hmoved : RedBlack (.node red l b (.node redr lr ar rr)) n :=
          RedBlack.relabel (s := .left) hnode b
        obtain ⟨k, hswap⟩ := hmoved.plug hfits fun h => .inr (hred h)
        have hblack : isRed (plug (.node red l b (.node redr lr ar rr)) path) = false := by
          cases path with
          | nil => exact hroot
          | cons f path => exact isRed_plug hfits (List.cons_ne_nil f path)
        have hplace : SearchTree.plug (.node red l b (.node redr lr ar rr)) path =
            SearchTree.plug (.node red' .nil b r') (inner ++ ⟨.right, red, b, l⟩ :: path) := by
          rw [plug_append, hplug]
          rfl
        rw [hplace] at hswap hblack
        obtain ⟨j, hnext, hfits', hred'⟩ := redBlack_of_plug hswap hblack
        exact splice_balanced (s := .left) hnext hfits' hred'

/-- A pointer that leads to the tree is not lost. -/
theorem eraseFix_held {held' : Bool} (h : eraseFix true t path = some (held', t')) :
    held' = true := by
  induction path generalizing t with
  | nil =>
      rw [eraseFix] at h
      split at h
      · exact (congrArg Prod.fst (Option.some.inj h)).symm
      · cases h
  | cons f path ih =>
      rw [eraseFix] at h
      split at h
      · exact (congrArg Prod.fst (Option.some.inj h)).symm
      split at h
      · next hcontra => cases hcontra.2
      split at h
      · cases h
      · split at h
        · cases h
        · split at h
          · exact (congrArg Prod.fst (Option.some.inj h)).symm
          · obtain ⟨top, -, heq⟩ := Option.map_eq_some_iff.mp h
            exact (congrArg Prod.fst heq).symm
      · split at h
        · exact ih h
        · obtain ⟨top, -, heq⟩ := Option.map_eq_some_iff.mp h
          exact (congrArg Prod.fst heq).symm

theorem splice_held {held' : Bool} (h : splice true red t path = some (held', t')) :
    held' = true := by
  rw [splice] at h
  split at h
  · exact (congrArg Prod.fst (Option.some.inj h)).symm
  · exact eraseFix_held h

theorem eraseAt_held {held' : Bool} (h : eraseAt true t path = some (held', t')) :
    held' = true := by
  rw [eraseAt.eq_def] at h
  split at h
  · cases h
  all_goals exact splice_held h

/-! ## By element -/

section Located

variable [DecidableEq α]

/-- The repair after the insertion of an element. -/
def insertFixOf (x : α) (t : ColoredTree α) : Option (ColoredTree α) := do
  let (t, path) ← locate x t []
  insertFix t path

/-- An element is taken out. -/
def eraseOf (held : Bool) (x : α) (t : ColoredTree α) : Option (Bool × ColoredTree α) := do
  let (t, path) ← locate x t []
  eraseAt held t path

theorem insertFixOf_plug (h : (inorder (plug (.node red l x r) path)).Nodup) :
    insertFixOf x (plug (.node red l x r) path) = insertFix (.node red l x r) path := by
  rw [insertFixOf, locate_node h]
  rfl

theorem eraseOf_plug {held : Bool} (h : (inorder (plug (.node red l x r) path)).Nodup) :
    eraseOf held x (plug (.node red l x r) path) = eraseAt held (.node red l x r) path := by
  rw [eraseOf, locate_node h]
  rfl

theorem inorder_insertFixOf (h : insertFixOf x t = some t') : inorder t' = inorder t := by
  obtain ⟨⟨u, path⟩, hplace, hfix⟩ := Option.bind_eq_some_iff.mp h
  rw [inorder_insertFix hfix, (locate_plug hplace).1, plug_nil]

theorem eraseOf_held {held' : Bool} (h : eraseOf true x t = some (held', t')) :
    held' = true := by
  obtain ⟨place, -, herase⟩ := Option.bind_eq_some_iff.mp h
  exact eraseAt_held herase

/-- The first occurrence is taken out. -/
theorem inorder_eraseOf {held held' : Bool} (h : eraseOf held x t = some (held', t')) :
    inorder t' = (inorder t).erase x := by
  obtain ⟨⟨u, path⟩, hplace, herase⟩ := Option.bind_eq_some_iff.mp h
  obtain ⟨hplug, red, l, r, rfl⟩ := locate_plug hplace
  obtain ⟨hafter, hl⟩ := locate_first hplace (List.not_mem_nil)
  have hnot : x ∉ (after .right path).reverse := by simpa using hafter
  have hnot' : x ∉ inorder l := hl red l x r rfl
  rw [plug_nil] at hplug
  rw [inorder_eraseAt herase, ← hplug, inorder_plug, inorder]
  simp only [List.append_assoc, List.erase_append_right _ hnot, List.erase_append_right _ hnot',
    List.cons_append, List.erase_cons_head]

/-- Insertion into a red-black tree. -/
theorem Balanced.link {cmp : α → α → ℤ} (h : Balanced t) (hlink : link cmp x t = some t')
    (hnodup : (inorder t').Nodup) : ∃ t'', insertFixOf x t' = some t'' ∧ Balanced t'' := by
  have hplace := link_eq_place cmp x t []
  rw [hlink] at hplace
  obtain ⟨path, hdown, hleaf⟩ := Option.map_eq_some_iff.mp hplace.symm
  have hleaf' : plug (.node true .nil x .nil) path = t' := hleaf
  subst hleaf'
  have hplug := plug_place hdown
  rw [plug_nil] at hplug
  rw [← hplug] at h
  obtain ⟨n, hnil, hfits, -⟩ := redBlack_of_plug h.2.choose_spec h.1
  obtain rfl : n = 0 := hnil
  have hnew : RedBlack (.node true .nil x .nil) 0 := ⟨⟨rfl, rfl⟩, rfl, rfl⟩
  rw [insertFixOf_plug hnodup]
  exact insertFix_balanced hnew rfl hfits

/-- Deletion from a red-black tree. -/
theorem Balanced.eraseOf (h : Balanced t) (hx : x ∈ inorder t) :
    ∃ t', eraseOf true x t = some (true, t') ∧ Balanced t' := by
  obtain ⟨⟨u, path⟩, hlocate⟩ := Option.ne_none_iff_exists'.mp
    (mt locate_eq_none_iff.mp (not_not_intro hx) : locate x t [] ≠ none)
  obtain ⟨hplug, red, l, r, rfl⟩ := locate_plug hlocate
  rw [plug_nil] at hplug
  rw [← hplug] at h
  obtain ⟨t', herase, hbalanced⟩ := eraseAt_balanced h
  refine ⟨t', ?_, hbalanced⟩
  rw [SearchTree.eraseOf, hlocate]
  exact herase

end Located

end Ptrtd.SearchTree
