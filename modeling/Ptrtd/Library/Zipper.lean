import Mathlib.Data.List.Nodup
import Mathlib.Data.List.Perm.Basic
import Ptrtd.Library.SearchTree

/-! # Places in a tree

A place is the tree below it and the way up to the root. What is done at a place on one side is
done on the other side with left and right exchanged, so that a side is a parameter here. -/

namespace Ptrtd.SearchTree

inductive Side
  | left
  | right
  deriving DecidableEq, Repr

namespace Side

def other : Side → Side
  | left => right
  | right => left

@[simp] theorem other_other (s : Side) : s.other.other = s := by
  cases s <;> rfl

@[simp] theorem other_ne (s : Side) : s.other ≠ s := by
  cases s <;> decide

@[simp] theorem ne_other (s : Side) : s ≠ s.other := by
  cases s <;> decide

theorem eq_other_of_ne {s s' : Side} (h : s' ≠ s) : s' = s.other := by
  cases s <;> cases s' <;> first | rfl | exact absurd rfl h

end Side

variable {α : Type*} {t l r near far near' far' : ColoredTree α} {a b x : α} {red red' : Bool}
  {s : Side}

/-! ## Nodes seen from a side -/

/-- A node with one subtree on a side and the other on the other side. -/
def branch (s : Side) (red : Bool) (near : ColoredTree α) (a : α) (far : ColoredTree α) :
    ColoredTree α :=
  match s with
  | .left => .node red near a far
  | .right => .node red far a near

/-- A node taken apart: its colour, the subtree on a side, its element and the other subtree. -/
def view (s : Side) :
    ColoredTree α → Option (Bool × ColoredTree α × α × ColoredTree α)
  | .nil => none
  | .node red l a r =>
      match s with
      | .left => some (red, l, a, r)
      | .right => some (red, r, a, l)

def isRed : ColoredTree α → Bool
  | .nil => false
  | .node red _ _ _ => red

def isNil : ColoredTree α → Bool
  | .nil => true
  | .node _ _ _ _ => false

/-- The element at the root. -/
def rootOf : ColoredTree α → Option α
  | .nil => none
  | .node _ _ a _ => some a

/-- The root becomes black. -/
def blacken : ColoredTree α → ColoredTree α
  | .nil => .nil
  | .node _ l a r => .node false l a r

/-- The child on the far side takes the place of its parent. -/
def rotate (s : Side) (t : ColoredTree α) : Option (ColoredTree α) := do
  let (red, near, a, far) ← view s t
  let (red', near', b, far') ← view s far
  some (branch s red' (branch s red near a near') b far')

/-- The elements in the order from one side to the other. -/
def elements (s : Side) (t : ColoredTree α) : List α :=
  match s with
  | .left => inorder t
  | .right => (inorder t).reverse

theorem branch_other : branch s.other red near a far = branch s red far a near := by
  cases s <;> rfl

theorem node_eq_branch : ColoredTree.node red l a r = branch .left red l a r := rfl

theorem exists_branch (s : Side) (t : ColoredTree α) :
    t = .nil ∨ ∃ red near a far, t = branch s red near a far := by
  cases t with
  | nil => exact .inl rfl
  | node red l a r => cases s with
      | left => exact .inr ⟨red, l, a, r, rfl⟩
      | right => exact .inr ⟨red, r, a, l, rfl⟩

@[simp] theorem view_nil : view s (.nil : ColoredTree α) = none := rfl

@[simp] theorem view_branch : view s (branch s red near a far) = some (red, near, a, far) := by
  cases s <;> rfl

@[simp] theorem view_other :
    view s.other (branch s red near a far) = some (red, far, a, near) := by
  cases s <;> rfl

theorem eq_branch_of_view (h : view s t = some (red, near, a, far)) :
    t = branch s red near a far := by
  rcases exists_branch s t with rfl | ⟨red', near', b, far', rfl⟩
  · cases h
  · rw [view_branch] at h
    cases h
    rfl

@[simp] theorem isRed_branch : isRed (branch s red near a far) = red := by
  cases s <;> rfl

@[simp] theorem isRed_nil : isRed (.nil : ColoredTree α) = false := rfl

@[simp] theorem isNil_branch : isNil (branch s red near a far) = false := by
  cases s <;> rfl

theorem isNil_iff : isNil t = true ↔ t = .nil := by
  cases t <;> simp [isNil]

@[simp] theorem rootOf_branch : rootOf (branch s red near a far) = some a := by
  cases s <;> rfl

@[simp] theorem rootOf_nil : rootOf (.nil : ColoredTree α) = none := rfl

theorem rootOf_eq_none_iff : rootOf t = none ↔ t = .nil := by
  cases t <;> simp [rootOf]

theorem rootOf_mem (h : rootOf t = some a) : a ∈ inorder t := by
  cases t with
  | nil => cases h
  | node red l b r =>
      obtain rfl := Option.some.inj h
      exact mem_inorder_node.mpr (.inr (.inl rfl))

@[simp] theorem blacken_branch :
    blacken (branch s red near a far) = branch s false near a far := by
  cases s <;> rfl

@[simp] theorem isRed_blacken : isRed (blacken t) = false := by
  cases t <;> rfl

@[simp] theorem rootOf_blacken : rootOf (blacken t) = rootOf t := by
  cases t <;> rfl

@[simp] theorem inorder_blacken : inorder (blacken t) = inorder t := by
  cases t <;> rfl

@[simp] theorem rotate_branch :
    rotate s (branch s red near a (branch s red' near' b far')) =
      some (branch s red' (branch s red near a near') b far') := by
  simp [rotate]

@[simp] theorem rotate_other :
    rotate s.other (branch s red (branch s red' near' b far') a far) =
      some (branch s red' near' b (branch s red far' a far)) := by
  simp [rotate, branch_other]

/-- A rotation only takes place at a node whose child on the far side is a node. -/
theorem rotate_eq_some (h : rotate s t = some r) : ∃ red near a red' near' b far',
    t = branch s red near a (branch s red' near' b far') ∧
      r = branch s red' (branch s red near a near') b far' := by
  rcases exists_branch s t with rfl | ⟨red, near, a, far, rfl⟩
  · cases h
  · rcases exists_branch s far with rfl | ⟨red', near', b, far', rfl⟩
    · simp [rotate] at h
    · rw [rotate_branch] at h
      exact ⟨red, near, a, red', near', b, far', rfl, (Option.some.inj h).symm⟩

/-! ## The order of the elements -/

@[simp] theorem mem_branch :
    x ∈ inorder (branch s red near a far) ↔ x ∈ inorder near ∨ x = a ∨ x ∈ inorder far := by
  cases s
  · exact mem_inorder_node
  · rw [branch, mem_inorder_node]
    tauto

theorem elements_left : elements .left t = inorder t := rfl

theorem mem_elements : x ∈ elements s t ↔ x ∈ inorder t := by
  cases s <;> simp [elements]

theorem elements_branch :
    elements s (branch s red near a far) = elements s near ++ a :: elements s far := by
  cases s <;> simp [elements, branch, inorder]

theorem elements_other : elements s.other t = (elements s t).reverse := by
  cases s <;> simp [elements, Side.other]

theorem elements_inj {t t' : ColoredTree α} :
    elements s t = elements s t' ↔ inorder t = inorder t' := by
  cases s <;> simp [elements]

theorem elements_ne_nil (h : rootOf t = some x) : elements s t ≠ [] := by
  intro hnil
  have hmem := mem_elements (s := s).mpr (rootOf_mem h)
  rw [hnil] at hmem
  cases hmem

/-- The order does not depend on the colours, nor on how two neighbours hang together. -/
theorem inorder_branch {n f n' f' : ColoredTree α} (hn : inorder n = inorder n')
    (hf : inorder f = inorder f') :
    inorder (branch s red n a f) = inorder (branch s red' n' a f') := by
  rw [← elements_inj (s := s), elements_branch, elements_branch, elements_inj.mpr hn,
    elements_inj.mpr hf]

theorem inorder_rotate (h : rotate s t = some r) : inorder r = inorder t := by
  obtain ⟨red, near, a, red', near', b, far', rfl, rfl⟩ := rotate_eq_some h
  rw [← elements_inj (s := s)]
  simp [elements_branch]

/-! ## Places -/

/-- A node on the way up: the side that the place is on, the colour, the element, and the subtree
on the other side. -/
structure Frame (α : Type*) where
  side : Side
  red : Bool
  label : α
  sibling : ColoredTree α

def Frame.fill (f : Frame α) (t : ColoredTree α) : ColoredTree α :=
  branch f.side f.red t f.label f.sibling

/-- The whole tree, from the tree at a place and the way up. -/
def plug (t : ColoredTree α) : List (Frame α) → ColoredTree α
  | [] => t
  | f :: path => plug (f.fill t) path

/-- The element above a place. -/
def above : List (Frame α) → Option α
  | [] => none
  | f :: _ => some f.label

/-- What comes after a place, in the order from a side to the other. -/
def after (s : Side) : List (Frame α) → List α
  | [] => []
  | f :: path =>
      if f.side = s then f.label :: (elements s f.sibling ++ after s path) else after s path

variable {f : Frame α} {path inner : List (Frame α)} {t' : ColoredTree α}

@[simp] theorem plug_nil : plug t [] = t := rfl

theorem plug_cons : plug t (f :: path) = plug (f.fill t) path := rfl

theorem plug_append : plug t (inner ++ path) = plug (plug t inner) path := by
  induction inner generalizing t with
  | nil => rfl
  | cons f inner ih => exact ih

theorem fill_eq_of_side (h : f.side = s) : f.fill t = branch s f.red t f.label f.sibling := by
  rw [Frame.fill, h]

theorem fill_eq_of_other (h : f.side = s.other) :
    f.fill t = branch s f.red f.sibling f.label t := by
  rw [Frame.fill, h, branch_other]

@[simp] theorem isRed_fill : isRed (f.fill t) = f.red := isRed_branch

@[simp] theorem rootOf_fill : rootOf (f.fill t) = some f.label := rootOf_branch

theorem after_of_side (h : f.side = s) :
    after s (f :: path) = f.label :: (elements s f.sibling ++ after s path) :=
  if_pos h

theorem after_of_other (h : f.side = s.other) : after s (f :: path) = after s path :=
  if_neg (h ▸ Side.other_ne s)

theorem elements_plug : elements s (plug t path) =
    (after s.other path).reverse ++ elements s t ++ after s path := by
  induction path generalizing t with
  | nil => simp [after]
  | cons f path ih =>
      rw [plug_cons, ih]
      by_cases hside : f.side = s
      · rw [fill_eq_of_side hside, elements_branch, after_of_side hside,
          after_of_other (hside.trans (Side.other_other s).symm)]
        simp
      · have hother := Side.eq_other_of_ne hside
        rw [fill_eq_of_other hother, elements_branch, after, after, if_neg hside, if_pos hother,
          elements_other]
        simp

theorem inorder_plug : inorder (plug t path) =
    (after .right path).reverse ++ inorder t ++ after .left path :=
  elements_plug (s := .left)

/-- Only the order at the place matters for the order of the whole tree. -/
theorem inorder_plug_congr (h : inorder t = inorder t') :
    inorder (plug t path) = inorder (plug t' path) := by
  rw [inorder_plug, inorder_plug, h]

/-- The root is on the way up, if there is one. -/
theorem rootOf_plug_cons (t t' : ColoredTree α) :
    rootOf (plug t (f :: path)) = rootOf (plug t' (f :: path)) := by
  induction path generalizing t t' f with
  | nil => rw [plug_cons, plug_cons, plug_nil, plug_nil, rootOf_fill, rootOf_fill]
  | cons g path ih =>
      rw [plug_cons, plug_cons (t := t')]
      exact ih _ _

/-- The elements on a way up. -/
def sides (path : List (Frame α)) : List α :=
  after .left path ++ after .right path

theorem mem_sides_cons : x ∈ sides (f :: path) ↔
    x = f.label ∨ x ∈ inorder f.sibling ∨ x ∈ sides path := by
  rw [sides, sides, List.mem_append, List.mem_append]
  cases hside : f.side with
  | left =>
      rw [after_of_side hside, after_of_other hside, List.mem_cons, List.mem_append, mem_elements]
      tauto
  | right =>
      rw [after_of_other hside, after_of_side hside, List.mem_cons, List.mem_append, mem_elements]
      tauto

theorem mem_sides_append (h : x ∈ sides path) : x ∈ sides (inner ++ path) := by
  induction inner with
  | nil => exact h
  | cons f inner ih => exact mem_sides_cons.mpr (.inr (.inr ih))

theorem mem_sides_of_above (h : above path = some x) : x ∈ sides path := by
  cases path with
  | nil => cases h
  | cons f path => exact mem_sides_cons.mpr (.inl (Option.some.inj h).symm)

theorem rootOf_plug_mem (t : ColoredTree α) (f : Frame α) (path : List (Frame α)) :
    ∃ x, rootOf (plug t (f :: path)) = some x ∧ x ∈ sides (f :: path) := by
  induction path generalizing t f with
  | nil => exact ⟨f.label, rootOf_fill, mem_sides_cons.mpr (.inl rfl)⟩
  | cons g path ih =>
      obtain ⟨x, hx, hmem⟩ := ih (f.fill t) g
      exact ⟨x, hx, mem_sides_cons.mpr (.inr (.inr hmem))⟩

theorem mem_plug_iff : x ∈ inorder (plug t path) ↔ x ∈ inorder t ∨ x ∈ sides path := by
  rw [inorder_plug, sides]
  simp only [List.mem_append, List.mem_reverse]
  tauto

theorem nodup_plug : (inorder (plug t path)).Nodup ↔
    (inorder t).Nodup ∧ (sides path).Nodup ∧ ∀ x ∈ inorder t, x ∉ sides path := by
  have hperm : (inorder (plug t path)).Perm (inorder t ++ sides path) := by
    rw [inorder_plug, sides, List.append_assoc]
    refine List.perm_append_comm.trans ?_
    rw [List.append_assoc]
    exact ((List.reverse_perm _).append_left _).append_left _
  rw [hperm.nodup_iff, List.nodup_append']
  rfl

theorem nodup_branch : (inorder (branch s red near a far)).Nodup ↔
    (inorder near).Nodup ∧ (inorder far).Nodup ∧ a ∉ inorder near ∧ a ∉ inorder far ∧
      ∀ x ∈ inorder near, x ∉ inorder far := by
  cases s <;> simp only [branch, inorder, List.nodup_append, List.nodup_cons, List.mem_cons]
  · constructor
    · rintro ⟨hn, ⟨ha, hf⟩, hne⟩
      exact ⟨hn, hf, fun h => hne a h a (.inl rfl) rfl, ha,
        fun x hx hxf => hne x hx x (.inr hxf) rfl⟩
    · rintro ⟨hn, hf, han, haf, hne⟩
      refine ⟨hn, ⟨haf, hf⟩, ?_⟩
      rintro x hx y (rfl | hy) rfl
      · exact han hx
      · exact hne x hx hy
  · constructor
    · rintro ⟨hf, ⟨ha, hn⟩, hne⟩
      exact ⟨hn, hf, ha, fun h => hne a h a (.inl rfl) rfl,
        fun x hx hxf => hne x hxf x (.inr hx) rfl⟩
    · rintro ⟨hn, hf, han, haf, hne⟩
      refine ⟨hf, ⟨han, hn⟩, ?_⟩
      rintro x hx y (rfl | hy) rfl
      · exact haf hx
      · exact hne x hy hx

theorem nodup_sides_cons : (sides (f :: path)).Nodup ↔
    ((inorder f.sibling).Nodup ∧ f.label ∉ inorder f.sibling) ∧ (sides path).Nodup ∧
      f.label ∉ sides path ∧ ∀ x ∈ inorder f.sibling, x ∉ sides path := by
  have hnil : (inorder (plug .nil (f :: path))).Nodup ↔ (sides (f :: path)).Nodup := by
    rw [nodup_plug]
    simp [inorder]
  rw [← hnil, plug_cons, nodup_plug, Frame.fill, nodup_branch]
  simp only [mem_branch, inorder, List.not_mem_nil, List.nodup_nil, false_or, false_imp_iff,
    implies_true, not_false_eq_true, true_and, and_true, forall_eq_or_imp]

/-- The elements of a tree whose root has been exchanged for the next node. -/
theorem nodup_exchange {l r r' : ColoredTree α}
    (h : (inorder (plug (.node red l a r) path)).Nodup) (hr : inorder r = b :: inorder r') :
    (inorder (plug (.node red l b r') path)).Nodup ∧ a ≠ b ∧ a ∉ inorder l ∧
      a ∉ inorder r' ∧ a ∉ sides path ∧ b ∉ sides path := by
  obtain ⟨hnode, hsides, hdisjoint⟩ := nodup_plug.mp h
  obtain ⟨hnl, hnr, hal, har, hlr⟩ := (nodup_branch (s := .left)).mp hnode
  rw [hr] at hnr har hlr
  obtain ⟨hbr, hnr'⟩ := List.nodup_cons.mp hnr
  rw [List.mem_cons, not_or] at har
  have hmem : ∀ x, x ∈ inorder (.node red l b r') → x ∈ inorder (.node red l a r) := by
    intro x hx
    rw [mem_inorder_node] at hx ⊢
    rw [hr, List.mem_cons]
    tauto
  refine ⟨nodup_plug.mpr ⟨?_, hsides, fun x hx => hdisjoint x (hmem x hx)⟩, har.1, hal, har.2,
    hdisjoint a (mem_inorder_node.mpr (.inr (.inl rfl))),
    hdisjoint b (hmem b (mem_inorder_node.mpr (.inr (.inl rfl))))⟩
  refine (nodup_branch (s := .left)).mpr ⟨hnl, hnr', fun hbl => ?_, hbr, fun x hx hxr => ?_⟩
  · exact hlr b hbl List.mem_cons_self
  · exact hlr x hx (List.mem_cons_of_mem b hxr)

/-- The path to the first occurrence of an element in a subtree. -/
def locate [DecidableEq α] (x : α) :
    ColoredTree α → List (Frame α) → Option (ColoredTree α × List (Frame α))
  | .nil, _ => none
  | .node red l a r, path =>
      (locate x l (⟨.left, red, a, r⟩ :: path)).or
        (if a = x then some (.node red l a r, path)
        else locate x r (⟨.right, red, a, l⟩ :: path))

section Locate

variable [DecidableEq α]

theorem locate_plug (h : locate x t path = some (t', inner)) :
    plug t' inner = plug t path ∧ ∃ red l r, t' = .node red l x r := by
  induction t generalizing path with
  | nil => cases h
  | node red l a r ihl ihr =>
      rw [locate, Option.or_eq_some_iff] at h
      rcases h with hl | ⟨-, hr⟩
      · exact ihl hl
      · split at hr
        · next heq =>
            cases hr
            exact ⟨rfl, red, l, r, by rw [heq]⟩
        · exact ihr hr

theorem locate_eq_none_iff : locate x t path = none ↔ x ∉ inorder t := by
  induction t generalizing path with
  | nil => simp [locate, inorder]
  | node red l a r ihl ihr =>
      rw [locate, Option.or_eq_none_iff, ihl, mem_inorder_node]
      by_cases heq : a = x
      · simp [heq]
      · simp [if_neg heq, ihr, Ne.symm heq]

/-- An element that is at the place only is found there. -/
theorem locate_plug_eq {rest : List (Frame α)} (hx : x ∈ inorder t) (hpath : x ∉ sides path) :
    locate x (plug t path) rest = locate x t (path ++ rest) := by
  induction path generalizing t with
  | nil => rfl
  | cons f path ih =>
      rw [mem_sides_cons, not_or, not_or] at hpath
      obtain ⟨hlabel, hsibling, hpath⟩ := hpath
      have hfill : x ∈ inorder (f.fill t) := mem_branch.mpr (.inl hx)
      rw [plug_cons, ih hfill hpath]
      have hfound : ∀ p, locate x t p ≠ none := fun p hnone =>
        locate_eq_none_iff.mp hnone hx
      obtain ⟨side, red, label, sibling⟩ := f
      cases side with
      | left =>
          rw [Frame.fill, branch, locate]
          obtain ⟨place, hplace⟩ := Option.ne_none_iff_exists'.mp
            (hfound (⟨.left, red, label, sibling⟩ :: (path ++ rest)))
          rw [hplace, Option.some_or, List.cons_append, hplace]
      | right =>
          rw [Frame.fill, branch, locate, locate_eq_none_iff.mpr hsibling, Option.none_or,
            if_neg (Ne.symm hlabel)]
          rfl

theorem locate_node (h : (inorder (plug (.node red l x r) path)).Nodup) :
    locate x (plug (.node red l x r) path) [] = some (.node red l x r, path) := by
  obtain ⟨hnode, -, hdisjoint⟩ := nodup_plug.mp h
  have hx : x ∈ inorder (.node red l x r) := mem_inorder_node.mpr (.inr (.inl rfl))
  have hxl := ((nodup_branch (s := .left)).mp hnode).2.2.1
  rw [locate_plug_eq hx (hdisjoint x hx), List.append_nil, locate,
    locate_eq_none_iff.mpr hxl, Option.none_or, if_pos rfl]

/-- The element found is the first of its kind. -/
theorem locate_first (h : locate x t path = some (t', inner)) (hpath : x ∉ after .right path) :
    x ∉ after .right inner ∧ ∀ red l a r, t' = .node red l a r → x ∉ inorder l := by
  induction t generalizing path with
  | nil => cases h
  | node red l a r ihl ihr =>
      rw [locate, Option.or_eq_some_iff] at h
      rcases h with hl | ⟨hnone, hr⟩
      · refine ihl hl ?_
        rw [after_of_other rfl]
        exact hpath
      · have hmem := locate_eq_none_iff.mp hnone
        split at hr
        · cases hr
          refine ⟨hpath, fun red' l' a' r' heq => ?_⟩
          cases heq
          exact hmem
        · next hne =>
            refine ihr hr ?_
            rw [after_of_side (s := .right) rfl]
            simp [Ne.symm hne, elements, hmem, hpath]

end Locate

/-- The way down to the place of a new element. -/
def place (cmp : α → ℤ) : ColoredTree α → List (Frame α) → Option (List (Frame α))
  | .nil, path => some path
  | .node red l a r, path =>
      if cmp a < 0 then place cmp l (⟨.left, red, a, r⟩ :: path)
      else if cmp a > 0 then place cmp r (⟨.right, red, a, l⟩ :: path)
      else none

/-- Linking puts a red leaf at the place. -/
theorem link_eq_place (cmp : α → α → ℤ) (x : α) (t : ColoredTree α) (path : List (Frame α)) :
    (link cmp x t).map (plug · path) =
      (place (cmp x) t path).map (plug (.node true .nil x .nil)) := by
  induction t generalizing path with
  | nil => rfl
  | node red l a r ihl ihr =>
      rw [link, place]
      split
      · rw [Option.map_map, ← ihl]
        rfl
      · split
        · rw [Option.map_map, ← ihr]
          rfl
        · rfl

theorem plug_place {cmp : α → ℤ} (h : place cmp t path = some inner) :
    plug .nil inner = plug t path := by
  induction t generalizing path with
  | nil =>
      obtain rfl := Option.some.inj h
      rfl
  | node red l a r ihl ihr =>
      rw [place] at h
      split at h
      · exact ihl h
      · split at h
        · exact ihr h
        · cases h

/-- The leftmost node of a node's subtree, taken apart: its colour, its element, its right child
and the way up. -/
def first (red : Bool) :
    ColoredTree α → α → ColoredTree α → List (Frame α) →
      Bool × α × ColoredTree α × List (Frame α)
  | .nil, a, r, path => (red, a, r, path)
  | .node red' l' a' r', a, r, path => first red' l' a' r' (⟨.left, red, a, r⟩ :: path)

/-- The leftmost node is reached by going to the left only. -/
theorem first_spec {l r r' : ColoredTree α} {path' : List (Frame α)}
    (h : first red l a r path = (red', b, r', path')) :
    ∃ inner, path' = inner ++ path ∧ (∀ f ∈ inner, f.side = .left) ∧
      plug (.node red' .nil b r') inner = .node red l a r := by
  induction l generalizing red a r path with
  | nil =>
      cases h
      exact ⟨[], rfl, by simp, rfl⟩
  | node redl ll al rl ihl ihr =>
      obtain ⟨inner, rfl, hside, hplug⟩ := ihl h
      refine ⟨inner ++ [⟨.left, red, a, r⟩], by simp, fun f hf => ?_, ?_⟩
      · rcases List.mem_append.mp hf with hin | hlast
        · exact hside f hin
        · rw [List.mem_singleton.mp hlast]
      · rw [plug_append, hplug]
        rfl

theorem after_eq_nil (h : ∀ f ∈ path, f.side = s.other) : after s path = [] := by
  induction path with
  | nil => rfl
  | cons f path ih =>
      rw [after_of_other (h f List.mem_cons_self)]
      exact ih fun g hg => h g (List.mem_cons_of_mem f hg)

/-- The leftmost element comes first, and then the tree without it. -/
theorem inorder_first {l r r' : ColoredTree α} (h : first red l a r [] = (red', b, r', inner)) :
    inorder (.node red l a r) = b :: inorder (plug r' inner) := by
  obtain ⟨path', rfl, hside, hplug⟩ := first_spec h
  rw [List.append_nil, ← hplug, inorder_plug, inorder_plug, after_eq_nil (s := .right) hside]
  rfl

end Ptrtd.SearchTree
