import Mathlib.Logic.Function.Basic
import Ptrtd.Library.Zipper

/-! # The trees of `rbtree.c` in memory

The functions with the pointers that they follow and write. A pointer is an element of any type,
or `none` for `NULL`; following `NULL` gives no result. Loops have a bound on the number of
rounds, and no result when that is not enough.

`rb_parent_color` is one word in the source: the colour is in the lowest bit of the pointer to the
parent, which is zero in a pointer. -/

namespace Ptrtd

open SearchTree

/-- `struct rb_node` -/
structure RbNode (α : Type*) where
  parent : Option α
  red : Bool
  right : Option α
  left : Option α
  deriving DecidableEq

/-- The nodes by address, and `struct rb_root`. -/
structure RbMem (α : Type*) where
  node : α → RbNode α
  root : Option α

/-- The node in a block that `memset` has zeroed. `RB_RED` is 0. -/
def RbNode.zero {α : Type*} : RbNode α := ⟨none, true, none, none⟩

namespace RbMem

variable {α : Type*}

/-- `rb_parent` -/
def parent (m : RbMem α) (x : α) : Option α := (m.node x).parent

/-- `rb_is_red` -/
def red (m : RbMem α) (x : α) : Bool := (m.node x).red

def child (m : RbMem α) (s : Side) (x : α) : Option α :=
  match s with
  | .left => (m.node x).left
  | .right => (m.node x).right

/-- `!p || rb_is_black (p)` -/
def isBlack (m : RbMem α) : Option α → Bool
  | none => true
  | some x => !m.red x

def setRoot (m : RbMem α) (p : Option α) : RbMem α := { m with root := p }

variable [DecidableEq α]

def setNode (m : RbMem α) (x : α) (n : RbNode α) : RbMem α :=
  { m with node := Function.update m.node x n }

/-- `rb_set_parent` -/
def setParent (m : RbMem α) (x : α) (p : Option α) : RbMem α :=
  m.setNode x { m.node x with parent := p }

/-- `rb_set_red`, `rb_set_black` and `rb_set_color` -/
def setRed (m : RbMem α) (x : α) (red : Bool) : RbMem α :=
  m.setNode x { m.node x with red }

def setChild (m : RbMem α) (s : Side) (x : α) (p : Option α) : RbMem α :=
  match s with
  | .left => m.setNode x { m.node x with left := p }
  | .right => m.setNode x { m.node x with right := p }

/-- `if (child) rb_set_parent (child, parent)` -/
def setParentOf (m : RbMem α) (child parent : Option α) : RbMem α :=
  match child with
  | none => m
  | some x => m.setParent x parent

/-- What points to `x` points to `p`: the child of the parent, tested on one side first, or the
root. -/
def replaceChild (m : RbMem α) (s : Side) (parent : Option α) (x : α) (p : Option α) : RbMem α :=
  match parent with
  | none => m.setRoot p
  | some a => if m.child s a = some x then m.setChild s a p else m.setChild s.other a p

/-! ## Rotation -/

/-- `__rb_rotate_left` for the left side, and `__rb_rotate_right` for the right side. -/
def rotate (s : Side) (node : α) (m : RbMem α) : Option (RbMem α) := do
  let right ← m.child s.other node
  let parent := m.parent node
  let m := m.setChild s.other node (m.child s right)
  let m := m.setParentOf (m.child s right) (some node)
  let m := m.setChild s right (some node)
  let m := m.setParent right parent
  let m := m.replaceChild s parent node (some right)
  some (m.setParent node (some right))

def rotateLeft (node : α) (m : RbMem α) : Option (RbMem α) := rotate .left node m

def rotateRight (node : α) (m : RbMem α) : Option (RbMem α) := rotate .right node m

/-! ## Insertion -/

/-- The pointer that a descent ends at: the root, or a child of a node. -/
inductive Link (α : Type*)
  | root
  | child (s : Side) (x : α)

/-- `*rb_link` -/
def follow (m : RbMem α) : Link α → Option α
  | .root => m.root
  | .child s x => m.child s x

/-- `*rb_link = p` -/
def assign (m : RbMem α) (link : Link α) (p : Option α) : RbMem α :=
  match link with
  | .root => m.setRoot p
  | .child s x => m.setChild s x p

/-- `rb_link_node` -/
def linkNode (m : RbMem α) (node : α) (parent : Option α) (link : Link α) : RbMem α :=
  (m.setNode node ⟨parent, true, none, none⟩).assign link (some node)

/-- `if (parent->rb_right == node)`: the parent is rotated, and the two change names. -/
def insertInner (s : Side) (parent node : α) (m : RbMem α) : Option (RbMem α × α × α) :=
  if m.child s.other parent = some node then
    (rotate s parent m).map fun m => (m, node, parent)
  else some (m, parent, node)

/-- A round of `rb_insert_color` for a parent on one side of the grandparent: the memory and the
next node. -/
def insertRound (s : Side) (gparent parent node : α) (m : RbMem α) : Option (RbMem α × α) :=
  let uncle := m.child s.other gparent
  if m.isBlack uncle then do
    let (m, parent, node) ← insertInner s parent node m
    let m := (m.setRed parent false).setRed gparent true
    let m ← rotate s.other gparent m
    some (m, node)
  else do
    let uncle ← uncle
    some (((m.setRed uncle false).setRed parent false).setRed gparent true, gparent)

/-- `rb_insert_color` -/
def insertColor : ℕ → α → RbMem α → Option (RbMem α)
  | 0, _, _ => none
  | fuel + 1, node, m =>
      match m.parent node with
      | some parent =>
          if m.red parent then do
            let gparent ← m.parent parent
            let s := if m.child .left gparent = some parent then Side.left else .right
            let (m, node) ← insertRound s gparent parent node m
            insertColor fuel node m
          else do
            let root ← m.root
            some (m.setRed root false)
      | none => do
          let root ← m.root
          some (m.setRed root false)

/-! ## Deletion -/

/-- `if (node) rb_set_black (node)` -/
def blackenNode (m : RbMem α) : Option α → RbMem α
  | none => m
  | some x => m.setRed x false

/-- `if (rb_is_red (other))`: the sibling goes up, and there is another one. -/
def eraseRed (s : Side) (parent other : α) (m : RbMem α) : Option (RbMem α × α) :=
  if m.red other then do
    let m ← rotate s parent ((m.setRed other false).setRed parent true)
    let other ← m.child s.other parent
    some (m, other)
  else some (m, other)

/-- The sibling, when its child on the far side is black or not there. -/
def eraseInner (s : Side) (parent other : α) (m : RbMem α) : Option (RbMem α × α) :=
  if m.isBlack (m.child s.other other) then do
    let near ← m.child s other
    let m ← rotate s.other other ((m.setRed near false).setRed other true)
    let other ← m.child s.other parent
    some (m, other)
  else some (m, other)

/-- The rotations before the `break`. -/
def eraseLast (s : Side) (parent other : α) (m : RbMem α) : Option (RbMem α) := do
  let (m, other) ← eraseInner s parent other m
  let m := (m.setRed other (m.red parent)).setRed parent false
  let far ← m.child s.other other
  rotate s parent (m.setRed far false)

/-- `__rb_erase_color` -/
def eraseColor : ℕ → Option α → Option α → RbMem α → Option (RbMem α)
  | 0, _, _, _ => none
  | fuel + 1, node, parent, m =>
      if m.isBlack node ∧ node ≠ m.root then do
        let parent ← parent
        let s := if m.child .left parent = node then Side.left else .right
        let other ← m.child s.other parent
        let (m, other) ← eraseRed s parent other m
        if m.isBlack (m.child .left other) ∧ m.isBlack (m.child .right other) then
          let m := m.setRed other true
          eraseColor fuel (some parent) (m.parent parent) m
        else do
          let m ← eraseLast s parent other m
          some (m.blackenNode m.root)
      else some (m.blackenNode node)

/-- `while (n->rb_left) n = n->rb_left`, or to the right. -/
def descend (m : RbMem α) (s : Side) : ℕ → α → Option α
  | 0, _ => none
  | fuel + 1, x =>
      match m.child s x with
      | none => some x
      | some y => m.descend s fuel y

/-- The label `color` of `rb_erase`. -/
def eraseBlack (fuel : ℕ) (red : Bool) (child parent : Option α) (m : RbMem α) :
    Option (RbMem α) :=
  if red then some m else eraseColor fuel child parent m

/-- `rb_erase` for a node with at most one child. -/
def eraseSingle (fuel : ℕ) (node : α) (child : Option α) (m : RbMem α) : Option (RbMem α) :=
  let parent := m.parent node
  let red := m.red node
  let m := m.setParentOf child parent
  let m := m.replaceChild .left parent node child
  eraseBlack fuel red child parent m

/-- The node after `old` leaves its place, unless it is the child of `old`: the memory, and what is
above the place. -/
def takeNext (old node : α) (m : RbMem α) : Option (RbMem α × α) :=
  let child := m.child .right node
  let parent := m.parent node
  if parent = some old then some (m, node)
  else do
    let m := m.setParentOf child parent
    let parent ← parent
    let m := m.setChild .left parent child
    let m := m.setChild .right node (m.child .right old)
    let right ← m.child .right old
    some (m.setParent right (some node), parent)

/-- The node takes over the parent, the colour and the left child of `old`. -/
def takeOver (old node : α) (m : RbMem α) : Option (RbMem α) := do
  let m := (m.setParent node (m.parent old)).setRed node (m.red old)
  let m := m.setChild .left node (m.child .left old)
  let left ← m.child .left old
  some (m.setParent left (some node))

/-- `rb_erase` for a node with two children. -/
def eraseDouble (fuel : ℕ) (old right : α) (m : RbMem α) : Option (RbMem α) := do
  let node ← m.descend .left fuel right
  let m := m.replaceChild .left (m.parent old) old (some node)
  let child := m.child .right node
  let red := m.red node
  let (m, parent) ← takeNext old node m
  let m ← takeOver old node m
  eraseBlack fuel red child (some parent) m

/-- `rb_erase` -/
def erase (fuel : ℕ) (node : α) (m : RbMem α) : Option (RbMem α) :=
  match m.child .left node, m.child .right node with
  | none, child => eraseSingle fuel node child m
  | some left, none => eraseSingle fuel node (some left) m
  | some _, some right => eraseDouble fuel node right m

/-! ## The order of the nodes -/

/-- `rb_first` for the left side, and `rb_last` for the right side. Inside is the value. -/
def extreme (m : RbMem α) (s : Side) (fuel : ℕ) : Option (Option α) :=
  match m.root with
  | none => some none
  | some x => (m.descend s fuel x).map some

/-- The loop of `rb_next` that goes up while it comes from the right. -/
def climb (m : RbMem α) (s : Side) : ℕ → α → Option (Option α)
  | 0, _ => none
  | fuel + 1, x =>
      match m.parent x with
      | none => some none
      | some p => if m.child s p = some x then m.climb s fuel p else some (some p)

/-- `rb_next` for the right side, and `rb_prev` for the left side. -/
def neighbor (m : RbMem α) (s : Side) (fuel : ℕ) (x : α) : Option (Option α) :=
  if m.parent x = some x then some none
  else
    match m.child s x with
    | some y => (m.descend s.other fuel y).map some
    | none => m.climb s fuel x

def first (m : RbMem α) (fuel : ℕ) : Option (Option α) := m.extreme .left fuel

def last (m : RbMem α) (fuel : ℕ) : Option (Option α) := m.extreme .right fuel

def next (m : RbMem α) (fuel : ℕ) (x : α) : Option (Option α) := m.neighbor .right fuel x

def prev (m : RbMem α) (fuel : ℕ) (x : α) : Option (Option α) := m.neighbor .left fuel x

/-- `rb_replace_node` -/
def replaceNode (victim new : α) (m : RbMem α) : RbMem α :=
  let m := m.replaceChild .left (m.parent victim) victim (some new)
  let m := m.setParentOf (m.child .left victim) (some new)
  let m := m.setParentOf (m.child .right victim) (some new)
  m.setNode new (m.node victim)

end RbMem

end Ptrtd
