import Ptrtd.Verification.Rbtree.Memory

/-! # Deletion in memory

`__rb_erase_color` does to the tree in memory what `eraseFix` does to the tree, and `rb_erase`
what `eraseAt` does, also to a tree that the root pointer does not lead to. -/

namespace Ptrtd.RbMem

open Lockstep SearchTree

variable {α : Type*} [DecidableEq α] {m m₀ m' : RbMem α} {t near far : ColoredTree α}
  {a b x node : α} {red held : Bool} {s : Side} {f g : Frame α} {path inner : List (Frame α)}
  {fuel : ℕ}

/-! ## The repair -/

theorem Holds.blackenNode (h : Holds m₀ m held (plug t path)) :
    Holds m₀ (m.blackenNode (rootOf t)) held (plug (blacken t) path) := by
  cases hx : rootOf t with
  | none =>
      obtain rfl := rootOf_eq_none_iff.mp hx
      exact h
  | some x => exact h.setBlack hx

theorem Holds.blackenRoot' (h : Holds m₀ m held t) :
    Holds m₀ (m.blackenNode m.root) held (blackenHeld held t) := by
  rw [h.root]
  cases held with
  | false => exact h
  | true =>
      have hplug : Holds m₀ m true (plug t []) := h
      exact hplug.blackenNode

/-- The sibling is turned if its child on the far side is black. -/
theorem eraseInner_refines (h : Holds m₀ m held (plug t (f :: path)))
    (hsibling : f.sibling = branch f.side red near b far) :
    Option.Rel (fun r sibling => rootOf sibling = some r.2 ∧
        Holds m₀ r.1 held (plug t (⟨f.side, f.red, f.label, sibling⟩ :: path)))
      (eraseInner f.side f.label b m) (turnSibling f.side f.sibling) := by
  have hfar := holds_sibling.mp h
  rw [hsibling] at hfar
  obtain ⟨-, -, hnear, hfarchild⟩ := hfar.fields
  have hblack : m.isBlack (m.child f.side.other b) = !isRed far := by
    rw [hfarchild]
    exact (tree_branch.mp hfar.place.1).2.2.isBlack
  rw [eraseInner, turnSibling, hsibling, view_branch, hblack]
  dsimp only
  cases hred : isRed far with
  | true =>
      rw [if_neg (by simp), if_pos rfl]
      refine .some ⟨rootOf_branch, ?_⟩
      rw [← hsibling]
      exact h
  | false =>
      rw [if_pos (Bool.not_false), if_neg Bool.false_ne_true, hnear]
      rcases exists_branch f.side near with rfl | ⟨red', near', c, far', rfl⟩
      · rw [rootOf_nil, blacken, SearchTree.rotate, view_other]
        exact .none
      · rw [rootOf_branch, blacken_branch, SearchTree.rotate_other]
        have hnearblack := (holds_near.mp hfar).setBlack rootOf_branch
        rw [blacken_branch] at hnearblack
        have hturned := (holds_near.mpr hnearblack).setRed true
        obtain ⟨m', hrotate, hholds⟩ := hturned.rotate_other
        rw [List.isEmpty_cons, Bool.or_false] at hholds
        have hdone := holds_sibling.mp hholds
        rw [Side.other_other] at hdone
        have hchild := hdone.frame.2.2.2
        dsimp only [Option.bind_eq_bind, Option.bind_some] at hchild ⊢
        rw [hrotate, Option.bind_some, hchild, rootOf_branch]
        exact .some ⟨rootOf_branch, hdone⟩

/-- The rotations before the `break`. -/
theorem eraseLast_refines (h : Holds m₀ m held (plug t (f :: path)))
    (hsibling : f.sibling = branch f.side red near b far) :
    Option.Rel (fun m' top => Holds m₀ m' (held || path.isEmpty) (plug top path))
      (eraseLast f.side f.label b m) (eraseRotate t f) := by
  rw [eraseLast, eraseRotate]
  refine rel_bind (eraseInner_refines h hsibling) ?_
  rintro ⟨m₁, other⟩ sibling ⟨hother, h₁⟩
  dsimp only at hother h₁ ⊢
  rcases exists_branch f.side sibling with rfl | ⟨red', near', c, far', rfl⟩
  · cases hother
  rw [rootOf_branch] at hother
  obtain rfl := Option.some.inj hother
  have hparent : m₁.red f.label = f.red := h₁.frame.2.1
  have h₂ := (holds_far.mp (holds_near.mpr h₁)).setRed f.red
  have h₃ := (holds_far.mpr h₂).setRed false
  have hfarchild := (holds_far.mp h₃).fields.2.2.2
  dsimp only [Option.bind_eq_bind]
  rw [hparent, hfarchild, view_branch]
  dsimp only
  rcases exists_branch f.side far' with rfl | ⟨red'', near'', d, far'', rfl⟩
  · exact .none
  · rw [isNil_branch, if_neg Bool.false_ne_true, rootOf_branch, Option.bind_some]
    have h₄ := (holds_far.mp (holds_far.mp h₃)).setBlack rootOf_branch
    obtain ⟨m', hrotate, hholds⟩ := (holds_far.mpr (holds_far.mpr h₄)).rotate
    rw [hrotate, rotate_branch]
    exact .some hholds

/-- The end of a round: up, or the rotations before the `break`. -/
def eraseEnd (s : Side) (fuel : ℕ) (parent other : α) (m : RbMem α) : Option (RbMem α) :=
  if m.isBlack (m.child .left other) ∧ m.isBlack (m.child .right other) then
    eraseColor fuel (some parent) ((m.setRed other true).parent parent) (m.setRed other true)
  else do
    let m ← eraseLast s parent other m
    some (m.blackenNode m.root)

theorem eraseEnd_last (fuel : ℕ) (h : Holds m₀ m held (plug t (f :: path)))
    (hsibling : f.sibling = branch f.side red near b far)
    (hred : ¬(isRed near = false ∧ isRed far = false)) :
    Option.Rel (fun m' r => Holds m₀ m' r.1 r.2) (eraseEnd f.side fuel f.label b m)
      ((eraseRotate t f).map fun top =>
        (held || path.isEmpty, blackenHeld (held || path.isEmpty) (plug top path))) := by
  have hview := holds_sibling.mp h
  rw [hsibling] at hview
  rw [eraseEnd, if_neg (mt hview.both_black.mp hred), Option.map_eq_bind]
  exact rel_bind (eraseLast_refines h hsibling) fun m' top hholds => .some hholds.blackenRoot'

theorem eraseEnd_up (fuel : ℕ) (h : Holds m₀ m held (plug t (f :: path)))
    (hsibling : f.sibling = branch f.side red near b far)
    (hred : isRed near = false ∧ isRed far = false) :
    ∃ m', eraseEnd f.side fuel f.label b m = eraseColor fuel (some f.label) (above path) m' ∧
      Holds m₀ m' held
        (plug (branch f.side f.red t f.label (branch f.side true near b far)) path) := by
  have hview := holds_sibling.mp h
  rw [hsibling] at hview
  have hup := holds_far.mpr (hview.setRed true)
  refine ⟨m.setRed b true, ?_, hup⟩
  rw [eraseEnd, if_pos (hview.both_black.mpr hred), hup.fields.1]

theorem eraseColor_stop {p : Option α} (hstop : ¬(m.isBlack p = true ∧ p ≠ m.root))
    {parent : Option α} : eraseColor (fuel + 1) p parent m = some (m.blackenNode p) := by
  rw [eraseColor, if_neg hstop]

theorem eraseColor_round {p : Option α} (hblack : m.isBlack p = true) (hroot : p ≠ m.root)
    {parent : α} (hs : (if m.child .left parent = p then Side.left else .right) = s) :
    eraseColor (fuel + 1) p (some parent) m = (m.child s.other parent).bind fun other =>
      (eraseRed s parent other m).bind fun r => eraseEnd s fuel parent r.2 r.1 := by
  subst hs
  rw [eraseColor, if_pos ⟨hblack, hroot⟩]
  rfl

/-- Without a sibling there is no result. -/
theorem eraseColor_alone (h : Holds m₀ m held (plug t (f :: path)))
    (hblack : m.isBlack (rootOf t) = true) (hroot : rootOf t ≠ m.root)
    (hsibling : f.sibling = .nil) :
    eraseColor (fuel + 1) (rootOf t) (some f.label) m = none := by
  rw [eraseColor_round hblack hroot rfl]
  obtain ⟨-, -, hhole, hsib⟩ := h.frame
  rw [hsibling] at hsib
  cases t with
  | nil =>
      have hnone : ∀ s, m.child s f.label = none := fun s => by
        by_cases hs : f.side = s
        · rw [← hs, hhole]
          rfl
        · have hother := Side.eq_other_of_ne (Ne.symm hs)
          rw [hother, hsib]
          rfl
      rw [hnone]
      rfl
  | node red l a r =>
      rw [h.side_eq (.inl (Option.some_ne_none a)), hsib]
      rfl

/-- `__rb_erase_color` computes the repair, with enough rounds. -/
theorem eraseColor_refines (h : Holds m₀ m held (plug t path)) (hfuel : path.length < fuel) :
    Option.Rel (fun m' r => Holds m₀ m' r.1 r.2) (eraseColor fuel (rootOf t) (above path) m)
      (eraseFix held t path) := by
  induction path generalizing t m held fuel with
  | nil =>
      obtain ⟨fuel, rfl⟩ := Nat.exists_eq_succ_of_ne_zero (Nat.ne_zero_of_lt hfuel)
      have hblack := h.place.1.isBlack
      have hroot : m.root = if held then rootOf t else none := h.root
      rw [eraseFix]
      split
      · next hstop =>
          rw [eraseColor_stop]
          · exact .some h.blackenNode
          · rintro ⟨hred, hne⟩
            rw [hblack] at hred
            rcases hstop with hr | rfl | hnil
            · rw [hr] at hred
              cases hred
            · exact hne (by rw [hroot, if_pos rfl])
            · rw [isNil_iff] at hnil
              subst hnil
              exact hne (by rw [hroot]; cases held <;> rfl)
      · next hgo =>
          push Not at hgo
          obtain ⟨hr, hheld, hnil⟩ := hgo
          rw [eraseColor, if_pos]
          · exact .none
          · refine ⟨by rw [hblack]; simpa using hr, ?_⟩
            rw [hroot, if_neg hheld, Ne, rootOf_eq_none_iff]
            rintro rfl
            exact hnil rfl
  | cons f path ih =>
      obtain ⟨fuel, rfl⟩ := Nat.exists_eq_succ_of_ne_zero (Nat.ne_zero_of_lt hfuel)
      have hlength : path.length < fuel := by simpa using hfuel
      have hblack := h.place.1.isBlack
      rw [eraseFix]
      by_cases hred : isRed t = true
      · rw [if_pos hred, eraseColor_stop (by simp [hblack, hred])]
        exact .some h.blackenNode
      rw [if_neg hred]
      by_cases hstop : isNil t = true ∧ held = false
      · rw [if_pos hstop]
        obtain ⟨hnil, rfl⟩ := hstop
        rw [isNil_iff] at hnil
        subst hnil
        rw [eraseColor_stop (by simp [h.root])]
        exact .some h
      rw [if_neg hstop]
      have hnode : m.isBlack (rootOf t) = true := by rw [hblack]; simpa using hred
      have hroot := h.ne_root hstop
      rw [above]
      rcases exists_branch f.side f.sibling with hnil | ⟨red, near, b, far, hsibling⟩
      · rw [hnil, eraseColor_alone h hnode hroot hnil]
        exact .none
      have hside := h.side_eq (.inr (by simp [hsibling]))
      have hother := h.frame.2.2.2
      rw [hsibling, rootOf_branch] at hother
      rw [eraseColor_round hnode hroot hside, hother, Option.bind_some, hsibling, view_branch]
      have hview := holds_sibling.mp h
      rw [hsibling] at hview
      have hcolor : m.red b = red := hview.fields.2.1
      cases red with
      | true =>
          -- A red sibling goes up, and the next round ends at the parent, which is red.
          have hup := (holds_far.mpr (hview.setRed false)).setRed true
          obtain ⟨m', hrotate, hrotated⟩ := hup.rotate
          have hplace : Holds m₀ m' (held || path.isEmpty) (plug t
            (⟨f.side, true, f.label, near⟩ :: ⟨f.side, false, b, far⟩ :: path)) := hrotated
          have hnear := hplace.frame.2.2.2
          dsimp only at hnear
          rw [eraseRed, if_pos hcolor]
          dsimp only [Option.bind_eq_bind]
          rw [hrotate, Option.bind_some, hnear]
          rcases exists_branch f.side near with rfl | ⟨red', near', c, far', rfl⟩
          · exact .none
          rw [rootOf_branch, Option.bind_some, Option.bind_some, view_branch]
          dsimp only
          by_cases hboth : isRed near' = false ∧ isRed far' = false
          · rw [if_pos hboth]
            obtain ⟨fuel, rfl⟩ : ∃ k, fuel = k + 1 := ⟨fuel - 1, by omega⟩
            obtain ⟨m'', heq, hholds⟩ := eraseEnd_up (fuel + 1) hplace rfl hboth
            dsimp only at heq hholds
            rw [heq, eraseColor_stop]
            · have hdone := hholds.blackenNode
              rw [rootOf_branch, blacken_branch] at hdone
              exact .some hdone
            · have hred' := hholds.fields.2.1
              simp [RbMem.isBlack, hred']
          · rw [if_neg hboth]
            have hlast := eraseEnd_last fuel hplace rfl hboth
            rw [List.isEmpty_cons, Bool.or_false] at hlast
            exact hlast
      | false =>
          rw [eraseRed, if_neg (by simp [hcolor]), Option.bind_some]
          dsimp only
          by_cases hboth : isRed near = false ∧ isRed far = false
          · rw [if_pos hboth]
            obtain ⟨m', heq, hholds⟩ := eraseEnd_up fuel h hsibling hboth
            rw [heq]
            have hrec := ih hholds hlength
            rw [rootOf_branch] at hrec
            exact hrec
          · rw [if_neg hboth]
            exact eraseEnd_last fuel h hsibling hboth

/-! ## Taking a node out -/

/-- The label `color`. -/
theorem eraseBlack_refines (red : Bool) (h : Holds m₀ m held (plug t path))
    (hfuel : path.length < fuel) :
    Option.Rel (fun m' r => Holds m₀ m' r.1 r.2)
      (eraseBlack fuel red (rootOf t) (above path) m) (splice held red t path) := by
  rw [eraseBlack, splice]
  cases red with
  | true => exact .some h
  | false => exact eraseColor_refines h hfuel

/-- The child of a node with one child takes its place. -/
theorem Holds.splice (h : Holds m₀ m held (plug (branch s red .nil a t) path))
    (ha : m.node a = m₀.node a) :
    Holds m₀ ((m.setParentOf (rootOf t) (above path)).replaceChild .left (above path) a (rootOf t))
      (held || path.isEmpty) (plug t path) := by
  obtain ⟨htree, habove, hnodup, hsides, hdisjoint⟩ := h.place
  obtain ⟨-, -, ht⟩ := tree_branch.mp htree
  obtain ⟨-, hnodupt, -, hat, -⟩ := nodup_branch.mp hnodup
  rw [rootOf_branch] at habove
  have has := hdisjoint a (mem_branch.mpr (.inr (.inl rfl)))
  have hts : ∀ y ∈ inorder t, y ∉ sides path := fun y hy =>
    hdisjoint y (mem_branch.mpr (.inr (.inr hy)))
  have hwrite : ∀ y, y ∉ sides path → above path ≠ some y := fun y hy heq =>
    hy (mem_sides_of_above heq)
  refine ⟨tree_plug.mpr ⟨?_, ?_⟩, ?_, nodup_plug.mpr ⟨hnodupt, hsides, hts⟩, fun y hy => ?_⟩
  · exact (ht.setParentOf hnodupt).congr fun y hy =>
      node_replaceChild_ne (hwrite y (hts y hy))
  · refine Above.replaceChild ?_ has hsides
    exact habove.congr fun y hy => node_setParentOf_ne fun heq =>
      hts y (rootOf_mem heq) hy
  · refine root_replace t (t := branch s red .nil a t) ?_
    rw [root_setParentOf]
    exact h.root
  · rw [mem_plug_iff, not_or] at hy
    rw [node_replaceChild_ne (hwrite y hy.2), node_setParentOf_ne fun heq => hy.1 (rootOf_mem heq)]
    by_cases hya : y = a
    · rw [hya, ha]
    · refine h.rest y ?_
      rw [mem_plug_iff, mem_branch]
      simp [hya, hy.1, hy.2, inorder]

theorem eraseSingle_refines (h : Holds m m held (plug (branch s red .nil a t) path))
    (hfuel : path.length < fuel) :
    Option.Rel (fun m' r => Holds m m' r.1 r.2) (eraseSingle fuel a (rootOf t) m)
      (SearchTree.splice (held || path.isEmpty) red t path) := by
  obtain ⟨hparent, hred, -⟩ := h.fields
  rw [eraseSingle, hparent, hred]
  exact eraseBlack_refines red (h.splice rfl) hfuel

/-- The next node `b` is about to take the place of `a`: what is above leads to it already, and
its right subtree is its own. -/
structure Vacated (m₀ m : RbMem α) (held red : Bool) (l : ColoredTree α) (a b : α)
    (r : ColoredTree α) (path : List (Frame α)) : Prop where
  old : m.parent a = above path ∧ m.red a = red ∧ m.child .left a = rootOf l
  right : m.child .right b = rootOf r
  treeLeft : m.Tree (some a) l
  treeRight : m.Tree (some b) r
  place : m.Above (some b) path
  root : m.root = if held then rootOf (plug (.node red l b r) path) else none
  nodup : (inorder (plug (.node red l b r) path)).Nodup
  rest : ∀ x ∉ inorder (plug (.node red l b r) path), m.node x = m₀.node x
  ne : a ≠ b
  notMem : a ∉ inorder l

/-- The next node takes over what is above and to the left of the old one. -/
theorem Vacated.takeOver {l r : ColoredTree α} (h : Vacated m₀ m held red l a b r path)
    (hl : l ≠ .nil) :
    ∃ m', RbMem.takeOver a b m = some m' ∧ Holds m₀ m' held (plug (.node red l b r) path) := by
  obtain ⟨⟨hparent, hred, hleft⟩, hright, htl, htr, habove, hroot, hnodup, hrest, hab, hal⟩ := h
  obtain ⟨left, hleftroot⟩ : ∃ left, rootOf l = some left := by
    rw [← Option.ne_none_iff_exists', Ne, rootOf_eq_none_iff]
    exact hl
  obtain ⟨hnode, hsides, hdisjoint⟩ := nodup_plug.mp hnodup
  obtain ⟨hnodupl, -, hbl, hbr, hlr⟩ := (nodup_branch (s := .left)).mp hnode
  have hbleft : b ≠ left := fun heq => hbl (heq ▸ rootOf_mem hleftroot)
  have hba : a ≠ left := fun heq => hal (heq ▸ rootOf_mem hleftroot)
  have hleftr : ∀ y ∈ inorder r, y ≠ left := fun y hy heq =>
    hlr left (rootOf_mem hleftroot) (heq ▸ hy)
  have hin : ∀ y, y ∈ inorder l ∨ y = b ∨ y ∈ inorder r → y ∉ sides path := fun y hy =>
    hdisjoint y (mem_inorder_node.mpr hy)
  obtain ⟨m₃, hm₃⟩ : ∃ m₃, ((m.setParent b (above path)).setRed b red).setChild .left b
      (rootOf l) = m₃ := ⟨_, rfl⟩
  have h₃ : ∀ y, y ≠ b → m₃.node y = m.node y := fun y hy => by
    rw [← hm₃, node_setChild_ne hy, node_setRed_ne hy, node_setParent_ne hy]
  have hlast : ∀ y, y ≠ left → (m₃.setParent left (some b)).node y = m₃.node y := fun y hy =>
    node_setParent_ne hy
  have hwrites : RbMem.takeOver a b m = some (m₃.setParent left (some b)) := by
    have hagree : ((m.setParent b (above path)).setRed b red).node a = m.node a := by
      rw [node_setRed_ne hab, node_setParent_ne hab]
    rw [RbMem.takeOver, hparent, hred]
    dsimp only [Option.bind_eq_bind]
    rw [child_of_agree hagree, hleft, hm₃, child_of_agree (h₃ a hab), hleft, hleftroot]
    rfl
  refine ⟨_, hwrites, tree_plug.mpr ⟨⟨⟨?_, ?_, ?_, ?_⟩, ?_, ?_⟩, ?_⟩, ?_, hnodup, fun y hy => ?_⟩
  · rw [parent, hlast b hbleft, ← parent, ← hm₃, parent_setChild, parent_setRed, parent_setParent]
  · rw [red_setParent, ← hm₃, red_setChild, red_setRed]
  · rw [child_setParent, ← hm₃, child_setChild]
  · have hother : ((((m.setParent b (above path)).setRed b red).setChild .left b (rootOf l)).child
        .right b) = ((m.setParent b (above path)).setRed b red).child .right b :=
      child_setChild_other (s := .left)
    rw [child_setParent, ← hm₃, hother, child_setRed, child_setParent, hright]
  · have hmoved := (htl.congr fun y hy => h₃ y (ne_of_mem_of_not_mem hy hbl)).setParentOf
      (q := some b) hnodupl
    rw [hleftroot] at hmoved
    exact hmoved
  · exact htr.congr fun y hy => (hlast y (hleftr y hy)).trans (h₃ y (ne_of_mem_of_not_mem hy hbr))
  · refine habove.congr fun y hy => ?_
    have hyb : y ≠ b := fun heq => hin b (.inr (.inl rfl)) (heq ▸ hy)
    have hyl : y ≠ left := fun heq => hin left (.inl (rootOf_mem hleftroot)) (heq ▸ hy)
    exact (hlast y hyl).trans (h₃ y hyb)
  · rw [root_setParent, ← hm₃, root_setChild, root_setRed, root_setParent]
    exact hroot
  · have hyb : y ≠ b := fun heq => hy (mem_plug_iff.mpr (.inl (heq ▸ mem_inorder_node.mpr
      (.inr (.inl rfl)))))
    have hyl : y ≠ left := fun heq => hy (mem_plug_iff.mpr (.inl (heq ▸ mem_inorder_node.mpr
      (.inl (rootOf_mem hleftroot)))))
    rw [hlast y hyl, h₃ y hyb, hrest y hy]

/-- The next node is the right child: it stays below its place. -/
theorem vacated_child {l c : ColoredTree α} {red' : Bool}
    (h : Holds m m held (plug (.node red l a (.node red' .nil b c)) path)) :
    Vacated m (m.replaceChild .left (above path) a (some b)) (held || path.isEmpty) red l a b c
      path := by
  obtain ⟨hnodup, hab, hal, hac, hsa, hsb⟩ :=
    nodup_exchange h.nodup (show inorder (.node red' .nil b c) = b :: inorder c from rfl)
  obtain ⟨htree, habove, -, hsides, hdisjoint⟩ := h.place
  obtain ⟨⟨hparent, hred, hleft, -⟩, htl, htr⟩ := (tree_branch (s := .left)).mp htree
  obtain ⟨⟨-, -, -, hright⟩, -, htc⟩ := (tree_branch (s := .left)).mp htr
  have hkeep : ∀ y, y ∉ sides path →
      (m.replaceChild .left (above path) a (some b)).node y = m.node y := fun y hy =>
    node_replaceChild_ne fun heq => hy (mem_sides_of_above heq)
  have hin : ∀ y, y ∈ inorder l ∨ y = a ∨ y ∈ inorder (.node red' .nil b c) → y ∉ sides path :=
    fun y hy => hdisjoint y (mem_inorder_node.mpr hy)
  refine ⟨⟨?_, ?_, ?_⟩, ?_, htl.congr fun y hy => hkeep y (hin y (.inl hy)),
    htc.congr fun y hy => hkeep y (hin y (.inr (.inr (mem_inorder_node.mpr (.inr (.inr hy)))))),
    habove.replaceChild hsa hsides, root_replace (.node red l b c) h.root, hnodup,
    fun y hy => ?_, hab, hal⟩
  · rw [parent, hkeep a hsa]
    exact hparent
  · rw [RbMem.red, hkeep a hsa]
    exact hred
  · rw [child_of_agree (hkeep a hsa)]
    exact hleft
  · rw [child_of_agree (hkeep b hsb)]
    exact hright
  · rw [mem_plug_iff, not_or] at hy
    exact hkeep y hy.2

/-- The next node leaves its place further down. -/
theorem Holds.unlinkNext {c : ColoredTree α} {red' : Bool}
    (h : Holds m m held (plug (.node red' .nil b c) (f :: path))) (hside : f.side = .left) :
    Holds m ((m.setParentOf (rootOf c) (some f.label)).setChild .left f.label (rootOf c)) held
      (plug c (f :: path)) := by
  have hsplice := Holds.splice (s := .left) h rfl
  have hhole := h.frame.2.2.1
  rw [hside] at hhole
  have htest : (m.setParentOf (rootOf c) (some f.label)).child .left f.label = some b := by
    rw [child_setParentOf, hhole]
    rfl
  rw [List.isEmpty_cons, Bool.or_false, above, RbMem.replaceChild, if_pos htest] at hsplice
  exact hsplice

/-- The next node is further down: its right child takes its place, and it takes the right subtree
of the old node. -/
theorem vacated_below {l c : ColoredTree α} {red' : Bool}
    (h : Holds m m held (plug (.node red' .nil b c) (f :: inner ++ ⟨.right, red, a, l⟩ :: path)))
    (hside : ∀ g ∈ f :: inner, g.side = .left) :
    ∃ m', takeNext a b (m.replaceChild .left (above path) a (some b)) = some (m', f.label) ∧
      Vacated m m' (held || path.isEmpty) red l a b (plug c (f :: inner)) path := by
  have hcons : Holds m m held
      (plug (.node red' .nil b c) (f :: (inner ++ ⟨.right, red, a, l⟩ :: path))) := h
  have hA := hcons.unlinkNext (hside f List.mem_cons_self)
  obtain ⟨mA, hmA⟩ : ∃ mA, (m.setParentOf (rootOf c) (some f.label)).setChild .left f.label
      (rootOf c) = mA := ⟨_, rfl⟩
  rw [hmA] at hA
  have hB : Holds m mA held (plug (.node red l a (plug c (f :: inner))) path) := by
    rw [← List.cons_append, plug_append] at hA
    exact hA
  -- Which nodes differ.
  have horder : inorder (plug (.node red' .nil b c) (f :: inner)) =
      b :: inorder (plug c (f :: inner)) := by
    rw [inorder_plug, inorder_plug, after_eq_nil (s := .right) hside]
    rfl
  have hT :
      (inorder (plug (.node red l a (plug (.node red' .nil b c) (f :: inner))) path)).Nodup := by
    have hnodup := h.nodup
    rw [plug_append] at hnodup
    exact hnodup
  obtain ⟨hnodup, hab, hal, har, hsa, hsb⟩ := nodup_exchange hT horder
  obtain ⟨hnode, hsides, hdisjoint⟩ := nodup_plug.mp hnodup
  obtain ⟨-, hnodupr, hbl, hbr, hlr⟩ := (nodup_branch (s := .left)).mp hnode
  obtain ⟨top, htop, htopmem⟩ := rootOf_plug_mem c f inner
  have htopr : top ∈ inorder (plug c (f :: inner)) := rootOf_mem htop
  have hflabel : f.label ∈ inorder (plug c (f :: inner)) :=
    mem_plug_iff.mpr (.inr (mem_sides_cons.mpr (.inl rfl)))
  have hcroot : ∀ y, rootOf c = some y → y ∈ inorder (plug c (f :: inner)) := fun y hy =>
    mem_plug_iff.mpr (.inl (rootOf_mem hy))
  have hin : ∀ y, y ∈ inorder l ∨ y = b ∨ y ∈ inorder (plug c (f :: inner)) → y ∉ sides path :=
    fun y hy => hdisjoint y (mem_inorder_node.mpr hy)
  have hwrite : ∀ y, y ∉ sides path → above path ≠ some y := fun y hy heq =>
    hy (mem_sides_of_above heq)
  -- The writes, in the order of the source.
  obtain ⟨htree, habove, -⟩ := hB.place
  obtain ⟨⟨hparent, hred, hleft, hright⟩, htl, htr⟩ := (tree_branch (s := .left)).mp htree
  obtain ⟨mC, hmC⟩ : ∃ mC, mA.replaceChild .left (above path) a (some b) = mC := ⟨_, rfl⟩
  have hC : ∀ y, y ∉ sides path → mC.node y = mA.node y := fun y hy => by
    rw [← hmC, node_replaceChild_ne (hwrite y hy)]
  have hcomm : ((m.replaceChild .left (above path) a (some b)).setParentOf (rootOf c)
      (some f.label)).setChild .left f.label (rootOf c) = mC := by
    rw [replaceChild_setParentOf fun y hy => hwrite y (hin y (.inr (.inr (hcroot y hy)))),
      replaceChild_setChild (hwrite _ (hin _ (.inr (.inr hflabel)))), hmA, hmC]
  obtain ⟨mD, hmD⟩ : ∃ mD, mC.setChild .right b (some top) = mD := ⟨_, rfl⟩
  have hD : ∀ y, y ≠ b → mD.node y = mC.node y := fun y hy => by
    rw [← hmD, node_setChild_ne hy]
  have hlast : ∀ y, y ≠ top → (mD.setParent top (some b)).node y = mD.node y := fun y hy =>
    node_setParent_ne hy
  have hkeep : ∀ y, y ≠ b → y ≠ top → y ∉ sides path →
      (mD.setParent top (some b)).node y = mA.node y := fun y hb ht hs =>
    (hlast y ht).trans ((hD y hb).trans (hC y hs))
  have hatop : a ≠ top := fun heq => har (heq ▸ htopr)
  have hbtop : b ≠ top := fun heq => hbr (heq ▸ htopr)
  have haA := hkeep a hab hatop hsa
  refine ⟨mD.setParent top (some b), ?_, ⟨?_, ?_, ?_⟩, ?_, ?_, ?_, ?_, ?_, hnodup, fun y hy => ?_,
    hab, hal⟩
  · have hnext := h.fields (s := .left)
    have hkept : (m.replaceChild .left (above path) a (some b)).node b = m.node b :=
      node_replaceChild_ne (hwrite b hsb)
    have hchild : mC.child .right a = some top := by
      rw [child_of_agree (hC a hsa), ← htop]
      exact hright
    have hfa : f.label ≠ a := fun heq => har (heq ▸ hflabel)
    have htest : ¬some f.label = some a := fun heq => hfa (Option.some.inj heq)
    have hright' : m.child .right b = rootOf c := hnext.2.2.2
    have hchildD : mD.child .right a = some top := by
      rw [child_of_agree (hD a hab), hchild]
    have hparentb : m.parent b = some f.label := hnext.1
    rw [takeNext, parent, hkept, ← parent, hparentb, child_of_agree hkept, hright', if_neg htest]
    dsimp only [Option.bind_eq_bind, Option.bind_some]
    rw [hcomm, hchild, hmD, hchildD]
    rfl
  · rw [parent, haA]
    exact hparent
  · rw [RbMem.red, haA]
    exact hred
  · rw [child_of_agree haA]
    exact hleft
  · rw [child_setParent, ← hmD, child_setChild, htop]
  · exact htl.congr fun y hy => hkeep y (fun heq => hbl (heq ▸ hy))
      (fun heq => hlr top (heq ▸ hy) htopr) (hin y (.inl hy))
  · have hmoved := (htr.congr fun y hy => (hD y fun heq => hbr (heq ▸ hy)).trans
      (hC y (hin y (.inr (.inr hy))))).setParentOf (q := some b) hnodupr
    rw [htop] at hmoved
    exact hmoved
  · have hplaced := habove.replaceChild (s := .left) (p := some b) hsa hsides
    rw [hmC] at hplaced
    refine hplaced.congr fun y hy => ?_
    have hyb : y ≠ b := fun heq => hsb (heq ▸ hy)
    have hyt : y ≠ top := fun heq => hin top (.inr (.inr htopr)) (heq ▸ hy)
    exact (hlast y hyt).trans (hD y hyb)
  · rw [root_setParent, ← hmD, root_setChild, ← hmC]
    exact root_replace (.node red l b (plug c (f :: inner))) hB.root
  · rw [mem_plug_iff, mem_inorder_node, not_or, not_or, not_or] at hy
    obtain ⟨⟨hyl, hyb, hyr⟩, hys⟩ := hy
    rw [hkeep y hyb (fun heq => hyr (heq ▸ htopr)) hys]
    by_cases hya : y = a
    · have hne : y ≠ f.label := fun heq => hyr (heq ▸ hflabel)
      rw [← hmA, node_setChild_ne hne, node_setParentOf_ne fun heq => hyr (hcroot y heq)]
    · refine hB.rest y ?_
      rw [mem_plug_iff, mem_inorder_node, not_or, not_or, not_or]
      exact ⟨⟨hyl, hya, hyr⟩, hys⟩

/-- Both ways in which the next node leaves its place. -/
theorem takeNext_spec {l c : ColoredTree α} {red' : Bool}
    (h : Holds m m held (plug (.node red' .nil b c) (inner ++ ⟨.right, red, a, l⟩ :: path)))
    (hside : ∀ g ∈ inner, g.side = .left) :
    ∃ m' p, takeNext a b (m.replaceChild .left (above path) a (some b)) = some (m', p) ∧
      above (inner ++ ⟨.right, red, b, l⟩ :: path) = some p ∧
        Vacated m m' (held || path.isEmpty) red l a b (plug c inner) path := by
  cases inner with
  | nil =>
      have hparent : m.parent b = some a := h.parent_eq rfl
      have hkept : (m.replaceChild .left (above path) a (some b)).node b = m.node b :=
        node_replaceChild_ne fun heq => h.place.2.2.2.2 b (mem_inorder_node.mpr (.inr (.inl rfl)))
          (mem_sides_cons.mpr (.inr (.inr (mem_sides_of_above heq))))
      refine ⟨_, b, ?_, rfl, vacated_child h⟩
      rw [takeNext, parent, hkept, ← parent, if_pos hparent]
  | cons f inner =>
      obtain ⟨m', htake, hvacated⟩ := vacated_below h hside
      exact ⟨m', f.label, htake, rfl, hvacated⟩

theorem eraseDouble_refines {l c : ColoredTree α} {right : α} {red' : Bool}
    (h : Holds m m held (plug (.node red' .nil b c) (inner ++ ⟨.right, red, a, l⟩ :: path)))
    (hside : ∀ g ∈ inner, g.side = .left) (hl : l ≠ .nil)
    (hright : rootOf (plug (.node red' .nil b c) inner) = some right)
    (hfuel : height (plug (.node red' .nil b c) (inner ++ ⟨.right, red, a, l⟩ :: path)) ≤ fuel) :
    Option.Rel (fun m' res => Holds m m' res.1 res.2) (eraseDouble fuel a right m)
      (SearchTree.splice (held || path.isEmpty) red' c
        (inner ++ ⟨.right, red, b, l⟩ :: path)) := by
  have hwhole : Holds m m held (plug (plug (.node red' .nil b c) inner)
      (⟨.right, red, a, l⟩ :: path)) := by
    rw [← plug_append]
    exact h
  have hheight : height (plug (.node red' .nil b c) inner) ≤ fuel := by
    rw [plug_append] at hfuel
    exact le_trans (le_trans (Nat.le_add_left _ _) (length_add_height_le _ _)) hfuel
  have hlength : (inner ++ ⟨.right, red, b, l⟩ :: path).length < fuel := by
    have hle := length_add_height_le (.node red' .nil b c)
      (inner ++ ⟨.right, red, a, l⟩ :: path)
    have hpos : 0 < height (.node red' .nil b c) := Nat.succ_pos _
    rw [List.length_append, List.length_cons] at hle ⊢
    omega
  have hdescend : m.descend .left fuel right = some b := by
    rw [descend_eq hwhole.place.1 hright hheight, elements_left, inorder_plug,
      after_eq_nil (s := .right) hside]
    rfl
  have hparent : m.parent a = above path := hwhole.frame.1
  have hkept : (m.replaceChild .left (above path) a (some b)).node b = m.node b :=
    node_replaceChild_ne fun heq => h.place.2.2.2.2 b (mem_inorder_node.mpr (.inr (.inl rfl)))
      (mem_sides_append (mem_sides_cons.mpr (.inr (.inr (mem_sides_of_above heq)))))
  obtain ⟨-, hred, -, hchild⟩ := h.fields (s := .left)
  obtain ⟨m₁, p, htake, hp, hvacated⟩ := takeNext_spec h hside
  obtain ⟨m₂, hover, hholds⟩ := hvacated.takeOver hl
  have hplace : Holds m m₂ (held || path.isEmpty)
      (plug c (inner ++ ⟨.right, red, b, l⟩ :: path)) := by
    rw [plug_append]
    exact hholds
  have hdone := eraseBlack_refines red' hplace hlength
  rw [eraseDouble, hdescend, hparent]
  dsimp only [Option.bind_eq_bind, Option.bind_some]
  rw [RbMem.red, hkept, ← RbMem.red, hred, child_of_agree hkept, htake]
  dsimp only [Option.bind_some]
  rw [hover, ← hp]
  have hchild' : m.child .right b = rootOf c := hchild
  rw [hchild']
  exact hdone

/-- `rb_erase` computes the tree without the node, with enough rounds. -/
theorem erase_refines {l r : ColoredTree α} (h : Holds m m held (plug (.node red l a r) path))
    (hfuel : height (plug (.node red l a r) path) ≤ fuel) :
    Option.Rel (fun m' res => Holds m m' res.1 res.2) (erase fuel a m)
      (eraseAt held (.node red l a r) path) := by
  have hlength : path.length < fuel := by
    have hle := length_add_height_le (.node red l a r) path
    have hpos : 0 < height (.node red l a r) := Nat.succ_pos _
    omega
  obtain ⟨-, -, hleft, hright⟩ := h.fields (s := .left)
  by_cases hl : l = .nil
  · subst hl
    rw [eraseAt_near, erase, hleft]
    have hchild : m.child .right a = rootOf r := hright
    rw [hchild]
    exact eraseSingle_refines (s := .left) h hlength
  · obtain ⟨left, hroot⟩ := Option.ne_none_iff_exists'.mp (mt rootOf_eq_none_iff.mp hl)
    have hchild : m.child .right a = rootOf r := hright
    rw [erase, hleft, hroot, hchild]
    cases r with
    | nil =>
        have hsingle := eraseSingle_refines (s := .right) (t := l) h hlength
        rw [hroot] at hsingle
        rw [eraseAt_far hl]
        exact hsingle
    | node redr lr ar rr =>
        obtain ⟨⟨red', b, c, inner⟩, hfirst⟩ : ∃ next, SearchTree.first redr lr ar rr [] = next :=
          ⟨_, rfl⟩
        obtain ⟨path', hpath, hside, hplug⟩ := first_spec hfirst
        rw [List.append_nil] at hpath
        subst hpath
        have hplace : plug (.node red l a (.node redr lr ar rr)) path =
            plug (.node red' .nil b c) (inner ++ ⟨.right, red, a, l⟩ :: path) := by
          rw [plug_append, hplug]
          rfl
        rw [hplace] at h hfuel
        rw [eraseAt_next hl hfirst]
        refine eraseDouble_refines h hside hl ?_ hfuel
        rw [hplug]
        rfl

end Ptrtd.RbMem
