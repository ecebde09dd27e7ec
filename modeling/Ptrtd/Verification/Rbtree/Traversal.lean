import Ptrtd.Verification.Rbtree.Memory

/-! # The order of the nodes in memory

`rb_first`, `rb_last`, `rb_next` and `rb_prev` follow the order of the elements. -/

namespace Ptrtd.RbMem

open SearchTree

variable {α : Type*} {m m₀ : RbMem α} {t near far : ColoredTree α} {a x : α}
  {red held : Bool} {s : Side} {path : List (Frame α)} {fuel : ℕ} {before rest l : List α}

/-- `rb_first` and `rb_last` lead to the two ends. -/
theorem extreme_eq (h : Holds m₀ m true t) (hfuel : height t ≤ fuel) :
    m.extreme s fuel = some (elements s t).head? := by
  rw [extreme, h.root, if_pos rfl]
  cases hroot : rootOf t with
  | none =>
      obtain rfl := rootOf_eq_none_iff.mp hroot
      cases s <;> rfl
  | some x =>
      dsimp only
      rw [descend_eq (s := s) h.tree hroot hfuel]
      obtain ⟨y, l, hl⟩ := List.exists_cons_of_ne_nil (elements_ne_nil (s := s) hroot)
      rw [hl]
      rfl

variable [DecidableEq α]

/-- The way up ends at the first node that is left on the other side. -/
theorem climb_eq (s : Side) (fuel : ℕ) (h : Holds m₀ m held (plug t path))
    (hx : rootOf t = some x) (hfuel : path.length < fuel) :
    m.climb s fuel x = some (after s.other path).head? := by
  induction path generalizing t x fuel with
  | nil =>
      obtain ⟨fuel, rfl⟩ := Nat.exists_eq_succ_of_ne_zero (Nat.ne_zero_of_lt hfuel)
      rw [climb, h.parent_eq hx]
      rfl
  | cons f path ih =>
      obtain ⟨fuel, rfl⟩ := Nat.exists_eq_succ_of_ne_zero (Nat.ne_zero_of_lt hfuel)
      obtain ⟨-, -, hhole, hsib⟩ := h.frame
      rw [climb, h.parent_eq hx]
      dsimp only [above]
      by_cases hside : f.side = s
      · subst hside
        rw [if_pos (hhole.trans hx), after_of_other (Side.other_other f.side).symm]
        refine ih fuel h rootOf_fill ?_
        simpa using hfuel
      · have hother := Side.eq_other_of_ne hside
        rw [hother, Side.other_other] at hsib
        rw [if_neg, after_of_side hother]
        · rfl
        · rw [hsib, ← hx]
          exact (h.siblings (.inl (by simp [hx]))).symm

theorem neighbor_place (h : Holds m₀ m held (plug (branch s red near x far) path))
    (hfuel : height (plug (branch s red near x far) path) ≤ fuel) :
    m.neighbor s fuel x = some (elements s.other near ++ after s.other path).head? := by
  obtain ⟨hparent, -, hnear, -⟩ := h.fields
  have hx : x ∉ sides path := h.place.2.2.2.2 x (mem_branch.mpr (.inr (.inl rfl)))
  have hself : ¬m.parent x = some x := by
    rw [hparent]
    exact fun heq => hx (mem_sides_of_above heq)
  have hheight := length_add_height_le (branch s red near x far) path
  rw [height_branch] at hheight
  rw [neighbor, if_neg hself, hnear]
  cases hroot : rootOf near with
  | none =>
      obtain rfl := rootOf_eq_none_iff.mp hroot
      have hclimb := climb_eq s fuel h rootOf_branch (by omega)
      have hempty : elements s.other (.nil : ColoredTree α) = [] := by cases s <;> rfl
      rw [hempty]
      exact hclimb
  | some y =>
      obtain ⟨-, htnear, -⟩ := tree_branch.mp h.place.1
      have hne := elements_ne_nil (s := s.other) hroot
      dsimp only
      rw [descend_eq (s := s.other) htnear hroot (by omega), List.head?_append_of_ne_nil _ hne]
      obtain ⟨z, l, hl⟩ := List.exists_cons_of_ne_nil hne
      rw [hl]
      rfl

/-- `rb_next` and `rb_prev` lead to the next element in the order from the other side. -/
theorem neighbor_eq (h : Holds m₀ m held t) (hx : elements s.other t = before ++ x :: rest)
    (hfuel : height t ≤ fuel) : m.neighbor s fuel x = some rest.head? := by
  have hmem : x ∈ inorder t := by
    rw [← mem_elements (s := s.other), hx]
    simp
  obtain ⟨⟨t', path⟩, hlocate⟩ : ∃ place, locate x t [] = some place := by
    rw [← Option.ne_none_iff_exists']
    exact fun hnone => locate_eq_none_iff.mp hnone hmem
  obtain ⟨hplug, red, l, r, rfl⟩ := locate_plug hlocate
  rw [plug_nil] at hplug
  obtain ⟨near, far, hview⟩ : ∃ near far, ColoredTree.node red l x r = branch s red near x far := by
    cases s with
    | left => exact ⟨l, r, rfl⟩
    | right => exact ⟨r, l, rfl⟩
  rw [hview] at hplug
  subst hplug
  rw [neighbor_place h hfuel]
  have hnodup : (elements s.other (plug (branch s red near x far) path)).Nodup := by
    have hn := h.nodup
    cases s
    · exact List.nodup_reverse.mpr hn
    · exact hn
  have hsplit : elements s.other (plug (branch s red near x far) path) =
      ((after s path).reverse ++ elements s.other far) ++
        x :: (elements s.other near ++ after s.other path) := by
    rw [elements_plug, Side.other_other, ← branch_other, elements_branch]
    simp
  rw [hsplit] at hx hnodup
  obtain ⟨-, htail, hdisjoint⟩ := List.nodup_append.mp hnodup
  have hbefore : x ∉ (after s path).reverse ++ elements s.other far := fun hin =>
    hdisjoint x hin x List.mem_cons_self rfl
  have hrest := (List.nodup_cons.mp htail).1
  rw [((List.append_cons_inj_of_notMem hbefore hrest).mp hx).2.2]

/-- The four functions go through the elements in order, in either direction, whatever the shape
of the tree. -/
theorem order_of_nodes (h : Holds m₀ m true t) (hfuel : height t ≤ fuel) :
    m.first fuel = some (inorder t).head? ∧ m.last fuel = some (inorder t).getLast? ∧
      ∀ before x rest, inorder t = before ++ x :: rest →
        m.next fuel x = some rest.head? ∧ m.prev fuel x = some before.getLast? := by
  refine ⟨extreme_eq h hfuel, ?_, fun before x rest hx => ⟨neighbor_eq h hx hfuel, ?_⟩⟩
  · have hlast := extreme_eq (s := .right) h hfuel
    rw [elements, List.head?_reverse] at hlast
    exact hlast
  · have hback : elements (Side.other .left) t = rest.reverse ++ x :: before.reverse := by
      rw [Side.other, elements, hx]
      simp
    have hprev := neighbor_eq h hback hfuel
    rw [List.head?_reverse] at hprev
    exact hprev

theorem order_of_nodes_pair : pair.first 2 = some (some 1) ∧ pair.last 2 = some (some 2) ∧
    ∀ before x rest, [1, 2] = before ++ x :: rest →
      pair.next 2 x = some rest.head? ∧ pair.prev 2 x = some before.getLast? :=
  order_of_nodes holds_pair (by decide)

end Ptrtd.RbMem
