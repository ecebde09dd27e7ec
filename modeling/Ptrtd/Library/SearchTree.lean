import Mathlib.Data.List.Pairwise
import Mathlib.Data.List.Perm.Basic
import Mathlib.Algebra.Order.Ring.Int
import Mathlib.Order.Basic

/-! # Search trees ordered by a three-way comparison

A comparison returns a negative, zero or positive integer. It orders the elements by a key when
its sign is that of the comparison of keys; elements with equal keys need not be equal. A node
has a colour, which neither the descent nor the order looks at. -/

namespace Ptrtd.SearchTree

inductive ColoredTree (α : Type*)
  | nil
  | node (red : Bool) (l : ColoredTree α) (a : α) (r : ColoredTree α)

variable {α κ : Type*} [LinearOrder κ] {cmp : α → α → ℤ} {key : α → κ}
  {t t' l r : ColoredTree α} {a x : α} {red : Bool}

/-- The elements from left to right. -/
def inorder : ColoredTree α → List α
  | .nil => []
  | .node _ l a r => inorder l ++ a :: inorder r

/-- Descend with a comparison of the element looked for and the element at the node. -/
def find (cmp : α → ℤ) : ColoredTree α → Option α
  | .nil => none
  | .node _ l a r => if cmp a < 0 then find cmp l else if cmp a > 0 then find cmp r else some a

/-- Descend to a leaf and put a red node there, or refuse if an element compares equal. -/
def link (cmp : α → α → ℤ) (x : α) : ColoredTree α → Option (ColoredTree α)
  | .nil => some (.node true .nil x .nil)
  | .node red l a r =>
      if cmp x a < 0 then (link cmp x l).map fun l => .node red l a r
      else if cmp x a > 0 then (link cmp x r).map fun r => .node red l a r
      else none

/-- The keys increase from left to right. -/
def Sorted (key : α → κ) (t : ColoredTree α) : Prop :=
  (inorder t).Pairwise fun a b => key a < key b

/-- The comparison has the sign of the comparison of keys. -/
structure Compares (cmp : α → α → ℤ) (key : α → κ) : Prop where
  neg : ∀ a b, cmp a b < 0 ↔ key a < key b
  pos : ∀ a b, cmp a b > 0 ↔ key b < key a

@[simp] theorem mem_inorder_node : x ∈ inorder (.node red l a r) ↔
    x ∈ inorder l ∨ x = a ∨ x ∈ inorder r := by
  simp [inorder]

theorem sorted_node : Sorted key (.node red l a r) ↔ Sorted key l ∧ Sorted key r ∧
    (∀ b ∈ inorder l, key b < key a) ∧ (∀ b ∈ inorder r, key a < key b) ∧
      ∀ b ∈ inorder l, ∀ d ∈ inorder r, key b < key d := by
  simp only [Sorted, inorder, List.pairwise_append, List.pairwise_cons, List.mem_cons]
  constructor
  · rintro ⟨hl, ⟨ha, hr⟩, h⟩
    exact ⟨hl, hr, fun b hb => h b hb a (.inl rfl), ha, fun b hb d hd => h b hb d (.inr hd)⟩
  · rintro ⟨hl, hr, hla, har, hlr⟩
    refine ⟨hl, ⟨har, hr⟩, ?_⟩
    rintro b hb d (rfl | hd)
    · exact hla b hb
    · exact hlr b hb d hd

/-- Elements of a sorted tree are known by their keys. -/
theorem Sorted.eq_of_key (h : Sorted key t) (ha : a ∈ inorder t) (hx : x ∈ inorder t)
    (hkey : key a = key x) : a = x := by
  have hne : (inorder t).Pairwise fun a b => key a ≠ key b := h.imp ne_of_lt
  by_contra hax
  have hsymm : Std.Symm fun a b => key a ≠ key b := ⟨fun _ _ => Ne.symm⟩
  exact hne.forall ha hx hax hkey

theorem find_mem {c : α → ℤ} (h : find c t = some a) : a ∈ inorder t := by
  induction t with
  | nil => cases h
  | node red l b r ihl ihr =>
      rw [find] at h
      split at h
      · exact mem_inorder_node.mpr (.inl (ihl h))
      · split at h
        · exact mem_inorder_node.mpr (.inr (.inr (ihr h)))
        · obtain rfl := Option.some.inj h
          exact mem_inorder_node.mpr (.inr (.inl rfl))

/-- What compares equal has an equal key. -/
theorem Compares.eq (h : Compares cmp key) (hneg : ¬cmp a x < 0) (hpos : ¬cmp a x > 0) :
    key a = key x :=
  le_antisymm (not_lt.mp (mt (h.pos a x).mpr hpos)) (not_lt.mp (mt (h.neg a x).mpr hneg))

/-- The descent finds the element with the key. -/
theorem find_of_mem (h : Sorted key t) (hcmp : Compares cmp key) (ha : a ∈ inorder t)
    (hkey : key a = key x) : find (cmp x) t = some a := by
  induction t with
  | nil => cases ha
  | node red l b r ihl ihr =>
      obtain ⟨hl, hr, hbelow, habove, -⟩ := sorted_node.mp h
      rw [find]
      rcases mem_inorder_node.mp ha with hal | rfl | har
      · have hlt := hbelow a hal
        rw [hkey] at hlt
        rw [if_pos ((hcmp.neg x b).mpr hlt)]
        exact ihl hl hal
      · rw [if_neg (mt (hcmp.neg x a).mp (hkey ▸ lt_irrefl _)),
          if_neg (mt (hcmp.pos x a).mp (hkey ▸ lt_irrefl _))]
      · have hgt := habove a har
        rw [hkey] at hgt
        rw [if_neg (mt (hcmp.neg x b).mp (lt_asymm hgt)), if_pos ((hcmp.pos x b).mpr hgt)]
        exact ihr hr har

theorem find_key {a : α} (hcmp : Compares cmp key) (h : find (cmp x) t = some a) :
    key a = key x := by
  induction t with
  | nil => cases h
  | node red l b r ihl ihr =>
      rw [find] at h
      split at h
      · exact ihl h
      · next hneg =>
          split at h
          · exact ihr h
          · next hpos =>
              obtain rfl := Option.some.inj h
              exact (hcmp.eq hneg hpos).symm

theorem find_eq_none_iff (h : Sorted key t) (hcmp : Compares cmp key) :
    find (cmp x) t = none ↔ ∀ a ∈ inorder t, key a ≠ key x := by
  refine ⟨fun hnone a ha hkey => ?_, fun hall => ?_⟩
  · rw [find_of_mem h hcmp ha hkey] at hnone
    cases hnone
  · refine Option.eq_none_iff_forall_ne_some.mpr fun a hfind => ?_
    exact hall a (find_mem hfind) (find_key hcmp hfind)

/-- The new element is added to the others. -/
theorem link_perm (h : link cmp x t = some t') : (inorder t').Perm (x :: inorder t) := by
  induction t generalizing t' with
  | nil =>
      obtain rfl := Option.some.inj h
      exact List.Perm.refl _
  | node red l b r ihl ihr =>
      rw [link] at h
      split at h
      · obtain ⟨l', hl, rfl⟩ := Option.map_eq_some_iff.mp h
        exact (ihl hl).append_right _
      · split at h
        · obtain ⟨r', hr, rfl⟩ := Option.map_eq_some_iff.mp h
          refine (((ihr hr).cons b).append_left (inorder l)).trans ?_
          exact ((List.Perm.swap x b _).append_left _).trans List.perm_middle
        · cases h

theorem link_sorted (h : Sorted key t) (hcmp : Compares cmp key) (hlink : link cmp x t = some t') :
    Sorted key t' := by
  induction t generalizing t' with
  | nil =>
      obtain rfl := Option.some.inj hlink
      exact List.pairwise_singleton _ _
  | node red l b r ihl ihr =>
      obtain ⟨hl, hr, hbelow, habove, hlr⟩ := sorted_node.mp h
      rw [link] at hlink
      split at hlink
      · next hneg =>
          obtain ⟨l', hl', rfl⟩ := Option.map_eq_some_iff.mp hlink
          have hx := (hcmp.neg x b).mp hneg
          have hmem : ∀ d ∈ inorder l', d = x ∨ d ∈ inorder l := fun d hd =>
            List.mem_cons.mp ((link_perm hl').mem_iff.mp hd)
          refine sorted_node.mpr ⟨ihl hl hl', hr, fun d hd => ?_, habove, fun d hd e he => ?_⟩
          · rcases hmem d hd with rfl | hold
            · exact hx
            · exact hbelow d hold
          · rcases hmem d hd with rfl | hold
            · exact hx.trans (habove e he)
            · exact hlr d hold e he
      · split at hlink
        · next hpos =>
            obtain ⟨r', hr', rfl⟩ := Option.map_eq_some_iff.mp hlink
            have hx := (hcmp.pos x b).mp hpos
            have hmem : ∀ d ∈ inorder r', d = x ∨ d ∈ inorder r := fun d hd =>
              List.mem_cons.mp ((link_perm hr').mem_iff.mp hd)
            refine sorted_node.mpr ⟨hl, ihr hr hr', hbelow, fun d hd => ?_, fun d hd e he => ?_⟩
            · rcases hmem d hd with rfl | hold
              · exact hx
              · exact habove d hold
            · rcases hmem e he with rfl | hold
              · exact (hbelow d hd).trans hx
              · exact hlr d hd e hold
        · cases hlink

/-- Insertion is refused only for a key that is there. -/
theorem link_isSome (hcmp : Compares cmp key) (h : ∀ a ∈ inorder t, key a ≠ key x) :
    (link cmp x t).isSome = true := by
  induction t with
  | nil => rfl
  | node red l b r ihl ihr =>
      rw [link]
      split
      · rw [Option.isSome_map]
        exact ihl fun a ha => h a (mem_inorder_node.mpr (.inl ha))
      · next hneg =>
          split
          · rw [Option.isSome_map]
            exact ihr fun a ha => h a (mem_inorder_node.mpr (.inr (.inr ha)))
          · next hpos =>
              exact absurd (hcmp.eq hneg hpos).symm (h b (mem_inorder_node.mpr (.inr (.inl rfl))))

/-- Insertion is refused for a key that is there. -/
theorem link_of_mem (h : Sorted key t) (hcmp : Compares cmp key) (ha : a ∈ inorder t)
    (hkey : key a = key x) : link cmp x t = none := by
  induction t with
  | nil => cases ha
  | node red l b r ihl ihr =>
      obtain ⟨hl, hr, hbelow, habove, -⟩ := sorted_node.mp h
      rw [link]
      rcases mem_inorder_node.mp ha with hal | rfl | har
      · have hlt := hbelow a hal
        rw [hkey] at hlt
        rw [if_pos ((hcmp.neg x b).mpr hlt), ihl hl hal]
        rfl
      · rw [if_neg (mt (hcmp.neg x a).mp (hkey ▸ lt_irrefl _)),
          if_neg (mt (hcmp.pos x a).mp (hkey ▸ lt_irrefl _))]
      · have hgt := habove a har
        rw [hkey] at hgt
        rw [if_neg (mt (hcmp.neg x b).mp (lt_asymm hgt)), if_pos ((hcmp.pos x b).mpr hgt),
          ihr hr har]
        rfl

/-- Fewer elements in the same order are still sorted. -/
theorem Sorted.sublist (h : Sorted key t) (hsub : (inorder t').Sublist (inorder t)) :
    Sorted key t' :=
  List.Pairwise.sublist hsub h

end Ptrtd.SearchTree
