import Mathlib.Data.List.Basic
import Mathlib.Data.List.Perm.Basic

/-! # Pointers into a list of registrations

A component keeps a pointer to the entry that it has registered in a list it shares with
others. The pointer is exact when the entries that belong to the component are the one it
points to, or none when it is null. Entries are known by a key. -/

namespace Ptrtd.Registry

variable {α : Type*} {key : α → ℕ} {mine mine' : α → Bool} {l l' : List α} {p : Option ℕ}
  {e : α} {a : ℕ}

/-- The entries in `mine` are exactly the one with the key `p`, or none if `p` is null. -/
def Points (key : α → ℕ) (mine : α → Bool) (l : List α) (p : Option ℕ) : Prop :=
  (l.filter mine).map key = p.toList

instance : Decidable (Points key mine l p) := inferInstanceAs (Decidable (_ = _))

theorem points_none : Points key mine l none ↔ l.filter mine = [] := by
  simp [Points]

theorem points_some : Points key mine l (some a) ↔ ∃ e, l.filter mine = [e] ∧ key e = a := by
  simp [Points, List.map_eq_singleton_iff]

/-- Every entry of the component is the one pointed to. -/
theorem Points.eq_some (h : Points key mine l p) (he : e ∈ l) (hmine : mine e = true) :
    p = some (key e) := by
  have hmem : key e ∈ p.toList := by
    rw [← h]
    exact List.mem_map_of_mem (List.mem_filter.mpr ⟨he, hmine⟩)
  simpa using hmem

/-- A pointer that is not null leads to an entry. -/
theorem Points.exists_mem (h : Points key mine l (some a)) :
    ∃ e ∈ l, mine e = true ∧ key e = a := by
  obtain ⟨e, hlist, hkey⟩ := points_some.mp h
  have hmem : e ∈ l.filter mine := by simp [hlist]
  obtain ⟨he, hmine⟩ := List.mem_filter.mp hmem
  exact ⟨e, he, hmine, hkey⟩

/-- Only the entries of the component matter. -/
theorem Points.congr (h : Points key mine l p) (hlist : l'.filter mine' = l.filter mine) :
    Points key mine' l' p := by
  rw [Points, hlist]
  exact h

/-- There is at most one entry. -/
theorem Points.length_le (h : Points key mine l p) : (l.filter mine).length ≤ 1 := by
  have hlen := congrArg List.length h
  rw [List.length_map] at hlen
  rw [hlen]
  cases p <;> simp

/-- The order of the list does not matter. -/
theorem Points.perm (h : Points key mine l p) (hperm : l'.Perm l) : Points key mine l' p := by
  have hkeys : ((l'.filter mine).map key).Perm p.toList := h ▸ (hperm.filter mine).map key
  cases p with
  | none => exact List.perm_nil.mp hkeys
  | some a => exact List.perm_singleton.mp hkeys

/-- A component without an entry registers one, wherever it is put. -/
theorem Points.add (h : Points key mine l none) (hmine : mine e = true)
    (hperm : l'.Perm (e :: l)) : Points key mine l' (some (key e)) := by
  have hfilter : (l'.filter mine).Perm [e] := by
    have hp := hperm.filter mine
    rwa [List.filter_cons_of_pos hmine, points_none.mp h] at hp
  rw [Points, List.perm_singleton.mp hfilter]
  rfl

/-- An entry of another component makes no difference. -/
theorem Points.add_other (h : Points key mine l p) (hmine : mine e = false) :
    Points key mine (e :: l) p :=
  h.congr (List.filter_cons_of_neg (by simp [hmine]))

/-- Taking the entry pointed to out of the list leaves the component without one. -/
theorem Points.remove (h : Points key mine l (some a)) :
    Points key mine (l.filter fun e => key e ≠ a) none := by
  obtain ⟨e, hlist, hkey⟩ := points_some.mp h
  refine points_none.mpr ?_
  rw [List.filter_filter]
  simp only [Bool.and_comm (mine _)]
  rw [← List.filter_filter, hlist]
  simp [hkey]

/-- Taking another entry out makes no difference. -/
theorem Points.remove_other (h : Points key mine l p) (hne : p ≠ some a) :
    Points key mine (l.filter fun e => key e ≠ a) p := by
  refine h.congr ?_
  rw [List.filter_filter]
  refine List.filter_congr fun e he => ?_
  cases hmine : mine e with
  | false => rfl
  | true =>
      have hp := h.eq_some he hmine
      have hkey : key e ≠ a := fun hk => hne (hk ▸ hp)
      simp [hkey]

/-- Taking out whatever the pointer leads to leaves the component without an entry. -/
theorem Points.clear (h : Points key mine l p) :
    Points key mine (l.filter fun e => some (key e) ≠ p) none := by
  cases p with
  | none => simpa using h
  | some a => simpa using h.remove

/-- Taking out what another pointer leads to makes no difference. -/
theorem Points.keep {q : Option ℕ} (h : Points key mine l p) (hne : ∀ a, q = some a → p ≠ some a) :
    Points key mine (l.filter fun e => some (key e) ≠ q) p := by
  cases q with
  | none => simpa using h
  | some a => simpa using h.remove_other (hne a rfl)

end Ptrtd.Registry
