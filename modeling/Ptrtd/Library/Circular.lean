import Mathlib.Data.List.Basic
import Mathlib.Algebra.Order.Group.Nat

/-! # Circular memory

A circular memory of `size` cells with a write position `wpos`. The `used` cells before
the write position, read in the order they were written, are its window. Indices wrap by
a comparison, as in a program that never divides. -/

namespace Ptrtd.Circular

variable {α : Type*} {size wpos used back n pos : ℕ}

/-- Contents of a memory, by cell index. -/
abbrev Mem (α : Type*) := ℕ → α

/-- Copy a list into consecutive cells from `pos` on. -/
def store (m : Mem α) (pos : ℕ) (l : List α) : Mem α := fun i =>
  if h : pos ≤ i ∧ i - pos < l.length then l.get ⟨i - pos, h.2⟩ else m i

/-- Copy `n` consecutive cells from `pos` on out of a memory. -/
def load (m : Mem α) (pos n : ℕ) : List α := (List.range n).map fun i => m (pos + i)

/-- The cell written `back` cells before the write position. -/
def cell (size wpos back : ℕ) : ℕ := if wpos < back then size + wpos - back else wpos - back

/-- The last `used` cells written, oldest first. -/
def window (m : Mem α) (size wpos used : ℕ) : List α :=
  (List.range used).map fun i => m (cell size wpos (used - i))

@[simp] theorem load_length (m : Mem α) (pos n : ℕ) : (load m pos n).length = n := by
  simp [load]

@[simp] theorem load_zero (m : Mem α) (pos : ℕ) : load m pos 0 = [] := rfl

@[simp] theorem window_length (m : Mem α) (size wpos used : ℕ) :
    (window m size wpos used).length = used := by
  simp [window]

theorem window_getElem (m : Mem α) (size wpos used i : ℕ)
    (h : i < (window m size wpos used).length) :
    (window m size wpos used)[i] = m (cell size wpos (used - i)) := by
  simp [window]

@[simp] theorem window_zero (m : Mem α) (size wpos : ℕ) : window m size wpos 0 = [] := rfl

theorem load_take (m : Mem α) (pos n k : ℕ) : (load m pos n).take k = load m pos (min k n) := by
  apply List.ext_getElem <;> simp [load]

theorem load_append (m : Mem α) (pos n k : ℕ) :
    load m pos n ++ load m (pos + n) k = load m pos (n + k) := by
  simp only [load, List.range_add, List.map_append, List.map_map]
  congr 1
  exact List.map_congr_left fun i _ => congrArg m (Nat.add_assoc pos n i)

/-- The newest `back` cells are the end of any longer window. -/
theorem window_drop (m : Mem α) (size wpos : ℕ) (hback : back ≤ used) :
    (window m size wpos used).drop (used - back) = window m size wpos back := by
  apply List.ext_getElem
  · simp
    omega
  · intro i h₁ h₂
    simp only [window_length] at h₂
    simp only [window, List.getElem_drop, List.getElem_map, List.getElem_range]
    congr 2
    omega

/-- A window that does not reach below cell zero is one block. -/
theorem window_of_le (m : Mem α) (size : ℕ) (h : back ≤ wpos) :
    window m size wpos back = load m (wpos - back) back := by
  apply List.map_congr_left
  intro i hi
  have hi := List.mem_range.mp hi
  congr 1
  rw [cell, if_neg (by omega)]
  omega

/-- A window that reaches below cell zero continues at the end of the memory. -/
theorem window_of_lt (m : Mem α) (h : wpos < back) (hsize : back ≤ size) :
    window m size wpos back =
      load m (size + wpos - back) (back - wpos) ++ load m 0 wpos := by
  have hsplit : window m size wpos back =
      (window m size wpos back).take (back - wpos) ++ window m size wpos wpos := by
    have hdrop := window_drop m size wpos (Nat.le_of_lt h)
    calc
      window m size wpos back = (window m size wpos back).take (back - wpos) ++
          (window m size wpos back).drop (back - wpos) := (List.take_append_drop _ _).symm
      _ = _ := by rw [hdrop]
  rw [hsplit, window_of_le m size le_rfl, Nat.sub_self]
  congr 1
  apply List.ext_getElem
  · simp
  · intro i h₁ h₂
    simp only [load_length] at h₂
    simp only [window, load, List.getElem_take, List.getElem_map, List.getElem_range]
    congr 1
    rw [cell, if_pos (by omega)]
    omega

/-- The end of the memory and its beginning are the same write position. -/
theorem window_end (m : Mem α) (hused : used ≤ size) :
    window m size size used = window m size 0 used := by
  apply List.map_congr_left
  intro i hi
  have hi := List.mem_range.mp hi
  congr 1
  rw [cell, cell, if_neg (by omega), if_pos (by omega)]
  omega

/-- Writing free cells at the write position appends to the window. -/
theorem window_store (m : Mem α) (l : List α) (size wpos used : ℕ)
    (hfree : used + l.length ≤ size) :
    window (store m wpos l) size (wpos + l.length) (used + l.length) =
      window m size wpos used ++ l := by
  apply List.ext_getElem
  · simp
  · intro i h₁ h₂
    have hlen : i < used + l.length := by simpa using h₁
    rw [window_getElem]
    by_cases hi : i < used
    · rw [List.getElem_append_left (by simpa using hi), window_getElem, store, dif_neg]
      · congr 1
        simp only [cell]
        split <;> split <;> omega
      · simp only [cell]
        split <;> omega
    · have hcell : cell size (wpos + l.length) (used + l.length - i) = wpos + (i - used) := by
        rw [cell, if_neg (by omega)]
        omega
      rw [List.getElem_append_right (by simpa using hi), store, hcell,
        dif_pos ⟨by omega, by omega⟩]
      congr 1
      simp

end Ptrtd.Circular
