import Mathlib.Data.Nat.ModEq
import Mathlib.Algebra.Group.Nat.Even
import Mathlib.Algebra.BigOperators.Group.List.Basic
import Mathlib.Data.List.Induction

/-! # One's-complement sums

Words of `w` bits are added with the carry out of the top put back in at the bottom. The sum of
a list of words is the only word that is congruent to the ordinary sum modulo `2 ^ w - 1` and is
zero just when the ordinary sum is. -/

namespace Ptrtd.OnesComplement

variable {w a b c x y : ℕ}

/-- One's-complement addition. -/
def add (w a b : ℕ) : ℕ := if a + b < 2 ^ w then a + b else a + b + 1 - 2 ^ w

/-- The one's-complement sum of a list of words. -/
def sum (w : ℕ) (words : List ℕ) : ℕ := words.foldl (add w) 0

/-- The word `x` stands for the total `c`. -/
structure Reduces (w x c : ℕ) : Prop where
  lt : x < 2 ^ w
  mod : x ≡ c [MOD 2 ^ w - 1]
  zero : x = 0 ↔ c = 0

theorem reduces_self (h : c < 2 ^ w) : Reduces w c c := ⟨h, rfl, Iff.rfl⟩

theorem Reduces.unique (hx : Reduces w x c) (hy : Reduces w y c) : x = y := by
  wlog hle : x ≤ y generalizing x y
  · exact (this hy hx (Nat.le_of_not_le hle)).symm
  have hdvd : 2 ^ w - 1 ∣ y - x := (Nat.modEq_iff_dvd' hle).mp (hx.mod.trans hy.mod.symm)
  have hlt := hy.lt
  by_cases hzero : x = 0
  · rw [hzero, hy.zero.mpr (hx.zero.mp hzero)]
  · have : y - x = 0 := Nat.eq_zero_of_dvd_of_lt hdvd (by omega)
    omega

/-- Putting the carry back in changes neither the residue nor whether the total is zero. -/
theorem Reduces.carry (h : Reduces w x (c / 2 ^ w + c % 2 ^ w)) : Reduces w x c := by
  have hsplit := Nat.div_add_mod c (2 ^ w)
  have hpow : 2 ^ w = 2 ^ w - 1 + 1 := (Nat.sub_add_cancel Nat.one_le_two_pow).symm
  refine ⟨h.lt, h.mod.trans ?_, h.zero.trans ?_⟩
  · have hmul : 2 ^ w * (c / 2 ^ w) ≡ c / 2 ^ w [MOD 2 ^ w - 1] := by
      rw [Nat.ModEq]
      nth_rewrite 1 [hpow]
      rw [Nat.add_mul, Nat.one_mul, Nat.mul_add_mod]
    have hadd := (hmul.add_right (c % 2 ^ w)).symm
    rw [hsplit] at hadd
    exact hadd
  · constructor
    · intro hz
      rw [← hsplit, (Nat.add_eq_zero_iff.mp hz).1, (Nat.add_eq_zero_iff.mp hz).2, Nat.mul_zero]
    · intro hz
      simp [hz]

theorem Reduces.add (ha : Reduces w x a) (hb : b < 2 ^ w) :
    Reduces w (add w x b) (a + b) := by
  have hlt := ha.lt
  have hzero := ha.zero
  rw [OnesComplement.add]
  by_cases hsum : x + b < 2 ^ w
  · rw [if_pos hsum]
    exact ⟨hsum, ha.mod.add_right b, by omega⟩
  · rw [if_neg hsum]
    refine ⟨by omega, ?_, by omega⟩
    have hwrap : x + b + 1 - 2 ^ w + (2 ^ w - 1) = x + b := by
      have : 1 ≤ 2 ^ w := Nat.one_le_two_pow
      omega
    have hmod : x + b + 1 - 2 ^ w ≡ x + b [MOD 2 ^ w - 1] := by
      rw [← hwrap, Nat.ModEq, Nat.add_mod_right]
      rw [hwrap]
    exact hmod.trans (ha.mod.add_right b)

/-- The one's-complement sum stands for the ordinary sum. -/
theorem reduces_sum {words : List ℕ} (h : ∀ a ∈ words, a < 2 ^ w) :
    Reduces w (sum w words) words.sum := by
  induction words using List.reverseRecOn with
  | nil => exact reduces_self (Nat.two_pow_pos w)
  | append_singleton words a ih =>
      have hinit : ∀ b ∈ words, b < 2 ^ w := by
        intro b hb
        exact h b (List.mem_append_left [a] hb)
      rw [sum, List.foldl_append, List.sum_append, List.sum_singleton]
      exact (ih hinit).add (h a (by simp))

/-- Adding the complement of the sum to the total gives the word of all ones. -/
theorem Reduces.complement (h : Reduces w x c) (hc : c ≠ 0) :
    Reduces w (2 ^ w - 1) (c + (2 ^ w - 1 - x)) := by
  have hlt := h.lt
  have hx : x ≠ 0 := fun hz => hc (h.zero.mp hz)
  refine ⟨by omega, ?_, by omega⟩
  have hsum : x + (2 ^ w - 1 - x) = 2 ^ w - 1 := by omega
  have hadd := h.mod.add_right (2 ^ w - 1 - x)
  rw [hsum] at hadd
  exact hadd

theorem Reduces.eq_ones_iff (h : Reduces w x c) (hc : c ≠ 0) :
    x = 2 ^ w - 1 ↔ c % (2 ^ w - 1) = 0 := by
  have hlt := h.lt
  have hx : x ≠ 0 := fun hz => hc (h.zero.mp hz)
  have hmod : x % (2 ^ w - 1) = c % (2 ^ w - 1) := h.mod
  rw [← hmod]
  constructor
  · rintro rfl
    exact Nat.mod_self _
  · intro hzero
    have := Nat.le_of_dvd (by omega) (Nat.dvd_of_mod_eq_zero hzero)
    omega

/-! ## Words of two bytes -/

/-- Pair up the digits of a list, the first of a pair being the high one; a digit left over is
paired with zero. -/
def pairs (base : ℕ) : List ℕ → List ℕ
  | [] => []
  | [h] => [h * base]
  | h :: l :: t => (h * base + l) :: pairs base t

variable {base : ℕ}

theorem pairs_append {l : List ℕ} (h : Even l.length) (t : List ℕ) :
    pairs base (l ++ t) = pairs base l ++ pairs base t := by
  fun_induction pairs base l with
  | case1 => rfl
  | case2 a => exact absurd h Nat.not_even_one
  | case3 a b l ih =>
      have htail : Even l.length := by
        rw [List.length_cons, List.length_cons] at h
        obtain ⟨k, hk⟩ := h
        exact ⟨k - 1, by omega⟩
      rw [List.cons_append, List.cons_append, pairs, ih htail]
      rfl

theorem pairs_lt {l : List ℕ} (h : ∀ a ∈ l, a < base) :
    ∀ a ∈ pairs base l, a < base * base := by
  fun_induction pairs base l with
  | case1 => simp
  | case2 a =>
      intro b hb
      have ha := h a (by simp)
      obtain rfl := List.mem_singleton.mp hb
      exact Nat.mul_lt_mul_of_pos_right ha (by omega)
  | case3 a b l ih =>
      intro c hc
      have ha := h a (by simp)
      have hb := h b (by simp)
      rcases List.mem_cons.mp hc with rfl | hc
      · calc
          a * base + b < a * base + base := Nat.add_lt_add_left hb _
          _ = (a + 1) * base := by rw [Nat.add_mul, Nat.one_mul]
          _ ≤ base * base := Nat.mul_le_mul_right base ha
      · exact ih (fun d hd => h d (by simp [hd])) c hc

end Ptrtd.OnesComplement
