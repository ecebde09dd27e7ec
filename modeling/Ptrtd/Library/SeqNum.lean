import Mathlib.Data.BitVec
import Mathlib.Tactic.Ring

/-! # Sequence numbers modulo a power of two

`At base x k` reads the word `x` as the position `k` counted from `base`; positions
are natural numbers and do not wrap. Signed differences of words are exact as long as
the positions are less than half the space apart. -/

namespace Ptrtd.SeqNum

variable {w : ℕ} {base x y : BitVec w} {a b k n : ℕ}

/-- The word `x` stands for position `k` counted from `base`. -/
def At (base x : BitVec w) (k : ℕ) : Prop := x = base + BitVec.ofNat w k

theorem at_zero : At base base 0 := by simp [At]

theorem At.add (h : At base x k) (n : ℕ) : At base (x + BitVec.ofNat w n) (k + n) := by
  rw [At] at h ⊢
  rw [h, BitVec.add_assoc, BitVec.ofNat_add]

theorem At.succ (h : At base x k) : At base (x + 1) (k + 1) := h.add 1

/-- Moving the base forward by `n` moves every position back by `n`. -/
theorem At.rebase (h : At base x (n + k)) : At (base + BitVec.ofNat w n) x k := by
  rw [At] at h ⊢
  rw [h, BitVec.ofNat_add, BitVec.add_assoc]

theorem At.sub_eq (ha : At base x a) (hb : At base y b) :
    x - y = BitVec.ofInt w (a - b) := by
  rw [At] at ha hb
  have hx : x = base + BitVec.ofInt w a := by rw [ha, BitVec.ofInt_natCast]
  have hy : y = base + BitVec.ofInt w b := by rw [hb, BitVec.ofInt_natCast]
  rw [hx, hy, Int.sub_eq_add_neg, BitVec.ofInt_add, BitVec.ofInt_neg]
  ring

/-- A whole space further on the words repeat. -/
theorem At.wrap (h : At base x k) : At base x (k + 2 ^ w) := by
  rw [At] at h ⊢
  have hzero : BitVec.ofNat w (2 ^ w) = 0#w := by
    apply BitVec.eq_of_toNat_eq
    rw [BitVec.toNat_ofNat, BitVec.toNat_ofNat, Nat.mod_self, Nat.zero_mod]
  rw [h, BitVec.ofNat_add, hzero, BitVec.add_zero]

/-- The signed difference of two words is the difference of their positions. -/
theorem At.toInt_sub (ha : At base x a) (hb : At base y b)
    (hlo : -(2 ^ w : ℤ) ≤ ((a : ℤ) - b) * 2) (hhi : ((a : ℤ) - b) * 2 < 2 ^ w) :
    (x - y).toInt = (a : ℤ) - b := by
  rw [ha.sub_eq hb, BitVec.toInt_ofInt, Int.bmod_eq_of_le_mul_two] <;> push_cast <;> omega

/-- A position that does not run past the end of the space is an ordinary sum. -/
theorem At.toNat_eq (h : At base x k) (hk : base.toNat + k < 2 ^ w) :
    x.toNat = base.toNat + k := by
  rw [At] at h
  subst h
  rw [BitVec.toNat_add, BitVec.toNat_ofNat, Nat.add_mod_mod, Nat.mod_eq_of_lt hk]

theorem at_of_toNat_eq (h : x.toNat = base.toNat + k) : At base x k := by
  apply BitVec.eq_of_toNat_eq
  rw [BitVec.toNat_add, BitVec.toNat_ofNat, Nat.add_mod_mod, ← h,
    Nat.mod_eq_of_lt x.isLt]

/-- A word that is not behind another is as far ahead of it as their difference says. -/
theorem at_of_toInt (h : (x - y).toInt = n) : At y x n := by
  rw [At, ← BitVec.ofInt_natCast, ← h, BitVec.ofInt_toInt, BitVec.add_comm, BitVec.sub_add_cancel]

/-- One position further on, the signed difference is one less. -/
theorem toInt_sub_succ (hw : 0 < w) (h : 0 ≤ (x - y).toInt) :
    (x - (y + 1)).toInt = (x - y).toInt - 1 := by
  obtain ⟨k, hk⟩ := Int.eq_ofNat_of_zero_le h
  have hx : At y x k := at_of_toInt hk
  have hy : At y (y + 1) 1 := (Nat.zero_add 1) ▸ at_zero.succ
  have hlt : 2 * (k : ℤ) < 2 ^ w := hk ▸ BitVec.two_mul_toInt_lt
  have hpow : (2 : ℤ) ≤ 2 ^ w := by exact_mod_cast Nat.le_pow hw
  rw [hx.toInt_sub hy (by push_cast; omega) (by push_cast; omega), hk]
  rfl

/-- Equal words at positions less than a whole space apart are at equal positions. -/
theorem At.inj (ha : At base x a) (hb : At base x b) (hlo : a < b + 2 ^ w)
    (hhi : b < a + 2 ^ w) : a = b := by
  have h : (BitVec.ofNat w a) = BitVec.ofNat w b := by
    rw [At] at ha hb
    exact (BitVec.add_right_inj base).mp (ha.symm.trans hb)
  have hmod : a % 2 ^ w = b % 2 ^ w := by
    simpa using congrArg BitVec.toNat h
  rcases le_total a b with hab | hab
  · obtain ⟨d, rfl⟩ := Nat.exists_eq_add_of_le hab
    have hd : d % 2 ^ w = 0 := by
      have := (Nat.ModEq.add_left_cancel' a (show a + 0 ≡ a + d [MOD 2 ^ w] from hmod)).symm
      simpa [Nat.ModEq] using this
    rw [Nat.mod_eq_of_lt (by omega)] at hd
    omega
  · obtain ⟨d, rfl⟩ := Nat.exists_eq_add_of_le hab
    have hd : d % 2 ^ w = 0 := by
      have := Nat.ModEq.add_left_cancel' b (show b + d ≡ b + 0 [MOD 2 ^ w] from hmod)
      simpa [Nat.ModEq] using this
    rw [Nat.mod_eq_of_lt (by omega)] at hd
    omega

/-- The furthest position reached once the word `x` has been seen: `high`, moved up to
`x` when `x` lies beyond it. -/
def reach (base : BitVec w) (high : ℕ) (x : BitVec w) : ℕ :=
  high + (x - (base + BitVec.ofNat w high)).toInt.toNat

theorem reach_eq_max {high : ℕ} (h : At base x k)
    (hlo : -(2 ^ w : ℤ) ≤ ((k : ℤ) - high) * 2) (hhi : ((k : ℤ) - high) * 2 < 2 ^ w) :
    reach base high x = max high k := by
  have hsub := h.toInt_sub (b := high) (y := base + BitVec.ofNat w high) rfl hlo hhi
  rw [reach, hsub]
  omega

end Ptrtd.SeqNum
