import Mathlib.Data.Int.Notation
import Mathlib.Algebra.Order.Ring.Int

/-! # Expressions over C's `int`

An expression is defined in C if every value on the way fits a 32-bit `int` and no divisor is
zero. Division truncates toward zero. -/

namespace Ptrtd

inductive IntExpr
  | lit (n : ℤ)
  | add (a b : IntExpr)
  | sub (a b : IntExpr)
  | mul (a b : IntExpr)
  | div (a b : IntExpr)
  deriving Repr

namespace IntExpr

instance : Coe ℤ IntExpr := ⟨lit⟩
instance (n : ℕ) [n.AtLeastTwo] : OfNat IntExpr n := ⟨lit n⟩
instance : Add IntExpr := ⟨add⟩
instance : Sub IntExpr := ⟨sub⟩
instance : Mul IntExpr := ⟨mul⟩
instance : Div IntExpr := ⟨div⟩

def value : IntExpr → ℤ
  | lit n => n
  | add a b => a.value + b.value
  | sub a b => a.value - b.value
  | mul a b => a.value * b.value
  | div a b => a.value.tdiv b.value

/-- A 32-bit `int` holds the number. -/
def InInt (n : ℤ) : Prop := -2 ^ 31 ≤ n ∧ n ≤ 2 ^ 31 - 1

instance (n : ℤ) : Decidable (InInt n) := inferInstanceAs (Decidable (_ ∧ _))

/-- The expression is defined: so are its parts, and its own value fits. -/
def Fits : IntExpr → Prop
  | lit n => InInt n
  | add a b => a.Fits ∧ b.Fits ∧ InInt (add a b).value
  | sub a b => a.Fits ∧ b.Fits ∧ InInt (sub a b).value
  | mul a b => a.Fits ∧ b.Fits ∧ InInt (mul a b).value
  | div a b => a.Fits ∧ b.Fits ∧ b.value ≠ 0 ∧ InInt (div a b).value

variable {a b : IntExpr} {n lo hi : ℤ}

@[simp] theorem value_coe (n : ℤ) : (n : IntExpr).value = n := rfl

@[simp] theorem value_ofNat (n : ℕ) [n.AtLeastTwo] :
    (ofNat(n) : IntExpr).value = ofNat(n) := rfl

@[simp] theorem value_add : (a + b).value = a.value + b.value := rfl

@[simp] theorem value_sub : (a - b).value = a.value - b.value := rfl

@[simp] theorem value_mul : (a * b).value = a.value * b.value := rfl

@[simp] theorem value_div : (a / b).value = a.value.tdiv b.value := rfl

@[simp] theorem fits_coe : (n : IntExpr).Fits ↔ InInt n := Iff.rfl

@[simp] theorem fits_ofNat (n : ℕ) [n.AtLeastTwo] :
    (ofNat(n) : IntExpr).Fits ↔ InInt ofNat(n) := Iff.rfl

@[simp] theorem fits_add : (a + b).Fits ↔ a.Fits ∧ b.Fits ∧ InInt (a.value + b.value) := Iff.rfl

@[simp] theorem fits_sub : (a - b).Fits ↔ a.Fits ∧ b.Fits ∧ InInt (a.value - b.value) := Iff.rfl

@[simp] theorem fits_mul : (a * b).Fits ↔ a.Fits ∧ b.Fits ∧ InInt (a.value * b.value) := Iff.rfl

@[simp] theorem fits_div : (a / b).Fits ↔
    a.Fits ∧ b.Fits ∧ b.value ≠ 0 ∧ InInt (a.value.tdiv b.value) := Iff.rfl

/-- Truncation of a negative quotient. -/
theorem tdiv_of_nonpos {x : ℤ} (h : x ≤ 0) (d : ℤ) : x.tdiv d = -(-x / d) := by
  rw [← Int.tdiv_eq_ediv_of_nonneg (Int.neg_nonneg_of_nonpos h), Int.neg_tdiv, neg_neg]

end IntExpr

end Ptrtd
