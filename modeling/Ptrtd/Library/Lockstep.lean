import Mathlib.Data.Option.Basic

/-! # Two computations in step

Two partial computations are related by `Option.Rel` when they end together: both without a
result, or both with results that are related. -/

namespace Ptrtd.Lockstep

variable {β γ β' γ' : Type*} {r : β → γ → Prop} {r' : β' → γ' → Prop} {o : Option β} {o' : Option γ}

/-- Two computations go on together, or end together without a result. -/
theorem rel_bind {k : β → Option β'} {k' : γ → Option γ'} (h : Option.Rel r o o')
    (hnext : ∀ b c, r b c → Option.Rel r' (k b) (k' c)) :
    Option.Rel r' (o.bind k) (o'.bind k') := by
  cases h with
  | none => exact .none
  | some hbc => exact hnext _ _ hbc

/-- Each result is changed by a total function. -/
theorem rel_map_map {k : β → β'} {k' : γ → γ'} (h : Option.Rel r o o')
    (hmap : ∀ b c, r b c → r' (k b) (k' c)) : Option.Rel r' (o.map k) (o'.map k') := by
  cases h with
  | none => exact .none
  | some hbc => exact .some (hmap _ _ hbc)

theorem rel_map {r' : β' → γ → Prop} {k : β → β'} (h : Option.Rel r o o')
    (hmap : ∀ b c, r b c → r' (k b) c) : Option.Rel r' (o.bind fun b => some (k b)) o' := by
  cases h with
  | none => exact .none
  | some hbc => exact .some (hmap _ _ hbc)

/-- One side goes on with a total function. -/
theorem rel_map_bind {k : β → β'} {k' : γ → Option γ'} (h : Option.Rel r o o')
    (hnext : ∀ b c, r b c → Option.Rel r' (some (k b)) (k' c)) :
    Option.Rel r' (o.map k) (o'.bind k') := by
  cases h with
  | none => exact .none
  | some hbc => exact hnext _ _ hbc

theorem exists_of_rel {c : γ} (h : Option.Rel r o (some c)) : ∃ b, o = some b ∧ r b c := by
  cases h with
  | some hbc => exact ⟨_, rfl, hbc⟩

theorem eq_none_of_rel (h : Option.Rel r o none) : o = none := by
  cases h
  rfl

theorem rel_exists {b : β} (h : Option.Rel r (some b) o') : ∃ c, o' = some c ∧ r b c := by
  cases h with
  | some hbc => exact ⟨_, rfl, hbc⟩

end Ptrtd.Lockstep
