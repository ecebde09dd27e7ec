import Mathlib.Data.List.Basic

/-! # A list that several components change

Entries have a key, which is never used twice, and a tag that says which component they belong
to. A component adds entries of its own, takes out what it points to, and may put an entry of its
own somewhere else. What it does then says nothing about the entries of the others. -/

namespace Ptrtd.Ownership

variable {α δ : Type*} {key : α → ℕ} {tag : α → δ} {own : δ → Bool} {n n' p : ℕ}
  {l l' l'' : List α} {e x : α}

/-- The component that owns the tags in `own` has changed the list. Keys from `n` on are new. -/
structure Changed (key : α → ℕ) (tag : α → δ) (own : δ → Bool) (n : ℕ) (l l' : List α) : Prop where
  others : ∀ q : δ → Bool, (∀ d, own d = true → q d = false) →
    (l'.filter fun e => q (tag e)) = l.filter fun e => q (tag e)
  born : ∀ e ∈ l', (∃ x ∈ l, key x = key e ∧ tag x = tag e) ∨ own (tag e) = true ∧ n ≤ key e

/-- A key that has been used, if at all, for an entry of the component. -/
def Mine (key : α → ℕ) (tag : α → δ) (own : δ → Bool) (n : ℕ) (l : List α) (p : ℕ) : Prop :=
  p < n ∧ ∀ e ∈ l, key e = p → own (tag e) = true

/-- A used key stays with its component, whoever changes the list. -/
theorem Mine.changed {own' : δ → Bool} (h : Mine key tag own' n l p)
    (hchanged : Changed key tag own n l l') (hn : n ≤ n') : Mine key tag own' n' l' p := by
  obtain ⟨hlt, hall⟩ := h
  refine ⟨Nat.lt_of_lt_of_le hlt hn, fun e he hkey => ?_⟩
  rcases hchanged.born e he with ⟨x, hx, hxkey, hxtag⟩ | ⟨-, hnew⟩
  · rw [← hxtag]
    exact hall x hx (hxkey.trans hkey)
  · omega

namespace Changed

theorem refl (key : α → ℕ) (tag : α → δ) (own : δ → Bool) (n : ℕ) (l : List α) :
    Changed key tag own n l l :=
  ⟨fun _ _ => rfl, fun e he => .inl ⟨e, he, rfl, rfl⟩⟩

theorem trans (h : Changed key tag own n l l') (h' : Changed key tag own n' l' l'')
    (hn : n ≤ n') : Changed key tag own n l l'' := by
  refine ⟨fun q hq => (h'.others q hq).trans (h.others q hq), fun e he => ?_⟩
  rcases h'.born e he with ⟨x, hx, hkey, htag⟩ | ⟨hown, hnew⟩
  · rcases h.born x hx with ⟨y, hy, hykey, hytag⟩ | ⟨hown, hnew⟩
    · exact .inl ⟨y, hy, hykey.trans hkey, hytag.trans htag⟩
    · rw [htag] at hown
      rw [hkey] at hnew
      exact .inr ⟨hown, hnew⟩
  · exact .inr ⟨hown, Nat.le_trans hn hnew⟩

/-- An entry of the component is put somewhere in the list. It is new, or it takes the place of
one with its key and its tag. -/
theorem insert {l₁ l₂ : List α} (hl : l = l₁ ++ l₂) (hown : own (tag e) = true)
    (hkey : n ≤ key e) : Changed key tag own n l (l₁ ++ e :: l₂) := by
  subst hl
  refine ⟨fun q hq => ?_, fun x hx => ?_⟩
  · rw [List.filter_append, List.filter_cons_of_neg (by simp [hq _ hown]), List.filter_append]
  · rw [List.mem_append, List.mem_cons] at hx
    rcases hx with hx | rfl | hx
    · exact .inl ⟨x, List.mem_append_left _ hx, rfl, rfl⟩
    · exact .inr ⟨hown, hkey⟩
    · exact .inl ⟨x, List.mem_append_right _ hx, rfl, rfl⟩

/-- What the component points to is taken out. -/
theorem erase (h : Mine key tag own n l p) :
    Changed key tag own n l (l.filter fun e => key e ≠ p) := by
  refine ⟨fun q hq => ?_, fun e he => .inl ⟨e, (List.mem_filter.mp he).1, rfl, rfl⟩⟩
  rw [List.filter_filter]
  refine List.filter_congr fun e he => ?_
  by_cases hkey : key e = p
  · simp [hq _ (h.2 e he hkey)]
  · simp [hkey]

/-- An entry of the component changes its place. -/
theorem move {l₁ l₂ : List α} (hx : x ∈ l) (hmine : Mine key tag own n l (key x))
    (hl : (l.filter fun e => key e ≠ key x) = l₁ ++ l₂) (hkey : key e = key x)
    (htag : tag e = tag x) : Changed key tag own n l (l₁ ++ e :: l₂) := by
  have hown : own (tag e) = true := htag ▸ hmine.2 x hx rfl
  have herase := erase hmine
  rw [hl] at herase
  refine ⟨fun q hq => ?_, fun y hy => ?_⟩
  · rw [List.filter_append, List.filter_cons_of_neg (by simp [hq _ hown]), ← List.filter_append]
    exact herase.others q hq
  · rw [List.mem_append, List.mem_cons] at hy
    rcases hy with hy | rfl | hy
    · exact herase.born y (List.mem_append_left _ hy)
    · exact .inl ⟨x, hx, hkey.symm, htag.symm⟩
    · exact herase.born y (List.mem_append_right _ hy)

end Changed

end Ptrtd.Ownership
