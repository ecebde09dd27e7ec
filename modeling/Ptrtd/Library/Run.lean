import Mathlib.Logic.Basic
import Mathlib.Data.Option.Basic

/-! # Finite runs of a partial step function

`step s i = some t` says that input `i` takes state `s` to state `t`; `none` says that
the input is not enabled in `s`. A run may be restricted to the steps that satisfy a
side condition `ok` on the state and the input. -/

namespace Ptrtd.Transition

variable {σ ι : Type*} {step : σ → ι → Option σ} {ok : σ → ι → Prop}

/-- `Run step ok s t`: a finite run leads from `s` to `t`, every step of it satisfying `ok`. -/
inductive Run (step : σ → ι → Option σ) (ok : σ → ι → Prop) (s : σ) : σ → Prop where
  | refl : Run step ok s s
  | tail {t u : σ} {i : ι} :
      Run step ok s t → ok t i → step t i = some u → Run step ok s u

/-- The side condition satisfied by every step. -/
def Always : σ → ι → Prop := fun _ _ => True

instance (s : σ) (i : ι) : Decidable (Always s i) := isTrue trivial

/-- A property that holds at the start and is kept by every allowed step holds
throughout the run. -/
theorem Run.invariant {inv : σ → Prop} {s t : σ} (h : Run step ok s t) (hs : inv s)
    (hstep : ∀ t i u, inv t → ok t i → step t i = some u → inv u) : inv t := by
  induction h with
  | refl => exact hs
  | tail _ hok hnext ih => exact hstep _ _ _ ih hok hnext

theorem Run.trans {s t u : σ} (h : Run step ok s t) (h' : Run step ok t u) :
    Run step ok s u := by
  induction h' with
  | refl => exact h
  | tail _ hok hnext ih => exact .tail ih hok hnext

theorem Run.single {s t : σ} {i : ι} (hok : ok s i) (h : step s i = some t) :
    Run step ok s t :=
  .tail .refl hok h

theorem Run.mono {ok' : σ → ι → Prop} {s t : σ} (h : Run step ok s t)
    (himp : ∀ s i, ok s i → ok' s i) : Run step ok' s t := by
  induction h with
  | refl => exact .refl
  | tail _ hok hnext ih => exact .tail ih (himp _ _ hok) hnext

/-- A side condition may be strengthened by an invariant of the run. -/
theorem Run.strengthen {inv : σ → Prop} {s t : σ} (h : Run step ok s t) (hs : inv s)
    (hstep : ∀ t i u, inv t → ok t i → step t i = some u → inv u) :
    Run step (fun s i => inv s ∧ ok s i) s t ∧ inv t := by
  induction h with
  | refl => exact ⟨.refl, hs⟩
  | tail _ hok hnext ih =>
      exact ⟨.tail ih.1 ⟨ih.2, hok⟩ hnext, hstep _ _ _ ih.2 hok hnext⟩

/-- Execute a list of inputs, checking the side condition before every step. -/
def exec (step : σ → ι → Option σ) (ok : σ → ι → Prop) [∀ s i, Decidable (ok s i)] :
    σ → List ι → Option σ
  | s, [] => some s
  | s, i :: is => if ok s i then (step s i).bind fun t => exec step ok t is else none

/-- A successful execution is a run. -/
theorem run_of_exec [∀ s i, Decidable (ok s i)] {s t : σ} {is : List ι}
    (h : exec step ok s is = some t) : Run step ok s t := by
  induction is generalizing s with
  | nil =>
      obtain rfl : s = t := by simpa [exec] using h
      exact .refl
  | cons i is ih =>
      by_cases hok : ok s i
      · simp only [exec, hok, if_true, Option.bind_eq_some_iff] at h
        obtain ⟨u, hu, ht⟩ := h
        exact (Run.single hok hu).trans (ih ht)
      · simp [exec, hok] at h

/-- What is computed about the end of an execution holds at the end of some run. -/
theorem exists_run_of_exec [∀ s i, Decidable (ok s i)] {s : σ} {is : List ι} {p : σ → Bool}
    (h : (exec step ok s is).any p = true) : ∃ t, Run step ok s t ∧ p t = true := by
  obtain ⟨t, ht, hp⟩ := (Option.any_eq_true p _).mp h
  exact ⟨t, run_of_exec ht, hp⟩

end Ptrtd.Transition
