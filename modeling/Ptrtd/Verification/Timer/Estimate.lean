import Ptrtd.Model.Rtt

/-! # The round-trip estimate

Smoothing keeps the estimate within the samples, and its deviation within twice their bound, so
that nothing overflows on the way. -/

namespace Ptrtd

open IntExpr

variable {e : Estimate} {M : ℕ} {diff : ℤ}

/-- The samples are at most `M` in absolute value, and so is their smoothed mean. -/
structure Estimate.Bounded (M : ℕ) (e : Estimate) : Prop where
  srtt_ge : -(M : ℤ) ≤ e.srtt
  srtt_le : e.srtt ≤ M
  sdev_nonneg : 0 ≤ e.sdev
  sdev_le : e.sdev ≤ 2 * M

/-- Both assignments for a sample are defined. -/
def Estimate.SampleFits (e : Estimate) (diff : ℤ) : Prop :=
  (srttExpr diff e.srtt).Fits ∧ (sdevExpr diff (e.sample diff).srtt e.sdev).Fits

/-- All assignments for a sequence of samples are defined. -/
def Estimate.SamplesFit (e : Estimate) : List ℤ → Prop
  | [] => True
  | diff :: rest => e.SampleFits diff ∧ (e.sample diff).SamplesFit rest

/-- A weighted mean of two numbers with the same bound, rounded. -/
theorem mean_le {x y : ℤ} (hpos : 0 < y) (hlo : -(M : ℤ) ≤ x) (hhi : x ≤ M) (hy : y ≤ M) :
    -(M : ℤ) ≤ (2 * x + 8 * y + 5).tdiv 10 ∧ (2 * x + 8 * y + 5).tdiv 10 ≤ M := by
  rcases le_or_gt 0 (2 * x + 8 * y + 5) with hnonneg | hneg
  · rw [Int.tdiv_eq_ediv_of_nonneg hnonneg]
    omega
  · rw [tdiv_of_nonpos hneg.le]
    omega

theorem srttExpr_spec (hM : 200 * M + 50 ≤ 2 ^ 31 - 1) (h : e.Bounded M)
    (hlo : -(M : ℤ) ≤ diff) (hhi : diff ≤ M) : (srttExpr diff e.srtt).Fits ∧
      -(M : ℤ) ≤ (srttExpr diff e.srtt).value ∧ (srttExpr diff e.srtt).value ≤ M := by
  have hsrtt := h.srtt_ge
  have hsrtt' := h.srtt_le
  rw [srttExpr]
  split
  · next hpos =>
      obtain ⟨hmean, hmean'⟩ := mean_le hpos hlo hhi hsrtt'
      refine ⟨?_, hmean, hmean'⟩
      simp only [fits_div, fits_add, fits_mul, fits_coe, fits_ofNat, value_add, value_mul,
        value_coe, value_ofNat, InInt]
      omega
  · exact ⟨by simp only [fits_coe, InInt]; omega, hlo, hhi⟩

/-- The deviation of a sample from the new mean, smoothed. -/
theorem deviation_spec (hM : 200 * M + 50 ≤ 2 ^ 31 - 1) {x y d : ℤ} (hx : -(M : ℤ) ≤ x)
    (hx' : x ≤ M) (hy : -(M : ℤ) ≤ y) (hy' : y ≤ M) (hle : y ≤ x) (hd : 0 ≤ d) (hd' : d ≤ 2 * M) :
    ((75 * (d : IntExpr) + 25 * ((x : IntExpr) - (y : IntExpr)) + 50) / 100).Fits ∧
      0 ≤ ((75 * (d : IntExpr) + 25 * ((x : IntExpr) - (y : IntExpr)) + 50) / 100).value ∧
        ((75 * (d : IntExpr) + 25 * ((x : IntExpr) - (y : IntExpr)) + 50) / 100).value ≤ 2 * M := by
  have hnonneg : 0 ≤ 75 * d + 25 * (x - y) + 50 := by omega
  have hdiv : (75 * d + 25 * (x - y) + 50).tdiv 100 = (75 * d + 25 * (x - y) + 50) / 100 :=
    Int.tdiv_eq_ediv_of_nonneg hnonneg
  simp only [fits_div, fits_add, fits_sub, fits_mul, fits_coe, fits_ofNat, value_div, value_add,
    value_sub, value_mul, value_coe, value_ofNat, hdiv, InInt]
  omega

theorem sdevExpr_spec (hM : 200 * M + 50 ≤ 2 ^ 31 - 1) {srtt : ℤ} (h : e.Bounded M)
    (hlo : -(M : ℤ) ≤ diff) (hhi : diff ≤ M) (hsrtt : -(M : ℤ) ≤ srtt) (hsrtt' : srtt ≤ M) :
    (sdevExpr diff srtt e.sdev).Fits ∧ 0 ≤ (sdevExpr diff srtt e.sdev).value ∧
      (sdevExpr diff srtt e.sdev).value ≤ 2 * M := by
  rw [sdevExpr]
  split
  · next hgt =>
      exact deviation_spec hM hlo hhi hsrtt hsrtt' hgt.le h.sdev_nonneg h.sdev_le
  · next hle =>
      exact deviation_spec hM hsrtt hsrtt' hlo hhi (not_lt.mp hle) h.sdev_nonneg h.sdev_le

/-- One sample. -/
theorem Estimate.Bounded.sample (h : e.Bounded M) (hM : 200 * M + 50 ≤ 2 ^ 31 - 1)
    (hlo : -(M : ℤ) ≤ diff) (hhi : diff ≤ M) :
    (e.sample diff).Bounded M ∧ e.SampleFits diff := by
  obtain ⟨hfits, hsrtt, hsrtt'⟩ := srttExpr_spec hM h hlo hhi
  obtain ⟨hfits', hsdev, hsdev'⟩ := sdevExpr_spec hM h hlo hhi hsrtt hsrtt'
  exact ⟨⟨hsrtt, hsrtt', hsdev, hsdev'⟩, hfits, hfits'⟩

theorem Estimate.Bounded.samples (h : e.Bounded M) (hM : 200 * M + 50 ≤ 2 ^ 31 - 1)
    (samples : List ℤ) (hsamples : ∀ x ∈ samples, -(M : ℤ) ≤ x ∧ x ≤ M) :
    (samples.foldl Estimate.sample e).Bounded M ∧ e.SamplesFit samples := by
  induction samples generalizing e with
  | nil => exact ⟨h, trivial⟩
  | cons x rest ih =>
      obtain ⟨hlo, hhi⟩ := hsamples x List.mem_cons_self
      obtain ⟨hnext, hfits⟩ := h.sample hM hlo hhi
      obtain ⟨hlast, hrest⟩ := ih hnext fun y hy => hsamples y (List.mem_cons_of_mem x hy)
      exact ⟨hlast, hfits, hrest⟩

theorem Estimate.Bounded.timeoutFits (h : e.Bounded M) (hM : 200 * M + 50 ≤ 2 ^ 31 - 1) :
    (timeoutExpr e).Fits := by
  obtain ⟨hsrtt, hsrtt', hsdev, hsdev'⟩ := h
  simp only [timeoutExpr, fits_add, fits_mul, fits_coe, fits_ofNat, value_mul, value_coe,
    value_ofNat, InInt]
  omega

theorem Estimate.timeout_bounds (e : Estimate) : 500 ≤ e.timeout ∧ e.timeout ≤ 30000 := by
  rw [Estimate.timeout]
  split
  · decide
  · split <;> omega

/-- The estimate after a sequence of samples, from the one that a new block has. -/
def Estimate.after (samples : List ℤ) : Estimate := samples.foldl Estimate.sample ⟨0, 0⟩

/-- Nothing overflows, the estimate keeps to its bounds and so does the timeout, after any number
of samples. -/
theorem estimate_bounded (M : ℕ) (hM : 200 * M + 50 ≤ 2 ^ 31 - 1) (samples : List ℤ)
    (hsamples : ∀ x ∈ samples, -(M : ℤ) ≤ x ∧ x ≤ M) :
    Estimate.SamplesFit ⟨0, 0⟩ samples ∧ (timeoutExpr (Estimate.after samples)).Fits ∧
      (-(M : ℤ) ≤ (Estimate.after samples).srtt ∧ (Estimate.after samples).srtt ≤ M) ∧
      (0 ≤ (Estimate.after samples).sdev ∧ (Estimate.after samples).sdev ≤ 2 * M) ∧
        500 ≤ (Estimate.after samples).timeout ∧ (Estimate.after samples).timeout ≤ 30000 := by
  have hstart : Estimate.Bounded M ⟨0, 0⟩ := ⟨by simp, by simp, le_rfl, by simp⟩
  obtain ⟨hlast, hfits⟩ := hstart.samples hM samples hsamples
  exact ⟨hfits, hlast.timeoutFits hM, ⟨hlast.srtt_ge, hlast.srtt_le⟩,
    ⟨hlast.sdev_nonneg, hlast.sdev_le⟩, Estimate.timeout_bounds _⟩

/-- A second, then the clock goes back. -/
theorem estimate_bounded_back :
    Estimate.SamplesFit ⟨0, 0⟩ [1000, -1000, 20] ∧
      Estimate.after [1000, -1000, 20] = ⟨484, 416⟩ := by
  refine ⟨(estimate_bounded 1000 (by decide) [1000, -1000, 20] (by decide)).1, ?_⟩
  decide

end Ptrtd
