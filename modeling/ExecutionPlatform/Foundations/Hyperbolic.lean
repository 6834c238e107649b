import Mathlib.Analysis.Convex.Deriv
import Mathlib.Analysis.SpecialFunctions.Trigonometric.DerivHyp

/-! How a ratio of two hyperbolic sines depends on their common rate. -/
namespace ExecutionPlatform.Foundations
open Real Set

theorem convexOn_sinh : ConvexOn ℝ (Ici 0) sinh := by
  refine MonotoneOn.convexOn_of_deriv (convex_Ici 0) continuous_sinh.continuousOn
    differentiable_sinh.differentiableOn ?_
  rw [Real.deriv_sinh]
  exact cosh_strictMonoOn.monotoneOn.mono interior_subset

/-- The graph of sinh lies below its chords from the origin. -/
theorem sinh_mul_le {s x : ℝ} (hs : 0 ≤ s) (hs1 : s ≤ 1) (hx : 0 ≤ x) :
    sinh (s * x) ≤ s * sinh x := by
  have h := convexOn_sinh.2 (mem_Ici.mpr hx) (mem_Ici.mpr le_rfl) hs (sub_nonneg.mpr hs1) (by ring)
  simpa using h

/-- The further from the origin, the more a step of the same length adds. -/
theorem sinh_increment_mono {x y d : ℝ} (hx : 0 ≤ x) (hxy : x ≤ y) (hd : 0 ≤ d) :
    sinh (x + d) - sinh x ≤ sinh (y + d) - sinh y := by
  have hincrement : ∀ z, sinh (z + d) - sinh z = sinh z * (cosh d - 1) + cosh z * sinh d := by
    intro z
    rw [sinh_add]
    ring
  have hcosh : cosh x ≤ cosh y := cosh_strictMonoOn.monotoneOn hx (hx.trans hxy) hxy
  rw [hincrement, hincrement]
  apply add_le_add
  · exact mul_le_mul_of_nonneg_right (sinh_le_sinh.mpr hxy) (sub_nonneg.mpr (one_le_cosh d))
  · exact mul_le_mul_of_nonneg_right hcosh (sinh_nonneg_iff.mpr hd)

variable {a b s T : ℝ}

/-- sinh (b x) / sinh (a x) grows with x when b is the larger rate. -/
theorem sinh_ratio_monotoneOn (ha : 0 < a) (hab : a ≤ b) :
    MonotoneOn (fun x => sinh (b * x) / sinh (a * x)) (Ioi 0) := by
  have hne : ∀ x ∈ Ioi (0 : ℝ), sinh (a * x) ≠ 0 := fun x hx =>
    (sinh_pos_iff.mpr (mul_pos ha hx)).ne'
  have hder : ∀ x ∈ Ioi (0 : ℝ), HasDerivAt (fun x => sinh (b * x) / sinh (a * x))
      ((cosh (b * x) * b * sinh (a * x) - sinh (b * x) * (cosh (a * x) * a)) /
        sinh (a * x) ^ 2) x := by
    intro x hx
    have hb : HasDerivAt (fun x => sinh (b * x)) (cosh (b * x) * b) x := by
      simpa using ((hasDerivAt_id x).const_mul b).sinh
    have ha : HasDerivAt (fun x => sinh (a * x)) (cosh (a * x) * a) x := by
      simpa using ((hasDerivAt_id x).const_mul a).sinh
    exact hb.div ha (hne x hx)
  refine monotoneOn_of_deriv_nonneg (convex_Ioi 0)
    (fun x hx => (hder x hx).continuousAt.continuousWithinAt) ?_ ?_ <;> rw [interior_Ioi]
  · exact fun x hx => (hder x hx).differentiableAt.differentiableWithinAt
  · intro x hx
    have hx0 : (0 : ℝ) < x := hx
    rw [(hder x hx).deriv]
    refine div_nonneg ?_ (sq_nonneg _)
    -- twice the numerator is (b - a) sinh ((a + b) x) - (a + b) sinh ((b - a) x)
    have hchord := sinh_mul_le (s := (b - a) / (a + b)) (x := (a + b) * x)
      (div_nonneg (by linarith) (by linarith)) ((div_le_one (by linarith)).mpr (by linarith))
      (by nlinarith)
    have hsum : a + b ≠ 0 := by linarith
    have harg : (b - a) / (a + b) * ((a + b) * x) = b * x - a * x := by
      field_simp
    have hadd : (a + b) * x = a * x + b * x := by ring
    rw [harg, hadd, div_mul_eq_mul_div, le_div_iff₀ (by linarith), sinh_sub, sinh_add] at hchord
    linarith

/-- The larger rate leaves the smaller share of the horizon. -/
theorem sinh_share_antitone (ha : 0 < a) (hab : a ≤ b) (hs : 0 < s) (hsT : s ≤ T) :
    sinh (b * s) / sinh (b * T) ≤ sinh (a * s) / sinh (a * T) := by
  have hT : 0 < T := hs.trans_le hsT
  have hb : 0 < b := ha.trans_le hab
  have hmono := sinh_ratio_monotoneOn ha hab (mem_Ioi.mpr hs) (mem_Ioi.mpr hT) hsT
  have has : 0 < sinh (a * s) := sinh_pos_iff.mpr (mul_pos ha hs)
  have haT : 0 < sinh (a * T) := sinh_pos_iff.mpr (mul_pos ha hT)
  have hbT : 0 < sinh (b * T) := sinh_pos_iff.mpr (mul_pos hb hT)
  rw [div_le_div_iff₀ hbT haT]
  rw [div_le_div_iff₀ has haT] at hmono
  linarith

/-- No positive rate leaves more than the linear share. -/
theorem sinh_share_le (hb : 0 < b) (hs : 0 ≤ s) (hsT : s ≤ T) (hT : 0 < T) :
    sinh (b * s) / sinh (b * T) ≤ s / T := by
  have hbT : 0 < sinh (b * T) := sinh_pos_iff.mpr (mul_pos hb hT)
  have hchord := sinh_mul_le (div_nonneg hs hT.le) ((div_le_one hT).mpr hsT) (mul_pos hb hT).le
  have harg : s / T * (b * T) = b * s := by
    field_simp
  rw [harg] at hchord
  exact (div_le_iff₀ hbT).mpr hchord

end ExecutionPlatform.Foundations
