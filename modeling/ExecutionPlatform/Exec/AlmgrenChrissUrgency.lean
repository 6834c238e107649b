import ExecutionPlatform.Exec.AlmgrenChriss
import ExecutionPlatform.Foundations.ExtendedReal
import ExecutionPlatform.Foundations.Hyperbolic
import Mathlib.Analysis.Complex.ExponentialBounds

/-! Does more risk aversion mean more urgency? Over doubles that overflow but do not round,
exactly as long as no ratio of two infinite sinh values reaches llround. -/
namespace ExecutionPlatform.Exec.AlmgrenChriss
open ExecutionPlatform.Core Foundations ExtendedReal

/-- libm over these doubles. Step j's llround call answers unspecified j where the standard
leaves its result open. -/
noncomputable def exactLibm (unspecified : Nat → BitVec 64) : Libm ExtendedReal where
  sqrt := ExtendedReal.sqrt
  sinh := ExtendedReal.sinh
  llround j := llround (unspecified j)

/-- A parent order in a market, with everything but the risk aversion. -/
structure Liquidation where
  parentQty : Quantity
  parentSide : Side
  numSteps : Nat
  horizon : ℝ
  sigma : ℝ
  eta : ℝ
  parentQty_lt : parentQty < 2 ^ 64
  numSteps_pos : 1 ≤ numSteps
  horizon_pos : 0 < horizon
  eta_pos : 0 < eta

namespace Liquidation

noncomputable def params (m : Liquidation) (lambda : ℝ) : Params ExtendedReal where
  parentQty := m.parentQty
  parentSide := m.parentSide
  numSteps := m.numSteps
  horizon := real m.horizon
  lambda := real lambda
  sigma := real m.sigma
  eta := real m.eta

noncomputable def schedule (m : Liquidation) (lambda : ℝ) (unspecified : Nat → BitVec 64) :
    AlmgrenChriss ExtendedReal :=
  new (exactLibm unspecified) (m.params lambda)

noncomputable def kappa (m : Liquidation) (lambda : ℝ) : ℝ :=
  Real.sqrt (lambda * m.sigma * m.sigma / m.eta)

/-- The time left after step j. -/
noncomputable def left (m : Liquidation) (j : Nat) : ℝ := m.horizon - j * m.horizon / m.numSteps

/-- sinh x exceeds the largest finite double. -/
def Overflows (x : ℝ) : Prop := maxDouble < Real.sinh x

/-- Step j's ratio is infinity over infinity. -/
def NotANumber (m : Liquidation) (lambda : ℝ) (j : Nat) : Prop :=
  Overflows (m.kappa lambda * m.left j)

open Classical in
/-- Step j's ratio wherever it is a number. -/
noncomputable def share (m : Liquidation) (lambda : ℝ) (j : Nat) : ℝ :=
  if m.kappa lambda * m.horizon ≤ 1 / 1000000000 then m.left j / m.horizon
  else if Overflows (m.kappa lambda * m.horizon) then 0
  else Real.sinh (m.kappa lambda * m.left j) / Real.sinh (m.kappa lambda * m.horizon)

/-- Step j calls llround on NaN, or on a value that rounds beyond the largest long long. -/
def Unspecified (m : Liquidation) (lambda : ℝ) (j : Nat) : Prop :=
  m.NotANumber lambda j ∨ (2 ^ 63 : Nat) ≤ m.parentQty * m.share lambda j + 0.5

/-- What step j rounds to otherwise. -/
noncomputable def rounded (m : Liquidation) (lambda : ℝ) (j : Nat) : Quantity :=
  ⌊m.parentQty * m.share lambda j + 0.5⌋₊

variable {m : Liquidation} {lambda lambda' : ℝ} {i j : Nat}

theorem numSteps_cast_pos (m : Liquidation) : (0 : ℝ) < m.numSteps :=
  Nat.cast_pos.mpr m.numSteps_pos

theorem left_nonneg (hj : j ≤ m.numSteps) : 0 ≤ m.left j := by
  have hle : (j : ℝ) * m.horizon / m.numSteps ≤ m.horizon := by
    rw [div_le_iff₀ m.numSteps_cast_pos, mul_comm]
    exact mul_le_mul_of_nonneg_left (Nat.cast_le.mpr hj) m.horizon_pos.le
  exact sub_nonneg.mpr hle

theorem left_pos (hj : j < m.numSteps) : 0 < m.left j := by
  have hlt : (j : ℝ) * m.horizon / m.numSteps < m.horizon := by
    rw [div_lt_iff₀ m.numSteps_cast_pos, mul_comm]
    exact mul_lt_mul_of_pos_left (Nat.cast_lt.mpr hj) m.horizon_pos
  exact sub_pos.mpr hlt

theorem left_antitone (hij : i ≤ j) : m.left j ≤ m.left i := by
  refine sub_le_sub_left ?_ _
  have hmul : (i : ℝ) * m.horizon ≤ j * m.horizon :=
    mul_le_mul_of_nonneg_right (Nat.cast_le.mpr hij) m.horizon_pos.le
  exact div_le_div_of_nonneg_right hmul m.numSteps_cast_pos.le

theorem left_zero (m : Liquidation) : m.left 0 = m.horizon := by
  simp [left]

theorem left_le (m : Liquidation) (j : Nat) : m.left j ≤ m.horizon :=
  m.left_zero ▸ left_antitone (Nat.zero_le j)

theorem kappa_nonneg (m : Liquidation) (lambda : ℝ) : 0 ≤ m.kappa lambda := Real.sqrt_nonneg _

theorem kappa_mono (h : lambda ≤ lambda') : m.kappa lambda ≤ m.kappa lambda' := by
  refine Real.sqrt_le_sqrt (div_le_div_of_nonneg_right ?_ m.eta_pos.le)
  rw [mul_assoc, mul_assoc]
  exact mul_le_mul_of_nonneg_right h (mul_self_nonneg _)

theorem Overflows.mono {x y : ℝ} (h : Overflows x) (hxy : x ≤ y) : Overflows y :=
  h.trans_le (Real.sinh_le_sinh.mpr hxy)

theorem NotANumber.anti (h : m.NotANumber lambda j) (hij : i ≤ j) : m.NotANumber lambda i :=
  h.mono (mul_le_mul_of_nonneg_left (left_antitone hij) (m.kappa_nonneg lambda))

theorem NotANumber.overflows (h : m.NotANumber lambda j) : Overflows (m.kappa lambda * m.horizon) :=
  h.mono (mul_le_mul_of_nonneg_left (m.left_le j) (m.kappa_nonneg lambda))

/-- Since e is below 4, sinh is finite up to 500. -/
theorem not_overflows_of_le {x : ℝ} (h : x ≤ 500) : ¬ Overflows x := by
  have hexp : Real.exp 500 ≤ 2 ^ 1023 := by
    have hpow := Real.exp_nat_mul 1 500
    rw [mul_one, Nat.cast_ofNat] at hpow
    have hone : Real.exp 1 ≤ 2 ^ 2 := Real.exp_one_lt_three.le.trans (by norm_num)
    calc Real.exp 500 = Real.exp 1 ^ 500 := hpow
      _ ≤ (2 ^ 2) ^ 500 := pow_le_pow_left₀ (Real.exp_pos 1).le hone 500
      _ = 2 ^ 1000 := (pow_mul 2 2 500).symm
      _ ≤ 2 ^ 1023 := pow_le_pow_right₀ one_le_two (by norm_num)
  have hsinh : Real.sinh 500 ≤ Real.exp 500 := by
    have hpos := Real.exp_pos 500
    have hneg := Real.exp_pos (-500)
    rw [Real.sinh_eq]
    linarith
  exact not_lt.mpr ((Real.sinh_le_sinh.mpr h).trans (hsinh.trans (hexp.trans le_maxDouble)))

/-- Since e is above 2, sinh is infinite from 1026 on. -/
theorem overflows_of_le {x : ℝ} (h : 1026 ≤ x) : Overflows x := by
  have hexp : 2 ^ 1026 ≤ Real.exp 1026 := by
    have hpow := Real.exp_nat_mul 1 1026
    rw [mul_one, Nat.cast_ofNat] at hpow
    rw [hpow]
    exact pow_le_pow_left₀ zero_le_two Real.exp_one_gt_two.le 1026
  have hsinh : Real.exp 1026 ≤ 4 * Real.sinh 1026 := by
    have hneg : Real.exp (-1026) ≤ 1 := Real.exp_le_one_iff.mpr (by norm_num)
    have hpos : 1026 + 1 ≤ Real.exp 1026 := Real.add_one_le_exp 1026
    rw [Real.sinh_eq]
    linarith only [hneg, hpos]
  have hquarter : 4 * (2 : ℝ) ^ 1024 = 2 ^ 1026 := by
    rw [show (4 : ℝ) = 2 ^ 2 from by norm_num, ← pow_add]
  refine maxDouble_lt.trans_le (le_trans ?_ (Real.sinh_le_sinh.mpr h))
  refine le_of_mul_le_mul_left ?_ four_pos
  exact hquarter.trans_le (hexp.trans hsinh)

/-- Overflow begins far above the linear limit. -/
theorem Overflows.not_le {x : ℝ} (h : Overflows x) : ¬ x ≤ 1 / 1000000000 :=
  fun hx => not_overflows_of_le (hx.trans (by norm_num)) h

theorem share_nonneg (lambda : ℝ) (hj : j ≤ m.numSteps) : 0 ≤ m.share lambda j := by
  have hk := m.kappa_nonneg lambda
  rw [share]
  split_ifs
  · exact div_nonneg (left_nonneg hj) m.horizon_pos.le
  · exact le_rfl
  · exact div_nonneg (Real.sinh_nonneg_iff.mpr (mul_nonneg hk (left_nonneg hj)))
      (Real.sinh_nonneg_iff.mpr (mul_nonneg hk m.horizon_pos.le))

/-- Later steps leave less. -/
theorem share_anti (hij : i ≤ j) : m.share lambda j ≤ m.share lambda i := by
  have hk := m.kappa_nonneg lambda
  have hleft := left_antitone (m := m) hij
  rw [share, share]
  split_ifs
  · exact div_le_div_of_nonneg_right hleft m.horizon_pos.le
  · exact le_rfl
  · refine div_le_div_of_nonneg_right ?_ (Real.sinh_nonneg_iff.mpr (mul_nonneg hk m.horizon_pos.le))
    exact Real.sinh_le_sinh.mpr (mul_le_mul_of_nonneg_left hleft hk)

theorem share_le_one (m : Liquidation) (lambda : ℝ) (j : Nat) : m.share lambda j ≤ 1 := by
  refine (share_anti (Nat.zero_le j)).trans ?_
  rw [share, left_zero]
  split_ifs
  · exact div_self_le_one _
  · exact zero_le_one
  · exact div_self_le_one _

/-- More risk aversion leaves less, where the ratios are numbers. -/
theorem share_antitone (h : lambda ≤ lambda') (hj : j < m.numSteps) :
    m.share lambda' j ≤ m.share lambda j := by
  have hkk := kappa_mono (m := m) h
  have hkT : m.kappa lambda * m.horizon ≤ m.kappa lambda' * m.horizon :=
    mul_le_mul_of_nonneg_right hkk m.horizon_pos.le
  have hnonneg := share_nonneg lambda hj.le
  by_cases hlin' : m.kappa lambda' * m.horizon ≤ 1 / 1000000000
  · rw [share, share, if_pos hlin', if_pos (hkT.trans hlin')]
  by_cases hover' : Overflows (m.kappa lambda' * m.horizon)
  · rwa [share, if_neg hlin', if_pos hover']
  have hover : ¬ Overflows (m.kappa lambda * m.horizon) := fun ho => hover' (ho.mono hkT)
  have hpos' : 0 < m.kappa lambda' := by
    refine pos_of_mul_pos_left ?_ m.horizon_pos.le
    linarith
  rw [share, share, if_neg hlin', if_neg hover', if_neg hover]
  split_ifs with hlin
  · exact sinh_share_le hpos' (left_nonneg hj.le) (m.left_le j) m.horizon_pos
  · have hpos : 0 < m.kappa lambda := by
      refine pos_of_mul_pos_left ?_ m.horizon_pos.le
      linarith
    exact sinh_share_antitone hpos hkk (left_pos hj) (m.left_le j)

section Code
variable {u : Nat → BitVec 64}

theorem exactLibm_sinh (x : ExtendedReal) : (exactLibm u).sinh x = ExtendedReal.sinh x := rfl

theorem params_horizon : (m.params lambda).horizon = real m.horizon := rfl
theorem params_numSteps : (m.params lambda).numSteps = m.numSteps := rfl
theorem params_parentQty : (m.params lambda).parentQty = m.parentQty := rfl

theorem computeKappa_eq (m : Liquidation) (h0 : 0 ≤ lambda) :
    computeKappa (exactLibm u) (m.params lambda).lambda (m.params lambda).sigma
      (m.params lambda).eta = real (m.kappa lambda) := by
  have hnum : 0 ≤ lambda * m.sigma * m.sigma := by
    rw [mul_assoc]
    exact mul_nonneg h0 (mul_self_nonneg _)
  rw [computeKappa, kappa]
  simp only [params, real_mul, natCast_eq, real_le, real_div m.eta_pos.ne', Nat.cast_zero]
  split_ifs with hz
  · rw [le_antisymm hz hnum, zero_div, Real.sqrt_zero]
  · exact if_pos (div_nonneg hnum m.eta_pos.le)

theorem linear_iff (h0 : 0 ≤ lambda) :
    linear (exactLibm u) (m.params lambda) = true ↔
      m.kappa lambda * m.horizon ≤ 1 / 1000000000 := by
  have hfloor : (kappaFloor : ExtendedReal) = real (1 / 1000000000) := by
    rw [kappaFloor, natCast_eq, natCast_eq, real_div (by norm_num)]
    norm_num
  rw [linear, m.computeKappa_eq h0, params_horizon, real_mul, hfloor]
  simp only [real_lt, Bool.not_eq_true', decide_eq_false_iff_not, not_lt]

theorem sinh_of_overflows {x : ℝ} (h : Overflows x) : ExtendedReal.sinh (real x) = inf :=
  if_neg (not_le.mpr h)

theorem sinh_of_not_overflows {x : ℝ} (h : ¬ Overflows x) :
    ExtendedReal.sinh (real x) = real (Real.sinh x) := if_pos (not_lt.mp h)

open Classical in
/-- The code's ratio is NaN where both sinh values overflow, and the share elsewhere. -/
theorem ratio_eq (h0 : 0 ≤ lambda) (j : Nat) :
    ratio (exactLibm u) (m.params lambda) j =
      if m.NotANumber lambda j then nan else real (m.share lambda j) := by
  have hN : (m.numSteps : ℝ) ≠ 0 := m.numSteps_cast_pos.ne'
  have hleft : real m.horizon - ((j : Nat) : ExtendedReal) * real m.horizon /
      ((m.numSteps : Nat) : ExtendedReal) = real (m.left j) := by
    rw [natCast_eq, natCast_eq, real_mul, real_div hN, real_sub, left]
  rw [ratio, share]
  simp only [params_horizon, params_numSteps, m.computeKappa_eq h0, hleft, real_mul, exactLibm_sinh]
  by_cases hlin : m.kappa lambda * m.horizon ≤ 1 / 1000000000
  · have hnum : ¬ m.NotANumber lambda j := fun h => h.overflows.not_le hlin
    rw [if_pos ((linear_iff h0).mpr hlin), if_pos hlin, if_neg hnum, real_div m.horizon_pos.ne']
  rw [if_neg fun h => hlin ((linear_iff h0).mp h), if_neg hlin]
  by_cases hover : Overflows (m.kappa lambda * m.horizon)
  · rw [sinh_of_overflows hover, if_pos hover]
    by_cases hnum : m.NotANumber lambda j
    · rw [sinh_of_overflows hnum, inf_div_inf, if_pos hnum]
    · rw [sinh_of_not_overflows hnum, real_div_inf, if_neg hnum]
  · have hnum : ¬ m.NotANumber lambda j := fun h => hover h.overflows
    have hpos : Real.sinh (m.kappa lambda * m.horizon) ≠ 0 := by
      refine (Real.sinh_pos_iff.mpr ?_).ne'
      linarith
    rw [sinh_of_not_overflows hover, sinh_of_not_overflows hnum, real_div hpos, if_neg hover,
      if_neg hnum]

theorem clampUnit_real {x : ℝ} (h0 : 0 ≤ x) (h1 : x ≤ 1) : clampUnit (real x) = real x := by
  have hlow : ¬ real x < ((0 : Nat) : ExtendedReal) := by
    rw [natCast_eq, real_lt, Nat.cast_zero]
    exact not_lt.mpr h0
  have hhigh : ¬ ((1 : Nat) : ExtendedReal) < real x := by
    rw [natCast_eq, real_lt, Nat.cast_one]
    exact not_lt.mpr h1
  rw [clampUnit, if_neg hlow]
  exact if_neg hhigh

theorem clampUnit_nan : clampUnit nan = nan := by
  rw [clampUnit, if_neg (not_nan_lt _)]
  exact if_neg (not_lt_nan _)

theorem target_of_nan (h0 : 0 ≤ lambda) (h : m.NotANumber lambda j) :
    target (exactLibm u) (m.params lambda) j = (u j).toNat := by
  rw [target, ratio_eq h0, if_pos h, clampUnit_nan, params_parentQty, natCast_eq, mul_nan]
  rfl

theorem target_of_not_nan (h0 : 0 ≤ lambda) (hj : j ≤ m.numSteps) (h : ¬ m.NotANumber lambda j) :
    target (exactLibm u) (m.params lambda) j =
      (llround (u j) (real (m.parentQty * m.share lambda j))).toNat := by
  rw [target, ratio_eq h0, if_neg h, clampUnit_real (share_nonneg lambda hj) (m.share_le_one lambda j),
    params_parentQty, natCast_eq, real_mul]
  rfl

/-- What a specified llround call leaves of the parent. -/
theorem target_specified (h0 : 0 ≤ lambda) (hj : j ≤ m.numSteps) (h : ¬ m.Unspecified lambda j) :
    target (exactLibm u) (m.params lambda) j = m.rounded lambda j := by
  obtain ⟨hnum, hrange⟩ := not_or.mp h
  rw [target_of_not_nan h0 hj hnum]
  exact llround_of_lt (u j) (mul_nonneg (Nat.cast_nonneg _) (share_nonneg lambda hj)) (not_le.mp hrange)

theorem target_unspecified (h0 : 0 ≤ lambda) (hj : j ≤ m.numSteps) (h : m.Unspecified lambda j) :
    target (exactLibm u) (m.params lambda) j = (u j).toNat := by
  by_cases hnum : m.NotANumber lambda j
  · exact target_of_nan h0 hnum
  · rw [target_of_not_nan h0 hj hnum, llround_of_le (u j) (h.resolve_left hnum)]

end Code

/-- A step before an unspecified one is unspecified. -/
theorem Unspecified.anti (h : m.Unspecified lambda j) (hij : i ≤ j) : m.Unspecified lambda i := by
  rcases h with h | h
  · exact .inl (h.anti hij)
  · refine .inr (h.trans ?_)
    have hQ : (0 : ℝ) ≤ m.parentQty := Nat.cast_nonneg _
    have hshare : m.share lambda j ≤ m.share lambda i := share_anti hij
    have hmul := mul_le_mul_of_nonneg_left hshare hQ
    linarith

/-- Nothing is left to round at the horizon. -/
theorem not_unspecified_end (m : Liquidation) (lambda : ℝ) : ¬ m.Unspecified lambda m.numSteps := by
  have hleft : m.left m.numSteps = 0 := by
    rw [left, mul_div_assoc, mul_div_cancel₀ _ m.numSteps_cast_pos.ne', sub_self]
  have hmax : 0 < maxDouble := by
    rw [maxDouble]
    positivity
  have hshare : m.share lambda m.numSteps = 0 := by
    rw [share, hleft, zero_div, mul_zero, Real.sinh_zero, zero_div]
    split_ifs <;> rfl
  rintro (h | h)
  · rw [NotANumber, Overflows, hleft, mul_zero, Real.sinh_zero] at h
    exact absurd h (not_lt.mpr hmax.le)
  · rw [hshare] at h
    norm_num at h

theorem rounded_anti (m : Liquidation) (lambda : ℝ) (hij : i ≤ j) :
    m.rounded lambda j ≤ m.rounded lambda i := by
  refine Nat.floor_mono ?_
  gcongr
  exact share_anti hij

theorem rounded_antitone (h : lambda ≤ lambda') (hj : j < m.numSteps) :
    m.rounded lambda' j ≤ m.rounded lambda j := by
  refine Nat.floor_mono ?_
  gcongr
  exact share_antitone h hj

/-- The parent is so small that rounding leaves all of it. -/
theorem le_rounded_iff (hj : j ≤ m.numSteps) : m.parentQty ≤ m.rounded lambda j ↔
    m.parentQty * (1 - m.share lambda j) ≤ 0.5 := by
  have hnonneg : 0 ≤ m.parentQty * m.share lambda j :=
    mul_nonneg (Nat.cast_nonneg _) (share_nonneg lambda hj)
  rw [rounded, Nat.le_floor_iff (by linarith), mul_sub, mul_one]
  constructor <;> intro h <;> linarith

theorem rounded_eq_zero_iff :
    m.rounded lambda j = 0 ↔ m.parentQty * m.share lambda j < 0.5 := by
  rw [rounded, Nat.floor_eq_zero]
  constructor <;> intro h <;> linarith

section Order
variable {u : Nat → BitVec 64}

/-- Whatever its unspecified calls answer, a schedule keeps no more than a specified step leaves. -/
theorem kept_le_rounded (h0 : 0 ≤ lambda) (h1 : 1 ≤ j) (hj : j ≤ m.numSteps)
    (h : ¬ m.Unspecified lambda j) :
    kept (exactLibm u) (m.params lambda) j ≤ m.rounded lambda j := by
  obtain ⟨k, rfl⟩ := Nat.exists_eq_add_of_le' h1
  rw [← target_specified (u := u) h0 hj h]
  exact kept_le_target _ _ k

/-- With every step specified, nothing below the parent and the last rounding is given up. -/
theorem le_kept_of_specified (h0 : 0 ≤ lambda) (hj : j ≤ m.numSteps) (h : ¬ m.Unspecified lambda 1)
    {x : Quantity} (hQ : x ≤ m.parentQty) (hx : x ≤ m.rounded lambda j) :
    x ≤ kept (exactLibm u) (m.params lambda) j := by
  refine le_kept hQ fun i h1 hi => ?_
  rw [target_specified h0 (hi.trans hj) fun hu => h (hu.anti h1)]
  exact hx.trans (rounded_anti m lambda hi)

/-- Unspecified calls that answer at least the parent keep all of it. -/
theorem le_kept_of_unspecified (h0 : 0 ≤ lambda) (hj : j ≤ m.numSteps) (h : m.Unspecified lambda j)
    (hu : ∀ i, m.parentQty ≤ (u i).toNat) :
    m.parentQty ≤ kept (exactLibm u) (m.params lambda) j := by
  refine le_kept le_rfl fun i _ hi => ?_
  rw [target_unspecified h0 (hi.trans hj) (h.anti hi)]
  exact hu i

end Order

/-- Whatever the unspecified llround calls answer, lambda' keeps no more than lambda after
every step. -/
def MoreUrgent (m : Liquidation) (lambda lambda' : ℝ) : Prop :=
  ∀ u u' : Nat → BitVec 64, ∀ j ≤ m.numSteps,
    Strategy.remainingAfterStep (m.schedule lambda' u') j ≤
      Strategy.remainingAfterStep (m.schedule lambda u) j

/-- When the order of the schedules is not left to unspecified answers: there is nothing to
sell; or the lower schedule has none, and keeps the whole parent as long as the upper one
does; or the lower schedule has some, and the upper one sells out at once. -/
def Ordered (m : Liquidation) (lambda lambda' : ℝ) : Prop :=
  m.parentQty = 0 ∨
    (¬ m.Unspecified lambda 1 ∧ ∀ j, 1 ≤ j → j < m.numSteps → m.Unspecified lambda' j →
      m.parentQty * (1 - m.share lambda j) ≤ 0.5) ∨
    (m.Unspecified lambda 1 ∧ ¬ m.Unspecified lambda' 1 ∧
      m.parentQty * m.share lambda' 1 < 0.5)

theorem remaining_eq (m : Liquidation) (lambda : ℝ) (u : Nat → BitVec 64) (hj : j < m.numSteps) :
    Strategy.remainingAfterStep (m.schedule lambda u) j =
      kept (exactLibm u) (m.params lambda) j :=
  new_remaining _ m.parentQty_lt hj

theorem remaining_end (m : Liquidation) (lambda : ℝ) (u : Nat → BitVec 64) :
    Strategy.remainingAfterStep (m.schedule lambda u) m.numSteps = 0 :=
  ((new_keepsContract (exactLibm u) m.numSteps_pos m.parentQty_lt).closeOut rfl).1

theorem moreUrgent_of_ordered (h0 : 0 ≤ lambda) (h : lambda ≤ lambda')
    (hord : m.Ordered lambda lambda') : m.MoreUrgent lambda lambda' := by
  intro u u' j hj
  have h0' : 0 ≤ lambda' := h0.trans h
  rcases Nat.eq_or_lt_of_le hj with rfl | hjN
  · rw [remaining_end, remaining_end]
  rw [remaining_eq m lambda' u' hjN, remaining_eq m lambda u hjN]
  have hall : kept (exactLibm u') (m.params lambda') j ≤ m.parentQty :=
    kept_anti (exactLibm u') (m.params lambda') (Nat.zero_le j)
  rcases Nat.eq_zero_or_pos j with rfl | h1
  · exact le_rfl
  rcases hord with hQ | ⟨hspec, hkeep⟩ | ⟨-, hspec', hsell⟩
  · exact hall.trans (hQ.trans_le (Nat.zero_le _))
  · refine le_kept_of_specified h0 hj hspec hall ?_
    by_cases hu : m.Unspecified lambda' j
    · exact hall.trans ((le_rounded_iff hj).mpr (hkeep j h1 hjN hu))
    · exact (kept_le_rounded h0' h1 hj hu).trans (rounded_antitone h hjN)
  · have hzero := rounded_eq_zero_iff.mpr hsell
    have hone := kept_le_rounded (u := u') h0' le_rfl (Nat.le_trans h1 hj) hspec'
    have hkept := kept_anti (exactLibm u') (m.params lambda') h1
    lia

/-- The largest answer is at least the parent. -/
theorem parentQty_le_allOnes (m : Liquidation) : m.parentQty ≤ (BitVec.allOnes 64).toNat := by
  rw [BitVec.toNat_allOnes]
  exact Nat.le_sub_one_of_lt m.parentQty_lt

theorem ordered_of_moreUrgent (h0 : 0 ≤ lambda) (h : lambda ≤ lambda')
    (hurg : m.MoreUrgent lambda lambda') : m.Ordered lambda lambda' := by
  have h0' : 0 ≤ lambda' := h0.trans h
  rcases Nat.eq_zero_or_pos m.parentQty with hQ | hQ
  · exact .inl hQ
  by_cases hspec : m.Unspecified lambda 1
  · right; right
    have hN : 1 < m.numSteps := by
      refine lt_of_le_of_ne m.numSteps_pos fun hN => ?_
      exact m.not_unspecified_end lambda (hN ▸ hspec)
    -- an answer of 0 makes the lower schedule sell out at once
    have hlow : kept (exactLibm fun _ => 0) (m.params lambda) 1 = 0 := by
      have htarget := kept_le_target (exactLibm fun _ => 0) (m.params lambda) 0
      rw [target_unspecified h0 hN.le hspec] at htarget
      exact Nat.le_zero.mp htarget
    have hspec' : ¬ m.Unspecified lambda' 1 := by
      intro hu
      have hall := le_kept_of_unspecified h0' hN.le hu fun _ => m.parentQty_le_allOnes
      have hle := hurg (fun _ => 0) (fun _ => BitVec.allOnes 64) 1 hN.le
      rw [remaining_eq m lambda' _ hN, remaining_eq m lambda _ hN, hlow] at hle
      lia
    refine ⟨hspec, hspec', rounded_eq_zero_iff.mp ?_⟩
    have hle := hurg (fun _ => 0) (fun _ => 0) 1 hN.le
    rw [remaining_eq m lambda' _ hN, remaining_eq m lambda _ hN, hlow, kept,
      target_specified h0' hN.le hspec'] at hle
    change min m.parentQty (m.rounded lambda' 1) ≤ 0 at hle
    lia
  · refine .inr (.inl ⟨hspec, fun j h1 hj hu => ?_⟩)
    -- the largest answers make the upper schedule keep the whole parent
    have hall := le_kept_of_unspecified h0' hj.le hu fun _ => m.parentQty_le_allOnes
    have hle := hurg (fun _ => 0) (fun _ => BitVec.allOnes 64) j hj.le
    rw [remaining_eq m lambda' _ hj, remaining_eq m lambda _ hj] at hle
    have hnum : ¬ m.Unspecified lambda j := fun hu => hspec (hu.anti h1)
    have hrounded := kept_le_rounded (u := fun _ => 0) h0 h1 hj.le hnum
    exact (le_rounded_iff hj.le).mp (hall.trans (hle.trans hrounded))

/-- More risk aversion means more urgency exactly where no unspecified answer decides it. -/
theorem moreUrgent_iff_ordered (m : Liquidation) (h0 : 0 ≤ lambda) (h : lambda ≤ lambda') :
    m.MoreUrgent lambda lambda' ↔ m.Ordered lambda lambda' :=
  ⟨ordered_of_moreUrgent h0 h, moreUrgent_of_ordered h0 h⟩

/-- While sinh stays finite and the parent fits a long long, no answer is left open. -/
theorem specified_of_not_overflows (hQ : m.parentQty < 2 ^ 63)
    (h : ¬ Overflows (m.kappa lambda * m.horizon)) (j : Nat) : ¬ m.Unspecified lambda j := by
  rintro (hnum | hrange)
  · exact h hnum.overflows
  · have hle : (m.parentQty : ℝ) + 1 ≤ 2 ^ 63 := by exact_mod_cast Nat.succ_le_of_lt hQ
    have hmul := mul_le_of_le_one_right (Nat.cast_nonneg' m.parentQty) (m.share_le_one lambda j)
    linarith

theorem ordered_of_not_overflows (hQ : m.parentQty < 2 ^ 63) (h : lambda ≤ lambda')
    (hover : ¬ Overflows (m.kappa lambda' * m.horizon)) : m.Ordered lambda lambda' := by
  have hkT : m.kappa lambda * m.horizon ≤ m.kappa lambda' * m.horizon :=
    mul_le_mul_of_nonneg_right (kappa_mono h) m.horizon_pos.le
  have hspec := specified_of_not_overflows hQ fun ho => hover (ho.mono hkT)
  refine .inr (.inl ⟨hspec 1, fun j _ _ hu => ?_⟩)
  exact absurd hu (specified_of_not_overflows hQ hover j)

/-- A thousand sold in twenty steps. -/
noncomputable def thousand : Liquidation where
  parentQty := 1000
  parentSide := .sell
  numSteps := 20
  horizon := 1
  sigma := 0.5
  eta := 1 / 1000000
  parentQty_lt := by norm_num
  numSteps_pos := by norm_num
  horizon_pos := one_pos
  eta_pos := by norm_num

theorem kappa_thousand {x : ℝ} (hx : 0 ≤ x) : thousand.kappa (x * x) = x * 500 := by
  have hsq : x * x * 0.5 * 0.5 / (1 / 1000000) = (x * 500) * (x * 500) := by ring
  rw [kappa, thousand, hsq, Real.sqrt_mul_self (by linarith)]

/-- At an aversion of one, sinh of 500 is still finite. -/
theorem moreUrgent_iff_ordered_thousand : thousand.MoreUrgent 0 1 := by
  have hover : ¬ Overflows (thousand.kappa 1 * thousand.horizon) := by
    refine not_overflows_of_le (le_of_eq ?_)
    rw [← one_mul (1 : ℝ), kappa_thousand zero_le_one, thousand, one_mul, mul_one]
  have hQ : thousand.parentQty < 2 ^ 63 := by decide
  have hord := ordered_of_not_overflows hQ zero_le_one hover
  exact (moreUrgent_iff_ordered thousand le_rfl zero_le_one).mpr hord

/-- With llround answering the smallest long long on NaN, an aversion of 64 has sold nothing at
the midpoint, where no aversion at all has sold half. -/
theorem urgency_lost_to_overflow : ¬ thousand.MoreUrgent 0 64 := by
  have hj : 10 < thousand.numSteps := by decide
  have hleft : thousand.left 10 = 1 / 2 := by
    rw [left, thousand]
    norm_num
  have hnan : thousand.Unspecified 64 10 := by
    refine .inl (overflows_of_le ?_)
    rw [show (64 : ℝ) = 8 * 8 from by norm_num, kappa_thousand (by norm_num), hleft]
    norm_num
  have hzero : thousand.kappa 0 * thousand.horizon = 0 := by
    rw [← mul_zero (0 : ℝ), kappa_thousand le_rfl, zero_mul, mul_zero, zero_mul]
  have hspec : ¬ thousand.Unspecified 0 10 := by
    refine specified_of_not_overflows (by decide) ?_ 10
    rw [hzero]
    exact not_overflows_of_le (by norm_num)
  have hhalf : thousand.rounded 0 10 = 500 := by
    rw [rounded, share, hzero, if_pos (by norm_num), hleft, thousand, Nat.floor_eq_iff (by norm_num)]
    norm_num
  intro hurg
  have hle := hurg (fun _ => 0) (fun _ => BitVec.intMin 64) 10 hj.le
  rw [remaining_eq thousand 64 _ hj, remaining_eq thousand 0 _ hj] at hle
  have hstay := le_kept_of_unspecified (u := fun _ => BitVec.intMin 64) (by norm_num) hj.le hnan
    fun _ => by decide
  have hsold := kept_le_rounded (u := fun _ => 0) le_rfl (by norm_num) hj.le hspec
  rw [hhalf] at hsold
  exact absurd (hstay.trans (hle.trans hsold)) (by decide)

end Liquidation
end ExecutionPlatform.Exec.AlmgrenChriss
