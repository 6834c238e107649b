import ExecutionPlatform.Exec.AlmgrenChrissUrgency

/-! Over the same doubles: the children of an urgency schedule fall, but for one share of
rounding, and the schedule never lags the straight line. -/
namespace ExecutionPlatform.Exec.AlmgrenChriss.Liquidation
open Foundations
variable {m : Liquidation} {lambda : ℝ} {i j : Nat}

theorem left_succ (m : Liquidation) (j : Nat) :
    m.left j = m.left (j + 1) + m.horizon / m.numSteps := by
  rw [left, left, Nat.cast_succ]
  ring

theorem left_end (m : Liquidation) : m.left m.numSteps = 0 := by
  rw [left, mul_div_assoc, mul_div_cancel₀ _ m.numSteps_cast_pos.ne', sub_self]

/-- While sinh stays finite. -/
theorem share_eq (hover : ¬ Overflows (m.kappa lambda * m.horizon)) (j : Nat) :
    m.share lambda j = if m.kappa lambda * m.horizon ≤ 1 / 1000000000 then m.left j / m.horizon
      else Real.sinh (m.kappa lambda * m.left j) / Real.sinh (m.kappa lambda * m.horizon) := by
  rw [share, if_neg hover]

theorem share_zero (hover : ¬ Overflows (m.kappa lambda * m.horizon)) : m.share lambda 0 = 1 := by
  rw [share_eq hover, left_zero]
  split_ifs with hlin
  · exact div_self m.horizon_pos.ne'
  · apply div_self
    refine (Real.sinh_pos_iff.mpr ?_).ne'
    linarith

theorem share_end (m : Liquidation) (lambda : ℝ) : m.share lambda m.numSteps = 0 := by
  rw [share, left_end, zero_div, mul_zero, Real.sinh_zero, zero_div]
  split_ifs <;> rfl

/-- A later step takes no more off the share. -/
theorem share_drop_anti (hover : ¬ Overflows (m.kappa lambda * m.horizon)) (hij : i ≤ j)
    (hj : j < m.numSteps) :
    m.share lambda j - m.share lambda (j + 1) ≤ m.share lambda i - m.share lambda (i + 1) := by
  have hk := m.kappa_nonneg lambda
  rw [share_eq hover, share_eq hover, share_eq hover, share_eq hover]
  split_ifs with hlin
  · rw [← sub_div, ← sub_div, left_succ m i, left_succ m j, add_sub_cancel_left, add_sub_cancel_left]
  · rw [← sub_div, ← sub_div]
    refine div_le_div_of_nonneg_right ?_ (Real.sinh_nonneg_iff.mpr (mul_nonneg hk m.horizon_pos.le))
    rw [left_succ m i, left_succ m j, mul_add, mul_add]
    apply sinh_increment_mono
    · exact mul_nonneg hk (left_nonneg hj)
    · exact mul_le_mul_of_nonneg_left (left_antitone (Nat.succ_le_succ hij)) hk
    · exact mul_nonneg hk (div_nonneg m.horizon_pos.le m.numSteps_cast_pos.le)

/-- No aversion to risk leaves more than the straight line. -/
theorem share_le_line (hover : ¬ Overflows (m.kappa lambda * m.horizon)) (hj : j ≤ m.numSteps) :
    m.share lambda j ≤ 1 - j / m.numSteps := by
  have hline : m.left j / m.horizon = 1 - j / m.numSteps := by
    have hT := m.horizon_pos.ne'
    rw [left]
    field_simp
  rw [← hline, share_eq hover]
  split_ifs with hlin
  · exact le_rfl
  · have hpos : 0 < m.kappa lambda := by
      refine pos_of_mul_pos_left ?_ m.horizon_pos.le
      linarith
    exact sinh_share_le hpos (left_nonneg hj) (m.left_le j) m.horizon_pos

/-- Rounding moves a step's share by half a share at most, and never by half a share down. -/
theorem rounded_bounds (lambda : ℝ) (hj : j ≤ m.numSteps) :
    (m.rounded lambda j : ℝ) ≤ m.parentQty * m.share lambda j + 1 / 2 ∧
      m.parentQty * m.share lambda j < (m.rounded lambda j : ℝ) + 1 / 2 := by
  have hnonneg : 0 ≤ (m.parentQty : ℝ) * m.share lambda j :=
    mul_nonneg (Nat.cast_nonneg _) (share_nonneg lambda hj)
  have hfloor : (m.rounded lambda j : ℝ) ≤ m.parentQty * m.share lambda j + 0.5 :=
    Nat.floor_le (by linarith)
  have hnext : m.parentQty * m.share lambda j + 0.5 < (m.rounded lambda j : ℝ) + 1 :=
    Nat.lt_floor_add_one _
  constructor <;> linarith

variable {u : Nat → BitVec 64}

/-- While every llround call is specified, the clamps of the loop never act. -/
theorem remaining_eq_rounded (h0 : 0 ≤ lambda) (hQ : m.parentQty < 2 ^ 63)
    (hover : ¬ Overflows (m.kappa lambda * m.horizon)) (hj : j ≤ m.numSteps) :
    Strategy.remainingAfterStep (m.schedule lambda u) j = m.rounded lambda j := by
  have hspec := specified_of_not_overflows hQ hover
  have hall : m.rounded lambda 0 = m.parentQty := by
    rw [rounded, share_zero hover, mul_one, Nat.floor_eq_iff (by positivity)]
    constructor <;> linarith
  rcases Nat.eq_or_lt_of_le hj with rfl | hjN
  · rw [remaining_end, eq_comm, rounded_eq_zero_iff, share_end]
    norm_num
  rw [remaining_eq m lambda u hjN]
  apply le_antisymm
  · rcases Nat.eq_zero_or_pos j with rfl | h1
    · exact hall.ge
    · exact kept_le_rounded h0 h1 hj (hspec j)
  · exact le_kept_of_specified h0 hj (hspec 1) (hall ▸ rounded_anti m lambda j.zero_le) le_rfl

end ExecutionPlatform.Exec.AlmgrenChriss.Liquidation
