import ExecutionPlatform.Exec.Vwap
import ExecutionPlatform.Foundations.Rounding
import Mathlib.Algebra.Order.BigOperators.Group.Finset
import Mathlib.Data.Rat.Floor

/-! The VWAP schedule in exact arithmetic: rounding the cumulative curve keeps every error
below one share, however long the profile. -/
namespace ExecutionPlatform.Exec
open ExecutionPlatform.Core Foundations

/-- llround on exact values rounds half away from zero. The other two calls are left open. -/
def rationalLibm (sqrt sinh : ℚ → ℚ) : Libm ℚ where
  sqrt := sqrt
  sinh := sinh
  llround _ x := BitVec.ofInt 64 (roundHalfAway x)

/-- A share count below 2^63 comes back from llround as it was rounded. -/
theorem rationalLibm_llround (sqrt sinh : ℚ → ℚ) (j : Nat) {x : ℚ} {Q : Quantity} (h0 : 0 ≤ x) (hx : x ≤ Q)
    (hQ : Q < 2 ^ 63) :
    (((rationalLibm sqrt sinh).llround j x).toNat : ℤ) = round x ∧ round x ≤ Q := by
  have hlow := round_nonneg h0
  have hhigh := round_le_natCast hx
  refine ⟨?_, hhigh⟩
  change ((BitVec.ofInt 64 (roundHalfAway x)).toNat : ℤ) = round x
  rw [roundHalfAway_of_nonneg h0, BitVec.toNat_ofInt, Int.emod_eq_of_lt hlow (by lia),
    Int.toNat_of_nonneg hlow]

theorem clampUnit_of_nonneg {x : ℚ} (h : 0 ≤ x) : clampUnit x = min 1 x := by
  have hlow : ¬ x < ((0 : Nat) : ℚ) := not_lt.mpr (by exact_mod_cast h)
  have hclamp : clampUnit x = if ((1 : Nat) : ℚ) < x then ((1 : Nat) : ℚ) else x := by
    rw [clampUnit]
    simp only [if_neg hlow]
  rw [hclamp, Nat.cast_one]
  split_ifs with hlt
  · exact (min_eq_left hlt.le).symm
  · exact (min_eq_right (not_lt.mp hlt)).symm

namespace VwapStrategy
variable {p : Params ℚ}

/-- The share of the parent that the profile asks to have sent before step j, capped at 1. -/
def cappedShare (p : Params ℚ) (j : Nat) : ℚ := min 1 (∑ i ∈ Finset.range j, p.volumeProfile i)

theorem cappedShare_le_one (p : Params ℚ) (j : Nat) : cappedShare p j ≤ 1 := min_le_left _ _

theorem sum_profile_nonneg (hu : ∀ i < p.numSteps, 0 ≤ p.volumeProfile i) {j : Nat}
    (hj : j ≤ p.numSteps) : 0 ≤ ∑ i ∈ Finset.range j, p.volumeProfile i :=
  Finset.sum_nonneg fun i hi => hu i ((Finset.mem_range.mp hi).trans_le hj)

theorem cappedShare_nonneg (hu : ∀ i < p.numSteps, 0 ≤ p.volumeProfile i) {j : Nat}
    (hj : j ≤ p.numSteps) : 0 ≤ cappedShare p j :=
  le_min zero_le_one (sum_profile_nonneg hu hj)

theorem cappedShare_mono (hu : ∀ i < p.numSteps, 0 ≤ p.volumeProfile i) {j : Nat}
    (hj : j < p.numSteps) : cappedShare p j ≤ cappedShare p (j + 1) := by
  apply min_le_min_left
  rw [Finset.sum_range_succ]
  exact le_add_of_nonneg_right (hu j hj)

variable (sqrt sinh : ℚ → ℚ)

theorem turns_cum (p : Params ℚ) (k : Nat) :
    (turns (rationalLibm sqrt sinh) p k).cum = ∑ i ∈ Finset.range k, p.volumeProfile i := by
  induction k with
  | zero => exact Nat.cast_zero
  | succ k ih =>
    rw [Finset.sum_range_succ, ← ih]
    rfl

/-- What the llround call of step j returns. -/
def rounded (p : Params ℚ) (j : Nat) : Quantity :=
  ((rationalLibm sqrt sinh).llround j ((p.parentQty : ℚ) * clampUnit
    (∑ i ∈ Finset.range (j + 1), p.volumeProfile i))).toNat

theorem rounded_eq (hQ : p.parentQty < 2 ^ 63) (hu : ∀ i < p.numSteps, 0 ≤ p.volumeProfile i) {j : Nat}
    (hj : j < p.numSteps) :
    (rounded sqrt sinh p j : ℤ) = round ((p.parentQty : ℚ) * cappedShare p (j + 1)) ∧
      rounded sqrt sinh p j ≤ p.parentQty := by
  have h0 := cappedShare_nonneg hu (Nat.succ_le_of_lt hj)
  have hle : (p.parentQty : ℚ) * cappedShare p (j + 1) ≤ p.parentQty :=
    mul_le_of_le_one_right (Nat.cast_nonneg _) (cappedShare_le_one p (j + 1))
  obtain ⟨heq, hround⟩ := rationalLibm_llround sqrt sinh j (mul_nonneg (Nat.cast_nonneg _) h0) hle hQ
  rw [rounded, clampUnit_of_nonneg (sum_profile_nonneg hu (Nat.succ_le_of_lt hj))]
  refine ⟨heq, ?_⟩
  have hcast := heq.le.trans hround
  exact_mod_cast hcast

/-- Where the curve before a step was rounded exactly, the step's target clamps do not act. -/
theorem target_eq_rounded (hQ : p.parentQty < 2 ^ 63) (hu : ∀ i < p.numSteps, 0 ≤ p.volumeProfile i)
    {j : Nat} (hj : j + 1 < p.numSteps) {sent : Quantity}
    (hsent : (sent : ℤ) = round ((p.parentQty : ℚ) * cappedShare p j)) :
    rounded sqrt sinh p j ≤ p.parentQty ∧ sent ≤ rounded sqrt sinh p j ∧
      target (rationalLibm sqrt sinh) p (∑ i ∈ Finset.range (j + 1), p.volumeProfile i) sent j =
        rounded sqrt sinh p j := by
  have hj' : j < p.numSteps := Nat.lt_of_succ_lt hj
  obtain ⟨heq, hle⟩ := rounded_eq sqrt sinh hQ hu hj'
  have hmono : round ((p.parentQty : ℚ) * cappedShare p j) ≤
      round ((p.parentQty : ℚ) * cappedShare p (j + 1)) :=
    round_mono (mul_le_mul_of_nonneg_left (cappedShare_mono hu hj') (Nat.cast_nonneg _))
  rw [← hsent, ← heq] at hmono
  have hge : sent ≤ rounded sqrt sinh p j := by exact_mod_cast hmono
  refine ⟨hle, hge, ?_⟩
  rw [target, if_neg hj.ne]
  change (if (if p.parentQty < rounded sqrt sinh p j then p.parentQty else rounded sqrt sinh p j) < sent
    then sent else (if p.parentQty < rounded sqrt sinh p j then p.parentQty else rounded sqrt sinh p j)) = _
  rw [if_neg (not_lt.mpr hle), if_neg (not_lt.mpr hge)]

/-- What was sent before a step is the capped curve, rounded. -/
theorem turns_sent (hQ : p.parentQty < 2 ^ 63) (hu : ∀ i < p.numSteps, 0 ≤ p.volumeProfile i) {j : Nat}
    (hj : j < p.numSteps) :
    ((turns (rationalLibm sqrt sinh) p j).sent : ℤ) = round ((p.parentQty : ℚ) * cappedShare p j) := by
  induction j with
  | zero =>
    have hzero : cappedShare p 0 = 0 := by
      rw [cappedShare, Finset.sum_range_zero]
      exact min_eq_right zero_le_one
    rw [hzero, mul_zero, round_zero]
    rfl
  | succ j ih =>
    have hj' : j < p.numSteps := Nat.lt_of_succ_lt hj
    have htarget := (target_eq_rounded sqrt sinh hQ hu hj (ih hj')).2.2
    rw [← turns_cum sqrt sinh p (j + 1)] at htarget
    rw [← (rounded_eq sqrt sinh hQ hu hj').1, ← htarget]
    rfl

/-- A child is the difference of two rounded points of the curve. -/
theorem childQty_eq (hQ : p.parentQty < 2 ^ 63) (hu : ∀ i < p.numSteps, 0 ≤ p.volumeProfile i) {j : Nat}
    (hj : j + 1 < p.numSteps) :
    (Strategy.childQuantity (new (rationalLibm sqrt sinh) p) j : ℤ) =
      round ((p.parentQty : ℚ) * cappedShare p (j + 1)) - round ((p.parentQty : ℚ) * cappedShare p j) := by
  have hj' : j < p.numSteps := Nat.lt_of_succ_lt hj
  have hsum := childQty_add_sent (rationalLibm sqrt sinh) (hQ.trans (by decide)) hj'
  rw [← turns_sent sqrt sinh hQ hu hj, ← turns_sent sqrt sinh hQ hu hj', ← hsum]
  push_cast
  exact (add_sub_cancel_right _ _).symm

/-- Rounding along the profile never accumulates error: through every step but the last the
sent quantity is within half a share of the capped curve, each child within one share of its
part of it, and the clamps that follow the rounding change nothing. -/
theorem cumulative_rounding (hQ : p.parentQty < 2 ^ 63) (hu : ∀ i < p.numSteps, 0 ≤ p.volumeProfile i)
    {j : Nat} (hj : j + 1 < p.numSteps) :
    |((∑ i ∈ Finset.range (j + 1), Strategy.childQuantity (new (rationalLibm sqrt sinh) p) i : Nat) : ℚ) -
      p.parentQty * min 1 (∑ i ∈ Finset.range (j + 1), p.volumeProfile i)| ≤ 1 / 2 ∧
    (rounded sqrt sinh p j ≤ p.parentQty ∧
      (turns (rationalLibm sqrt sinh) p j).sent ≤ rounded sqrt sinh p j ∧
      target (rationalLibm sqrt sinh) p ((turns (rationalLibm sqrt sinh) p j).cum + p.volumeProfile j)
        (turns (rationalLibm sqrt sinh) p j).sent j = rounded sqrt sinh p j) ∧
    |(Strategy.childQuantity (new (rationalLibm sqrt sinh) p) j : ℚ) -
      p.parentQty * (min 1 (∑ i ∈ Finset.range (j + 1), p.volumeProfile i) -
        min 1 (∑ i ∈ Finset.range j, p.volumeProfile i))| ≤ 1 := by
  have hj' : j < p.numSteps := Nat.lt_of_succ_lt hj
  have hcum : (turns (rationalLibm sqrt sinh) p j).cum + p.volumeProfile j =
      ∑ i ∈ Finset.range (j + 1), p.volumeProfile i := by
    rw [Finset.sum_range_succ, turns_cum]
  refine ⟨?_, ?_, ?_⟩
  · have hsum : ((∑ i ∈ Finset.range (j + 1),
        Strategy.childQuantity (new (rationalLibm sqrt sinh) p) i : Nat) : ℤ) =
        round ((p.parentQty : ℚ) * cappedShare p (j + 1)) := by
      rw [← turns_sent sqrt sinh hQ hu hj]
      exact congrArg _ (sum_childQty (rationalLibm sqrt sinh) (hQ.trans (by decide)) hj.le)
    rw [← Int.cast_natCast, hsum, abs_sub_comm]
    exact abs_sub_round _
  · rw [hcum]
    exact target_eq_rounded sqrt sinh hQ hu hj (turns_sent sqrt sinh hQ hu hj')
  · rw [← Int.cast_natCast, childQty_eq sqrt sinh hQ hu hj, mul_sub]
    exact abs_round_sub_round_sub_le _ _

/-- Ten shares along a profile that passes 1 in its third bucket. -/
theorem cumulative_rounding_past_one :
    (List.range 4).map (Strategy.childQuantity (new (rationalLibm id id)
      ⟨10, .sell, fun j => [1 / 3, 1 / 3, 1 / 2, 1 / 4].getD j 0, 4⟩)) = [3, 4, 3, 0] ∧
    |(Strategy.childQuantity (new (rationalLibm id id)
      ⟨10, .sell, fun j => [1 / 3, 1 / 3, 1 / 2, 1 / 4].getD j 0, 4⟩) 1 : ℚ) - 10 * (2 / 3 - 1 / 3)| ≤ 1 := by
  have hbound := cumulative_rounding id id (p := ⟨10, .sell, fun j => [1 / 3, 1 / 3, 1 / 2, 1 / 4].getD j 0, 4⟩)
    (j := 1) (by decide) (by decide +kernel) (by decide)
  refine ⟨by decide +kernel, hbound.2.2.trans_eq' ?_⟩
  have hsum : min 1 (∑ i ∈ Finset.range 2, ([1 / 3, 1 / 3, 1 / 2, 1 / 4] : List ℚ).getD i 0) = 2 / 3 := by
    decide +kernel
  have hsum' : min 1 (∑ i ∈ Finset.range 1, ([1 / 3, 1 / 3, 1 / 2, 1 / 4] : List ℚ).getD i 0) = 1 / 3 := by
    decide +kernel
  simp only [hsum, hsum', Nat.cast_ofNat]

end VwapStrategy
end ExecutionPlatform.Exec
