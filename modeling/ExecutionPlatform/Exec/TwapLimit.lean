import ExecutionPlatform.Exec.AlmgrenChriss
import ExecutionPlatform.Exec.CumulativeRounding

/-! Where neither urgency nor profile tells the steps apart, both baselines slice the parent
evenly, up to one share. -/
namespace ExecutionPlatform.Exec
open ExecutionPlatform.Core Foundations

/-- A child of the parent's quantity over the number of steps, rounded down or up. -/
def IsSlice (Q : Quantity) (N : Nat) (child : Quantity) : Prop :=
  child = ⌊(Q : ℚ) / N⌋₊ ∨ child = ⌈(Q : ℚ) / N⌉₊

/-- A child between two rounded points of an even curve is a slice. -/
theorem isSlice_of_round {Q : Quantity} {N : Nat} {child : Quantity} (x : ℚ)
    (h : (child : ℤ) = round (x + (Q : ℚ) / N) - round x) : IsSlice Q N child := by
  have hd : (0 : ℚ) ≤ (Q : ℚ) / N := by positivity
  rcases round_sub_round_eq x ((Q : ℚ) / N) with hfloor | hceil
  · left
    rw [hfloor, ← Int.natCast_floor_eq_floor hd] at h
    exact_mod_cast h
  · right
    rw [hceil, ← Int.natCast_ceil_eq_ceil hd] at h
    exact_mod_cast h

/-- The even curve falls by one slice a step. -/
theorem evenCurve_step (Q : Quantity) {N k : Nat} (hN : N ≠ 0) :
    (Q : ℚ) * ((k + 1 : Nat) / N) = (Q : ℚ) * (k / N) + (Q : ℚ) / N := by
  push_cast
  field_simp

variable (sqrt sinh : ℚ → ℚ)

namespace AlmgrenChriss
variable {Q : Quantity} {N : Nat} {T : ℚ}

/-- Without risk aversion the ratio is linear in time. -/
theorem ratio_riskNeutral (side : Side) (sigma eta : ℚ) (hN : 1 ≤ N) (hT : 0 < T) {j : Nat} (hj : j ≤ N) :
    ratio (rationalLibm sqrt sinh) ⟨Q, side, N, T, 0, sigma, eta⟩ j = (N - j : Nat) / N := by
  have hkappa : computeKappa (rationalLibm sqrt sinh) 0 sigma eta = 0 := by
    have hnum : (0 : ℚ) * sigma * sigma ≤ ((0 : Nat) : ℚ) := by simp
    exact if_pos hnum
  have hlinear : linear (rationalLibm sqrt sinh) ⟨Q, side, N, T, 0, sigma, eta⟩ = true := by
    have hfloor : ¬ (kappaFloor : ℚ) < 0 * T := by
      rw [zero_mul, not_lt]
      change (0 : ℚ) ≤ ((1 : Nat) : ℚ) / ((1000000000 : Nat) : ℚ)
      positivity
    simp only [linear, hkappa]
    simpa using hfloor
  have hratio : ratio (rationalLibm sqrt sinh) ⟨Q, side, N, T, 0, sigma, eta⟩ j =
      (T - (j : ℚ) * T / (N : ℚ)) / T := if_pos hlinear
  have hN' : (N : ℚ) ≠ 0 := by exact_mod_cast (by omega : N ≠ 0)
  rw [hratio, Nat.cast_sub hj]
  field_simp

/-- So the inventory that is kept is the even curve, rounded. -/
theorem kept_riskNeutral (side : Side) (sigma eta : ℚ) (hQ : Q < 2 ^ 63) (hT : 0 < T) {j : Nat}
    (hj : j < N) :
    (kept (rationalLibm sqrt sinh) ⟨Q, side, N, T, 0, sigma, eta⟩ j : ℤ) =
      round ((Q : ℚ) * ((N - j : Nat) / N)) := by
  have hN : (0 : ℚ) < N := by exact_mod_cast Nat.zero_lt_of_lt hj
  induction j with
  | zero =>
    rw [Nat.sub_zero, div_self hN.ne', mul_one, round_natCast]
    rfl
  | succ j ih =>
    have hj' : j < N := Nat.lt_of_succ_lt hj
    have hshare : (0 : ℚ) ≤ (N - (j + 1) : Nat) / N ∧ ((N - (j + 1) : Nat) / N : ℚ) ≤ 1 := by
      refine ⟨by positivity, (div_le_one hN).mpr ?_⟩
      exact_mod_cast Nat.sub_le ..
    have hle : (Q : ℚ) * ((N - (j + 1) : Nat) / N) ≤ Q :=
      mul_le_of_le_one_right (Nat.cast_nonneg _) hshare.2
    have htarget : (target (rationalLibm sqrt sinh) ⟨Q, side, N, T, 0, sigma, eta⟩ (j + 1) : ℤ) =
        round ((Q : ℚ) * ((N - (j + 1) : Nat) / N)) := by
      rw [target, ratio_riskNeutral sqrt sinh side sigma eta (by omega) hT hj.le,
        clampUnit_of_nonneg hshare.1, min_eq_right hshare.2]
      exact (rationalLibm_llround sqrt sinh (j + 1) (mul_nonneg (Nat.cast_nonneg _) hshare.1) hle hQ).1
    have hmono : round ((Q : ℚ) * ((N - (j + 1) : Nat) / N)) ≤ round ((Q : ℚ) * ((N - j : Nat) / N)) := by
      apply round_mono
      gcongr
      omega
    rw [← ih hj', ← htarget] at hmono
    rw [kept, min_eq_right (by exact_mod_cast hmono), htarget]

/-- The force-closed last child included, every child lies between two points of the curve. -/
theorem childQuantity_riskNeutral (side : Side) (sigma eta : ℚ) (hQ : Q < 2 ^ 63) (hT : 0 < T) {j : Nat}
    (hj : j < N) :
    IsSlice Q N (Strategy.childQuantity
      (new (rationalLibm sqrt sinh) ⟨Q, side, N, T, 0, sigma, eta⟩) j) := by
  have hQ' : Q < 2 ^ 64 := hQ.trans (by decide)
  have hcontract := new_keepsContract (p := ⟨Q, side, N, T, 0, sigma, eta⟩) (rationalLibm sqrt sinh)
    (Nat.zero_lt_of_lt hj) hQ'
  have hremaining : ∀ i ≤ N, (Strategy.remainingAfterStep
      (new (rationalLibm sqrt sinh) ⟨Q, side, N, T, 0, sigma, eta⟩) i : ℤ) =
        round ((Q : ℚ) * ((N - i : Nat) / N)) := by
    intro i hi
    rcases Nat.lt_or_eq_of_le hi with hlt | rfl
    · rw [new_remaining (p := ⟨Q, side, N, T, 0, sigma, eta⟩) (rationalLibm sqrt sinh) hQ' hlt]
      exact kept_riskNeutral sqrt sinh side sigma eta hQ hT hlt
    · rw [(hcontract.closeOut rfl).1, Nat.sub_self]
      simp
  have hstep := hcontract.soldDown.step j hj
  have hpoint : (Q : ℚ) * ((N - j : Nat) / N) =
      (Q : ℚ) * ((N - (j + 1) : Nat) / N) + (Q : ℚ) / N := by
    rw [← evenCurve_step Q (by omega : N ≠ 0), (by omega : N - (j + 1) + 1 = N - j)]
  refine isSlice_of_round ((Q : ℚ) * ((N - (j + 1) : Nat) / N)) ?_
  rw [← hpoint, ← hremaining j hj.le, ← hremaining (j + 1) hj, ← hstep]
  push_cast
  exact (add_sub_cancel_left _ _).symm

end AlmgrenChriss

namespace VwapStrategy
variable {Q : Quantity} {N : Nat}

/-- A uniform profile asks for an even curve. -/
theorem cappedShare_uniform (side : Side) {j : Nat} (hN : N ≠ 0) (hj : j ≤ N) :
    cappedShare ⟨Q, side, fun _ => 1 / N, N⟩ j = j / N := by
  have hpos : (0 : ℚ) < N := by exact_mod_cast Nat.pos_of_ne_zero hN
  rw [cappedShare]
  simp only [Finset.sum_const, Finset.card_range, nsmul_eq_mul, mul_one_div]
  refine min_eq_right ((div_le_one hpos).mpr ?_)
  exact_mod_cast hj

theorem childQuantity_uniform (side : Side) (hQ : Q < 2 ^ 63) {j : Nat} (hj : j < N) :
    IsSlice Q N (Strategy.childQuantity
      (new (rationalLibm sqrt sinh) ⟨Q, side, fun _ => 1 / N, N⟩) j) := by
  have hQ' : Q < 2 ^ 64 := hQ.trans (by decide)
  have hN : N ≠ 0 := Nat.ne_zero_of_lt hj
  have hsent : ∀ i ≤ N, ((turns (rationalLibm sqrt sinh) ⟨Q, side, fun _ => 1 / N, N⟩ i).sent : ℤ) =
      round ((Q : ℚ) * (i / N)) := by
    intro i hi
    rcases Nat.lt_or_eq_of_le hi with hlt | rfl
    · rw [turns_sent sqrt sinh hQ (fun _ _ => by positivity) hlt, cappedShare_uniform side hN hi]
    · obtain ⟨n, rfl⟩ := Nat.exists_eq_succ_of_ne_zero hN
      have hlast : (turns (rationalLibm sqrt sinh) ⟨Q, side, fun _ => 1 / (n + 1 : Nat), n + 1⟩ (n + 1)).sent =
          Q := if_pos rfl
      rw [hlast, div_self (by exact_mod_cast hN), mul_one, round_natCast]
  have hstep := childQty_add_sent (rationalLibm sqrt sinh)
    (p := (⟨Q, side, fun _ => 1 / N, N⟩ : Params ℚ)) hQ' hj
  refine isSlice_of_round ((Q : ℚ) * (j / N)) ?_
  rw [← evenCurve_step Q hN, ← hsent j hj.le, ← hsent (j + 1) hj, ← hstep]
  push_cast
  exact (add_sub_cancel_right _ _).symm

end VwapStrategy

/-- The TWAP limit of both baselines: in exact arithmetic every child of the risk-neutral
Almgren-Chriss schedule and of the VWAP schedule of a uniform profile is the parent over the
number of steps, rounded down or up. -/
theorem twap_slices {Q : Quantity} {N : Nat} {T : ℚ} (hQ : Q < 2 ^ 63) (hT : 0 < T) (side : Side)
    (sigma eta : ℚ) {j : Nat} (hj : j < N) :
    IsSlice Q N (Strategy.childQuantity
      (AlmgrenChriss.new (rationalLibm sqrt sinh) ⟨Q, side, N, T, 0, sigma, eta⟩) j) ∧
    IsSlice Q N (Strategy.childQuantity
      (VwapStrategy.new (rationalLibm sqrt sinh) ⟨Q, side, fun _ => 1 / N, N⟩) j) :=
  ⟨AlmgrenChriss.childQuantity_riskNeutral sqrt sinh side sigma eta hQ hT hj,
    VwapStrategy.childQuantity_uniform sqrt sinh side hQ hj⟩

/-- Ten shares in four steps: neither schedule sends more than three shares or less than two. -/
theorem twap_slices_ten_in_four :
    (List.range 4).map (Strategy.childQuantity
      (AlmgrenChriss.new (rationalLibm id id) ⟨10, .sell, 4, 1, 0, 1, 1⟩)) = [2, 3, 2, 3] ∧
    IsSlice 10 4 (Strategy.childQuantity
      (AlmgrenChriss.new (rationalLibm id id) ⟨10, .sell, 4, 1, 0, 1, 1⟩) 3) ∧
    IsSlice 10 4 (Strategy.childQuantity
      (VwapStrategy.new (rationalLibm id id) ⟨10, .sell, fun _ => 1 / (4 : Nat), 4⟩) 3) :=
  ⟨by decide +kernel, twap_slices id id (by decide) (by decide +kernel) .sell 1 1 (by decide)⟩

end ExecutionPlatform.Exec
