import ExecutionPlatform.Foundations.MachineFloat
import Mathlib.Analysis.SpecialFunctions.Sqrt
import Mathlib.Analysis.SpecialFunctions.Trigonometric.DerivHyp

/-! Doubles without rounding: the reals with an infinity above the largest finite double and
NaN. Where the rules would give an infinity below, the result is NaN. -/
namespace ExecutionPlatform.Foundations

inductive ExtendedReal where
  | real (x : ℝ)
  | inf
  | nan

namespace ExtendedReal

/-- The largest finite double. -/
def maxDouble : ℝ := (2 ^ 53 - 1) * 2 ^ 971

def add : ExtendedReal → ExtendedReal → ExtendedReal
  | real x, real y => real (x + y)
  | real _, inf => inf
  | inf, real _ => inf
  | inf, inf => inf
  | _, _ => nan

def sub : ExtendedReal → ExtendedReal → ExtendedReal
  | real x, real y => real (x - y)
  | inf, real _ => inf
  | _, _ => nan

noncomputable def mul : ExtendedReal → ExtendedReal → ExtendedReal
  | real x, real y => real (x * y)
  | real x, inf => if 0 < x then inf else nan
  | inf, real x => if 0 < x then inf else nan
  | inf, inf => inf
  | _, _ => nan

noncomputable def div : ExtendedReal → ExtendedReal → ExtendedReal
  | real x, real y => if y = 0 then (if 0 < x then inf else nan) else real (x / y)
  | real _, inf => real 0
  | inf, real y => if 0 ≤ y then inf else nan
  | _, _ => nan

def neg : ExtendedReal → ExtendedReal
  | real x => real (-x)
  | _ => nan

/-- Every comparison with NaN is false. -/
def le : ExtendedReal → ExtendedReal → Prop
  | real x, real y => x ≤ y
  | real _, inf => True
  | inf, inf => True
  | _, _ => False

def lt : ExtendedReal → ExtendedReal → Prop
  | real x, real y => x < y
  | real _, inf => True
  | _, _ => False

noncomputable instance : MachineFloat ExtendedReal where
  add := add
  sub := sub
  mul := mul
  div := div
  neg := neg
  natCast n := real n
  intCast n := real n
  le := le
  lt := lt
  half := real (1 / 2)
  decLE := Classical.decRel _
  decLT := Classical.decRel _

noncomputable def sqrt : ExtendedReal → ExtendedReal
  | real x => if 0 ≤ x then real (Real.sqrt x) else nan
  | inf => inf
  | nan => nan

/-- Infinite where the true value exceeds the largest finite double. -/
noncomputable def sinh : ExtendedReal → ExtendedReal
  | real x => if Real.sinh x ≤ maxDouble then real (Real.sinh x) else inf
  | inf => inf
  | nan => nan

/-- Rounding half away from zero. -/
noncomputable def roundAway (x : ℝ) : ℤ := if 0 ≤ x then ⌊x + 1 / 2⌋ else ⌈x - 1 / 2⌉

/-- llround, with an answer of the platform's own where the value is no long long. -/
noncomputable def llround (unspecified : BitVec 64) : ExtendedReal → BitVec 64
  | real x => if -2 ^ 63 ≤ roundAway x ∧ roundAway x < 2 ^ 63 then BitVec.ofInt 64 (roundAway x)
    else unspecified
  | _ => unspecified

theorem maxDouble_lt : maxDouble < 2 ^ 1024 := by
  have hpow : (2 : ℝ) ^ 1024 = 2 ^ 53 * 2 ^ 971 := by rw [← pow_add]
  rw [maxDouble, hpow]
  exact mul_lt_mul_of_pos_right (by norm_num) (pow_pos two_pos _)

theorem le_maxDouble : 2 ^ 1023 ≤ maxDouble := by
  have hpow : (2 : ℝ) ^ 1023 = 2 ^ 52 * 2 ^ 971 := by rw [← pow_add]
  rw [maxDouble, hpow]
  exact mul_le_mul_of_nonneg_right (by norm_num) (pow_pos two_pos _).le

variable (x y : ℝ)

@[simp] theorem natCast_eq (n : Nat) : ((n : Nat) : ExtendedReal) = real n := rfl
@[simp] theorem real_sub : real x - real y = real (x - y) := rfl
@[simp] theorem real_mul : real x * real y = real (x * y) := rfl
@[simp] theorem real_div_inf : real x / inf = real 0 := rfl
@[simp] theorem inf_div_inf : inf / inf = nan := rfl
@[simp] theorem mul_nan : real x * nan = nan := rfl
@[simp] theorem real_lt : real x < real y ↔ x < y := Iff.rfl
@[simp] theorem real_le : real x ≤ real y ↔ x ≤ y := Iff.rfl

theorem not_nan_lt (a : ExtendedReal) : ¬ nan < a := fun h => h

theorem not_lt_nan (a : ExtendedReal) : ¬ a < nan := by
  cases a <;> exact fun h => h

/-- A value that fits a long long is rounded, as an unsigned quantity, to the nearest natural. -/
theorem llround_of_lt (u : BitVec 64) {x : ℝ} (h0 : 0 ≤ x) (h : x + 0.5 < (2 ^ 63 : Nat)) :
    (llround u (real x)).toNat = ⌊x + 0.5⌋₊ := by
  rw [show (0.5 : ℝ) = 1 / 2 from by norm_num] at h ⊢
  have hlow : 0 ≤ ⌊x + 1 / 2⌋ := Int.floor_nonneg.mpr (by linarith)
  have hhigh : ⌊x + 1 / 2⌋ < 2 ^ 63 := Int.floor_lt.mpr (by exact_mod_cast h)
  rw [llround, roundAway, if_pos h0, if_pos ⟨by omega, hhigh⟩, BitVec.toNat_ofInt,
    Int.emod_eq_of_lt hlow (by omega), Int.floor_toNat]

theorem llround_of_le (u : BitVec 64) {x : ℝ} (h : (2 ^ 63 : Nat) ≤ x + 0.5) :
    llround u (real x) = u := by
  rw [show (0.5 : ℝ) = 1 / 2 from by norm_num] at h
  have h0 : 0 ≤ x := by linarith [show (1 : ℝ) ≤ (2 ^ 63 : Nat) from by norm_num]
  have hhigh : 2 ^ 63 ≤ ⌊x + 1 / 2⌋ := Int.le_floor.mpr (by exact_mod_cast h)
  rw [llround, roundAway, if_pos h0, if_neg]
  omega

theorem real_div {x y : ℝ} (hy : y ≠ 0) : real x / real y = real (x / y) := if_neg hy

end ExtendedReal
end ExecutionPlatform.Foundations
