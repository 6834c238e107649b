import Mathlib.Algebra.Order.Round
import Mathlib.Tactic.Linarith

/-! Rounding half away from zero, and what it does to the increments of a sequence. -/
namespace ExecutionPlatform.Foundations
variable {α : Type} [Field α] [LinearOrder α] [IsStrictOrderedRing α] [FloorRing α]

/-- To the nearest integer, and halfway cases away from zero. -/
def roundHalfAway (x : α) : ℤ := if 0 ≤ x then round x else -round (-x)

variable {x y : α}

omit [IsStrictOrderedRing α] in
theorem roundHalfAway_of_nonneg (h : 0 ≤ x) : roundHalfAway x = round x := if_pos h

theorem round_mono (h : x ≤ y) : round x ≤ round y := by
  rw [round_eq, round_eq]
  apply Int.floor_mono
  linarith

theorem round_nonneg (h : 0 ≤ x) : 0 ≤ round x := by
  have hmono := round_mono h
  rwa [round_zero] at hmono

theorem round_le_natCast {n : Nat} (h : x ≤ n) : round x ≤ n := by
  have hmono := round_mono h
  rwa [round_natCast] at hmono

/-- An increment by d raises the rounded value by d rounded down or up. -/
theorem floor_le_round_sub_round (x d : α) : ⌊d⌋ ≤ round (x + d) - round x := by
  have hle : ⌊x + 1 / 2⌋ + ⌊d⌋ ≤ ⌊x + 1 / 2 + d⌋ := Int.le_floor_add _ _
  rw [round_eq, round_eq, add_right_comm]
  linarith

theorem round_sub_round_le_ceil (x d : α) : round (x + d) - round x ≤ ⌈d⌉ := by
  have hle : ⌊x + 1 / 2 + d⌋ ≤ ⌊x + 1 / 2⌋ + ⌈d⌉ := by
    rw [← Int.floor_add_intCast]
    apply Int.floor_mono
    linarith [Int.le_ceil d]
  rw [round_eq, round_eq, add_right_comm]
  linarith

theorem round_sub_round_eq (x d : α) : round (x + d) - round x = ⌊d⌋ ∨ round (x + d) - round x = ⌈d⌉ := by
  have hlow := floor_le_round_sub_round x d
  have hhigh := round_sub_round_le_ceil x d
  have hgap := Int.ceil_le_floor_add_one d
  omega

/-- Increments of rounded values are off by at most one. -/
theorem abs_round_sub_round_sub_le (x y : α) :
    |((round y - round x : ℤ) : α) - (y - x)| ≤ 1 := by
  have hx := abs_sub_round x
  have hy := abs_sub_round y
  rw [abs_le] at *
  push_cast
  constructor <;> linarith

end ExecutionPlatform.Foundations
