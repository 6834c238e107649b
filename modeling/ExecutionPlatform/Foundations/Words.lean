import Mathlib.Data.Nat.ModEq
import Mathlib.Tactic.Common

/-! Unsigned arithmetic on w-bit words, and when it is plain arithmetic. -/
namespace ExecutionPlatform.Foundations

def addWord (w a b : Nat) : Nat := (a + b) % 2 ^ w
def subWord (w a b : Nat) : Nat := (a + 2 ^ w - b % 2 ^ w) % 2 ^ w
def mulWord (w a b : Nat) : Nat := a * b % 2 ^ w

theorem addWord_mod (w a b : Nat) : addWord w (a % 2 ^ w) b = (a + b) % 2 ^ w := by
  rw [addWord, Nat.mod_add_mod]

theorem addWord_of_lt {w a b : Nat} (h : a + b < 2 ^ w) : addWord w a b = a + b :=
  Nat.mod_eq_of_lt h

theorem mulWord_of_lt {w a b : Nat} (h : a * b < 2 ^ w) : mulWord w a b = a * b :=
  Nat.mod_eq_of_lt h

/-- Subtracting what was added leaves the word of what was there before. -/
theorem subWord_mod (w a b : Nat) : subWord w ((a + b) % 2 ^ w) b = a % 2 ^ w := by
  have hb := Nat.mod_lt b (Nat.two_pow_pos w)
  have hsum := Nat.mod_lt (a + b) (Nat.two_pow_pos w)
  have key : (a + b) % 2 ^ w + 2 ^ w - b % 2 ^ w + b % 2 ^ w ≡ a + b % 2 ^ w [MOD 2 ^ w] := by
    rw [Nat.sub_add_cancel (by omega)]
    calc (a + b) % 2 ^ w + 2 ^ w ≡ (a + b) % 2 ^ w [MOD 2 ^ w] := by simp [Nat.ModEq]
      _ ≡ a + b [MOD 2 ^ w] := Nat.mod_modEq _ _
      _ ≡ a + b % 2 ^ w [MOD 2 ^ w] := (Nat.ModEq.refl a).add (Nat.mod_modEq _ _).symm
  exact Nat.ModEq.add_right_cancel' _ key

/-- The distance between two words on the clock. -/
theorem subWord_add_mod (w a d : Nat) : subWord w ((a + d) % 2 ^ w) (a % 2 ^ w) = d % 2 ^ w := by
  have h := subWord_mod w d a
  rw [Nat.add_comm d a] at h
  rwa [subWord, Nat.mod_mod] at *

/-- The distance back is what is missing to a full turn. -/
theorem subWord_mod_add (w a d : Nat) :
    subWord w (a % 2 ^ w) ((a + d) % 2 ^ w) = (2 ^ w - d % 2 ^ w) % 2 ^ w := by
  have ha := Nat.mod_lt a (Nat.two_pow_pos w)
  have hd := Nat.mod_lt d (Nat.two_pow_pos w)
  rw [subWord, Nat.mod_mod, Nat.add_mod]
  rcases Nat.lt_or_ge (a % 2 ^ w + d % 2 ^ w) (2 ^ w) with h | h
  · rw [Nat.mod_eq_of_lt h]
    congr 1
    omega
  · have hturn : (a % 2 ^ w + d % 2 ^ w) % 2 ^ w = a % 2 ^ w + d % 2 ^ w - 2 ^ w := by
      rw [Nat.mod_eq_sub_mod h, Nat.mod_eq_of_lt (by omega)]
    rw [hturn, ← Nat.add_mod_right (2 ^ w - d % 2 ^ w)]
    congr 1
    omega

theorem subWord_of_le {w a b : Nat} (hle : b ≤ a) (ha : a < 2 ^ w) : subWord w a b = a - b := by
  obtain ⟨c, rfl⟩ := Nat.exists_eq_add_of_le' hle
  have h := subWord_mod w c b
  rw [Nat.mod_eq_of_lt ha, Nat.mod_eq_of_lt (by omega)] at h
  rw [h, Nat.add_sub_cancel]

/-- Masking a word to k of its w bits. -/
theorem word_and_mask {w k : Nat} (hk : k ≤ w) (a : Nat) :
    a % 2 ^ w &&& (2 ^ k - 1) = a % 2 ^ k := by
  rw [Nat.and_two_pow_sub_one_eq_mod, Nat.mod_mod_of_dvd _ (Nat.pow_dvd_pow 2 hk)]

/-- Masking the low k bits of a word away rounds it down. -/
theorem word_and_not_mask {w k a : Nat} (hk : k ≤ w) (ha : a < 2 ^ w) :
    a &&& (2 ^ w - 2 ^ k) = a / 2 ^ k * 2 ^ k := by
  apply Nat.eq_of_testBit_eq
  intro i
  obtain ⟨d, rfl⟩ := Nat.exists_eq_add_of_le hk
  have hmask : 2 ^ (k + d) - 2 ^ k = (2 ^ d - 1) * 2 ^ k := by
    rw [Nat.sub_mul, Nat.one_mul, Nat.pow_add, Nat.mul_comm]
  rw [hmask, Nat.testBit_and, Nat.testBit_mul_two_pow, Nat.testBit_mul_two_pow,
    Nat.testBit_div_two_pow, Nat.testBit_two_pow_sub_one]
  rcases Nat.lt_or_ge i k with hlow | hhigh
  · simp [Nat.not_le.mpr hlow]
  · rw [Nat.sub_add_cancel hhigh]
    rcases Nat.lt_or_ge i (k + d) with hin | hout
    · simp [hhigh, show i - k < d by omega]
    · rw [Nat.testBit_lt_two_pow (ha.trans_le (Nat.pow_le_pow_right Nat.two_pos hout)), Bool.false_and,
        Bool.and_false]

/-- Counters less than a turn of the mask apart have different masked words. -/
theorem word_and_mask_ne {w k i j : Nat} (hk : k ≤ w) (a : Nat) (hij : i < j) (hj : j < i + 2 ^ k) :
    (a + i) % 2 ^ w &&& (2 ^ k - 1) ≠ (a + j) % 2 ^ w &&& (2 ^ k - 1) := by
  rw [word_and_mask hk, word_and_mask hk]
  intro h
  have hdvd := (Nat.modEq_iff_dvd' (by omega)).mp (show a + i ≡ a + j [MOD 2 ^ k] from h)
  have := Nat.le_of_dvd (by omega) hdvd
  omega

end ExecutionPlatform.Foundations
