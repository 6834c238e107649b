import Mathlib.Algebra.Group.Nat.Defs
import Mathlib.Data.Nat.Basic
import Mathlib.Logic.Function.Basic
import Mathlib.Tactic.Common

/-! A memory of bytes, and the words in it, least byte first. -/
namespace ExecutionPlatform.Foundations

abbrev ByteMemory := Nat → BitVec 8

namespace ByteMemory
variable {m m' : ByteMemory} {n k a b w : Nat}

/-- The word in the n bytes from address a on. -/
def load (m : ByteMemory) : (n a : Nat) → Nat
  | 0, _ => 0
  | n + 1, a => (m a).toNat + 256 * load m n (a + 1)

/-- Put the low n bytes of the word w at address a. -/
def store (m : ByteMemory) : (n a w : Nat) → ByteMemory
  | 0, _, _ => m
  | n + 1, a, w => Function.update (store m n (a + 1) (w / 256)) a (BitVec.ofNat 8 w)

/-- Put n bytes at address a. -/
def fill (m : ByteMemory) (n a : Nat) (bytes : Nat → BitVec 8) : ByteMemory :=
  fun b => if a ≤ b ∧ b < a + n then bytes (b - a) else m b

theorem store_apply (h : b < a ∨ a + n ≤ b) : m.store n a w b = m b := by
  induction n generalizing a w with
  | zero => rfl
  | succ n ih =>
    have hne : b ≠ a := by omega
    rw [store, Function.update_of_ne hne]
    exact ih (by omega)

theorem fill_apply {bytes : Nat → BitVec 8} (h : b < a ∨ a + n ≤ b) : m.fill n a bytes b = m b := by
  rw [fill, if_neg (by omega)]

/-- A word is read from its own bytes only. -/
theorem load_congr (h : ∀ b, a ≤ b → b < a + n → m' b = m b) : m'.load n a = m.load n a := by
  induction n generalizing a with
  | zero => rfl
  | succ n ih =>
    rw [load, load, h a le_rfl (by omega), ih fun b hlow hhigh => h b (by omega) (by omega)]

/-- What is read back is what the bytes can hold of the word. -/
theorem load_store (m : ByteMemory) (n a w : Nat) : (m.store n a w).load n a = w % 256 ^ n := by
  induction n generalizing a w with
  | zero => exact (Nat.mod_one w).symm
  | succ n ih =>
    have hrest : load (Function.update (m.store n (a + 1) (w / 256)) a (BitVec.ofNat 8 w)) n (a + 1) =
        w / 256 % 256 ^ n := by
      rw [← ih (a + 1) (w / 256)]
      apply load_congr
      intro b hb _
      exact Function.update_of_ne (by omega) ..
    rw [store, load, hrest, Function.update_self, BitVec.toNat_ofNat]
    change w % 256 + 256 * (w / 256 % 256 ^ n) = _
    rw [Nat.pow_succ', Nat.mod_mul]

theorem load_store_of_lt (h : w < 256 ^ n) : (m.store n a w).load n a = w := by
  rw [load_store, Nat.mod_eq_of_lt h]

/-- A store leaves the words beside it alone. -/
theorem load_store_apart (h : b + k ≤ a ∨ a + n ≤ b) : (m.store n a w).load k b = m.load k b :=
  load_congr fun _ hlow hhigh => store_apply (by omega)

theorem load_fill_apart {bytes : Nat → BitVec 8} (h : b + k ≤ a ∨ a + n ≤ b) :
    (m.fill n a bytes).load k b = m.load k b :=
  load_congr fun _ hlow hhigh => fill_apply (by omega)

end ByteMemory
end ExecutionPlatform.Foundations
