import Mathlib.Tactic.Common

/-! Generators that return one word a step, and the shift-and-xor maps they are made of. -/
namespace ExecutionPlatform.Foundations
variable {σ τ α : Type}

/-- The n-th draw, counted from 0. -/
def draw (next : σ → α × σ) : σ → Nat → α
  | s, 0 => (next s).1
  | s, n + 1 => draw next (next s).2 n

/-- Generators in related states draw alike, if a step draws alike and keeps them related. -/
theorem draw_eq {next : σ → α × σ} {next' : τ → α × τ} {R : σ → τ → Prop}
    (hstep : ∀ s t, R s t → (next s).1 = (next' t).1 ∧ R (next s).2 (next' t).2) {s : σ} {t : τ}
    (h : R s t) (n : Nat) : draw next s n = draw next' t n := by
  induction n generalizing s t with
  | zero => exact (hstep s t h).1
  | succ n ih => exact ih (hstep s t h).2

/-- What holds of a state and its draw at every step holds of every draw. -/
theorem draw_invariant {next : σ → α × σ} {I : σ → Prop} {P : α → Prop}
    (hstep : ∀ s, I s → P (next s).1 ∧ I (next s).2) {s : σ} (h : I s) (n : Nat) :
    P (draw next s n) := by
  induction n generalizing s with
  | zero => exact (hstep s h).1
  | succ n ih => exact ih (hstep s h).2

variable {w k : Nat} {x : BitVec w}

/-- A word that a left shift leaves alone would have to be shifted out of itself. -/
theorem eq_zero_of_xor_shiftLeft (hk : 0 < k) (h : x ^^^ (x <<< k) = 0#w) : x = 0#w := by
  have hfix : x = x <<< k := BitVec.xor_eq_zero_iff.mp h
  have hall : ∀ n, x = x <<< (n * k) := by
    intro n
    induction n with
    | zero => rw [Nat.zero_mul, BitVec.shiftLeft_zero]
    | succ n ih => rw [Nat.succ_mul, BitVec.shiftLeft_add, ← ih, ← hfix]
  rw [hall w]
  exact BitVec.shiftLeft_eq_zero (Nat.le_mul_of_pos_right w hk)

theorem eq_zero_of_xor_ushiftRight (hk : 0 < k) (h : x ^^^ (x >>> k) = 0#w) : x = 0#w := by
  have hfix : x = x >>> k := BitVec.xor_eq_zero_iff.mp h
  have hall : ∀ n, x = x >>> (n * k) := by
    intro n
    induction n with
    | zero => rw [Nat.zero_mul, BitVec.ushiftRight_zero]
    | succ n ih => rw [Nat.succ_mul, BitVec.shiftRight_add, ← ih, ← hfix]
  rw [hall w]
  exact BitVec.ushiftRight_eq_zero (Nat.le_mul_of_pos_right w hk)

/-- Maps of words that respect exclusive or. -/
def XorLinear {v : Nat} (f : BitVec w → BitVec v) : Prop := ∀ x y, f (x ^^^ y) = f x ^^^ f y

/-- The word c, if the given bit is set. -/
def select {v : Nat} (i : Nat) (c : BitVec v) (x : BitVec w) : BitVec v :=
  if x.getLsbD i then c else 0#v

namespace XorLinear
variable {u v : Nat} {f g : BitVec w → BitVec v}

theorem id : XorLinear fun x : BitVec w => x := fun _ _ => rfl

theorem comp {h : BitVec v → BitVec u} (hh : XorLinear h) (hf : XorLinear f) :
    XorLinear fun x => h (f x) := by
  intro x y
  change h (f (x ^^^ y)) = _
  rw [hf, hh]

theorem xor (hf : XorLinear f) (hg : XorLinear g) : XorLinear fun x => f x ^^^ g x := by
  intro x y
  change f (x ^^^ y) ^^^ g (x ^^^ y) = f x ^^^ g x ^^^ (f y ^^^ g y)
  rw [hf, hg]
  ac_rfl

theorem shiftLeft (hf : XorLinear f) (k : Nat) : XorLinear fun x => f x <<< k := by
  intro x y
  change f (x ^^^ y) <<< k = _
  rw [hf, BitVec.shiftLeft_xor_distrib]

theorem ushiftRight (hf : XorLinear f) (k : Nat) : XorLinear fun x => f x >>> k := by
  intro x y
  change f (x ^^^ y) >>> k = _
  rw [hf, BitVec.ushiftRight_xor_distrib]

theorem select (i : Nat) (c : BitVec v) : XorLinear (select i c : BitVec w → BitVec v) := by
  intro x y
  simp only [Foundations.select, BitVec.getLsbD_xor]
  cases x.getLsbD i <;> cases y.getLsbD i <;> simp

theorem const_zero : XorLinear fun _ : BitVec w => 0#v := fun _ _ => BitVec.xor_zero.symm

theorem map_zero (hf : XorLinear f) : f 0#w = 0#v := by
  have h := hf 0#w 0#w
  rw [BitVec.xor_self] at h
  exact h.trans BitVec.xor_self

/-- Linear maps that agree on the words with one bit set are one map. -/
theorem ext (hf : XorLinear f) (hg : XorLinear g)
    (h : ∀ i < w, f (BitVec.twoPow w i) = g (BitVec.twoPow w i)) : f = g := by
  -- bit by bit, from the lowest: n bounds the bits that may be set
  have hall : ∀ n x, (∀ i, n ≤ i → x.getLsbD i = false) → f x = g x := by
    intro n
    induction n with
    | zero =>
      intro x hx
      have hzero : x = 0#w := BitVec.eq_of_getLsbD_eq fun i _ => (hx i (Nat.zero_le i)).trans
        BitVec.getLsbD_zero.symm
      rw [hzero, hf.map_zero, hg.map_zero]
    | succ n ih =>
      intro x hx
      cases hn : x.getLsbD n with
      | false =>
        apply ih
        intro i hi
        rcases Nat.eq_or_lt_of_le hi with rfl | hi
        · exact hn
        · exact hx i hi
      | true =>
        have hw : n < w := BitVec.lt_of_getLsbD hn
        have hrest : f (x ^^^ BitVec.twoPow w n) = g (x ^^^ BitVec.twoPow w n) := by
          apply ih
          intro i hi
          rw [BitVec.getLsbD_xor, BitVec.getLsbD_twoPow]
          rcases Nat.eq_or_lt_of_le hi with rfl | hi
          · simp [hn, hw]
          · simp [hx i hi, Nat.ne_of_lt hi]
        rw [hf, hg, h n hw] at hrest
        exact (BitVec.xor_left_inj _).mp hrest
  funext x
  apply hall w
  intro i hi
  exact BitVec.getLsbD_of_ge x i hi

end XorLinear

end ExecutionPlatform.Foundations
