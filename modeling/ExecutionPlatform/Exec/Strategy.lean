import ExecutionPlatform.Core.OrderBook
import ExecutionPlatform.Foundations.MachineFloat
import Mathlib.Algebra.BigOperators.Group.Finset.Basic

/-! The execution strategies' common interface, and the contract that a schedule keeps
with its parent order. -/
namespace ExecutionPlatform.Exec
open ExecutionPlatform.Core Foundations

/-- The libm calls of the schedules. Every call of llround, numbered by its step, has an
answer of its own, as that of a NaN or of a value out of range is unspecified. -/
structure Libm (D : Type) where
  sqrt : D → D
  sinh : D → D
  llround : Nat → D → BitVec 64

/-- Clamp to [0, 1]; a NaN passes both comparisons. -/
def clampUnit {D : Type} [MachineFloat D] (x : D) : D :=
  let x := if x < ((0 : Nat) : D) then ((0 : Nat) : D) else x
  if ((1 : Nat) : D) < x then ((1 : Nat) : D) else x

/-- What the engine reads of a strategy. -/
class Strategy (σ : Type) where
  childQuantity : σ → Nat → Quantity
  remainingAfterStep : σ → Nat → Quantity
  side : σ → Side
  parentQty : σ → Quantity
  numSteps : σ → Nat

/-- The first done children take what remains from all of Q down. -/
structure SoldDown (Q : Quantity) (child remaining : Nat → Quantity) (done : Nat) : Prop where
  start : remaining 0 = Q
  step : ∀ j < done, remaining (j + 1) + child j = remaining j

namespace SoldDown
variable {Q : Quantity} {child remaining : Nat → Quantity} {done : Nat}

theorem sum_add_remaining (h : SoldDown Q child remaining done) :
    ∑ j ∈ Finset.range done, child j + remaining done = Q := by
  induction done with
  | zero => rw [Finset.sum_range_zero, Nat.zero_add, h.start]
  | succ n ih =>
    have hn := ih ⟨h.start, fun j hj => h.step j (Nat.lt_succ_of_lt hj)⟩
    have hlast := h.step n (Nat.lt_succ_self n)
    rw [Finset.sum_range_succ]
    lia

theorem remaining_le (h : SoldDown Q child remaining done) : remaining done ≤ Q :=
  (Nat.le_add_left _ _).trans_eq h.sum_add_remaining

/-- One more child, of whatever is not to remain after it. -/
theorem sell (h : SoldDown Q child remaining done) {x : Quantity} (hx : x ≤ remaining done) :
    SoldDown Q (Function.update child done (remaining done - x))
      (Function.update remaining (done + 1) x) (done + 1) := by
  refine ⟨?_, fun j hj => ?_⟩
  · rw [Function.update_of_ne (Nat.succ_ne_zero done).symm, h.start]
  · rcases Nat.lt_succ_iff_lt_or_eq.mp hj with hlt | rfl
    · rw [Function.update_of_ne (by omega), Function.update_of_ne (by omega),
        Function.update_of_ne (by omega), h.step j hlt]
    · rw [Function.update_self, Function.update_self, Function.update_of_ne (by omega)]
      lia

end SoldDown

namespace Strategy
variable {σ : Type} [Strategy σ] {s : σ} {done : Nat}

/-- The steps done so far sell the parent down, and all steps together sell it off. -/
structure KeepsContract (s : σ) (done : Nat) : Prop where
  soldDown : SoldDown (parentQty s) (childQuantity s) (remainingAfterStep s) done
  closeOut : done = numSteps s → remainingAfterStep s done = 0 ∧
    ∑ j ∈ Finset.range done, childQuantity s j = parentQty s

theorem keepsContract (h : SoldDown (parentQty s) (childQuantity s) (remainingAfterStep s) done)
    (hclose : done = numSteps s → remainingAfterStep s done = 0) : KeepsContract s done := by
  refine ⟨h, fun hdone => ?_⟩
  have hsum := h.sum_add_remaining
  have hzero := hclose hdone
  rw [hzero] at hsum
  exact ⟨hzero, hsum⟩

/-- Built for a parent of Q in N steps: the steps done so far sell Q down, and all N of them
sell it off. -/
structure Executes (Q : Quantity) (N : Nat) (s : σ) (done : Nat) : Prop where
  parentQty : parentQty s = Q
  numSteps : numSteps s = N
  soldDown : SoldDown Q (childQuantity s) (remainingAfterStep s) done
  closeOut : done = N → remainingAfterStep s N = 0 ∧
    ∑ j ∈ Finset.range N, childQuantity s j = Q

theorem KeepsContract.executes {Q : Quantity} {N : Nat} (h : KeepsContract s done)
    (hQ : parentQty s = Q) (hN : numSteps s = N) : Executes Q N s done := by
  subst hQ hN
  refine ⟨rfl, rfl, h.soldDown, fun hdone => ?_⟩
  obtain ⟨hzero, hsum⟩ := h.closeOut hdone
  subst hdone
  exact ⟨hzero, hsum⟩

end Strategy
end ExecutionPlatform.Exec
