import ExecutionPlatform.Exec.Strategy

/-! The VWAP baseline: cumulative rounding along a volume profile. -/
namespace ExecutionPlatform.Exec
open ExecutionPlatform.Core Foundations

/-- The constructor asserts at least one step and non-negative weights, in debug builds only. -/
structure VwapStrategy.Params (D : Type) where
  parentQty : Quantity
  parentSide : Side
  volumeProfile : Nat → D
  numSteps : Nat

/-- num_steps is the size of the child table. -/
structure VwapStrategy where
  side : Side
  parentQty : Quantity
  numSteps : Nat
  childQty : Nat → Quantity
  remaining : Nat → Quantity

namespace VwapStrategy
variable {D : Type} [MachineFloat D]

/-- The loop's variables and the tables under construction. -/
structure Fill (D : Type) where
  cum : D
  sent : Quantity
  childQty : Nat → Quantity
  remaining : Nat → Quantity

def Fill.start (p : Params D) : Fill D where
  cum := ((0 : Nat) : D)
  sent := 0
  childQty := fun _ => 0
  remaining := Function.update (fun _ => 0) 0 p.parentQty

/-- How much of the parent is to be sent by the end of step j; the last step takes all. -/
def target (libm : Libm D) (p : Params D) (cum : D) (sent : Quantity) (j : Nat) : Quantity :=
  if j + 1 = p.numSteps then p.parentQty
  else
    let target := (libm.llround j ((p.parentQty : D) * clampUnit cum)).toNat
    let target := if p.parentQty < target then p.parentQty else target
    if target < sent then sent else target

def turn (libm : Libm D) (p : Params D) (st : Fill D) (j : Nat) : Fill D :=
  let cum := st.cum + p.volumeProfile j
  let target := target libm p cum st.sent j
  { cum := cum
    sent := target
    childQty := Function.update st.childQty j (subWord 64 target st.sent)
    remaining := Function.update st.remaining (j + 1) (subWord 64 p.parentQty target) }

/-- The loop after its first k turns, j from 0 to k - 1. -/
def turns (libm : Libm D) (p : Params D) : Nat → Fill D
  | 0 => .start p
  | k + 1 => turn libm p (turns libm p k) k

def new (libm : Libm D) (p : Params D) : VwapStrategy :=
  let st := turns libm p p.numSteps
  { side := p.parentSide
    parentQty := p.parentQty
    numSteps := p.numSteps
    childQty := st.childQty
    remaining := st.remaining }

instance : Strategy VwapStrategy where
  childQuantity s j := s.childQty j
  remainingAfterStep s j := s.remaining j
  side s := s.side
  parentQty s := s.parentQty
  numSteps s := s.numSteps

variable {libm : Libm D} {p : Params D} {cum : D} {sent : Quantity} {j k : Nat}

theorem target_le (hsent : sent ≤ p.parentQty) : target libm p cum sent j ≤ p.parentQty := by
  rw [target]
  split_ifs <;> lia

theorem le_target (hsent : sent ≤ p.parentQty) : sent ≤ target libm p cum sent j := by
  rw [target]
  split_ifs <;> lia

/-- After k turns the tables sell the parent down to what is not sent. -/
structure Tabulated (p : Params D) (st : Fill D) (k : Nat) : Prop where
  soldDown : SoldDown p.parentQty st.childQty st.remaining k
  sent : st.sent + st.remaining k = p.parentQty

theorem Tabulated.start : Tabulated p (.start p) 0 := by
  have hstart : (Fill.start p).remaining 0 = p.parentQty := by
    simp only [Fill.start, Function.update_self]
  exact ⟨⟨hstart, fun j hj => absurd hj j.not_lt_zero⟩, (Nat.zero_add _).trans hstart⟩

theorem Tabulated.turn {st : Fill D} (h : Tabulated p st k) (hQ : p.parentQty < 2 ^ 64) :
    Tabulated p (turn libm p st k) (k + 1) := by
  obtain ⟨x, hx⟩ : ∃ x, target libm p (st.cum + p.volumeProfile k) st.sent k = x := ⟨_, rfl⟩
  have hsent := h.sent
  have hle : x ≤ p.parentQty := hx ▸ target_le (by lia)
  have hge : st.sent ≤ x := hx ▸ le_target (by lia)
  have hsell := h.soldDown.sell (show p.parentQty - x ≤ st.remaining k by lia)
  have hchild : st.remaining k - (p.parentQty - x) = x - st.sent := by lia
  rw [hchild] at hsell
  rw [VwapStrategy.turn, hx, subWord_of_le hge (by lia), subWord_of_le hle hQ]
  refine ⟨hsell, ?_⟩
  change x + Function.update st.remaining (k + 1) (p.parentQty - x) (k + 1) = p.parentQty
  rw [Function.update_self]
  lia

theorem Tabulated.turns (hQ : p.parentQty < 2 ^ 64) : Tabulated p (turns libm p k) k := by
  induction k with
  | zero => exact .start
  | succ k ih => exact ih.turn hQ

/-- What a turn has written it keeps: the remainders are what the targets leave. -/
theorem turns_remaining (libm : Libm D) (hQ : p.parentQty < 2 ^ 64) {j k : Nat} (hj : j ≤ k) :
    (turns libm p j).sent + (turns libm p k).remaining j = p.parentQty := by
  induction k with
  | zero =>
    obtain rfl := Nat.le_zero.mp hj
    exact Tabulated.start.sent
  | succ k ih =>
    rcases Nat.lt_succ_iff_lt_or_eq.mp (Nat.lt_succ_of_le hj) with hlt | rfl
    · have hkeep : (turns libm p (k + 1)).remaining j = (turns libm p k).remaining j :=
        Function.update_of_ne (by omega) ..
      rw [hkeep]
      exact ih (Nat.le_of_lt_succ hlt)
    · exact (Tabulated.turns hQ).sent

/-- The children so far add up to the target. -/
theorem sum_childQty (libm : Libm D) (hQ : p.parentQty < 2 ^ 64) {j k : Nat} (hj : j ≤ k) :
    ∑ i ∈ Finset.range j, (turns libm p k).childQty i = (turns libm p j).sent := by
  have htab : Tabulated p (turns libm p k) k := .turns hQ
  have hsum := SoldDown.sum_add_remaining ⟨htab.soldDown.start, fun i hi =>
    htab.soldDown.step i (hi.trans_le hj)⟩
  have hrem := turns_remaining libm hQ hj
  lia

theorem childQty_add_sent (libm : Libm D) (hQ : p.parentQty < 2 ^ 64) {j : Nat} (hj : j < p.numSteps) :
    Strategy.childQuantity (new libm p) j + (turns libm p j).sent = (turns libm p (j + 1)).sent := by
  rw [← sum_childQty libm hQ hj, Finset.sum_range_succ, sum_childQty libm hQ hj.le, Nat.add_comm]
  rfl

/-- The last target is the whole parent. -/
theorem new_keepsContract (libm : Libm D) (hN : 1 ≤ p.numSteps) (hQ : p.parentQty < 2 ^ 64) :
    Strategy.KeepsContract (new libm p) p.numSteps := by
  have htab : Tabulated p (turns libm p p.numSteps) p.numSteps := .turns hQ
  refine Strategy.keepsContract htab.soldDown fun _ => ?_
  have hsent : (turns libm p p.numSteps).sent = p.parentQty := by
    obtain ⟨n, hn⟩ := Nat.exists_eq_add_of_le' hN
    rw [hn, turns, turn, target, if_pos hn.symm]
  have hall := htab.sent
  change (turns libm p p.numSteps).remaining p.numSteps = 0
  lia

end VwapStrategy
end ExecutionPlatform.Exec
