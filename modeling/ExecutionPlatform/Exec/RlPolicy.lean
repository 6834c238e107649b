import ExecutionPlatform.Exec.AlmgrenChriss
import ExecutionPlatform.Exec.Vwap

/-! The RL policy, which decides one child after the other from its actor's output, and the
contract that it shares with the tabulated baselines. The actor is a TorchScript module:
here a call gets its two outputs, whatever they are. -/
namespace ExecutionPlatform.Exec
open ExecutionPlatform.Core Foundations

structure RlPolicy.Params where
  parentQty : Quantity
  parentSide : Side
  numSteps : Nat

structure RlPolicy (F : Type) where
  params : RlPolicy.Params
  childQty : Nat → Quantity
  remaining : Nat → Quantity
  currentStep : Nat
  lastSizeFraction : F
  lastAggression : F

namespace RlPolicy
variable {F D : Type}

section NextQty
variable [MachineFloat D] {s : RlPolicy F}

/-- The quantity of the current step: what remains if it is the last, else the fraction,
widened to double in the product. -/
def nextQty (libm : Libm D) (widen : F → D) (s : RlPolicy F) (sizeFraction : F) : Quantity :=
  let remainingBefore := s.remaining s.currentStep
  if s.currentStep + 1 = s.params.numSteps then remainingBefore
  else
    let q := (libm.llround s.currentStep ((remainingBefore : D) * widen sizeFraction)).toNat
    if remainingBefore < q then remainingBefore else q

theorem nextQty_le (libm : Libm D) (widen : F → D) (s : RlPolicy F) (x : F) :
    s.nextQty libm widen x ≤ s.remaining s.currentStep := by
  rw [nextQty]
  split_ifs <;> lia

theorem nextQty_last (libm : Libm D) (widen : F → D) (x : F)
    (h : s.currentStep + 1 = s.params.numSteps) :
    s.nextQty libm widen x = s.remaining s.currentStep := if_pos h

end NextQty

variable [MachineFloat F]

def new (p : Params) : RlPolicy F where
  params := p
  childQty := fun _ => 0
  remaining := Function.update (fun _ => 0) 0 p.parentQty
  currentStep := 0
  lastSizeFraction := ((0 : Nat) : F)
  lastAggression := ((0 : Nat) : F)

instance : Strategy (RlPolicy F) where
  childQuantity s j := s.childQty j
  remainingAfterStep s j := s.remaining j
  side s := s.params.parentSide
  parentQty s := s.params.parentQty
  numSteps s := s.params.numSteps

variable [MachineFloat D]

/-- One call, given what the actor put into its output tensor; past the last step it is
asserted away. -/
def computeNextAction (libm : Libm D) (widen : F → D) (s : RlPolicy F) (action : F × F) :
    Option (RlPolicy F) :=
  if s.currentStep < s.params.numSteps then
    let sizeFraction := clampUnit action.1
    let aggression := clampUnit action.2
    let remainingBefore := s.remaining s.currentStep
    let q := s.nextQty libm widen sizeFraction
    some { s with
      childQty := Function.update s.childQty s.currentStep q
      remaining := Function.update s.remaining (s.currentStep + 1) (subWord 64 remainingBefore q)
      lastSizeFraction := sizeFraction
      lastAggression := aggression
      currentStep := s.currentStep + 1 }
  else none

def run (libm : Libm D) (widen : F → D) : RlPolicy F → List (F × F) → Option (RlPolicy F)
  | s, [] => some s
  | s, action :: actions => do
    let s' ← s.computeNextAction libm widen action
    run libm widen s' actions

variable {libm : Libm D} {widen : F → D} {p : Params} {s s' : RlPolicy F}

/-- The steps done sell the parent down, and the last one leaves nothing. -/
structure Decided (p : Params) (s : RlPolicy F) : Prop where
  params : s.params = p
  soldDown : SoldDown p.parentQty s.childQty s.remaining s.currentStep
  closed : s.currentStep = p.numSteps → s.remaining s.currentStep = 0

theorem Decided.new (hN : 1 ≤ p.numSteps) : Decided p (.new p : RlPolicy F) := by
  have hstart : (RlPolicy.new p : RlPolicy F).remaining 0 = p.parentQty := by
    simp only [RlPolicy.new, Function.update_self]
  refine ⟨rfl, ⟨hstart, fun j hj => absurd hj j.not_lt_zero⟩, fun hzero => ?_⟩
  exact absurd hN (hzero ▸ Nat.not_succ_le_zero 0)

theorem Decided.step (h : Decided p s) (hQ : p.parentQty < 2 ^ 64) {action : F × F}
    (hs : s.computeNextAction libm widen action = some s') :
    Decided p s' ∧ s'.currentStep = s.currentStep + 1 := by
  rw [computeNextAction] at hs
  split_ifs at hs with hlt
  obtain rfl := Option.some.inj hs
  obtain ⟨q, hq⟩ : ∃ q, s.nextQty libm widen (clampUnit action.1) = q := ⟨_, rfl⟩
  have hle : q ≤ s.remaining s.currentStep := hq ▸ nextQty_le ..
  have hword : s.remaining s.currentStep < 2 ^ 64 := h.soldDown.remaining_le.trans_lt hQ
  have hsell := h.soldDown.sell (Nat.sub_le (s.remaining s.currentStep) q)
  rw [Nat.sub_sub_self hle] at hsell
  refine ⟨⟨h.params, ?_, fun hend => ?_⟩, rfl⟩
  · simp only [hq]
    rw [subWord_of_le hle hword]
    exact hsell
  · have hall := nextQty_last libm widen (clampUnit action.1) (hend.trans (h.params ▸ rfl))
    simp only [Function.update_self]
    rw [hall, subWord_of_le le_rfl hword, Nat.sub_self]

theorem Decided.run (h : Decided p s) (hQ : p.parentQty < 2 ^ 64) {actions : List (F × F)}
    (hs : s.run libm widen actions = some s') :
    Decided p s' ∧ s'.currentStep = s.currentStep + actions.length := by
  induction actions generalizing s with
  | nil =>
    obtain rfl := Option.some.inj hs
    exact ⟨h, rfl⟩
  | cons action actions ih =>
    obtain ⟨s1, h1, hs⟩ := Option.bind_eq_some_iff.mp hs
    obtain ⟨hd, hstep⟩ := h.step hQ h1
    obtain ⟨hd', hlen⟩ := ih hd hs
    exact ⟨hd', by rw [hlen, hstep, List.length_cons]; omega⟩

/-- As many calls as there are steps left never hit the assertion. -/
theorem run_isSome {actions : List (F × F)} (libm : Libm D) (widen : F → D)
    (h : s.currentStep + actions.length ≤ s.params.numSteps) :
    ∃ s', s.run libm widen actions = some s' := by
  induction actions generalizing s with
  | nil => exact ⟨s, rfl⟩
  | cons action actions ih =>
    rw [List.length_cons] at h
    have hlt : s.currentStep < s.params.numSteps := by omega
    rw [run, computeNextAction, if_pos hlt]
    refine ih ?_
    change s.currentStep + 1 + actions.length ≤ s.params.numSteps
    omega

theorem run_executes (libm : Libm D) (widen : F → D) (hN : 1 ≤ p.numSteps)
    (hQ : p.parentQty < 2 ^ 64) {actions : List (F × F)} (hlen : actions.length ≤ p.numSteps) :
    ∃ s, (RlPolicy.new p).run libm widen actions = some s ∧
      Strategy.Executes p.parentQty p.numSteps s actions.length := by
  obtain ⟨s, hs⟩ := run_isSome (s := RlPolicy.new p) libm widen ((Nat.zero_add _).trans_le hlen)
  obtain ⟨hd, hstep⟩ := (Decided.new hN).run hQ hs
  have hdone : s.currentStep = actions.length := hstep.trans (Nat.zero_add _)
  have hQeq : Strategy.parentQty s = p.parentQty := congrArg Params.parentQty hd.params
  have hNeq : Strategy.numSteps s = p.numSteps := congrArg Params.numSteps hd.params
  refine ⟨s, hs, ?_⟩
  rw [← hdone]
  refine (Strategy.keepsContract ?_ fun hend => hd.closed (hend.trans hNeq)).executes hQeq hNeq
  rw [hQeq]
  exact hd.soldDown

end RlPolicy

/-- Whatever the llround calls return, each of the three strategies sells the parent it is
given down step by step and, over all the steps it is given, exactly off. -/
theorem strategies_keep_contract {F D : Type} [MachineFloat F] [MachineFloat D] (libm : Libm D)
    (widen : F → D) :
    (∀ p : AlmgrenChriss.Params D, 1 ≤ p.numSteps → p.parentQty < 2 ^ 64 →
      Strategy.Executes p.parentQty p.numSteps (AlmgrenChriss.new libm p) p.numSteps) ∧
    (∀ p : VwapStrategy.Params D, 1 ≤ p.numSteps → p.parentQty < 2 ^ 64 →
      Strategy.Executes p.parentQty p.numSteps (VwapStrategy.new libm p) p.numSteps) ∧
    ∀ p : RlPolicy.Params, 1 ≤ p.numSteps → p.parentQty < 2 ^ 64 →
      ∀ actions : List (F × F), actions.length ≤ p.numSteps →
        ∃ s, (RlPolicy.new p).run libm widen actions = some s ∧
          Strategy.Executes p.parentQty p.numSteps s actions.length := by
  refine ⟨fun p hN hQ => ?_, fun p hN hQ => ?_, fun p hN hQ actions hlen => ?_⟩
  · exact (AlmgrenChriss.new_keepsContract libm hN hQ).executes rfl rfl
  · exact (VwapStrategy.new_keepsContract libm hN hQ).executes rfl rfl
  · exact RlPolicy.run_executes libm widen hN hQ hlen

/-- Calls of llround that answer -1, the largest unsigned quantity, close out all the same. -/
theorem strategies_keep_contract_unspecified_llround :
    (Strategy.Executes 1000 4 (AlmgrenChriss.new (D := ℚ) ⟨id, id, fun _ _ => -1⟩
      ⟨1000, .sell, 4, 1, 4, 3, 9⟩) 4 ∧
    Strategy.Executes 1000 3 (VwapStrategy.new (D := ℚ) ⟨id, id, fun _ _ => -1⟩
      ⟨1000, .sell, fun _ => 1 / 2, 3⟩) 3) ∧
    ∃ s, (RlPolicy.new ⟨1000, .buy, 2⟩).run (D := ℚ) ⟨id, id, fun _ _ => -1⟩ id
      [((1 / 2 : ℚ), 0), (0, 1)] = some s ∧ Strategy.Executes 1000 2 s 2 := by
  have h := strategies_keep_contract (F := ℚ) (D := ℚ) ⟨id, id, fun _ _ => -1⟩ id
  refine ⟨⟨h.1 ⟨1000, .sell, 4, 1, 4, 3, 9⟩ (by decide) (by decide),
    h.2.1 ⟨1000, .sell, fun _ => 1 / 2, 3⟩ (by decide) (by decide)⟩, ?_⟩
  exact h.2.2 ⟨1000, .buy, 2⟩ (by decide) (by decide) [((1 / 2 : ℚ), 0), (0, 1)] (by decide)

end ExecutionPlatform.Exec
