import ExecutionPlatform.Exec.PositionLedger
import ExecutionPlatform.Exec.RlPolicy
import Mathlib.Algebra.Order.BigOperators.Group.Finset

/-! A strategy sends its children through the publisher while others trade: over any such session
it executes no more than its parent order. -/
namespace ExecutionPlatform.Exec
open ExecutionPlatform.Core External Foundations

namespace Strategy
variable {σ B Ring Clock : Type} [Strategy σ] [MatchingBook B] [EventRing Ring] [ClockFn Clock]

/-- A step with nothing to send does not touch the publisher. -/
def submitStep (s : σ) (j : Nat) (id : OrderId) (px : Price) (p : TelemetryPublisher B Ring Clock) :
    Option (TelemetryPublisher B Ring Clock × Bool) :=
  let q := childQuantity s j
  if q = 0 then some (p, true)
  else (p.addLimit id (side s) px q).map fun (p, _, ok) => (p, ok)

end Strategy

/-- What the publisher's owner does with a strategy at hand. -/
inductive DeskOp where
  | submitStep (j : Nat) (id : OrderId) (px : Price)
  | other (op : BookOp)

namespace DeskOp
variable {σ : Type} [Strategy σ]

def step? : DeskOp → Option Nat
  | .submitStep j _ _ => some j
  | .other _ => none

def childId? : DeskOp → Option OrderId
  | .submitStep _ id _ => some id
  | .other _ => none

def other? : DeskOp → Option BookOp
  | .submitStep _ _ _ => none
  | .other op => some op

/-- The calls of the book that come of it. -/
def calls (s : σ) : DeskOp → List BookOp
  | .submitStep j id px =>
    if Strategy.childQuantity s j = 0 then []
    else [.addLimit id (Strategy.side s) px (Strategy.childQuantity s j)]
  | .other op => [op]

end DeskOp

namespace Strategy
variable {σ B Ring Clock : Type} [Strategy σ] [MatchingBook B] [EventRing Ring] [ClockFn Clock]

/-- A session, and what its SubmitStep calls returned. -/
def session (s : σ) : TelemetryPublisher B Ring Clock → List DeskOp →
    Option (TelemetryPublisher B Ring Clock × List Bool)
  | p, [] => some (p, [])
  | p, .submitStep j id px :: ops => do
    let (p, ok) ← submitStep s j id px p
    let (p, oks) ← session s p ops
    pure (p, ok :: oks)
  | p, .other op :: ops => do
    let p ← p.step op
    session s p ops

variable {s : σ} {q : TelemetryPublisher OrderBook EventLog Clock} {R : RefBook} {rs : List Nat}
  {p : OrderId → Bool} {sent dropped : Quantity}

theorem submitStep_position (hq : q.book.Refines R rs)
    (h : Position p (side s) R q.out.ring.events sent dropped) {j : Nat} {id : OrderId} {px : Price}
    (hid : p id = true) {ops : List BookOp}
    (hops : R.AdmissibleRun ((DeskOp.submitStep j id px).calls s ++ ops)) :
    ∃ q' ok lost R' rs', submitStep s j id px q = some (q', ok) ∧ q'.book.Refines R' rs' ∧
      R'.AdmissibleRun ops ∧ (ok = true → lost = 0) ∧
      Position p (side s) R' q'.out.ring.events (sent + childQuantity s j) (dropped + lost) := by
  rw [submitStep]
  rw [DeskOp.calls] at hops
  by_cases hz : childQuantity s j = 0
  · rw [if_pos hz] at hops
    refine ⟨q, true, 0, R, rs, if_pos hz, hq, hops, fun _ => rfl, ?_⟩
    rw [hz]
    exact h
  · rw [if_neg hz] at hops
    obtain ⟨q', fills, ok, lost, rs', he, hr, hlost, h'⟩ := TelemetryPublisher.addLimit_position
      hq h px (childQuantity s j) hops.1.2 fun _ => rfl
    rw [if_pos hid] at h'
    refine ⟨q', ok, lost, _, rs', ?_, hr, hops.2, fun hok => hlost (.inl hok), h'⟩
    rw [if_neg hz, he]
    rfl

theorem other_position (hq : q.book.Refines R rs)
    (h : Position p (side s) R q.out.ring.events sent dropped) {op : BookOp}
    (hop : ∀ id, op.Submits id → p id = false) (hadm : R.Admissible op) :
    ∃ q' rs', q.step op = some q' ∧ q'.book.Refines (R.step op).1 rs' ∧
      Position p (side s) (R.step op).1 q'.out.ring.events sent dropped := by
  cases op with
  | addLimit id side' price qty =>
    have hid : p id = false := hop id rfl
    have hside : p id = true → side' = side s := fun hp => absurd (hid.symm.trans hp) Bool.false_ne_true
    obtain ⟨q', fills, ok, lost, rs', he, hr, hlost, h'⟩ :=
      TelemetryPublisher.addLimit_position hq h price qty hadm.2 hside
    rw [hlost (.inr hid), hid] at h'
    refine ⟨q', rs', ?_, hr, h'⟩
    rw [TelemetryPublisher.step, he]
    rfl
  | cancel id =>
    obtain ⟨q', ok, rs', he, hr, h'⟩ := TelemetryPublisher.cancel_position hq h id
    refine ⟨q', rs', ?_, hr, h'⟩
    rw [TelemetryPublisher.step, he]
    rfl

/-- A session from any position. -/
theorem session_position {ops : List DeskOp} (hq : q.book.Refines R rs)
    (h : Position p (side s) R q.out.ring.events sent dropped)
    (hown : ∀ id ∈ ops.filterMap DeskOp.childId?, p id = true)
    (hothers : ∀ op ∈ ops.filterMap DeskOp.other?, ∀ id, op.Submits id → p id = false)
    (hops : R.AdmissibleRun (ops.flatMap (DeskOp.calls s))) :
    ∃ q' oks lost R' rs', session s q ops = some (q', oks) ∧ q'.book.Refines R' rs' ∧
      ((∀ ok ∈ oks, ok = true) → lost = 0) ∧
      Position p (side s) R' q'.out.ring.events
        (sent + ((ops.filterMap DeskOp.step?).map (childQuantity s)).sum) (dropped + lost) := by
  induction ops generalizing q R rs sent dropped with
  | nil => exact ⟨q, [], 0, R, rs, rfl, hq, fun _ => rfl, h⟩
  | cons op ops ih =>
    rw [List.flatMap_cons] at hops
    cases op with
    | submitStep j id px =>
      have hid : p id = true := hown id List.mem_cons_self
      obtain ⟨q₁, ok, lost, R₁, rs₁, he, hq₁, hops₁, hlost, h₁⟩ := submitStep_position hq h hid hops
      obtain ⟨q₂, oks, lost', R₂, rs₂, he', hq₂, hlost', h₂⟩ :=
        ih hq₁ h₁ (fun id hid => hown id (List.mem_cons_of_mem _ hid)) hothers hops₁
      refine ⟨q₂, ok :: oks, lost + lost', R₂, rs₂, ?_, hq₂, fun hall => ?_, ?_⟩
      · rw [session, he]
        simp only [Option.bind_eq_bind, Option.bind_some, he']
        rfl
      · rw [hlost (hall ok List.mem_cons_self),
          hlost' fun ok hok => hall ok (List.mem_cons_of_mem _ hok)]
      · rw [Nat.add_assoc, Nat.add_assoc] at h₂
        exact h₂
    | other op =>
      have hop : ∀ id, op.Submits id → p id = false := hothers op List.mem_cons_self
      obtain ⟨q₁, rs₁, he, hq₁, h₁⟩ := other_position hq h hop hops.1
      obtain ⟨q₂, oks, lost', R₂, rs₂, he', hq₂, hlost', h₂⟩ :=
        ih hq₁ h₁ hown (fun op hop => hothers op (List.mem_cons_of_mem _ hop)) hops.2
      refine ⟨q₂, oks, lost', R₂, rs₂, ?_, hq₂, hlost', h₂⟩
      rw [session, he]
      exact he'

/-- Distinct steps of a schedule send no more than the parent, and all of them send all of it. -/
theorem KeepsContract.sum_steps (hs : KeepsContract s (numSteps s)) {steps : List Nat}
    (hn : steps.Nodup) (hlt : ∀ j ∈ steps, j < numSteps s) :
    (steps.map (childQuantity s)).sum ≤ parentQty s ∧
      ((∀ j < numSteps s, j ∈ steps) → (steps.map (childQuantity s)).sum = parentQty s) := by
  have hsum := (hs.closeOut rfl).2
  rw [← List.sum_toFinset _ hn, ← hsum]
  have hsub : steps.toFinset ⊆ Finset.range (numSteps s) := by
    intro j hj
    exact Finset.mem_range.mpr (hlt j (List.mem_toFinset.mp hj))
  refine ⟨Finset.sum_le_sum_of_subset hsub, fun hall => ?_⟩
  congr 1
  apply Finset.Subset.antisymm hsub
  intro j hj
  exact List.mem_toFinset.mpr (hall j (Finset.mem_range.mp hj))

/-- Four shares sold in two halves. -/
def twoHalves : VwapStrategy := .new (D := ℚ) ⟨id, id, fun _ _ => 2⟩ ⟨4, .sell, fun _ => 1 / 2, 2⟩

/-- The first half meets a bid for three; of the second one share rests, and is withdrawn. -/
def halvesDesk : List DeskOp :=
  [.other (.addLimit 1 .buy 99 3), .submitStep 0 2 99, .submitStep 1 3 99, .other (.cancel 3)]

end Strategy
end ExecutionPlatform.Exec
