import ExecutionPlatform.Foundations.MachineFloat
import ExecutionPlatform.Exec.TelemetryPublisher
import Mathlib.Data.Rat.Floor

/-! The simulation environment of the Python bridge: exogenous flow, the agent's child
orders, and the episode bookkeeping. Step indices and ids count up from 0 and 1 and are
unbounded here. -/
namespace ExecutionPlatform.Bindings
open ExecutionPlatform.Core External Exec Foundations

/-- The casts from double to float, and from float to a 64-bit unsigned. -/
structure Casts (F D : Type) where
  narrow : D → F
  truncate : F → Nat

/-- In exact arithmetic both widths agree. -/
def exactCasts : Casts ℚ ℚ := ⟨id, fun x => x.floor.toNat⟩

def kBookCapacity : Nat := 8192
def kPhi {F : Type} [MachineFloat F] : F := ((1 : Nat) : F)
def kKappa {D : Type} [MachineFloat D] : D := ((1000 : Nat) : D)
def kLiquidityLifetimeSteps : Nat := 3

structure Xorshift64 where
  state : BitVec 64
  deriving DecidableEq

namespace Xorshift64

def new (seed : BitVec 64) : Xorshift64 := ⟨if seed ≠ 0 then seed else 1⟩

def next (rng : Xorshift64) : BitVec 64 × Xorshift64 :=
  let s := rng.state ^^^ (rng.state <<< 13)
  let s := s ^^^ (s >>> 7)
  let s := s ^^^ (s <<< 17)
  (s, ⟨s⟩)

def reseed (_ : Xorshift64) (seed : BitVec 64) : Xorshift64 := ⟨if seed ≠ 0 then seed else 1⟩

end Xorshift64

/-- The environment's own fields: everything but the engine it drives. -/
structure EnvState (F : Type) where
  parentQty : Nat
  horizonSteps : Nat
  arrivalMid : Price
  rng : Xorshift64
  remaining : Nat
  qtyFilled : Nat
  cashFromFills : Int
  stepIdx : Nat
  done : Bool
  nextId : OrderId
  restingIds : List OrderId
  bgIds : List OrderId
  bgBirth : List Nat
  bgHead : Nat
  stateBuf : List F

/-- Book, ring and clock are shared between the publisher and the fused child path, which
numbers its events by a counter of its own. -/
structure SimEnv (B Ring Clock F : Type) extends EnvState F where
  publisher : TelemetryPublisher B Ring Clock
  fusedSeq : Nat

namespace EnvState
variable {F D : Type} [MachineFloat F] [MachineFloat D]

def terminal (env : EnvState F) : Prop := env.horizonSteps ≤ env.stepIdx + 1

instance (env : EnvState F) : Decidable env.terminal := by
  unfold terminal
  infer_instance

def childQty (cast : Casts F D) (env : EnvState F) (sizeFrac : F) : Quantity :=
  if env.terminal then env.remaining else cast.truncate (sizeFrac * (env.remaining : F))

def maybeCloseOut (env : EnvState F) : EnvState F :=
  if env.remaining = 0 ∨ env.horizonSteps ≤ env.stepIdx then { env with done := true } else env

def invFrac (env : EnvState F) : F := (env.remaining : F) / (env.parentQty : F)

/-- The realised part of the reward, against the arrival mid. -/
def fillReward (cast : Casts F D) (env : EnvState F) (filled : Quantity) (childCash : Int) : F :=
  let s0 : Int := if 0 < env.arrivalMid then env.arrivalMid else 1
  if 0 < filled then
    cast.narrow (((childCash : D) - (filled : D) * (s0 : D)) / (s0 : D) * ((10000 : Nat) : D) /
      (env.parentQty : D))
  else ((0 : Nat) : F)

/-- The quadratic terminal penalty, in basis points. -/
def quadPenalty (env : EnvState F) : D :=
  -kKappa * ((env.remaining : D) / (env.parentQty : D)) * ((env.remaining : D) / (env.parentQty : D))

/-- The accounting once the child order's fills are known; the flag says that the terminal
penalty was charged. -/
def settle (cast : Casts F D) (env : EnvState F) (filled : Quantity) (childCash : Int) :
    EnvState F × F × Bool :=
  let reward : F := env.fillReward cast filled childCash
  let env := { env with qtyFilled := env.qtyFilled + filled
                        cashFromFills := env.cashFromFills + childCash
                        remaining := if env.remaining ≤ filled then 0 else env.remaining - filled }
  let reward := reward - kPhi * env.invFrac * env.invFrac
  let env := { env with stepIdx := env.stepIdx + 1 }.maybeCloseOut
  if env.done ∧ 0 < env.remaining then (env, reward + cast.narrow env.quadPenalty, true)
  else (env, reward, false)

end EnvState

/-- The side, price and quantity of one synthetic order, from three draws. -/
def drawOrder (arrivalMid : Price) (rng : Xorshift64) : (Side × Price × Quantity) × Xorshift64 :=
  let (r, rng) := rng.next
  let side : Side := if r &&& 1 ≠ 0 then .buy else .sell
  let (r, rng) := rng.next
  let depth : Price := ((r % 5).toNat : Nat)
  let px := match side with
    | .buy => arrivalMid - 1 - depth
    | .sell => arrivalMid + 1 + depth
  let (r, rng) := rng.next
  ((side, px, 10 + (r % 40).toNat), rng)

def cancelAll {B Ring Clock : Type} [MatchingBook B] [EventRing Ring] [ClockFn Clock] :
    List OrderId → TelemetryPublisher B Ring Clock → Option (TelemetryPublisher B Ring Clock)
  | [], p => some p
  | id :: ids, p => do
    let (p, _) ← p.cancel id
    cancelAll ids p

/-- The child order's path into the book: the same events as the publisher's AddLimit,
under the fused counter. -/
def submitChild {B Ring Clock : Type} [MatchingBook B] [EventRing Ring] [ClockFn Clock]
    (publisher : TelemetryPublisher B Ring Clock) (fusedSeq : Nat) (childId : OrderId)
    (childPx : Price) (childQty : Quantity) :
    Option (TelemetryPublisher B Ring Clock × Nat × List Fill × Bool) := do
  let (book, fills, ok) ← MatchingBook.addLimit publisher.book childId .sell childPx childQty
  let out := { publisher.out with seq := fusedSeq }.report childId .sell childPx childQty fills ok
  pure (⟨book, { out with seq := publisher.out.seq }⟩, out.seq, fills, ok)

/-- One AddLimit call and what it returned. -/
structure Submission where
  id : OrderId
  side : Side
  price : Price
  qty : Quantity
  accepted : Bool
  deriving DecidableEq

namespace Submission

/-- What the call asks for, whoever makes it. -/
def draw (s : Submission) : Side × Price × Quantity := (s.side, s.price, s.qty)

def order (s : Submission) : Resting := ⟨s.id, s.side, s.price, s.qty⟩

end Submission

/-- What one StepImpl shows: the reward it returns, the synthetic orders it submitted, the
fills of its AddLimit calls in order, the child order it sent, and whether it charged the
terminal penalty. -/
structure StepReport (F : Type) where
  reward : F
  flow : List Submission
  fills : List Fill
  child : Option Submission
  charged : Bool

namespace SimEnv
variable {B Ring Clock F D : Type} [MatchingBook B] [EventRing Ring] [ClockFn Clock]
  [MachineFloat F] [MachineFloat D]

/-- The churn loop over the birth-ordered queue of synthetic orders. -/
def expireLiquidity : Nat → SimEnv B Ring Clock F → Option (SimEnv B Ring Clock F)
  | 0, _ => none
  | fuel + 1, env =>
    if env.bgHead < env.bgIds.length then do
      let birth ← env.bgBirth[env.bgHead]?
      if birth + kLiquidityLifetimeSteps ≤ env.stepIdx then do
        let id ← env.bgIds[env.bgHead]?
        let (publisher, _) ← env.publisher.cancel id
        expireLiquidity fuel { env with publisher := publisher, bgHead := env.bgHead + 1 }
      else pure env
    else pure env

/-- The slab-eviction guard. -/
def evict (env : SimEnv B Ring Clock F) : Option (SimEnv B Ring Clock F) :=
  if kBookCapacity - 8 ≤ MatchingBook.openOrderCount env.publisher.book then
    match env.restingIds.getLast? with
    | none => pure env
    | some victim => do
      let (publisher, _) ← env.publisher.cancel victim
      pure { env with publisher := publisher, restingIds := env.restingIds.dropLast }
  else pure env

/-- One pass of the background-flow loop, with its order and the fills of it. -/
def backgroundOrder (env : SimEnv B Ring Clock F) :
    Option (SimEnv B Ring Clock F × Submission × List Fill) := do
  let ((side, px, qty), rng) := drawOrder env.arrivalMid env.rng
  let id := env.nextId
  let env ← { env with rng := rng, nextId := env.nextId + 1 }.evict
  let (publisher, fills, ok) ← env.publisher.addLimit id side px qty
  if ok then
    pure ({ env with publisher := publisher
                     restingIds := env.restingIds ++ [id]
                     bgIds := env.bgIds ++ [id]
                     bgBirth := env.bgBirth ++ [env.stepIdx] }, ⟨id, side, px, qty, ok⟩, fills)
  else pure ({ env with publisher := publisher }, ⟨id, side, px, qty, ok⟩, fills)

def backgroundFlow : Nat → SimEnv B Ring Clock F →
    Option (SimEnv B Ring Clock F × List Submission × List Fill)
  | 0, env => some (env, [], [])
  | k + 1, env => do
    let (env, order, fills) ← env.backgroundOrder
    let (env, orders, rest) ← backgroundFlow k env
    pure (env, order :: orders, fills ++ rest)

def childPx (env : SimEnv B Ring Clock F) (aggression : F) : Price :=
  let bestBidNow := if MatchingBook.hasBid env.publisher.book then
    MatchingBook.bestBid env.publisher.book else env.arrivalMid - 1
  let bestAskNow := if MatchingBook.hasAsk env.publisher.book then
    MatchingBook.bestAsk env.publisher.book else env.arrivalMid + 1
  if env.terminal ∨ MachineFloat.half ≤ aggression then bestBidNow else bestAskNow

/-- The branch of StepImpl that sends nothing. -/
def idleStep (env : SimEnv B Ring Clock F) (flow : List Submission) (fills : List Fill) :
    SimEnv B Ring Clock F × StepReport F :=
  ({ env with toEnvState := { env.toEnvState with stepIdx := env.stepIdx + 1 }.maybeCloseOut },
    ⟨-kPhi * env.invFrac * env.invFrac, flow, fills, none, false⟩)

/-- The branch of StepImpl that sends a child order of childQty > 0. -/
def childStep (cast : Casts F D) (env : SimEnv B Ring Clock F) (aggression : F)
    (childQty : Quantity) (flow : List Submission) (bgFills : List Fill) :
    Option (SimEnv B Ring Clock F × StepReport F) := do
  let childPx := env.childPx aggression
  let childId := env.nextId
  let env := { env with nextId := env.nextId + 1 }
  let (publisher, fusedSeq, fills, ok) ←
    submitChild env.publisher env.fusedSeq childId childPx childQty
  let filled := (fills.map Fill.qty).sum
  let childCash := (fills.map fun f => f.price * (f.qty : Int)).sum
  let env := { env with publisher := publisher
                        fusedSeq := fusedSeq
                        restingIds := if ok ∧ filled < childQty then env.restingIds ++ [childId]
                          else env.restingIds }
  let (state, reward, charged) := env.settle cast filled childCash
  pure ({ env with toEnvState := state }, ⟨reward, flow, bgFills ++ fills,
    some ⟨childId, .sell, childPx, childQty, ok⟩, charged⟩)

def stepImpl (cast : Casts F D) (env : SimEnv B Ring Clock F) (sizeFrac aggression : F) :
    Option (SimEnv B Ring Clock F × StepReport F) :=
  if env.done then some (env, ⟨((0 : Nat) : F), [], [], none, false⟩)
  else do
    let env ← expireLiquidity (env.bgIds.length + 1) env
    let (env, flow, bgFills) ← backgroundFlow 12 env
    let childQty := env.childQty cast sizeFrac
    if childQty = 0 then pure (env.idleStep flow bgFills)
    else env.childStep cast aggression childQty flow bgFills

def writeState (cast : Casts F D) (env : SimEnv B Ring Clock F) : SimEnv B Ring Clock F :=
  let bb : Price := if MatchingBook.hasBid env.publisher.book then
    MatchingBook.bestBid env.publisher.book else 0
  let ba : Price := if MatchingBook.hasAsk env.publisher.book then
    MatchingBook.bestAsk env.publisher.book else 0
  { env with stateBuf :=
    [(env.remaining : F) / (env.parentQty : F),
      if env.horizonSteps = 0 then ((0 : Nat) : F)
      else ((1 : Nat) : F) - (env.stepIdx : F) / (env.horizonSteps : F),
      (bb : F),
      (ba : F),
      if bb = 0 ∨ ba = 0 then ((0 : Nat) : F) else (ba : F) - (bb : F),
      if bb = 0 ∨ ba = 0 then (env.arrivalMid : F) else MachineFloat.half * ((bb : F) + (ba : F)),
      (env.qtyFilled : F) / (env.parentQty : F),
      if env.qtyFilled = 0 ∨ env.arrivalMid = 0 then ((1 : Nat) : F)
      else cast.narrow ((env.cashFromFills : D) / ((env.qtyFilled : D) * (env.arrivalMid : D)))] }

def resetInternal (env : SimEnv B Ring Clock F) : Option (SimEnv B Ring Clock F) := do
  let publisher ← cancelAll env.restingIds env.publisher
  pure { env with publisher := publisher
                  restingIds := []
                  bgIds := []
                  bgBirth := []
                  bgHead := 0
                  remaining := env.parentQty
                  stepIdx := 0
                  qtyFilled := 0
                  cashFromFills := 0
                  done := false
                  nextId := 1 }

/-- The constructor, over an empty book, a ring and a clock. -/
def new (cast : Casts F D) (book : B) (ring : Ring) (clock : Clock) (parentQty horizonSteps : Nat)
    (seed : BitVec 64) (arrivalMid : Price) : Option (SimEnv B Ring Clock F) := do
  let env : SimEnv B Ring Clock F :=
    { parentQty := if parentQty ≠ 0 then parentQty else 1
      horizonSteps := if horizonSteps ≠ 0 then horizonSteps else 1
      arrivalMid := arrivalMid
      rng := .new seed
      remaining := 0
      qtyFilled := 0
      cashFromFills := 0
      stepIdx := 0
      done := false
      nextId := 1
      restingIds := []
      bgIds := []
      bgBirth := []
      bgHead := 0
      stateBuf := List.replicate 8 ((0 : Nat) : F)
      publisher := ⟨book, ⟨ring, clock, 0⟩⟩
      fusedSeq := 1000000000 }
  let env ← env.resetInternal
  pure (env.writeState cast)

def reset (cast : Casts F D) (env : SimEnv B Ring Clock F) (seed : BitVec 64) :
    Option (SimEnv B Ring Clock F) := do
  let env ← { env with rng := env.rng.reseed seed }.resetInternal
  pure (env.writeState cast)

def clampUnit (x : F) : F :=
  if x < ((0 : Nat) : F) then ((0 : Nat) : F) else if ((1 : Nat) : F) < x then ((1 : Nat) : F) else x

/-- Step: a short action throws before anything happens. -/
def step (cast : Casts F D) (env : SimEnv B Ring Clock F) (action : List F) :
    Option (SimEnv B Ring Clock F × Except String (StepReport F)) :=
  match action with
  | sizeFrac :: aggression :: _ => do
    let (env, report) ← env.stepImpl cast (clampUnit sizeFrac) (clampUnit aggression)
    pure (env.writeState cast, .ok report)
  | _ => pure (env, .error "action must have at least 2 elements")

def avgFillPrice (env : SimEnv B Ring Clock F) : D :=
  if env.qtyFilled = 0 then ((0 : Nat) : D)
  else (env.cashFromFills : D) / (env.qtyFilled : D)

end SimEnv
end ExecutionPlatform.Bindings
