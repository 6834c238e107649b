import ExecutionPlatform.Bindings.RewardIdentity

/-! The cockpit's episode runner over the Gymnasium wrapper. Floats are exact here, and a fill
price that would be NaN is none. -/
namespace ExecutionPlatform.Cockpit
open ExecutionPlatform.Core External Exec Foundations Bindings Bindings.Episode

/-- What a Gymnasium step returns, but for the empty info. -/
structure GymStep where
  obs : List ℚ
  reward : ℚ
  terminated : Bool
  truncated : Bool

structure ExecutionEnv (B Ring Clock : Type) where
  defaultSeed : BitVec 64
  sim : SimEnv B Ring Clock ℚ

namespace ExecutionEnv
variable {B Ring Clock : Type} [MatchingBook B] [EventRing Ring] [ClockFn Clock]

/-- Python integers are masked to 64 bits. -/
def new (book : B) (ring : Ring) (clock : Clock) (parentQty horizonSteps : Nat) (arrivalMid : Price)
    (seed : Int) : Option (ExecutionEnv B Ring Clock) := do
  let sim ← SimEnv.new exactCasts book ring clock parentQty horizonSteps (.ofInt 64 seed) arrivalMid
  pure ⟨.ofInt 64 seed, sim⟩

def reset (env : ExecutionEnv B Ring Clock) (seed : Option Int) :
    Option (ExecutionEnv B Ring Clock × List ℚ) := do
  let sim ← env.sim.reset exactCasts (seed.elim env.defaultSeed (.ofInt 64))
  pure (⟨env.defaultSeed, sim⟩, sim.stateBuf)

/-- Nothing is ever truncated: an episode ends when the simulation is done. -/
def step (env : ExecutionEnv B Ring Clock) (action : List ℚ) :
    Option (ExecutionEnv B Ring Clock × Except String GymStep) := do
  let (sim, out) ← env.sim.step exactCasts action
  match out with
  | .error msg => pure (⟨env.defaultSeed, sim⟩, .error msg)
  | .ok report =>
    pure (⟨env.defaultSeed, sim⟩, .ok ⟨sim.stateBuf, report.reward, sim.done, false⟩)

end ExecutionEnv

structure StepRecord where
  step : Nat
  fillQty : Int
  fillPrice : Option ℚ
  cumFillQty : Nat
  cumAvgPrice : ℚ
  bestBid : ℚ
  bestAsk : ℚ
  mid : ℚ
  reward : ℚ

structure EpisodeResult where
  policy : String
  records : List StepRecord
  totalReward : ℚ
  totalFilled : Nat
  avgFillPrice : ℚ
  arrivalMid : ℚ
  parentQty : Nat

namespace EpisodeResult

/-- Shortfall in basis points, with what was not sold valued at the given price. -/
def shortfall (r : EpisodeResult) (residualPrice : ℚ) : ℚ :=
  if r.parentQty = 0 ∨ r.arrivalMid = 0 then 0
  else
    let proceeds := r.totalFilled * r.avgFillPrice + (r.parentQty - r.totalFilled) * residualPrice
    let benchmark := r.parentQty * r.arrivalMid
    (benchmark - proceeds) / benchmark * 10 ^ 4

/-- The residual is marked at the arrival mid. -/
def isBps (r : EpisodeResult) : ℚ := r.shortfall r.arrivalMid

/-- The residual is marked at the last mid seen. -/
def mtmIsBps (r : EpisodeResult) : ℚ :=
  r.shortfall (r.records.getLast?.elim r.arrivalMid StepRecord.mid)

end EpisodeResult

/-- From the observation, the step and the horizon to size and aggression. -/
abbrev ActionFn := List ℚ → Nat → Nat → List ℚ

/-- The baseline: an equal part for every step left, sent at the touch. -/
def twapAction : ActionFn := fun _ stepIdx horizon =>
  let stepsLeft := max (horizon - stepIdx) 1
  [1 / stepsLeft, 1]

/-- The variables of the loop in run_episode. -/
structure Tally where
  records : List StepRecord
  totalReward : ℚ
  prevCumQty : Nat
  prevCumCash : ℚ

/-- What run_episode returns after the loop. -/
def Tally.result (tally : Tally) (policy : String) (arrivalMid : Price) (parentQty : Nat) :
    EpisodeResult where
  policy := policy
  records := tally.records
  totalReward := tally.totalReward
  totalFilled := tally.prevCumQty
  avgFillPrice := tally.records.getLast?.elim 0 StepRecord.cumAvgPrice
  arrivalMid := arrivalMid
  parentQty := parentQty

section Runner
variable {B Ring Clock : Type} [MatchingBook B] [EventRing Ring] [ClockFn Clock]

omit [MatchingBook B] [EventRing Ring] [ClockFn Clock] in
/-- One pass after the step: what was filled is the difference of two cumulative readings. -/
def Tally.note (tally : Tally) (stepIdx : Nat) (sim : SimEnv B Ring Clock ℚ) (g : GymStep) : Tally :=
  let cumQty := sim.qtyFilled
  let cumAvg : ℚ := sim.avgFillPrice
  let cumCash := cumQty * cumAvg
  let stepQty : Int := cumQty - tally.prevCumQty
  let stepCash := cumCash - tally.prevCumCash
  { records := tally.records ++
      [{ step := stepIdx
         fillQty := stepQty
         fillPrice := if 0 < stepQty then some (stepCash / stepQty) else none
         cumFillQty := cumQty
         cumAvgPrice := cumAvg
         bestBid := g.obs.getD 2 0
         bestAsk := g.obs.getD 3 0
         mid := g.obs.getD 5 0
         reward := g.reward }]
    totalReward := tally.totalReward + g.reward
    prevCumQty := cumQty
    prevCumCash := cumCash }

/-- The passes that are left of the loop. An exception of the step ends the run. -/
def episodeLoop (actionFn : ActionFn) (horizonSteps : Nat) : Nat → Nat →
    ExecutionEnv B Ring Clock → List ℚ → Tally → Option (Except String Tally)
  | 0, _, _, _, tally => some (.ok tally)
  | left + 1, stepIdx, env, obs, tally => do
    let (env, out) ← env.step (actionFn obs stepIdx horizonSteps)
    match out with
    | .error msg => pure (.error msg)
    | .ok g =>
      let tally := tally.note stepIdx env.sim g
      if g.terminated ∨ g.truncated then pure (.ok tally)
      else episodeLoop actionFn horizonSteps left (stepIdx + 1) env g.obs tally

def runEpisode (policy : String) (actionFn : ActionFn) (book : B) (ring : Ring) (clock : Clock)
    (parentQty horizonSteps : Nat) (arrivalMid : Price) (seed : Int) :
    Option (Except String EpisodeResult) := do
  let env ← ExecutionEnv.new book ring clock parentQty horizonSteps arrivalMid seed
  let (env, obs) ← env.reset (some seed)
  let out ← episodeLoop actionFn horizonSteps horizonSteps 0 env obs ⟨[], 0, 0, 0⟩
  pure (out.map fun tally => tally.result policy arrivalMid parentQty)

end Runner
end ExecutionPlatform.Cockpit
