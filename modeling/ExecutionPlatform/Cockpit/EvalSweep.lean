import ExecutionPlatform.Cockpit.RunAccount
import ExecutionPlatform.Bindings.EpisodeIndependence

/-! The episode runner of the evaluation script, which loops until the environment is done. It
reports what the cockpit reports. -/
namespace ExecutionPlatform.Cockpit
open ExecutionPlatform.Core External Exec Foundations Bindings Bindings.Episode

/-- Round to the nearest integer, halves to the even one. -/
def roundHalfEven (x : ℚ) : Int :=
  let f := x.floor
  if x - f < 1 / 2 then f else if 1 / 2 < x - f then f + 1 else if f % 2 = 0 then f else f + 1

/-- Python's round. -/
def round (x : ℚ) (digits : Nat) : ℚ := roundHalfEven (x * 10 ^ digits) / 10 ^ digits

structure Trace where
  remaining : List ℚ
  size : List ℚ
  aggr : List ℚ
  reward : List ℚ
  cumFills : List Nat
  stepAvgPx : List (Option ℚ)

/-- The variables of the while loop. -/
structure SweepTally where
  totalReward : ℚ
  trace : Trace
  prevFills : Nat
  prevCash : ℚ

structure SweepResult where
  totalReward : ℚ
  fills : Nat
  remaining : Nat
  avgFillPx : Option ℚ
  isBps : Option ℚ
  finalMid : ℚ
  mtmIsBps : ℚ
  trace : Trace

/-- The baseline of the script. -/
def twapAct (T : Nat) : Nat → List ℚ → List ℚ := fun t _ => [1 / ((T : ℚ) - t), 1]

section Runner
variable {B Ring Clock : Type} [MatchingBook B] [EventRing Ring] [ClockFn Clock]

omit [MatchingBook B] [EventRing Ring] [ClockFn Clock] in
def SweepTally.note (tally : SweepTally) (Q : Nat) (action : List ℚ) (sim : SimEnv B Ring Clock ℚ)
    (reward : ℚ) : SweepTally :=
  let fills := sim.qtyFilled
  let cash : ℚ := (sim.avgFillPrice : ℚ) * fills
  let dFills : Int := fills - tally.prevFills
  let dCash := cash - tally.prevCash
  { totalReward := tally.totalReward + reward
    trace :=
      { remaining := tally.trace.remaining ++ [(sim.remaining : ℚ) / Q]
        size := tally.trace.size ++ [action.getD 0 0]
        aggr := tally.trace.aggr ++ [action.getD 1 0]
        reward := tally.trace.reward ++ [reward]
        cumFills := tally.trace.cumFills ++ [fills]
        stepAvgPx := tally.trace.stepAvgPx ++ [if 0 < dFills then some (dCash / dFills) else none] }
    prevFills := fills
    prevCash := cash }

/-- Step until done. It is none when the fuel does not reach that far. -/
def sweepLoop (actFn : Nat → List ℚ → List ℚ) (Q : Nat) : Nat → Nat → ExecutionEnv B Ring Clock →
    List ℚ → SweepTally → Option (Except String (ExecutionEnv B Ring Clock × List ℚ × SweepTally))
  | 0, _, _, _, _ => none
  | fuel + 1, t, env, obs, tally => do
    let action := actFn t obs
    let (env, out) ← env.step action
    match out with
    | .error msg => pure (.error msg)
    | .ok g =>
      let tally := tally.note Q action env.sim g.reward
      if g.terminated then pure (.ok (env, g.obs, tally))
      else sweepLoop actFn Q fuel (t + 1) env g.obs tally

omit [MatchingBook B] [EventRing Ring] [ClockFn Clock] in
/-- What the script reports of the environment, the last observation and the trace. -/
def SweepTally.result (tally : SweepTally) (S0 : Price) (Q : Nat) (sim : SimEnv B Ring Clock ℚ)
    (obs : List ℚ) : SweepResult :=
  let fills := sim.qtyFilled
  let avgPx : ℚ := sim.avgFillPrice
  let remaining := sim.remaining
  let finalMid := obs.getD 5 0
  let mtmValue := fills * avgPx + remaining * finalMid
  let mtmShortfall := (Q : ℚ) * S0 - mtmValue
  { totalReward := round tally.totalReward 2
    fills := fills
    remaining := remaining
    avgFillPx := if fills ≠ 0 then some (round avgPx 4) else none
    isBps := if fills ≠ 0 then some (round ((S0 - avgPx) / S0 * 10 ^ 4) 1) else none
    finalMid := round finalMid 4
    mtmIsBps := round (mtmShortfall / (Q * S0) * 10 ^ 4) 1
    trace := tally.trace }

/-- One episode on an environment that may have played others before. -/
def sweepEpisode (S0 : Price) (Q fuel : Nat) (env : ExecutionEnv B Ring Clock) (seed : Int)
    (actFn : Nat → List ℚ → List ℚ) : Option (Except String SweepResult) := do
  let (env, obs) ← env.reset (some seed)
  let out ← sweepLoop actFn Q fuel 0 env obs ⟨0, ⟨[], [], [], [], [], []⟩, 0, 0⟩
  pure (out.map fun (env, obs, tally) => tally.result S0 Q env.sim obs)

end Runner

/-- Both tallies saw the same steps. -/
structure Alike (parentQty : Nat) (tally : Tally) (sweep : SweepTally) : Prop where
  totalReward : sweep.totalReward = tally.totalReward
  fills : sweep.prevFills = tally.prevCumQty
  cash : sweep.prevCash = tally.prevCumCash
  remaining : sweep.trace.remaining =
    tally.records.map fun r => ((parentQty : ℚ) - r.cumFillQty) / parentQty
  reward : sweep.trace.reward = tally.records.map StepRecord.reward
  cumFills : sweep.trace.cumFills = tally.records.map StepRecord.cumFillQty
  stepAvgPx : sweep.trace.stepAvgPx = tally.records.map StepRecord.fillPrice

variable {parentQty horizonSteps : Nat} {arrivalMid : Price} {w : BitVec 64}
  {E : SimEnv RefBook Unit Unit ℚ}

theorem Alike.note {B Ring Clock : Type} {tally : Tally} {sweep : SweepTally}
    {sim : SimEnv B Ring Clock ℚ} (h : Alike sim.parentQty tally sweep) (hA : Accounted sim.toEnvState)
    (action : List ℚ) (g : GymStep) (stepIdx : Nat) :
    Alike sim.parentQty (tally.note stepIdx sim g) (sweep.note sim.parentQty action sim g.reward) := by
  have hrem : (sim.parentQty : ℚ) - sim.qtyFilled = sim.remaining := by
    rw [← hA.balance]
    push_cast
    ring
  have hcash : (sim.avgFillPrice : ℚ) * sim.qtyFilled = sim.qtyFilled * sim.avgFillPrice := mul_comm _ _
  refine ⟨?_, rfl, hcash, ?_, ?_, ?_, ?_⟩
  · simp only [SweepTally.note, Tally.note, h.totalReward]
  · simp only [SweepTally.note, Tally.note, List.map_append, List.map_singleton, h.remaining, hrem]
  · simp only [SweepTally.note, Tally.note, List.map_append, List.map_singleton, h.reward]
  · simp only [SweepTally.note, Tally.note, List.map_append, List.map_singleton, h.cumFills]
  · simp only [SweepTally.note, Tally.note, List.map_append, List.map_singleton, h.stepAvgPx, h.fills,
      h.cash, hcash]

/-- The last record is of the last observation. -/
theorem note_last {B Ring Clock : Type} (tally : Tally) (stepIdx : Nat) (sim : SimEnv B Ring Clock ℚ)
    (g : GymStep) : ∃ r, (tally.note stepIdx sim g).records.getLast? = some r ∧
      r.mid = g.obs.getD 5 0 ∧ r.cumAvgPrice = sim.avgFillPrice :=
  ⟨_, List.getLast?_concat, rfl, rfl⟩

/-- The default seed of a wrapper plays no part in a step. -/
theorem step_anySeed (w' : BitVec 64) {E' : SimEnv RefBook Unit Unit ℚ} {action : List ℚ}
    {out : Except String GymStep}
    (h : (⟨w, E⟩ : ExecutionEnv RefBook Unit Unit).step action = some (⟨w, E'⟩, out)) :
    (⟨w', E⟩ : ExecutionEnv RefBook Unit Unit).step action = some (⟨w', E'⟩, out) := by
  obtain ⟨⟨sim, report⟩, hsim, h⟩ := Option.bind_eq_some_iff.mp h
  rw [ExecutionEnv.step, hsim]
  cases report <;> cases h <;> rfl

/-- The two loops take the same steps to the same end, and fuel for the steps left is enough. -/
theorem loops_agree {actionFn : ActionFn} {actFn : Nat → List ℚ → List ℚ}
    (hact : ∀ obs t T, 2 ≤ (actionFn obs t T).length) (hmid : 0 < arrivalMid)
    (hagree : ∀ t obs, t < horizonSteps → actFn t obs = actionFn obs t horizonSteps) (w w' : BitVec 64)
    {left fuel stepIdx : Nat} (obs : List ℚ) {tally : Tally} {sweep : SweepTally}
    (h : Charted parentQty horizonSteps arrivalMid E) (hd : E.done = false)
    (hidx : E.stepIdx = stepIdx) (hhorizon : E.horizonSteps = horizonSteps)
    (hleft : stepIdx + left = horizonSteps) (hfuel : left ≤ fuel) (ht : Alike E.parentQty tally sweep) :
    ∃ E' obs' tally' sweep' r,
      episodeLoop actionFn horizonSteps left stepIdx ⟨w, E⟩ obs tally = some (.ok tally') ∧
      sweepLoop actFn E.parentQty fuel stepIdx ⟨w', E⟩ obs sweep =
        some (.ok (⟨w', E'⟩, obs', sweep')) ∧
      Alike E.parentQty tally' sweep' ∧ Charted parentQty horizonSteps arrivalMid E' ∧
      E'.parentQty = E.parentQty ∧ tally'.prevCumQty = E'.qtyFilled ∧
      tally'.records.getLast? = some r ∧ r.mid = obs'.getD 5 0 ∧ r.cumAvgPrice = E'.avgFillPrice := by
  induction left generalizing E obs tally sweep stepIdx fuel with
  | zero => exact absurd (h.lt_horizon hd) (by omega)
  | succ left ih =>
    subst hidx
    obtain ⟨fuel, rfl⟩ : ∃ n, fuel = n + 1 := ⟨fuel - 1, by omega⟩
    have hlt : E.stepIdx < horizonSteps := by omega
    obtain ⟨E1, g, hstep, h1, hmoves⟩ := h.step (w := w) hmid hd (hact obs E.stepIdx horizonSteps)
    have hstep' := step_anySeed w' hstep
    have ht1 : Alike E.parentQty (tally.note E.stepIdx E1 g)
        (sweep.note E.parentQty (actionFn obs E.stepIdx horizonSteps) E1 g.reward) := by
      have ht' : Alike E1.parentQty tally sweep := hmoves.parentQty.symm ▸ ht
      have hnote := ht'.note h1.accounted (actionFn obs E.stepIdx horizonSteps) g E.stepIdx
      rwa [hmoves.parentQty] at hnote
    rw [episodeLoop, hstep, sweepLoop, hagree E.stepIdx obs hlt, hstep']
    simp only [Option.bind_eq_bind, Option.bind_some, hmoves.terminated, hmoves.truncated,
      Bool.false_eq_true, or_false]
    cases hd1 : E1.done with
    | true =>
      obtain ⟨r, hlast⟩ := note_last tally E.stepIdx E1 g
      exact ⟨E1, g.obs, _, _, r, rfl, rfl, ht1, h1, hmoves.parentQty, rfl, hlast⟩
    | false =>
      have hhorizon1 : E1.horizonSteps = horizonSteps :=
        (h1.tracked.2.horizonSteps.trans h.tracked.2.horizonSteps.symm).trans hhorizon
      have hparent1 := hmoves.parentQty
      obtain ⟨E', obs', tally', sweep', r, hrun, hsweep, hlike, h', hparent, hrest⟩ := ih g.obs h1 hd1
        hmoves.stepIdx hhorizon1 (by omega) (Nat.le_of_succ_le_succ hfuel) (hparent1.symm ▸ ht1)
      rw [hparent1] at hsweep hlike hparent
      exact ⟨E', obs', tally', sweep', r, hrun, hsweep, hlike, h', hparent, hrest⟩

section Mirrors
variable {Ring Clock : Type} [EventRing Ring] [ClockFn Clock] {e : SimEnv OrderBook Ring Clock ℚ}

theorem sweepLoop_mirrors (actFn : Nat → List ℚ → List ℚ) (S0 : Price) (Q fuel : Nat)
    (hm : e.Mirrors E) (hT : E.Tracked 0) (w : BitVec 64) (t : Nat) (obs : List ℚ) (tally : SweepTally) :
    (sweepLoop actFn Q fuel t ⟨w, e⟩ obs tally).map
        (Except.map fun end_ => end_.2.2.result S0 Q end_.1.sim end_.2.1) =
      (sweepLoop actFn Q fuel t ⟨w, E⟩ obs tally).map
        (Except.map fun end_ => end_.2.2.result S0 Q end_.1.sim end_.2.1) := by
  induction fuel generalizing e E t obs tally with
  | zero => rfl
  | succ fuel ih =>
    obtain ⟨e', E', out, he, hE, hm', hT'⟩ := step_mirrors hm hT w (actFn t obs)
    rw [sweepLoop, sweepLoop]
    simp only [he, hE, Option.bind_eq_bind, Option.bind_some]
    cases out with
    | error msg => rfl
    | ok g =>
      have hnote : tally.note Q (actFn t obs) e' g.reward = tally.note Q (actFn t obs) E' g.reward := by
        simp only [SweepTally.note, SimEnv.avgFillPrice, hm'.state]
      simp only [hnote]
      split_ifs
      · simp only [Option.pure_def, Option.map_some, Except.map, SweepTally.result, SimEnv.avgFillPrice,
          hm'.state]
      · exact ih hm' hT' _ _ _

end Mirrors

/-- The two reports of an episode, where one is given what the other rounds. The script's shortfall
is that of the sold part alone. -/
structure Matches (r : EpisodeResult) (s : SweepResult) : Prop where
  totalReward : s.totalReward = round r.totalReward 2
  fills : s.fills = r.totalFilled
  remaining : s.fills + s.remaining = r.parentQty
  avgFillPx : s.avgFillPx = if r.totalFilled = 0 then none else some (round r.avgFillPrice 4)
  finalMid : some s.finalMid = r.records.getLast?.map fun x => round x.mid 4
  mtmIsBps : s.mtmIsBps = round r.mtmIsBps 1
  isBps : s.isBps = if r.totalFilled = 0 then none
    else some (round (r.isBps * r.parentQty / r.totalFilled) 1)
  traceRemaining : s.trace.remaining =
    r.records.map fun x => ((r.parentQty : ℚ) - x.cumFillQty) / r.parentQty
  traceReward : s.trace.reward = r.records.map StepRecord.reward
  cumFills : s.trace.cumFills = r.records.map StepRecord.cumFillQty
  stepAvgPx : s.trace.stepAvgPx = r.records.map StepRecord.fillPrice

/-- Alike tallies at the end of an episode give matching reports. -/
theorem Alike.matches {tally : Tally} {sweep : SweepTally} {obs : List ℚ} {r : StepRecord}
    (h : Alike E.parentQty tally sweep) (hA : Accounted E.toEnvState) (hmid : 0 < E.arrivalMid)
    (hfilled : tally.prevCumQty = E.qtyFilled) (hlast : tally.records.getLast? = some r)
    (hobs : r.mid = obs.getD 5 0) (havg : r.cumAvgPrice = E.avgFillPrice) (policy : String) :
    Matches (tally.result policy E.arrivalMid E.parentQty)
      (sweep.result E.arrivalMid E.parentQty E obs) := by
  have hq : (E.parentQty : ℚ) ≠ 0 := Nat.cast_ne_zero.mpr hA.parent_pos.ne'
  have hm : (E.arrivalMid : ℚ) ≠ 0 := Int.cast_ne_zero.mpr hmid.ne'
  have hrem : (E.remaining : ℚ) = E.parentQty - E.qtyFilled := by
    rw [← hA.balance]
    push_cast
    ring
  have hresult : (tally.result policy E.arrivalMid E.parentQty).avgFillPrice = E.avgFillPrice := by
    simp only [Tally.result, hlast, Option.elim_some, havg]
  have hshortfall : ∀ p, (tally.result policy E.arrivalMid E.parentQty).shortfall p =
      (E.parentQty * E.arrivalMid - (E.qtyFilled * E.avgFillPrice + E.remaining * p)) /
        (E.parentQty * E.arrivalMid) * 10 ^ 4 := by
    intro p
    rw [EpisodeResult.shortfall, hresult]
    simp only [Tally.result, hfilled, hrem]
    rw [if_neg (not_or.mpr ⟨hA.parent_pos.ne', hm⟩)]
  refine ⟨?_, hfilled.symm, hA.balance, ?_, ?_, ?_, ?_, h.remaining, h.reward, h.cumFills,
    h.stepAvgPx⟩
  · simp only [SweepTally.result, Tally.result, h.totalReward]
  · rw [hresult]
    simp only [SweepTally.result, Tally.result, hfilled, ite_not]
  · simp only [SweepTally.result, Tally.result, hlast, Option.map_some, hobs]
  · rw [EpisodeResult.mtmIsBps, hshortfall]
    simp only [SweepTally.result, Tally.result, hlast, Option.elim_some, hobs]
  · rw [EpisodeResult.isBps, hshortfall]
    simp only [SweepTally.result, Tally.result, hfilled, hrem]
    by_cases hz : E.qtyFilled = 0
    · rw [if_neg (not_not.mpr hz), if_pos hz]
    · have hfills : (E.qtyFilled : ℚ) ≠ 0 := Nat.cast_ne_zero.mpr hz
      rw [if_pos hz, if_neg hz]
      congr 2
      field_simp
      ring

/-- The two baselines ask for the same part of what is left as long as there is time left. -/
theorem twap_agree (T t : Nat) (obs : List ℚ) (ht : t < T) : twapAct T t obs = twapAction obs t T := by
  have hpos : max (T - t) 1 = T - t := Nat.max_eq_left (Nat.sub_pos_of_lt ht)
  rw [twapAct, twapAction, hpos, Nat.cast_sub ht.le]

end ExecutionPlatform.Cockpit
