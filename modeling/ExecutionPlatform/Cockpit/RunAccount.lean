import ExecutionPlatform.Cockpit.RunEpisode
import ExecutionPlatform.Bindings.MarketEnvelope

/-! The runner's result is an account of the episode. Every pass of the loop reads the account of
the environment, and the records are what it moved by. -/
namespace ExecutionPlatform.Cockpit
open ExecutionPlatform.Core External Exec Foundations Bindings Bindings.Episode

/-- What one live step does to an account, as the wrapper shows it. It sells no more than the child
order asks for, and one to five ticks below the arrival mid. -/
structure Moves (action : List ℚ) (s s' : EnvState ℚ) (g : GymStep) : Prop where
  obs : g.obs = s'.stateBuf
  terminated : g.terminated = s'.done
  truncated : g.truncated = false
  parentQty : s'.parentQty = s.parentQty
  arrivalMid : s'.arrivalMid = s.arrivalMid
  stepIdx : s'.stepIdx = s.stepIdx + 1
  sold : ∃ filled : Nat, s'.qtyFilled = s.qtyFilled + filled ∧
    filled ≤ s.childQty exactCasts (SimEnv.clampUnit (action.getD 0 0)) ∧
    (s.arrivalMid - 5) * filled ≤ s'.cashFromFills - s.cashFromFills ∧
    s'.cashFromFills - s.cashFromFills ≤ (s.arrivalMid - 1) * filled
  reward : g.reward = s'.potential - s.potential - kPhi * ((s'.remaining : ℚ) / s'.parentQty) ^ 2

/-- A reference environment that some calls lead to, with a balanced account. -/
structure Charted (parentQty horizonSteps : Nat) (arrivalMid : Price)
    (E : SimEnv RefBook Unit Unit ℚ) : Prop where
  reached : ∃ EP, (refEpisodes exactCasts parentQty horizonSteps arrivalMid).Reachable EP ∧ EP.env = E
  accounted : Accounted E.toEnvState

variable {parentQty horizonSteps : Nat} {arrivalMid : Price} {w : BitVec 64}
  {E : SimEnv RefBook Unit Unit ℚ}

theorem Charted.tracked (h : Charted parentQty horizonSteps arrivalMid E) :
    E.Tracked 0 ∧ Params parentQty horizonSteps arrivalMid E.toEnvState := by
  obtain ⟨EP, hreach, rfl⟩ := h.reached
  exact reachable_params hreach

/-- Cash is at least the floor for each share. -/
theorem le_sum_cash {fills : List Fill} {floor : Price} (h : ∀ f ∈ fills, floor ≤ f.price) :
    floor * ((fills.map Fill.qty).sum : Nat) ≤ (fills.map fun f => f.price * (f.qty : Int)).sum := by
  induction fills with
  | nil => simp
  | cons f fills ih =>
    have hone : floor * (f.qty : Int) ≤ f.price * (f.qty : Int) :=
      mul_le_mul_of_nonneg_right (h f List.mem_cons_self) (Int.natCast_nonneg _)
    have hrest := ih fun g hg => h g (List.mem_cons_of_mem f hg)
    simp only [List.map_cons, List.sum_cons, Nat.cast_add, mul_add]
    exact add_le_add hone hrest

/-- What a step sells and what it brings in. -/
theorem stepEffect_sold {EP : Episode RefBook Unit Unit ℚ} {E' start mid : SimEnv RefBook Unit Unit ℚ}
    {x y : ℚ} {report : StepReport ℚ} {bgFills : List Fill}
    (hreach : (refEpisodes exactCasts parentQty horizonSteps arrivalMid).Reachable EP)
    (h : SimEnv.StepEffect exactCasts x y EP.env E' report start mid bgFills) :
    ∃ filled : Nat, E'.qtyFilled = EP.env.qtyFilled + filled ∧
      filled ≤ EP.env.childQty exactCasts x ∧
      (EP.env.arrivalMid - 5) * filled ≤ E'.cashFromFills - EP.env.cashFromFills ∧
      E'.cashFromFills - EP.env.cashFromFills ≤ (EP.env.arrivalMid - 1) * filled := by
  have hL := reachable_ledger hreach
  have hacc := flow_account h
  obtain ⟨-, hle⟩ := (reachable_enveloped hreach).step hL h
  obtain ⟨-, hmid, -⟩ := hL.stepped h
  have hsize : mid.childQty exactCasts x = EP.env.childQty exactCasts x := by
    simp only [EnvState.childQty, EnvState.terminal, hacc.horizonSteps, hacc.stepIdx, hacc.remaining]
  rcases h.branch with ⟨-, hidle⟩ | ⟨-, child, fills, hchildQty, hchild⟩
  · obtain ⟨rfl, -⟩ := Prod.mk.inj hidle
    rw [SimEnv.maybeCloseOut_eq]
    simp only [hacc.qtyFilled, hacc.cashFromFills]
    exact ⟨0, rfl, Nat.zero_le _, by simp, by simp⟩
  · have hqty : E'.qtyFilled = EP.env.qtyFilled + (fills.map Fill.qty).sum := by
      rw [hchild.qtyFilled, hacc.qtyFilled]
    have hcash : E'.cashFromFills - EP.env.cashFromFills =
        (fills.map fun f => f.price * (f.qty : Int)).sum := by
      rw [hchild.cashFromFills, hacc.cashFromFills, add_sub_cancel_left]
    rw [hqty, Nat.add_sub_cancel_left] at hle
    have hasked : (fills.map Fill.qty).sum ≤ EP.env.childQty exactCasts x :=
      hsize ▸ hchildQty ▸ hchild.filled_le.trans (Nat.min_le_left ..)
    refine ⟨_, hqty, hasked, ?_, hle⟩
    rw [hcash]
    refine le_sum_cash fun f hf => ?_
    obtain ⟨-, -, -, -, -, -, -, hfloor, -⟩ := hmid.child_exchange hchild hf
    rw [← hacc.arrivalMid]
    exact hfloor

/-- Every step of a live episode has a result. -/
theorem Charted.step (h : Charted parentQty horizonSteps arrivalMid E) (hmid : 0 < arrivalMid)
    (hd : E.done = false) {action : List ℚ} (hlen : 2 ≤ action.length) :
    ∃ E' g, (⟨w, E⟩ : ExecutionEnv RefBook Unit Unit).step action = some (⟨w, E'⟩, .ok g) ∧
      Charted parentQty horizonSteps arrivalMid E' ∧ Moves action E.toEnvState E'.toEnvState g := by
  obtain ⟨hT, hparams⟩ := h.tracked
  obtain ⟨EP, hreach, rfl⟩ := h.reached
  obtain ⟨E', out, hE, -, hcases⟩ := ref_step hT exactCasts action
  have hcall : (refEpisodes exactCasts parentQty horizonSteps arrivalMid).step EP (.step action) =
      some (EP.record E' out) := by
    change EP.call exactCasts (.step action) = _
    rw [Episode.call, hE]
    rfl
  have hreach' := hreach.step trivial hcall
  rcases hcases with ⟨-, -, -, hshort⟩ | ⟨sizeFrac, aggression, tail, rfl, hcases⟩
  · exact absurd hlen (Nat.not_le.mpr hshort)
  rcases hcases with ⟨hd', -⟩ | ⟨-, E1, report, start, mid, bgFills, -, heffect, rfl, rfl⟩
  · rw [hd] at hd'
    cases hd'
  obtain ⟨h0, h1⟩ := clampUnit_within sizeFrac
  obtain ⟨hA', hstep⟩ := step_account exactCasts_unitSizing h0 h1 h.accounted hd heffect
  have hreward := reward_potential heffect hstep hd (hparams.arrivalMid.symm ▸ hmid)
  have hparams' := hparams.step heffect
  have hsold := stepEffect_sold hreach heffect
  refine ⟨E1.writeState exactCasts, ⟨(E1.writeState exactCasts).stateBuf, report.reward, E1.done,
    false⟩, ?_, ⟨⟨_, hreach', rfl⟩, { hA' with }⟩, ?_⟩
  · rw [ExecutionEnv.step, hE]
    rfl
  · exact ⟨rfl, rfl, rfl, hparams'.parentQty.trans hparams.parentQty.symm,
      hparams'.arrivalMid.trans hparams.arrivalMid.symm, hstep.stepIdx, hsold, hreward⟩

/-- The holding penalties that the records show. -/
def holding (parentQty : Nat) (records : List StepRecord) : ℚ :=
  (records.map fun r => (((parentQty : ℚ) - r.cumFillQty) / parentQty) ^ 2).sum

/-- The record of each step is numbered, and its cumulative quantity is the sum of what was filled
so far; a price is given exactly where something was, and it is one to five ticks below the mid. -/
structure Ledgered (arrivalMid : ℚ) (records : List StepRecord) : Prop where
  step : ∀ (i : Nat) (r : StepRecord), records[i]? = some r → r.step = i
  cumulative : ∀ (i : Nat) (r : StepRecord), records[i]? = some r →
    (r.cumFillQty : Int) = ((records.take (i + 1)).map StepRecord.fillQty).sum
  nonneg : ∀ r ∈ records, 0 ≤ r.fillQty
  priced : ∀ r ∈ records, r.fillPrice = none ↔ r.fillQty = 0
  within : ∀ r ∈ records, ∀ p ∈ r.fillPrice, arrivalMid - 5 ≤ p ∧ p ≤ arrivalMid - 1

theorem Ledgered.snoc {mid : ℚ} {records : List StepRecord} (h : Ledgered mid records) {r : StepRecord}
    (hstep : r.step = records.length) (hnonneg : 0 ≤ r.fillQty)
    (hcum : (r.cumFillQty : Int) = (records.map StepRecord.fillQty).sum + r.fillQty)
    (hpriced : r.fillPrice = none ↔ r.fillQty = 0)
    (hwithin : ∀ p ∈ r.fillPrice, mid - 5 ≤ p ∧ p ≤ mid - 1) : Ledgered mid (records ++ [r]) := by
  have hcases : ∀ (i : Nat) (x : StepRecord), (records ++ [r])[i]? = some x →
      i < records.length ∧ records[i]? = some x ∨ i = records.length ∧ x = r := by
    intro i x hx
    rcases Nat.lt_or_ge i records.length with hlt | hge
    · exact .inl ⟨hlt, by rwa [List.getElem?_append_left hlt] at hx⟩
    · rw [List.getElem?_append_right hge, List.getElem?_singleton] at hx
      split_ifs at hx with hi
      exact .inr ⟨by omega, (Option.some.inj hx).symm⟩
  have hmem : ∀ x ∈ records ++ [r], x ∈ records ∨ x = r := fun x hx => by simpa using hx
  refine ⟨fun i x hx => ?_, fun i x hx => ?_, fun x hx => ?_, fun x hx => ?_, fun x hx => ?_⟩
  · rcases hcases i x hx with ⟨-, hx⟩ | ⟨rfl, rfl⟩
    · exact h.step i x hx
    · exact hstep
  · rcases hcases i x hx with ⟨hlt, hx⟩ | ⟨rfl, rfl⟩
    · rw [List.take_append_of_le_length hlt]
      exact h.cumulative i x hx
    · rw [List.take_of_length_le (by simp), List.map_append, List.sum_append, List.map_singleton,
        List.sum_singleton]
      exact hcum
  · rcases hmem x hx with hx | rfl
    · exact h.nonneg x hx
    · exact hnonneg
  · rcases hmem x hx with hx | rfl
    · exact h.priced x hx
    · exact hpriced
  · rcases hmem x hx with hx | rfl
    · exact h.within x hx
    · exact hwithin

/-- The tally is the account of the environment, record by record. -/
structure Tells (tally : Tally) (s : EnvState ℚ) : Prop where
  cumQty : tally.prevCumQty = s.qtyFilled
  cumCash : tally.prevCumCash = s.cashFromFills
  least : (s.arrivalMid - 5) * s.qtyFilled ≤ s.cashFromFills
  most : s.cashFromFills ≤ (s.arrivalMid - 1) * s.qtyFilled
  length : tally.records.length = s.stepIdx
  filled : (tally.records.map StepRecord.fillQty).sum = s.qtyFilled
  proceeds : (tally.records.map fun r => (r.fillQty : ℚ) * r.fillPrice.getD 0).sum = s.cashFromFills
  average : (s.qtyFilled : ℚ) * tally.records.getLast?.elim 0 StepRecord.cumAvgPrice = s.cashFromFills
  reward : tally.totalReward = s.potential - kPhi * holding s.parentQty tally.records
  ledgered : Ledgered s.arrivalMid tally.records

/-- The average price times the quantity is the cash again. -/
theorem avgFillPrice_cash {B Ring Clock : Type} (env : SimEnv B Ring Clock ℚ)
    (h : env.qtyFilled = 0 → env.cashFromFills = 0) :
    (env.qtyFilled : ℚ) * env.avgFillPrice = env.cashFromFills := by
  rw [SimEnv.avgFillPrice]
  split_ifs with hz
  · rw [h hz, hz]
    simp
  · exact mul_div_cancel₀ _ (Nat.cast_ne_zero.mpr hz)

/-- One pass keeps the books. -/
theorem Tells.note {B Ring Clock : Type} {tally : Tally} {s : EnvState ℚ} {action : List ℚ}
    {sim : SimEnv B Ring Clock ℚ} {g : GymStep} (h : Tells tally s)
    (hm : Moves action s sim.toEnvState g) (hA : Accounted sim.toEnvState) : Tells (tally.note s.stepIdx sim g) sim.toEnvState := by
  obtain ⟨filled, hqty, -, hleast, hmost⟩ := hm.sold
  have hlow : (sim.arrivalMid - 5) * sim.qtyFilled ≤ sim.cashFromFills := by
    have hold := h.least
    rw [hm.arrivalMid, hqty, Nat.cast_add, mul_add]
    linarith
  have hhigh : sim.cashFromFills ≤ (sim.arrivalMid - 1) * sim.qtyFilled := by
    have hold := h.most
    rw [hm.arrivalMid, hqty, Nat.cast_add, mul_add]
    linarith
  have hunfilled : sim.qtyFilled = 0 → sim.cashFromFills = 0 := fun hz => by
    rw [hz, Nat.cast_zero, mul_zero] at hlow hhigh
    exact le_antisymm hhigh hlow
  have havg := avgFillPrice_cash sim hunfilled
  have hstepQty : (sim.qtyFilled : Int) - tally.prevCumQty = filled := by
    rw [h.cumQty, hqty]
    push_cast
    ring
  have hstepCash : (sim.cashFromFills : ℚ) - tally.prevCumCash =
      (sim.cashFromFills - s.cashFromFills : Int) := by
    rw [h.cumCash]
    push_cast
    ring
  have hrem : (s.parentQty : ℚ) - sim.qtyFilled = sim.remaining := by
    rw [← hm.parentQty, ← hA.balance]
    push_cast
    ring
  refine ⟨rfl, havg, hlow, hhigh, ?_, ?_, ?_, ?_, ?_, ?_⟩
  · rw [Tally.note, List.length_append, List.length_singleton, h.length, hm.stepIdx]
  · simp only [Tally.note, List.map_append, List.sum_append, List.map_singleton, List.sum_singleton,
      h.filled, hstepQty]
    exact_mod_cast hqty.symm
  · simp only [Tally.note, List.map_append, List.sum_append, List.map_singleton, List.sum_singleton,
      h.proceeds, hstepQty, havg, hstepCash]
    rcases Nat.eq_zero_or_pos filled with rfl | hpos
    · rw [Nat.cast_zero, mul_zero] at hleast hmost
      rw [sub_eq_zero.mp (le_antisymm hmost hleast)]
      simp
    · have hne : (filled : ℚ) ≠ 0 := Nat.cast_ne_zero.mpr hpos.ne'
      rw [if_pos (by exact_mod_cast hpos), Option.getD_some]
      push_cast
      rw [mul_div_cancel₀ _ hne]
      ring
  · simp only [Tally.note, List.getLast?_append, List.getLast?_singleton, Option.some_or,
      Option.elim_some]
    exact havg
  · simp only [Tally.note, holding, List.map_append, List.sum_append, List.map_singleton,
      List.sum_singleton, hm.parentQty, hrem, h.reward, hm.reward]
    ring
  · rw [hm.arrivalMid]
    refine h.ledgered.snoc h.length.symm ?_ ?_ ?_ ?_
    · simp only [hstepQty]
      exact Int.natCast_nonneg _
    · simp only [hstepQty, h.filled]
      exact_mod_cast hqty
    · simp only [hstepQty]
      rcases Nat.eq_zero_or_pos filled with rfl | hpos
      · simp
      · rw [if_pos (by exact_mod_cast hpos)]
        exact iff_of_false (Option.some_ne_none _) (by exact_mod_cast hpos.ne')
    · intro p hp
      simp only [hstepQty, havg, hstepCash] at hp
      rcases Nat.eq_zero_or_pos filled with rfl | hpos
      · simp at hp
      · have hpos' : (0 : ℚ) < filled := Nat.cast_pos.mpr hpos
        rw [if_pos (by exact_mod_cast hpos), Option.mem_def, Option.some_inj] at hp
        subst hp
        rw [Int.cast_natCast, le_div_iff₀ hpos', div_le_iff₀ hpos']
        exact ⟨by exact_mod_cast hleast, by exact_mod_cast hmost⟩

/-- An episode that is not over has time left. -/
theorem Charted.lt_horizon (h : Charted parentQty horizonSteps arrivalMid E) (hd : E.done = false) :
    E.stepIdx < E.horizonSteps := by
  refine lt_of_le_of_ne h.accounted.horizon fun heq => ?_
  rw [h.accounted.done.mpr (.inr heq)] at hd
  cases hd

/-- The rule of the loop: it plays to the end of the episode, and what every pass keeps holds of the
account and the tally there. -/
theorem episodeLoop_keeps {actionFn : ActionFn} (hact : ∀ obs t T, 2 ≤ (actionFn obs t T).length)
    {I : EnvState ℚ → Tally → Prop}
    (hpass : ∀ (E E' : SimEnv RefBook Unit Unit ℚ) g obs tally,
      Charted parentQty horizonSteps arrivalMid E → E.done = false →
      Charted parentQty horizonSteps arrivalMid E' →
      Moves (actionFn obs E.stepIdx horizonSteps) E.toEnvState E'.toEnvState g →
      I E.toEnvState tally → I E'.toEnvState (tally.note E.stepIdx E' g))
    (hmid : 0 < arrivalMid) (w : BitVec 64) {left : Nat} (obs : List ℚ) {tally : Tally} {stepIdx : Nat}
    (h : Charted parentQty horizonSteps arrivalMid E) (hd : E.done = false)
    (hidx : E.stepIdx = stepIdx) (hleft : stepIdx + left = E.horizonSteps) (hI : I E.toEnvState tally) :
    ∃ E' tally', episodeLoop actionFn horizonSteps left stepIdx ⟨w, E⟩ obs tally =
        some (.ok tally') ∧ Charted parentQty horizonSteps arrivalMid E' ∧ E'.done = true ∧
      stepIdx < E'.stepIdx ∧ I E'.toEnvState tally' := by
  induction left generalizing E obs tally stepIdx with
  | zero => exact absurd (h.lt_horizon hd) (by omega)
  | succ left ih =>
    subst hidx
    obtain ⟨E1, g, hstep, h1, hmoves⟩ := h.step (w := w) hmid hd (hact obs E.stepIdx horizonSteps)
    have hhorizon : E1.horizonSteps = E.horizonSteps :=
      h1.tracked.2.horizonSteps.trans h.tracked.2.horizonSteps.symm
    have hI1 := hpass E E1 g obs tally h hd h1 hmoves hI
    rw [episodeLoop, hstep]
    simp only [Option.bind_eq_bind, Option.bind_some, hmoves.terminated, hmoves.truncated,
      Bool.false_eq_true, or_false]
    cases hd1 : E1.done with
    | true =>
      have hlt : E.stepIdx < E1.stepIdx := hmoves.stepIdx ▸ Nat.lt_succ_self _
      exact ⟨E1, _, rfl, h1, hd1, hlt, hI1⟩
    | false =>
      obtain ⟨E', tally', hrun, h', hd', hlt, hI'⟩ := ih g.obs h1 hd1 hmoves.stepIdx
        (by rw [hhorizon]; omega) hI1
      exact ⟨E', tally', hrun, h', hd', Nat.lt_of_succ_lt hlt, hI'⟩

/-- The books of a result: numbered records that add up, an episode played to its end, and the
total reward as shortfall and penalties. -/
structure EpisodeResult.Accounts (r : EpisodeResult) (horizonSteps : Nat) : Prop where
  complete : r.totalFilled = r.parentQty ∨ r.records.length = horizonSteps
  started : 0 < r.records.length
  length : r.records.length ≤ horizonSteps
  ledgered : Ledgered r.arrivalMid r.records
  filled : (r.records.map StepRecord.fillQty).sum = r.totalFilled
  within : r.totalFilled ≤ r.parentQty
  proceeds : r.totalFilled * r.avgFillPrice =
    (r.records.map fun x => (x.fillQty : ℚ) * x.fillPrice.getD 0).sum
  least : 10 ^ 4 * r.totalFilled ≤ r.isBps * (r.arrivalMid * r.parentQty)
  most : r.isBps * (r.arrivalMid * r.parentQty) ≤ 5 * 10 ^ 4 * r.totalFilled
  reward : r.totalReward = -r.isBps - kPhi * holding r.parentQty r.records -
    kKappa * (((r.parentQty : ℚ) - r.totalFilled) / r.parentQty) ^ 2

/-- What the cockpit calls shortfall is the loss of the account against the arrival mid. -/
theorem isBps_gain {r : EpisodeResult} {s : EnvState ℚ} (hparent : r.parentQty = s.parentQty)
    (hpos : 0 < s.parentQty) (hmid : r.arrivalMid = s.arrivalMid) (hmidpos : 0 < s.arrivalMid)
    (hfilled : r.totalFilled = s.qtyFilled)
    (hcash : (r.totalFilled : ℚ) * r.avgFillPrice = s.cashFromFills) : r.isBps = -s.gain := by
  have hq : (s.parentQty : ℚ) ≠ 0 := Nat.cast_ne_zero.mpr hpos.ne'
  have hm : (s.arrivalMid : ℚ) ≠ 0 := Int.cast_ne_zero.mpr hmidpos.ne'
  rw [EpisodeResult.isBps, EpisodeResult.shortfall, hcash, hparent, hmid, hfilled,
    if_neg (not_or.mpr ⟨hpos.ne', hm⟩), EnvState.gain]
  push_cast
  field_simp
  ring

/-- The books of an episode that is over. -/
theorem Tells.accounts {tally : Tally} {s : EnvState ℚ} (h : Tells tally s) (hA : Accounted s)
    (hdone : s.done = true) (hstarted : 0 < s.stepIdx) (hmid : 0 < s.arrivalMid) (policy : String) :
    (tally.result policy s.arrivalMid s.parentQty).Accounts s.horizonSteps := by
  have hfilled : (tally.result policy s.arrivalMid s.parentQty).totalFilled = s.qtyFilled := h.cumQty
  have hcash : ((tally.result policy s.arrivalMid s.parentQty).totalFilled : ℚ) *
      (tally.result policy s.arrivalMid s.parentQty).avgFillPrice = s.cashFromFills := by
    rw [hfilled]
    exact h.average
  have hrem : (s.remaining : ℚ) = s.parentQty - s.qtyFilled := by
    rw [← hA.balance]
    push_cast
    ring
  have hbps := isBps_gain (r := tally.result policy s.arrivalMid s.parentQty) rfl hA.parent_pos rfl hmid
    hfilled hcash
  have hlost : -s.gain * (s.arrivalMid * s.parentQty) =
      10 ^ 4 * ((s.qtyFilled : ℚ) * s.arrivalMid - s.cashFromFills) := by
    have hq : (s.parentQty : ℚ) ≠ 0 := Nat.cast_ne_zero.mpr hA.parent_pos.ne'
    have hm : (s.arrivalMid : ℚ) ≠ 0 := Int.cast_ne_zero.mpr hmid.ne'
    rw [EnvState.gain]
    push_cast
    field_simp
    ring
  have hleast : ((s.arrivalMid : ℚ) - 5) * s.qtyFilled ≤ s.cashFromFills := by exact_mod_cast h.least
  have hmost : (s.cashFromFills : ℚ) ≤ (s.arrivalMid - 1) * s.qtyFilled := by exact_mod_cast h.most
  refine ⟨?_, ?_, ?_, h.ledgered, ?_, ?_, ?_, ?_, ?_, ?_⟩
  · refine (hA.done.mp hdone).imp (fun hz => ?_) fun hend => h.length.trans hend
    rw [hfilled, ← Nat.add_zero s.qtyFilled, ← hz]
    exact hA.balance
  · exact h.length ▸ hstarted
  · exact h.length ▸ hA.horizon
  · rw [hfilled]
    exact h.filled
  · rw [hfilled]
    exact hA.balance ▸ Nat.le_add_right _ _
  · rw [hcash]
    exact h.proceeds.symm
  · rw [hbps, hfilled]
    change _ ≤ -s.gain * (s.arrivalMid * s.parentQty)
    rw [hlost]
    linarith
  · rw [hbps, hfilled]
    change -s.gain * (s.arrivalMid * s.parentQty) ≤ _
    rw [hlost]
    linarith
  · rw [hbps, hfilled]
    change tally.totalReward = _
    rw [h.reward, EnvState.potential, EnvState.closing, if_pos hdone, hrem]
    change _ = - -s.gain - kPhi * holding s.parentQty tally.records -
      kKappa * (((s.parentQty : ℚ) - s.qtyFilled) / s.parentQty) ^ 2
    ring

section Mirrors
variable {Ring Clock : Type} [EventRing Ring] [ClockFn Clock] {e : SimEnv OrderBook Ring Clock ℚ}

/-- The wrapper shows the same over either book. -/
theorem step_mirrors (hm : e.Mirrors E) (hT : E.Tracked 0) (w : BitVec 64) (action : List ℚ) :
    ∃ e' E' out, (⟨w, e⟩ : ExecutionEnv OrderBook Ring Clock).step action = some (⟨w, e'⟩, out) ∧
      (⟨w, E⟩ : ExecutionEnv RefBook Unit Unit).step action = some (⟨w, E'⟩, out) ∧
      e'.Mirrors E' ∧ E'.Tracked 0 := by
  obtain ⟨E', out, hE, hT', -⟩ := ref_step hT exactCasts action
  obtain ⟨e', he, hm'⟩ := hm.step hT hE
  simp only [ExecutionEnv.step, he, hE, Option.bind_eq_bind, Option.bind_some]
  cases out with
  | error msg => exact ⟨e', E', _, rfl, rfl, hm', hT'⟩
  | ok report => exact ⟨e', E', _, by rw [hm'.state]; rfl, rfl, hm', hT'⟩

omit [EventRing Ring] [ClockFn Clock] in
theorem note_mirrors (hm : e.Mirrors E) (tally : Tally) (stepIdx : Nat) (g : GymStep) :
    tally.note stepIdx e g = tally.note stepIdx E g := by
  simp only [Tally.note, SimEnv.avgFillPrice, hm.state]

theorem episodeLoop_mirrors (actionFn : ActionFn) (horizonSteps : Nat) {left : Nat} (hm : e.Mirrors E)
    (hT : E.Tracked 0) (w : BitVec 64) (stepIdx : Nat) (obs : List ℚ) (tally : Tally) :
    ∃ out, episodeLoop actionFn horizonSteps left stepIdx ⟨w, e⟩ obs tally = some out ∧
      episodeLoop actionFn horizonSteps left stepIdx ⟨w, E⟩ obs tally = some out := by
  induction left generalizing e E stepIdx obs tally with
  | zero => exact ⟨_, rfl, rfl⟩
  | succ left ih =>
    obtain ⟨e', E', out, he, hE, hm', hT'⟩ := step_mirrors hm hT w
      (actionFn obs stepIdx horizonSteps)
    rw [episodeLoop, he, episodeLoop, hE]
    simp only [Option.bind_eq_bind, Option.bind_some]
    cases out with
    | error msg => exact ⟨_, rfl, rfl⟩
    | ok g =>
      simp only [note_mirrors hm']
      split_ifs
      · exact ⟨_, rfl, rfl⟩
      · exact ih hm' hT' _ _ _

/-- A reset opens a charted episode, whatever came before it. -/
theorem reset_charted {EP : Episode RefBook Unit Unit ℚ}
    (hreach : (refEpisodes exactCasts parentQty horizonSteps arrivalMid).Reachable EP)
    (seed : BitVec 64) : ∃ E, EP.env.reset exactCasts seed = some E ∧ Opened seed E ∧
      Charted parentQty horizonSteps arrivalMid E := by
  obtain ⟨hT, hparams⟩ := reachable_params hreach
  obtain ⟨E, hE, hopened, hparams'⟩ := ref_reset_opened hT hparams exactCasts seed
  have hcall : (refEpisodes exactCasts parentQty horizonSteps arrivalMid).step EP (.reset seed) =
      some (start E) := by
    change EP.call exactCasts (.reset seed) = _
    rw [Episode.call, hE]
    rfl
  exact ⟨E, hE, hopened, ⟨_, hreach.step trivial hcall, rfl⟩, hopened.account hparams'⟩

/-- With nothing sold there is nothing to tell. -/
theorem tells_opened {seed : BitVec 64} (h : Opened seed E) : Tells ⟨[], 0, 0, 0⟩ E.toEnvState where
  cumQty := h.qtyFilled.symm
  cumCash := by rw [h.cashFromFills]; rfl
  least := by simp [h.cashFromFills, h.qtyFilled]
  most := by simp [h.cashFromFills, h.qtyFilled]
  length := h.stepIdx.symm
  filled := by rw [h.qtyFilled]; rfl
  proceeds := by rw [h.cashFromFills]; rfl
  average := by simp [h.cashFromFills, h.qtyFilled]
  reward := by
    simp [holding, EnvState.potential, EnvState.gain, EnvState.closing, h.cashFromFills, h.qtyFilled,
      h.done]
  ledgered := ⟨by simp, by simp, by simp, by simp, by simp⟩

/-- An environment that was built and reset under a seed plays like a reference episode that was
opened under it. -/
theorem runEpisode_opened {checked : Bool} {book : OrderBook}
    (hbook : OrderBook.new kBookCapacity OrderBook.defaultMinPrice OrderBook.defaultMaxPrice checked =
      some book) (ring : Ring) (clock : Clock) (parentQty horizonSteps : Nat) (arrivalMid : Price)
    (seed : Int) :
    ∃ env e E, ExecutionEnv.new book ring clock parentQty horizonSteps arrivalMid seed = some env ∧
      env.reset (some seed) = some (⟨.ofInt 64 seed, e⟩, E.stateBuf) ∧ e.Mirrors E ∧
      Opened (.ofInt 64 seed) E ∧ Charted parentQty horizonSteps arrivalMid E ∧
      ∃ E0, (refEpisodes exactCasts parentQty horizonSteps arrivalMid).Reachable (start E0) ∧
        E0.reset exactCasts (.ofInt 64 seed) = some E := by
  obtain ⟨e0, E0, he0, hE0, hm0⟩ := SimEnv.Mirrors.new exactCasts ring clock parentQty horizonSteps
    (.ofInt 64 seed) arrivalMid hbook
  have hreach : (refEpisodes exactCasts parentQty horizonSteps arrivalMid).Reachable (start E0) :=
    .init ⟨_, E0, hE0, rfl⟩
  obtain ⟨E, hE, hopened, hcharted⟩ := reset_charted hreach (.ofInt 64 seed)
  obtain ⟨e, he, hm⟩ := hm0.reset hE
  refine ⟨⟨.ofInt 64 seed, e0⟩, e, E, ?_, ?_, hm, hopened, hcharted, E0, hreach, hE⟩
  · rw [ExecutionEnv.new, he0]
    rfl
  · simp only [ExecutionEnv.reset, Option.elim_some, he, Option.bind_eq_bind, Option.bind_some]
    rw [hm.state]
    rfl

/-- The rule of run_episode: what holds when an episode opens and survives every pass holds of the
account and the tally that the result is made of. -/
theorem run_episode_keeps {checked : Bool} {book : OrderBook}
    (hbook : OrderBook.new kBookCapacity OrderBook.defaultMinPrice OrderBook.defaultMaxPrice checked =
      some book) (policy : String) {actionFn : ActionFn}
    (hact : ∀ obs t T, 2 ≤ (actionFn obs t T).length) (ring : Ring) (clock : Clock)
    (parentQty : Nat) {horizonSteps : Nat} {arrivalMid : Price} (hT : 0 < horizonSteps)
    (hmid : 0 < arrivalMid) (seed : Int) {I : EnvState ℚ → Tally → Prop}
    (hopen : ∀ E, Opened (.ofInt 64 seed) E → Params parentQty horizonSteps arrivalMid E.toEnvState →
      I E.toEnvState ⟨[], 0, 0, 0⟩)
    (hpass : ∀ (E E' : SimEnv RefBook Unit Unit ℚ) g obs tally,
      Charted parentQty horizonSteps arrivalMid E → E.done = false →
      Charted parentQty horizonSteps arrivalMid E' →
      Moves (actionFn obs E.stepIdx horizonSteps) E.toEnvState E'.toEnvState g →
      I E.toEnvState tally → I E'.toEnvState (tally.note E.stepIdx E' g)) :
    ∃ E tally, runEpisode policy actionFn book ring clock parentQty horizonSteps arrivalMid seed =
        some (.ok (tally.result policy arrivalMid parentQty)) ∧
      Charted parentQty horizonSteps arrivalMid E ∧ E.done = true ∧ 0 < E.stepIdx ∧
      I E.toEnvState tally := by
  obtain ⟨env, e, E, henv, hreset, hm, hopened, hcharted, -⟩ := runEpisode_opened hbook ring clock
    parentQty horizonSteps arrivalMid seed
  obtain ⟨hTracked, hparams⟩ := hcharted.tracked
  have hhorizon : E.horizonSteps = horizonSteps := hparams.horizonSteps.trans (if_pos hT.ne')
  obtain ⟨E', tally, hloop, hrest⟩ := episodeLoop_keeps hact hpass hmid (.ofInt 64 seed) E.stateBuf
    hcharted hopened.done hopened.stepIdx ((Nat.zero_add _).trans hhorizon.symm)
    (hopen E hopened hparams)
  obtain ⟨out, hout, hOut⟩ := episodeLoop_mirrors actionFn horizonSteps hm hTracked
    (.ofInt 64 seed) 0 E.stateBuf ⟨[], 0, 0, 0⟩
  obtain rfl : out = .ok tally := Option.some.inj (hOut.symm.trans hloop)
  refine ⟨E', tally, ?_, hrest⟩
  rw [runEpisode, henv]
  simp only [Option.bind_eq_bind, Option.bind_some, hreset, hout]
  rfl

end Mirrors

end ExecutionPlatform.Cockpit
