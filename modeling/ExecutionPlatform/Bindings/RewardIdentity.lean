import ExecutionPlatform.Bindings.EpisodeAccount

/-! The rewards of a whole episode, in exact arithmetic. The account carries a potential that
every step moves by its reward and its holding penalty, so the rewards telescope. -/
namespace ExecutionPlatform.Bindings
open ExecutionPlatform.Core External Exec Foundations Episode

namespace SimEnv
variable {B Ring Clock F D : Type} [MatchingBook B] [EventRing Ring] [ClockFn Clock]
  [MachineFloat F] [MachineFloat D]

/-- The reward of a call, with the inventory left after it. A call that throws earns none. -/
def credit (env : SimEnv B Ring Clock F) : Except String (StepReport F) → List (F × Nat)
  | .error _ => []
  | .ok report => [(report.reward, env.remaining)]

/-- Step until the episode is done or the actions run out: the environment at the end, and
each step's reward with the inventory left after it. -/
def play (cast : Casts F D) : SimEnv B Ring Clock F → List (List F) →
    Option (SimEnv B Ring Clock F × List (F × Nat))
  | env, [] => some (env, [])
  | env, action :: actions =>
    if env.done then some (env, [])
    else do
      let (env', out) ← env.step cast action
      let (last, steps) ← play cast env' actions
      pure (last, env'.credit out ++ steps)

theorem play_cons {cast : Casts F D} {env env' : SimEnv B Ring Clock F} {action : List F}
    {out : Except String (StepReport F)} (hd : ¬ env.done = true)
    (hstep : env.step cast action = some (env', out)) (actions : List (List F)) :
    env.play cast (action :: actions) =
      (env'.play cast actions).map fun run => (run.1, env'.credit out ++ run.2) := by
  rw [play, if_neg hd, hstep]
  simp only [Option.bind_eq_bind, Option.bind_some]
  cases env'.play cast actions <;> rfl

end SimEnv

namespace EnvState

/-- What the account has gained against the arrival mid, in basis points of the parent. -/
def gain (s : EnvState ℚ) : ℚ :=
  (10 ^ 4 : Nat) * (s.cashFromFills - s.qtyFilled * s.arrivalMid) / (s.arrivalMid * s.parentQty)

/-- The terminal penalty of an account, due once it is closed. -/
def closing (s : EnvState ℚ) : ℚ :=
  if s.done then kKappa * (s.remaining / s.parentQty) ^ 2 else (0 : Nat)

def potential (s : EnvState ℚ) : ℚ := s.gain - s.closing

/-- A fill of nothing costs nothing, so the reward of the fills needs no case. -/
theorem fillReward_eq (s : EnvState ℚ) (hmid : 0 < s.arrivalMid) {filled : Quantity} {cash : Int}
    (hzero : filled = 0 → cash = 0) : s.fillReward exactCasts filled cash =
      (10 ^ 4 : Nat) * (cash - filled * s.arrivalMid) / (s.arrivalMid * s.parentQty) := by
  rw [fillReward, if_pos hmid]
  split_ifs with hf
  · change ((cash : ℚ) - (filled : ℚ) * (s.arrivalMid : ℚ)) / s.arrivalMid * ((10000 : Nat) : ℚ) /
      (s.parentQty : ℚ) = _
    push_cast
    ring
  · obtain rfl : filled = 0 := Nat.eq_zero_of_not_pos hf
    rw [hzero rfl]
    simp

/-- The gain moves by the reward of the fills. -/
theorem gain_step {s s' : EnvState ℚ} {filled : Quantity} {cash : Int}
    (hparent : s'.parentQty = s.parentQty) (hmid : s'.arrivalMid = s.arrivalMid)
    (hqty : s'.qtyFilled = s.qtyFilled + filled) (hcash : s'.cashFromFills = s.cashFromFills + cash) :
    s'.gain = s.gain +
      (10 ^ 4 : Nat) * (cash - filled * s.arrivalMid) / (s.arrivalMid * s.parentQty) := by
  rw [gain, gain, hparent, hmid, hqty, hcash]
  push_cast
  ring

/-- The terminal penalty is charged exactly where the potential has it: without inventory it is 0. -/
theorem charged_eq {s : EnvState ℚ} {charged : Bool} (h : charged = true ↔ s.done = true ∧ 0 < s.remaining) :
    (if charged then (s.quadPenalty : ℚ) else 0) = -s.closing := by
  rw [quadPenalty_eq, closing]
  by_cases hdone : s.done = true
  · by_cases hrem : 0 < s.remaining
    · rw [if_pos (h.mpr ⟨hdone, hrem⟩), if_pos hdone]
    · rw [if_neg fun hc => hrem (h.mp hc).2, if_pos hdone, Nat.eq_zero_of_not_pos hrem]
      simp
  · rw [if_neg fun hc => hdone (h.mp hc).1, if_neg hdone]
    simp

end EnvState

/-- Fills without quantity bring no cash. -/
theorem cash_eq_zero {fills : List Fill} (h : (fills.map Fill.qty).sum = 0) :
    (fills.map fun f => f.price * (f.qty : Int)).sum = 0 := by
  refine List.sum_eq_zero fun z hz => ?_
  obtain ⟨f, hf, rfl⟩ := List.mem_map.mp hz
  rw [List.sum_eq_zero_iff.mp h f.qty (List.mem_map_of_mem hf), Nat.cast_zero, mul_zero]

theorem clampUnit_within (x : ℚ) :
    ((0 : Nat) : ℚ) ≤ SimEnv.clampUnit x ∧ SimEnv.clampUnit x ≤ ((1 : Nat) : ℚ) := by
  rw [SimEnv.clampUnit]
  split_ifs with h0 h1
  · exact ⟨le_rfl, by simp⟩
  · exact ⟨by simp, le_rfl⟩
  · exact ⟨not_lt.mp h0, not_lt.mp h1⟩

section Steps
variable {Ring Clock : Type} [EventRing Ring] [ClockFn Clock]

/-- The reward of a live step is what it adds to the potential, less the holding penalty on
the inventory left after it. In the idle branch that is the inventory before it. -/
theorem reward_potential {E E' start mid : SimEnv RefBook Ring Clock ℚ} {x y : ℚ}
    {report : StepReport ℚ} {bgFills : List Fill}
    (h : SimEnv.StepEffect exactCasts x y E E' report start mid bgFills)
    (hstep : StepAccount exactCasts E.toEnvState E'.toEnvState report)
    (hd : E.done = false) (hmid : 0 < E.arrivalMid) :
    report.reward = E'.potential - E.potential - kPhi * ((E'.remaining : ℚ) / E'.parentQty) ^ 2 := by
  have hacc := flow_account h
  have hopen : E.closing = 0 := by simp [EnvState.closing, hd]
  rcases h.branch with ⟨-, hidle⟩ | ⟨-, child, fills, -, hchild⟩
  · obtain ⟨hE, hreport⟩ := Prod.mk.inj hidle
    have hgo : E'.done = false := hstep.idle (by rw [hreport])
    have hclose : E'.closing = 0 := by simp [EnvState.closing, hgo]
    have hsame : E'.gain = E.gain ∧ E'.remaining = mid.remaining ∧ E'.parentQty = mid.parentQty := by
      rw [hE, SimEnv.maybeCloseOut_eq]
      refine ⟨?_, rfl, rfl⟩
      simp only [EnvState.gain, hacc.cashFromFills, hacc.qtyFilled, hacc.arrivalMid, hacc.parentQty]
    rw [EnvState.potential, EnvState.potential, hclose, hopen, hsame.1, hsame.2.1, hsame.2.2, hreport]
    change -kPhi * ((mid.remaining : ℚ) / mid.parentQty) * ((mid.remaining : ℚ) / mid.parentQty) = _
    ring
  · have hgain : E'.gain = E.gain + mid.fillReward exactCasts (fills.map Fill.qty).sum
        (fills.map fun f => f.price * (f.qty : Int)).sum := by
      rw [EnvState.fillReward_eq _ (hacc.arrivalMid ▸ hmid) cash_eq_zero, hacc.arrivalMid, hacc.parentQty]
      exact EnvState.gain_step (hchild.parentQty.trans hacc.parentQty)
        (hchild.arrivalMid.trans hacc.arrivalMid) (hacc.qtyFilled ▸ hchild.qtyFilled)
        (hacc.cashFromFills ▸ hchild.cashFromFills)
    have hreward : report.reward = mid.fillReward exactCasts (fills.map Fill.qty).sum
        (fills.map fun f => f.price * (f.qty : Int)).sum -
          kPhi * ((E'.remaining : ℚ) / E'.parentQty) * ((E'.remaining : ℚ) / E'.parentQty) +
          if report.charged then (E'.quadPenalty : ℚ) else 0 := by
      rw [hchild.reward]
      split_ifs
      · rfl
      · exact (add_zero _).symm
    rw [hreward, EnvState.charged_eq hchild.charged, EnvState.potential, EnvState.potential, hopen, hgain]
    ring

end Steps

/-- Over the order book and over the reference book the steps of a run are the same. -/
theorem SimEnv.Mirrors.play {Ring Clock F D : Type} [EventRing Ring] [ClockFn Clock] [MachineFloat F]
    [MachineFloat D] {e : SimEnv OrderBook Ring Clock F} {E : SimEnv RefBook Unit Unit F}
    (hm : e.Mirrors E) (hT : E.Tracked 0) (cast : Casts F D) (actions : List (List F)) :
    ∃ last LAST steps, e.play cast actions = some (last, steps) ∧
      E.play cast actions = some (LAST, steps) ∧ last.Mirrors LAST := by
  induction actions generalizing e E with
  | nil => exact ⟨e, E, [], rfl, rfl, hm⟩
  | cons action actions ih =>
    have hdone : e.done = E.done := congrArg EnvState.done hm.state
    by_cases hd : e.done = true
    · exact ⟨e, E, [], by rw [SimEnv.play, if_pos hd], by rw [SimEnv.play, if_pos (hdone ▸ hd)], hm⟩
    obtain ⟨E', out, hE, hT', -⟩ := ref_step hT cast action
    obtain ⟨e', he, hm'⟩ := hm.step hT hE
    obtain ⟨last, LAST, steps, hrun, hRun, hlast⟩ := ih hm' hT'
    have hcredit : e'.credit out = E'.credit out := by
      cases out with
      | error msg => rfl
      | ok report => rw [SimEnv.credit, SimEnv.credit, hm'.state]
    refine ⟨last, LAST, E'.credit out ++ steps, ?_, ?_, hlast⟩
    · rw [SimEnv.play_cons hd he, hrun, Option.map_some, hcredit]
    · rw [SimEnv.play_cons (hdone ▸ hd) hE, hRun, Option.map_some]

section Runs
variable {parentQty horizonSteps : Nat} {arrivalMid : Price}

/-- Along any actions the rewards and the holding penalties add up to what the potential gains. -/
theorem play_potential {E last : SimEnv RefBook Unit Unit ℚ} {actions : List (List ℚ)}
    {steps : List (ℚ × Nat)} (hT : E.Tracked 0)
    (hp : Params parentQty horizonSteps arrivalMid E.toEnvState) (hmid : 0 < arrivalMid)
    (hA : Accounted E.toEnvState) (h : E.play exactCasts actions = some (last, steps)) :
    Params parentQty horizonSteps arrivalMid last.toEnvState ∧
      (steps.map Prod.fst).sum = last.potential - E.potential -
        kPhi * (steps.map fun step => ((step.2 : ℚ) / last.parentQty) ^ 2).sum := by
  induction actions generalizing E steps with
  | nil =>
    obtain ⟨rfl, rfl⟩ := Prod.mk.inj (Option.some.inj h)
    exact ⟨hp, by simp⟩
  | cons action actions ih =>
    by_cases hd : E.done = true
    · rw [SimEnv.play, if_pos hd] at h
      obtain ⟨rfl, rfl⟩ := Prod.mk.inj (Option.some.inj h)
      exact ⟨hp, by simp⟩
    obtain ⟨E', out, hE, hT', hcases⟩ := ref_step hT exactCasts action
    rw [SimEnv.play_cons hd hE] at h
    obtain ⟨⟨last', rest⟩, hrun, he⟩ := Option.map_eq_some_iff.mp h
    obtain ⟨rfl, rfl⟩ := Prod.mk.inj he
    rcases hcases with ⟨msg, rfl, rfl, -⟩ | ⟨sizeFrac, aggression, tail, rfl, hcases⟩
    · exact ih hT hp hA hrun
    rcases hcases with ⟨hdone, -, rfl⟩ | ⟨hopen, E1, report, start, mid, bgFills, -, heffect, rfl, rfl⟩
    · exact absurd hdone hd
    · obtain ⟨h0, h1⟩ := clampUnit_within sizeFrac
      obtain ⟨hA', hstep⟩ := step_account exactCasts_unitSizing h0 h1 hA hopen heffect
      have hp' := hp.step heffect
      have hreward := reward_potential heffect hstep hopen (hp.arrivalMid.symm ▸ hmid)
      obtain ⟨hlast, hsum⟩ := ih hT' { hp' with } { hA' with } hrun
      have hparent : last'.parentQty = E1.parentQty := hlast.parentQty.trans hp'.parentQty.symm
      refine ⟨hlast, ?_⟩
      rw [SimEnv.credit, List.singleton_append, List.map_cons, List.sum_cons, List.map_cons,
        List.sum_cons, hsum, hreward, hparent]
      change E1.potential - E.potential - kPhi * ((E1.remaining : ℚ) / E1.parentQty) ^ 2 +
          (last'.potential - E1.potential - _) =
        last'.potential - E.potential - kPhi * (((E1.remaining : ℚ) / E1.parentQty) ^ 2 + _)
      ring

variable {Ring Clock : Type} [EventRing Ring] [ClockFn Clock] {checked : Bool}

/-- An episode that has just been opened: by the constructor, or by a reset after any calls. -/
def Opens (parentQty horizonSteps : Nat) (arrivalMid : Price) (checked : Bool)
    (ep : Episode OrderBook Ring Clock ℚ) : Prop :=
  (episodes exactCasts parentQty horizonSteps arrivalMid checked).init ep ∨
    ∃ prev seed, (episodes exactCasts parentQty horizonSteps arrivalMid checked).Reachable prev ∧
      prev.call exactCasts (.reset seed) = some ep

theorem Opens.mirrors {ep : Episode OrderBook Ring Clock ℚ}
    (h : Opens parentQty horizonSteps arrivalMid checked ep) :
    ∃ seed E, ep.env.Mirrors E ∧ Opened seed E ∧
      Params parentQty horizonSteps arrivalMid E.toEnvState := by
  rcases h with ⟨book, ring, clock, seed, env, hbook, hnew, rfl⟩ | ⟨prev, seed, hreach, hcall⟩
  · obtain ⟨e, E, he, hE, hm⟩ := SimEnv.Mirrors.new exactCasts ring clock parentQty horizonSteps seed
      arrivalMid hbook
    obtain rfl : e = env := Option.some.inj (he.symm.trans hnew)
    obtain ⟨E0, rfl, hshape, hempty, hrng, hp, hh, hm0⟩ := ref_new hE
    exact ⟨seed, _, hm, opened_cleared exactCasts hshape hempty hrng, ⟨hp, hh, hm0⟩⟩
  · obtain ⟨EP, hReach, hf, hT⟩ := reachable_follows (P := fun _ _ => True) (fun _ _ _ => trivial) hreach
    obtain ⟨E', hE, hopened, hp⟩ := ref_reset_opened hT (reachable_params hReach).2 exactCasts seed
    obtain ⟨e', he, hm⟩ := hf.env.reset hE
    rw [Episode.call, he] at hcall
    obtain rfl := Option.some.inj hcall
    exact ⟨seed, E', hm, hopened, hp⟩

/-- The reward accounting identity: over an episode played to its end the rewards are the
gain of its account in basis points, less the holding penalties and the terminal one. -/
theorem reward_identity {ep : Episode OrderBook Ring Clock ℚ}
    (h : Opens parentQty horizonSteps arrivalMid checked ep) (hmid : 0 < arrivalMid)
    (actions : List (List ℚ)) :
    ∃ last steps, ep.env.play exactCasts actions = some (last, steps) ∧
      last.parentQty = (if parentQty ≠ 0 then parentQty else 1) ∧
      (last.done = true → (steps.map Prod.fst).sum =
        (10 ^ 4 : Nat) * ((last.cashFromFills : ℚ) - last.qtyFilled * arrivalMid) /
            (arrivalMid * last.parentQty) -
          kPhi * (steps.map fun step => ((step.2 : ℚ) / last.parentQty) ^ 2).sum -
          kKappa * ((last.remaining : ℚ) / last.parentQty) ^ 2) := by
  obtain ⟨seed, E, hm, hopened, hp⟩ := h.mirrors
  obtain ⟨last, LAST, steps, hrun, hRun, hlast⟩ := hm.play hopened.tracked exactCasts actions
  obtain ⟨hparams, hsum⟩ := play_potential hopened.tracked hp hmid (hopened.account hp) hRun
  refine ⟨last, steps, hrun, hlast.state ▸ hparams.parentQty, fun hdone => ?_⟩
  have hstart : E.potential = 0 := by
    simp [EnvState.potential, EnvState.gain, EnvState.closing, hopened.cashFromFills, hopened.qtyFilled,
      hopened.done]
  rw [hlast.state] at hdone ⊢
  rw [hsum, hstart, EnvState.potential, EnvState.gain, EnvState.closing, if_pos hdone,
    hparams.arrivalMid]
  ring

/-- Three calls of a two-step episode of 1000 shares: one throws, one waits, and the
liquidation at the horizon leaves inventory to be penalised. -/
theorem reward_identity_two_steps : ∃ (ep : Episode OrderBook Unit Unit ℚ) (last : SimEnv OrderBook Unit Unit ℚ)
    (steps : List (ℚ × Nat)), ep.env.play exactCasts [[], [0, 0], [1, 1]] = some (last, steps) ∧
      steps.length = 2 ∧ last.done = true ∧ 0 < last.remaining ∧
      (steps.map Prod.fst).sum =
        (10 ^ 4 : Nat) * ((last.cashFromFills : ℚ) - last.qtyFilled * (100 : Price)) /
            ((100 : Price) * last.parentQty) -
          kPhi * (steps.map fun step => ((step.2 : ℚ) / last.parentQty) ^ 2).sum -
          kKappa * ((last.remaining : ℚ) / last.parentQty) ^ 2 := by
  obtain ⟨ep, E, hinit, hE, hf, hT⟩ := exists_start (F := ℚ) exactCasts () () 1000 2 100 true 2
  obtain ⟨last, LAST, steps, hrun, hRun, hlast⟩ := hf.env.play hT exactCasts [[], [0, 0], [1, 1]]
  have hval : ((SimEnv.new exactCasts SimEnv.startBook () () 1000 2 2 100 :
      Option (SimEnv RefBook Unit Unit ℚ)).bind fun E => (E.play exactCasts [[], [0, 0], [1, 1]]).map
          fun run => (run.2.length, run.1.done, decide (0 < run.1.remaining))) = some (2, true, true) := by
    decide +kernel
  rw [hE, Option.bind_some] at hval
  change E.play exactCasts [[], [0, 0], [1, 1]] = some (LAST, steps) at hRun
  rw [hRun] at hval
  obtain ⟨hlen, hends⟩ := Prod.mk.inj (Option.some.inj hval)
  obtain ⟨hdone, hrem⟩ := Prod.mk.inj hends
  rw [← congrArg EnvState.done hlast.state] at hdone
  rw [← congrArg EnvState.remaining hlast.state, decide_eq_true_iff] at hrem
  obtain ⟨last', steps', hrun', -, hsum⟩ := reward_identity (.inl hinit) (by decide) [[], [0, 0], [1, 1]]
  obtain ⟨rfl, rfl⟩ := Prod.mk.inj (Option.some.inj (hrun'.symm.trans hrun))
  exact ⟨ep, last', steps', hrun, hlen, hdone, hrem, hsum hdone⟩

end Runs
end ExecutionPlatform.Bindings
