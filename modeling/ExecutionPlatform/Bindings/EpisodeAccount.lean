import ExecutionPlatform.Bindings.Episode
import Mathlib.Tactic.Ring

/-! The episode as a state machine: what every reachable account satisfies, and what one
Step call does to it. -/
namespace ExecutionPlatform.Bindings
open ExecutionPlatform.Core External Exec Foundations

/-- Below 2^24 float holds an integer exactly, so a fraction of it, rounded and truncated, is
no larger; and a fraction in [0, 1] compares as one. -/
structure UnitSizing {F D : Type} [MachineFloat F] (cast : Casts F D) : Prop where
  within : ∀ (x : F) (q : Nat), ((0 : Nat) : F) ≤ x → x ≤ ((1 : Nat) : F) → q ≤ 2 ^ 24 →
    cast.truncate (x * (q : F)) ≤ q
  not_below : ∀ x : F, ((0 : Nat) : F) ≤ x → ¬ x < ((0 : Nat) : F)
  not_above : ∀ x : F, x ≤ ((1 : Nat) : F) → ¬ ((1 : Nat) : F) < x

theorem exactCasts_unitSizing : UnitSizing exactCasts where
  within x q h0 h1 _ := by
    have hle : x * (q : ℚ) ≤ q := mul_le_of_le_one_left (Nat.cast_nonneg q) (by exact_mod_cast h1)
    have hfloor : (x * (q : ℚ)).floor ≤ (q : Int) := by
      rw [← Int.floor_natCast (R := ℚ) q]
      exact Int.floor_mono hle
    exact Int.toNat_le.mpr hfloor
  not_below _ h := not_lt.mpr h
  not_above _ h := not_lt.mpr h

/-- In exact arithmetic the terminal penalty is quadratic in what is left of the parent. -/
theorem EnvState.quadPenalty_eq (s : EnvState ℚ) :
    (s.quadPenalty : ℚ) = -(kKappa * ((s.remaining : ℚ) / s.parentQty) ^ 2) := by
  change -kKappa * ((s.remaining : ℚ) / s.parentQty) * ((s.remaining : ℚ) / s.parentQty) = _
  ring

/-- A call whose size fraction and aggression lie in [0, 1]. -/
def UnitCall {F : Type} [MachineFloat F] : Call F → Prop
  | .step action => ∀ x ∈ action.take 2, ((0 : Nat) : F) ≤ x ∧ x ≤ ((1 : Nat) : F)
  | .reset _ => True

/-- What every account of an episode satisfies. -/
structure Accounted {F : Type} (s : EnvState F) : Prop where
  parent_pos : 0 < s.parentQty
  horizon_pos : 0 < s.horizonSteps
  balance : s.qtyFilled + s.remaining = s.parentQty
  horizon : s.stepIdx ≤ s.horizonSteps
  done : s.done = true ↔ s.remaining = 0 ∨ s.stepIdx = s.horizonSteps

/-- The reward of a step, from the account before and after it. -/
def stepReward {F D : Type} [MachineFloat F] [MachineFloat D] (cast : Casts F D) (s s' : EnvState F)
    (sent charged : Bool) : F :=
  if sent then
    let base := s.fillReward cast (s'.qtyFilled - s.qtyFilled) (s'.cashFromFills - s.cashFromFills) -
      kPhi * s'.invFrac * s'.invFrac
    if charged then base + cast.narrow s'.quadPenalty else base
  else -kPhi * s.invFrac * s.invFrac

/-- What a step of an unfinished episode does to its account. -/
structure StepAccount {F D : Type} [MachineFloat F] [MachineFloat D] (cast : Casts F D)
    (s s' : EnvState F) (report : StepReport F) : Prop where
  stepIdx : s'.stepIdx = s.stepIdx + 1
  remaining : s'.remaining ≤ s.remaining
  idle : report.child = none → s'.done = false
  charged : report.charged = true ↔ s'.done = true ∧ 0 < s'.remaining
  reward : report.reward = stepReward cast s s' report.child.isSome report.charged

section Account
variable {Ring Clock F D : Type}

/-- An episode opens a new account. -/
theorem Episode.Opened.account {parentQty horizonSteps : Nat} {arrivalMid : Price} {seed : BitVec 64}
    {E : SimEnv RefBook Unit Unit F} (h : Opened seed E) (hp : Params parentQty horizonSteps arrivalMid E.toEnvState) :
    Accounted E.toEnvState := by
  have hpos : ∀ n : Nat, 0 < if n ≠ 0 then n else 1 := fun n => by split_ifs <;> omega
  have hparent : 0 < E.parentQty := hp.parentQty ▸ hpos parentQty
  have hhorizon : 0 < E.horizonSteps := hp.horizonSteps ▸ hpos horizonSteps
  refine ⟨hparent, hhorizon, ?_, ?_, ?_⟩
  · rw [h.qtyFilled, h.remaining, Nat.zero_add]
  · rw [h.stepIdx]
    exact Nat.zero_le _
  · rw [h.done, h.remaining, h.stepIdx]
    exact iff_of_false Bool.false_ne_true fun hc => hc.elim hparent.ne' hhorizon.ne

variable [MachineFloat F] {cast : Casts F D}

theorem UnitSizing.clampUnit (h : UnitSizing cast) {x : F} (h0 : ((0 : Nat) : F) ≤ x)
    (h1 : x ≤ ((1 : Nat) : F)) : SimEnv.clampUnit x = x := by
  rw [SimEnv.clampUnit, if_neg (h.not_below x h0), if_neg (h.not_above x h1)]

variable [MachineFloat D]

/-- A child order never sells more than remains: either it is sized within it, or it meets
less than that. -/
theorem filled_le_remaining {mid env' : SimEnv RefBook Ring Clock F} {x y : F} {s : Submission}
    {flow : List Submission} {bgFills fills : List Fill} {report : StepReport F}
    (hsize : UnitSizing cast) (h0 : ((0 : Nat) : F) ≤ x) (h1 : x ≤ ((1 : Nat) : F))
    (hT : mid.Tracked 12) (hy : mid.Young) (hqty : s.qty = mid.childQty cast x)
    (h : SimEnv.ChildEffect cast y mid env' s flow bgFills fills report) :
    (fills.map Fill.qty).sum ≤ mid.remaining := by
  have hmin := h.filled_le
  have hdepth := hT.depth_le 2 fun birth hb => Nat.le_of_lt_succ (hy birth hb)
  by_cases hbig : mid.remaining ≤ 2 ^ 24
  · have hle : s.qty ≤ mid.remaining := by
      rw [hqty, EnvState.childQty]
      split_ifs
      · exact le_rfl
      · exact hsize.within x mid.remaining h0 h1 hbig
    exact (hmin.trans (Nat.min_le_left ..)).trans hle
  · have := hmin.trans (Nat.min_le_right ..)
    lia

variable [EventRing Ring] [ClockFn Clock]

/-- The churn and the flow leave the account alone. -/
theorem flow_account {E E' start mid : SimEnv RefBook Ring Clock F} {x y : F} {report : StepReport F}
    {bgFills : List Fill} (h : SimEnv.StepEffect cast x y E E' report start mid bgFills) :
    SimEnv.SameAccount E.toEnvState mid.toEnvState := by
  have hstart : SimEnv.SameAccount E.toEnvState start.toEnvState := by
    rw [h.churn]
    exact ⟨rfl, rfl, rfl, rfl, rfl, rfl, rfl, rfl⟩
  exact hstart.trans h.flow.account

/-- The reward of a live step is that of its accounts. -/
theorem step_reward {E E' start mid : SimEnv RefBook Ring Clock F} {x y : F} {report : StepReport F}
    {bgFills : List Fill} (h : SimEnv.StepEffect cast x y E E' report start mid bgFills) :
    report.reward =
      stepReward cast E.toEnvState E'.toEnvState report.child.isSome report.charged := by
  have hacc := flow_account h
  rcases h.branch with ⟨-, hidle⟩ | ⟨-, child, fills, -, hchild⟩
  · obtain ⟨-, hreport⟩ := Prod.mk.inj hidle
    rw [hreport]
    simp only [stepReward, Option.isSome_none, Bool.false_eq_true, if_false, EnvState.invFrac,
      hacc.remaining, hacc.parentQty]
  · have hsold : E'.qtyFilled - E.qtyFilled = (fills.map Fill.qty).sum := by
      rw [hchild.qtyFilled, hacc.qtyFilled, Nat.add_sub_cancel_left]
    have hcash : E'.cashFromFills - E.cashFromFills =
        (fills.map fun f => f.price * (f.qty : Int)).sum := by
      rw [hchild.cashFromFills, hacc.cashFromFills, add_sub_cancel_left]
    rw [hchild.reward, hchild.child, stepReward, hsold, hcash]
    simp only [EnvState.fillReward, hacc.arrivalMid, hacc.parentQty, Option.isSome_some, if_true]

theorem step_account {E E' start mid : SimEnv RefBook Ring Clock F} {x y : F} {report : StepReport F}
    {bgFills : List Fill} (hsize : UnitSizing cast) (h0 : ((0 : Nat) : F) ≤ x)
    (h1 : x ≤ ((1 : Nat) : F)) (hA : Accounted E.toEnvState) (hd : E.done = false)
    (h : SimEnv.StepEffect cast x y E E' report start mid bgFills) :
    Accounted E'.toEnvState ∧ StepAccount cast E.toEnvState E'.toEnvState report := by
  have hacc := flow_account h
  have hrem : E.remaining ≠ 0 := fun hz => by
    rw [hA.done.mpr (.inl hz)] at hd
    cases hd
  have hlt : E.stepIdx < E.horizonSteps := by
    refine lt_of_le_of_ne hA.horizon fun he => ?_
    rw [hA.done.mpr (.inr he)] at hd
    cases hd
  rcases h.branch with ⟨hz, hidle⟩ | ⟨hpos, child, fills, hqty, hchild⟩
  · -- the idle branch is not taken at the last step, so the episode goes on
    obtain ⟨rfl, hreport⟩ := Prod.mk.inj hidle
    have hgo : ¬ mid.terminal := fun ht => by
      rw [EnvState.childQty, if_pos ht, hacc.remaining] at hz
      exact hrem hz
    rw [EnvState.terminal, hacc.horizonSteps, hacc.stepIdx] at hgo
    have hopen : ¬ (mid.remaining = 0 ∨ mid.horizonSteps ≤ mid.stepIdx + 1) := by
      rw [hacc.remaining, hacc.horizonSteps, hacc.stepIdx]
      exact fun hc => hc.elim hrem hgo
    have hopen' : mid.done = false := hacc.done.trans hd
    have hreward := step_reward h
    rw [EnvState.maybeCloseOut, if_neg hopen, hreport] at hreward ⊢
    refine ⟨⟨?_, ?_, ?_, ?_, ?_⟩, ⟨?_, ?_, fun _ => hopen', ?_, hreward⟩⟩
    · exact hacc.parentQty ▸ hA.parent_pos
    · exact hacc.horizonSteps ▸ hA.horizon_pos
    · simp only [hacc.qtyFilled, hacc.remaining, hacc.parentQty]
      exact hA.balance
    · simp only [hacc.stepIdx, hacc.horizonSteps]
      exact hlt
    · simp only [hopen', hacc.stepIdx, hacc.horizonSteps, hacc.remaining]
      exact iff_of_false Bool.false_ne_true fun hc => hc.elim hrem fun he => hgo he.ge
    · simp only [hacc.stepIdx]
    · simp only [hacc.remaining]
      exact le_rfl
    · simp [hopen']
  · have hfilled := filled_le_remaining hsize h0 h1 h.tracked_mid h.young_mid hqty hchild
    have hbal := hA.balance
    rw [← hacc.qtyFilled, ← hacc.remaining, ← hacc.parentQty] at hbal
    have hdone : E'.done = true ↔ E'.remaining = 0 ∨ E'.horizonSteps ≤ E'.stepIdx := by
      rw [hchild.done, hacc.done, hd, Bool.false_or, decide_eq_true_iff]
    have hstep : E'.stepIdx = E.stepIdx + 1 := hchild.stepIdx.trans (congrArg (· + 1) hacc.stepIdx)
    have hhor : E'.horizonSteps = E.horizonSteps := hchild.horizonSteps.trans hacc.horizonSteps
    refine ⟨⟨?_, ?_, ?_, ?_, ?_⟩, ⟨hstep, ?_, fun hc => ?_, hchild.charged, step_reward h⟩⟩
    · rw [hchild.parentQty, hacc.parentQty]
      exact hA.parent_pos
    · exact hhor ▸ hA.horizon_pos
    · rw [hchild.qtyFilled, hchild.remaining, hchild.parentQty]
      lia
    · rw [hhor, hstep]
      exact hlt
    · rw [hdone, hhor, hstep]
      exact or_congr_right ⟨fun hc => le_antisymm hlt hc, fun hc => hc.ge⟩
    · rw [hchild.remaining, hacc.remaining]
      exact Nat.sub_le ..
    · rw [hchild.child] at hc
      cases hc

end Account

section Runs
open Episode
variable {Ring Clock F D : Type} [EventRing Ring] [ClockFn Clock] [MachineFloat F] [MachineFloat D]
  {cast : Casts F D} {parentQty horizonSteps : Nat} {arrivalMid : Price}

/-- A reference episode whose account is in order, and which charged the terminal penalty
once if it ended with inventory left, and else never. -/
structure InOrder (EP : Episode RefBook Unit Unit F) : Prop where
  accounted : Accounted EP.env.toEnvState
  charges : EP.charges = if EP.env.done = true ∧ 0 < EP.env.remaining then 1 else 0

/-- Every reachable reference episode is in order. -/
theorem reachable_inOrder (hsize : UnitSizing cast) {EP : Episode RefBook Unit Unit F}
    (h : (refEpisodes cast parentQty horizonSteps arrivalMid).ReachableVia (fun _ c => UnitCall c) EP) :
    InOrder EP := by
  refine (Episode.ref_invariant (I := InOrder) ?_ ?_ ?_ h).1
  · intro seed E hopen hparams
    refine ⟨hopen.account hparams, ?_⟩
    change 0 = if E.done = true ∧ 0 < E.remaining then 1 else 0
    rw [hopen.done]
    rfl
  · intro EP hI
    exact ⟨{ hI.accounted with }, hI.charges⟩
  · intro EP E' report start mid bgFills x y rest hT hparams hd hunit hT' heffect hI
    obtain ⟨hx0, hx1⟩ := hunit x (by simp)
    rw [hsize.clampUnit hx0 hx1] at heffect
    obtain ⟨hA, hstep⟩ := step_account hsize hx0 hx1 hI.accounted hd heffect
    refine ⟨hA, ?_⟩
    have hzero : EP.charges = 0 := by
      rw [hI.charges, hd]
      rfl
    change EP.charges + (if report.charged then 1 else 0) =
      if E'.done = true ∧ 0 < E'.remaining then 1 else 0
    rw [hzero, Nat.zero_add]
    exact if_congr hstep.charged rfl rfl

/-- A Step on a finished episode returns 0 and rewrites the state vector, nothing else. -/
theorem step_done {B : Type} [MatchingBook B] {env env' : SimEnv B Ring Clock F} {action : List F}
    {report : StepReport F} (hd : env.done = true) (h : env.step cast action = some (env', .ok report)) :
    report = ⟨((0 : Nat) : F), [], [], none, false⟩ ∧ env' = { env with stateBuf := env'.stateBuf } := by
  match action with
  | [] => cases h
  | [_] => cases h
  | sizeFrac :: aggression :: _ =>
    rw [SimEnv.step, SimEnv.stepImpl_done hd] at h
    cases h
    exact ⟨rfl, rfl⟩

/-- The episode state machine: in every reachable state of every environment the account
balances, the episode is over exactly when the inventory or the time is, the terminal
penalty has been charged once if the episode ended with inventory left and else never;
and a Step call on it has the effect of one step, or none once the episode is over. -/
theorem episode_state_machine {checked : Bool} (hsize : UnitSizing cast)
    {ep : Episode OrderBook Ring Clock F}
    (h : (episodes cast parentQty horizonSteps arrivalMid checked).ReachableVia (fun _ c => UnitCall c) ep) :
    ep.env.qtyFilled + ep.env.remaining = ep.env.parentQty ∧
    ep.env.stepIdx ≤ ep.env.horizonSteps ∧
    (ep.env.done = true ↔ ep.env.remaining = 0 ∨ ep.env.stepIdx = ep.env.horizonSteps) ∧
    ep.charges = (if ep.env.done = true ∧ 0 < ep.env.remaining then 1 else 0) ∧
    ∀ action, UnitCall (.step action) → 2 ≤ action.length →
      ∃ env' report, ep.env.step cast action = some (env', .ok report) ∧
        (ep.env.done = true → report = ⟨((0 : Nat) : F), [], [], none, false⟩ ∧
          env' = { ep.env with stateBuf := env'.stateBuf }) ∧
        (ep.env.done = false → StepAccount cast ep.env.toEnvState env'.toEnvState report) := by
  obtain ⟨EP, hreach, hfollows, hT⟩ := Episode.reachable_follows (P := fun _ c => UnitCall c)
    (fun _ _ hc => hc) h
  have hI := reachable_inOrder hsize hreach
  have hA := hI.accounted
  have hch := hI.charges
  have hs := hfollows.env.state
  rw [← hs] at hA
  refine ⟨hA.balance, hA.horizon, hA.done, ?_, fun action hunit hlen => ?_⟩
  · rw [hfollows.charges, hch, hs]
  · obtain ⟨E', out, hE, -, hcases⟩ := Episode.ref_step hT cast action
    obtain ⟨e', he, hm⟩ := hfollows.env.step hT hE
    have hdone : ep.env.done = EP.env.done := congrArg EnvState.done hs
    rcases hcases with ⟨-, -, -, hshort⟩ | ⟨sizeFrac, aggression, rest, rfl, hcases⟩
    · exact absurd hlen (Nat.not_le.mpr hshort)
    rcases hcases with ⟨hd, -, rfl⟩ | ⟨hd, E1, report, start, mid, bgFills, -, heffect, rfl, rfl⟩
    · refine ⟨e', _, he, fun hd' => step_done hd' he, ?_⟩
      intro hd'
      rw [hdone, hd] at hd'
      cases hd'
    · obtain ⟨hx0, hx1⟩ := hunit sizeFrac (by simp)
      rw [hsize.clampUnit hx0 hx1] at heffect
      obtain ⟨-, hstep1⟩ := step_account hsize hx0 hx1 hI.accounted hd heffect
      refine ⟨e', report, he, ?_, ?_⟩
      · intro hd'
        rw [hdone, hd] at hd'
        cases hd'
      · intro _
        rw [hm.state, hs]
        exact { hstep1 with }

/-- Two steps sell 89 of 1000 shares. -/
theorem episode_state_machine_two_steps :
    ∃ ep : Episode OrderBook Unit Unit ℚ,
      (episodes exactCasts 1000 32 100 true).ReachableVia (fun _ c => UnitCall c) ep ∧
      ep.env.stepIdx = 2 ∧ ep.env.qtyFilled = 89 ∧ ep.env.done = false ∧
      89 + ep.env.remaining = 1000 := by
  have hunit : UnitCall (.step [(1 : ℚ), 1]) := by
    intro x hx
    obtain rfl : x = 1 := by simpa using hx
    exact ⟨by decide +kernel, by decide +kernel⟩
  obtain ⟨ep, EP, hreach, hrun, hf⟩ := Episode.exists_run exactCasts () () 1000 32 100 true 2
    [.step [(1 : ℚ), 1], .step [1, 1]] (P := UnitCall) (by simpa using hunit)
  have hval : (Episode.refRun exactCasts 1000 32 100 2 [.step [(1 : ℚ), 1], .step [1, 1]]).map
      (fun EP => (EP.env.stepIdx, EP.env.qtyFilled, EP.env.done, EP.env.parentQty)) =
        some (2, 89, false, 1000) := by decide +kernel
  rw [hrun] at hval
  obtain ⟨h1, h2, h3, h4⟩ : EP.env.stepIdx = 2 ∧ EP.env.qtyFilled = 89 ∧ EP.env.done = false ∧
      EP.env.parentQty = 1000 := by simpa using hval
  have hbal := (episode_state_machine exactCasts_unitSizing hreach).1
  have hs := hf.env.state
  rw [← hs] at h1 h2 h3 h4
  rw [h2, h4] at hbal
  exact ⟨ep, hreach, h1, h2, h3, hbal⟩

end Runs
end ExecutionPlatform.Bindings
