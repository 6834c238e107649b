import ExecutionPlatform.Bindings.EpisodeAccount

/-! Results about two runs: a reset forgets everything but the seed, and the synthetic
orders of a step depend on the seed and the step only. -/
namespace ExecutionPlatform.Bindings
open ExecutionPlatform.Core External Exec Foundations Episode
open SimEnv (afterDraw flowDraws)

/-- What a client sees of an environment between calls. -/
structure View (F D : Type) where
  stateBuf : List F
  done : Bool
  remaining : Nat
  qtyFilled : Nat
  avgFillPrice : D

namespace SimEnv
variable {B Ring Clock F D : Type} [MachineFloat D]

def view (env : SimEnv B Ring Clock F) : View F D :=
  ⟨env.stateBuf, env.done, env.remaining, env.qtyFilled, env.avgFillPrice⟩

/-- What Step calls return and show, one after the other. -/
def observe [MatchingBook B] [EventRing Ring] [ClockFn Clock] [MachineFloat F] (cast : Casts F D) :
    SimEnv B Ring Clock F → List (List F) → Option (List (Except String (StepReport F) × View F D))
  | _, [] => some []
  | env, action :: actions => do
    let (env, out) ← env.step cast action
    let shown ← observe cast env actions
    pure ((out, env.view) :: shown)

/-- No order rests in the book. -/
def Drained (env : SimEnv OrderBook Ring Clock F) : Prop :=
  env.publisher.book.openOrderCount = 0 ∧ ∀ side px, env.publisher.book.levelOrders side px = []

end SimEnv

section TwoRuns
variable {Ring Clock F D : Type} {e : SimEnv OrderBook Ring Clock F}
  {E E₁ E₂ : SimEnv RefBook Unit Unit F}

/-- An environment mirrors whatever has the same fields and the same book. -/
theorem SimEnv.Mirrors.of_eq (h : e.Mirrors E₁) (hs : E₁.toEnvState = E₂.toEnvState)
    (hb : E₁.publisher.book = E₂.publisher.book) : e.Mirrors E₂ := by
  refine ⟨h.state.trans hs, ?_⟩
  rw [SimEnv.SameBook, ← hb]
  exact h.book

theorem SimEnv.Mirrors.drained (h : e.Mirrors E) (hE : E.orders = []) : e.Drained := by
  obtain ⟨rs, hr⟩ := h.book
  refine ⟨?_, fun side px => ?_⟩
  · have hlen := h.book.observers.1
    change _ = E.orders.length at hlen
    rw [hE] at hlen
    exact hlen
  · rw [hr.shows.levelOrders, RefBook.queue, show E.publisher.book.orders = [] from hE]
    rfl

variable [MachineFloat D]

theorem SimEnv.Mirrors.view (h : e.Mirrors E) : (e.view : View F D) = E.view := by
  rw [SimEnv.view, SimEnv.view, SimEnv.avgFillPrice, SimEnv.avgFillPrice, h.state]

/-- Two books that are empty and alike are one. -/
theorem RefBook.eq_of_empty {R R' : RefBook} (h : SimEnv.startBook.SameShape R)
    (h' : SimEnv.startBook.SameShape R') (he : R.orders = []) (he' : R'.orders = []) : R = R' := by
  cases R
  cases R'
  obtain rfl := he
  obtain rfl := he'
  obtain ⟨h1, h2, h3⟩ := h
  obtain ⟨h1', h2', h3'⟩ := h'
  simp only at h1 h2 h3 h1' h2' h3'
  rw [h1, h2, h3, h1', h2', h3']

variable [MachineFloat F] [EventRing Ring] [ClockFn Clock]

/-- Whatever is seen of an environment is seen of the reference environment. -/
theorem observe_eq (cast : Casts F D) (h : e.Mirrors E) (hT : E.Tracked 0) (actions : List (List F)) :
    ∃ shown, E.observe cast actions = some shown ∧ e.observe cast actions = some shown := by
  induction actions generalizing e E with
  | nil => exact ⟨[], rfl, rfl⟩
  | cons action actions ih =>
    obtain ⟨E', out, hE, hT', -⟩ := ref_step hT cast action
    obtain ⟨e', he, hm⟩ := h.step hT hE
    obtain ⟨shown, hS, hs⟩ := ih hm hT'
    refine ⟨(out, E'.view) :: shown, ?_, ?_⟩
    · rw [SimEnv.observe, hE]
      simp only [Option.bind_eq_bind, Option.bind_some, hS]
      rfl
    · rw [SimEnv.observe, he]
      simp only [Option.bind_eq_bind, Option.bind_some, hs, hm.view]
      rfl

/-- A cleared environment has nothing of its own but the constructor's arguments, the
generator and the book. -/
private theorem cleared_agree {P₁ P₂ : TelemetryPublisher RefBook Unit Unit}
    (hparent : E₁.parentQty = E₂.parentQty) (hhorizon : E₁.horizonSteps = E₂.horizonSteps)
    (hmid : E₁.arrivalMid = E₂.arrivalMid) (hrng : E₁.rng = E₂.rng) (hbook : P₁.book = P₂.book)
    {cast : Casts F D} :
    ((E₁.cleared P₁).writeState cast).toEnvState = ((E₂.cleared P₂).writeState cast).toEnvState := by
  obtain ⟨⟨parentQty, horizonSteps, arrivalMid, rng, _, _, _, _, _, _, _, _, _, _, _⟩, _, _⟩ := E₁
  obtain ⟨⟨_, _, _, _, _, _, _, _, _, _, _, _, _, _, _⟩, _, _⟩ := E₂
  obtain rfl : parentQty = _ := hparent
  obtain rfl : horizonSteps = _ := hhorizon
  obtain rfl : arrivalMid = _ := hmid
  obtain rfl : rng = _ := hrng
  obtain ⟨book, _⟩ := P₁
  obtain rfl : book = _ := hbook
  rfl

/-- Resets of two reference environments with the same constructor arguments agree. -/
theorem reset_agree (cast : Casts F D) {parentQty horizonSteps : Nat} {arrivalMid : Price}
    (h₁ : E₁.Tracked 0) (h₂ : E₂.Tracked 0)
    (hp₁ : Params parentQty horizonSteps arrivalMid E₁.toEnvState)
    (hp₂ : Params parentQty horizonSteps arrivalMid E₂.toEnvState) (seed : BitVec 64) :
    ∃ E₁' E₂', E₁.reset cast seed = some E₁' ∧ E₂.reset cast seed = some E₂' ∧
      E₁'.toEnvState = E₂'.toEnvState ∧ E₁'.publisher.book = E₂'.publisher.book ∧
      E₂'.orders = [] ∧ E₂'.Tracked 0 := by
  obtain ⟨P₁, hE₁, hshape₁, hempty₁⟩ := ref_reset h₁ cast seed
  obtain ⟨P₂, hE₂, hshape₂, hempty₂⟩ := ref_reset h₂ cast seed
  have hbook : P₁.book = P₂.book := RefBook.eq_of_empty hshape₁ hshape₂ hempty₁ hempty₂
  refine ⟨_, _, hE₁, hE₂, ?_, hbook, hempty₂,
    (SimEnv.cleared_tracked hshape₂ hempty₂).writeState cast⟩
  have hparent := hp₁.parentQty.trans hp₂.parentQty.symm
  have hhorizon := hp₁.horizonSteps.trans hp₂.horizonSteps.symm
  have hmid := hp₁.arrivalMid.trans hp₂.arrivalMid.symm
  apply cleared_agree
  · exact hparent
  · exact hhorizon
  · exact hmid
  · rfl
  · exact hbook

end TwoRuns

section Flow
variable {F D : Type} [MachineFloat F] [MachineFloat D] {cast : Casts F D} {seed : BitVec 64}

/-- The generator has moved by thirty-six draws a step, and by nothing else. -/
def Clocked (seed : BitVec 64) (EP : Episode RefBook Unit Unit F) : Prop :=
  EP.env.rng = afterDraw^[12 * EP.env.stepIdx] (.new seed)

/-- A live step sends the orders of its draws and moves the generator past them. -/
theorem flow_clocked {sizeFrac aggression : F} {EP : Episode RefBook Unit Unit F}
    {E' start mid : SimEnv RefBook Unit Unit F} {report : StepReport F} {bgFills : List Fill}
    (h : Clocked seed EP)
    (heffect : SimEnv.StepEffect cast sizeFrac aggression EP.env E' report start mid bgFills) :
    report.flow.map Submission.draw =
        flowDraws EP.env.arrivalMid 12 (afterDraw^[12 * EP.env.stepIdx] (.new seed)) ∧
      Clocked seed (EP.record E' (.ok report)) := by
  have hstart : start.rng = EP.env.rng ∧ start.arrivalMid = EP.env.arrivalMid := by
    rw [heffect.churn]
    exact ⟨rfl, rfl⟩
  have hmid : mid.rng = afterDraw^[12 * (EP.env.stepIdx + 1)] (.new seed) := by
    rw [heffect.flow.rng, hstart.1, h, ← Function.iterate_add_apply, Nat.mul_succ, Nat.add_comm]
  have hidx := (flow_account heffect).stepIdx
  refine ⟨?_, ?_⟩
  · rw [heffect.flow.draws, hstart.1, hstart.2, h]
  · change E'.rng = afterDraw^[12 * E'.stepIdx] (.new seed)
    rcases heffect.branch with ⟨-, hidle⟩ | ⟨-, s, fills, -, hchild⟩
    · obtain ⟨rfl, -⟩ := Prod.mk.inj hidle
      rw [SimEnv.maybeCloseOut_eq]
      change mid.rng = afterDraw^[12 * (mid.stepIdx + 1)] (.new seed)
      rw [hmid, hidx]
    · rw [hchild.rng, hchild.stepIdx, hmid, hidx]

/-- After a reset, however many Step calls follow, a live step sends the orders that the
seed and its step index determine. -/
theorem ref_flow {parentQty horizonSteps : Nat} {arrivalMid : Price}
    {EP EP' : Episode RefBook Unit Unit F} (hT : EP.env.Tracked 0)
    (hp : Params parentQty horizonSteps arrivalMid EP.env.toEnvState) (actions : List (List F))
    (hrun : (refEpisodes cast parentQty horizonSteps arrivalMid).run EP
      (.reset seed :: actions.map .step) = some EP') (hd : EP'.env.done = false) {action : List F}
    (hlen : 2 ≤ action.length) :
    ∃ E' report, EP'.env.step cast action = some (E', .ok report) ∧
      report.flow.map Submission.draw =
        flowDraws arrivalMid 12 (afterDraw^[12 * EP'.env.stepIdx] (.new seed)) := by
  obtain ⟨EP1, hcall, hrun⟩ := Option.bind_eq_some_iff.mp hrun
  obtain ⟨E1, hE1, hopen, hp1⟩ := ref_reset_opened hT hp cast seed
  obtain rfl : Episode.start E1 = EP1 := by
    have hcall' : EP.call cast (.reset seed) = some EP1 := hcall
    rw [Episode.call, hE1] at hcall'
    exact Option.some.inj hcall'
  have hI : Clocked seed EP' ∧ EP'.env.Tracked 0 ∧
      Params parentQty horizonSteps arrivalMid EP'.env.toEnvState := by
    refine Machine.run_keeps (P := fun c : Call F => ∃ action, c = .step action)
      (I := fun EP => Clocked seed EP ∧ EP.env.Tracked 0 ∧
        Params parentQty horizonSteps arrivalMid EP.env.toEnvState) ?_ ?_ ?_ hrun
    · rintro EP c EP' ⟨action, rfl⟩ ⟨hI, hT, hp⟩ hcall
      exact ref_step_keeps (fun EP hI => hI)
        (fun E' report start mid bgFills x y rest _ _ _ heffect => (flow_clocked hI heffect).2) hT hp hI
        hcall
    · intro c hc
      obtain ⟨action, -, rfl⟩ := List.mem_map.mp hc
      exact ⟨action, rfl⟩
    · refine ⟨?_, hopen.tracked, hp1⟩
      change E1.rng = afterDraw^[12 * E1.stepIdx] (.new seed)
      rw [hopen.rng, hopen.stepIdx]
      rfl
  obtain ⟨hclock, hT', hp'⟩ := hI
  obtain ⟨E', out, hE, -, hcases⟩ := ref_step hT' cast action
  rcases hcases with ⟨-, -, -, hshort⟩ | ⟨sizeFrac, aggression, rest, rfl, hcases⟩
  · exact absurd hlen (Nat.not_le.mpr hshort)
  rcases hcases with ⟨hd', -⟩ | ⟨-, E1, report, start, mid, bgFills, -, heffect, rfl, rfl⟩
  · rw [hd] at hd'
    cases hd'
  · refine ⟨_, report, hE, ?_⟩
    rw [(flow_clocked hclock heffect).1, hp'.arrivalMid]

end Flow

section Independence
variable {Ring₁ Clock₁ Ring₂ Clock₂ F D : Type} [EventRing Ring₁] [ClockFn Clock₁] [EventRing Ring₂]
  [ClockFn Clock₂] [MachineFloat F] [MachineFloat D] {cast : Casts F D}

theorem reachable_tracked {parentQty horizonSteps : Nat} {arrivalMid : Price} {checked : Bool}
    {ep : Episode OrderBook Ring₁ Clock₁ F}
    (h : (episodes cast parentQty horizonSteps arrivalMid checked).Reachable ep) :
    ∃ EP : Episode RefBook Unit Unit F, ep.Follows EP ∧ EP.env.Tracked 0 ∧
      Params parentQty horizonSteps arrivalMid EP.env.toEnvState := by
  obtain ⟨EP, hreach, hf, hT⟩ := reachable_follows (P := fun _ _ => True) (fun _ _ _ => trivial) h
  exact ⟨EP, hf, hT, (reachable_params hreach).2⟩

/-- After a reset under one seed both environments mirror one over the reference book. -/
theorem reset_mirrors_one {parentQty horizonSteps : Nat} {arrivalMid : Price}
    {checked₁ checked₂ : Bool} {ep₁ : Episode OrderBook Ring₁ Clock₁ F}
    {ep₂ : Episode OrderBook Ring₂ Clock₂ F}
    (h₁ : (episodes cast parentQty horizonSteps arrivalMid checked₁).Reachable ep₁)
    (h₂ : (episodes cast parentQty horizonSteps arrivalMid checked₂).Reachable ep₂) (seed : BitVec 64) :
    ∃ e₁ e₂ E, ep₁.env.reset cast seed = some e₁ ∧ ep₂.env.reset cast seed = some e₂ ∧
      e₁.Mirrors E ∧ e₂.Mirrors E ∧ E.orders = [] ∧ E.Tracked 0 := by
  obtain ⟨EP₁, hf₁, hT₁, hp₁⟩ := reachable_tracked h₁
  obtain ⟨EP₂, hf₂, hT₂, hp₂⟩ := reachable_tracked h₂
  obtain ⟨E₁, E₂, hE₁, hE₂, hstate, hbook, hempty, hT⟩ := reset_agree cast hT₁ hT₂ hp₁ hp₂ seed
  obtain ⟨e₁, he₁, hm₁⟩ := hf₁.env.reset hE₁
  obtain ⟨e₂, he₂, hm₂⟩ := hf₂.env.reset hE₂
  exact ⟨e₁, e₂, E₂, he₁, he₂, hm₁.of_eq hstate hbook, hm₂, hempty, hT⟩

/-- Episode independence: after a reset under one seed, two environments with the same
constructor arguments show the same for ever, whatever either went through before. -/
theorem episode_independence {parentQty horizonSteps : Nat} {arrivalMid : Price}
    {checked₁ checked₂ : Bool} {ep₁ : Episode OrderBook Ring₁ Clock₁ F}
    {ep₂ : Episode OrderBook Ring₂ Clock₂ F}
    (h₁ : (episodes cast parentQty horizonSteps arrivalMid checked₁).Reachable ep₁)
    (h₂ : (episodes cast parentQty horizonSteps arrivalMid checked₂).Reachable ep₂)
    (seed : BitVec 64) (actions : List (List F)) :
    ∃ e₁ e₂ shown, ep₁.env.reset cast seed = some e₁ ∧ ep₂.env.reset cast seed = some e₂ ∧
      e₁.Drained ∧ e₂.Drained ∧ (e₁.view : View F D) = e₂.view ∧
      e₁.observe cast actions = some shown ∧ e₂.observe cast actions = some shown := by
  obtain ⟨e₁, e₂, E, he₁, he₂, hm₁, hm₂, hempty, hT⟩ := reset_mirrors_one h₁ h₂ seed
  obtain ⟨shown₁, hS, hs₁⟩ := observe_eq cast hm₁ hT actions
  obtain ⟨shown₂, hS', hs₂⟩ := observe_eq cast hm₂ hT actions
  obtain rfl : shown₁ = shown₂ := Option.some.inj (hS.symm.trans hS')
  exact ⟨e₁, e₂, shown₁, he₁, he₂, hm₁.drained hempty, hm₂.drained hempty,
    hm₁.view.trans hm₂.view.symm, hs₁, hs₂⟩

/-- An abandoned episode and a fresh environment. -/
theorem episode_independence_abandoned :
    ∃ (ep₁ ep₂ : Episode OrderBook Unit Unit ℚ) (e₁ e₂ : SimEnv OrderBook Unit Unit ℚ)
      (shown : List (Except String (StepReport ℚ) × View ℚ ℚ)),
      ep₁.env.stepIdx = 2 ∧ ep₂.env.stepIdx = 0 ∧
      ep₁.env.reset exactCasts 5 = some e₁ ∧ ep₂.env.reset exactCasts 5 = some e₂ ∧
      e₁.Drained ∧ e₁.observe exactCasts [[1, 1], [1, 0]] = some shown ∧
      e₂.observe exactCasts [[1, 1], [1, 0]] = some shown := by
  obtain ⟨ep₁, EP₁, h₁, hrun₁, hf₁⟩ := exists_run exactCasts () () 1000 32 100 true 2
    [.step [(1 : ℚ), 1], .step [1, 1]] (P := fun _ => True) fun _ _ => trivial
  obtain ⟨ep₂, EP₂, h₂, hrun₂, hf₂⟩ := exists_run (F := ℚ) exactCasts () () 1000 32 100 false 3 []
    (P := fun _ => True) fun _ _ => trivial
  obtain ⟨e₁, e₂, shown, he₁, he₂, hd₁, -, -, hs₁, hs₂⟩ := episode_independence h₁ h₂ 5 [[1, 1], [1, 0]]
  refine ⟨ep₁, ep₂, e₁, e₂, shown, ?_, ?_, he₁, he₂, hd₁, hs₁, hs₂⟩
  · have hval : (refRun exactCasts 1000 32 100 2 [.step [(1 : ℚ), 1], .step [1, 1]]).map
        (fun EP => EP.env.stepIdx) = some 2 := by decide +kernel
    rw [hrun₁] at hval
    rw [hf₁.env.state]
    exact Option.some.inj hval
  · have hval : (refRun (F := ℚ) exactCasts 1000 32 100 3 []).map (fun EP => EP.env.stepIdx) =
        some 0 := by decide +kernel
    rw [hrun₂] at hval
    rw [hf₂.env.state]
    exact Option.some.inj hval

/-- The exogenous flow is independent of the agent: two episodes opened under one seed, both
live at the same step, send the same twelve orders in that step, whatever their actions were. -/
theorem flow_independent {parentQty₁ parentQty₂ horizonSteps₁ horizonSteps₂ : Nat}
    {arrivalMid : Price} {checked₁ checked₂ : Bool} {ep₁ : Episode OrderBook Ring₁ Clock₁ F}
    {ep₂ : Episode OrderBook Ring₂ Clock₂ F}
    (h₁ : (episodes cast parentQty₁ horizonSteps₁ arrivalMid checked₁).Reachable ep₁)
    (h₂ : (episodes cast parentQty₂ horizonSteps₂ arrivalMid checked₂).Reachable ep₂)
    (seed : BitVec 64) (actions₁ actions₂ : List (List F)) :
    ∃ ep₁' ep₂',
      (episodes cast parentQty₁ horizonSteps₁ arrivalMid checked₁).run ep₁
        (.reset seed :: actions₁.map .step) = some ep₁' ∧
      (episodes cast parentQty₂ horizonSteps₂ arrivalMid checked₂).run ep₂
        (.reset seed :: actions₂.map .step) = some ep₂' ∧
      (ep₁'.env.stepIdx = ep₂'.env.stepIdx → ep₁'.env.done = false → ep₂'.env.done = false →
        ∀ action₁ action₂, 2 ≤ action₁.length → 2 ≤ action₂.length →
          ∃ e₁ report₁ e₂ report₂, ep₁'.env.step cast action₁ = some (e₁, .ok report₁) ∧
            ep₂'.env.step cast action₂ = some (e₂, .ok report₂) ∧
            report₁.flow.map Submission.draw = report₂.flow.map Submission.draw ∧
            report₁.flow.length = 12) := by
  obtain ⟨EP₁, hf₁, hT₁, hp₁⟩ := reachable_tracked h₁
  obtain ⟨EP₂, hf₂, hT₂, hp₂⟩ := reachable_tracked h₂
  obtain ⟨ep₁', EP₁', hrun₁, hRun₁, hT₁', hf₁'⟩ := hf₁.run cast parentQty₁ horizonSteps₁ arrivalMid
    checked₁ hT₁ (.reset seed :: actions₁.map .step)
  obtain ⟨ep₂', EP₂', hrun₂, hRun₂, hT₂', hf₂'⟩ := hf₂.run cast parentQty₂ horizonSteps₂ arrivalMid
    checked₂ hT₂ (.reset seed :: actions₂.map .step)
  refine ⟨ep₁', ep₂', hrun₁, hrun₂, fun ht hd₁ hd₂ action₁ action₂ hlen₁ hlen₂ => ?_⟩
  rw [hf₁'.env.state] at ht hd₁
  rw [hf₂'.env.state] at ht hd₂
  obtain ⟨E₁, report₁, hE₁, hflow₁⟩ := ref_flow hT₁ hp₁ actions₁ hRun₁ hd₁ hlen₁
  obtain ⟨E₂, report₂, hE₂, hflow₂⟩ := ref_flow hT₂ hp₂ actions₂ hRun₂ hd₂ hlen₂
  obtain ⟨e₁, he₁, -⟩ := hf₁'.env.step hT₁' hE₁
  obtain ⟨e₂, he₂, -⟩ := hf₂'.env.step hT₂' hE₂
  refine ⟨e₁, report₁, e₂, report₂, he₁, he₂, ?_, ?_⟩
  · rw [hflow₁, hflow₂, ht]
  · rw [← List.length_map Submission.draw, hflow₁]
    rfl

/-- An agent that sells and one that waits meet the same second step. -/
theorem flow_independent_sell_or_wait :
    ∃ (ep₁ ep₂ : Episode OrderBook Unit Unit ℚ) (e₁ e₂ : SimEnv OrderBook Unit Unit ℚ)
      (report₁ report₂ : StepReport ℚ), ep₁.env.qtyFilled ≠ ep₂.env.qtyFilled ∧
      ep₁.env.step exactCasts [1, 1] = some (e₁, .ok report₁) ∧
      ep₂.env.step exactCasts [0, 0] = some (e₂, .ok report₂) ∧
      report₁.flow.map Submission.draw = report₂.flow.map Submission.draw := by
  obtain ⟨ep, E, hinit, hE, hf, hT⟩ := exists_start (F := ℚ) exactCasts () () 1000 32 100 true 3
  have hreach : (episodes exactCasts 1000 32 100 true).Reachable ep := .init hinit
  obtain ⟨ep₁, ep₂, hrun₁, hrun₂, h⟩ := flow_independent hreach hreach 2 [[1, 1]] [[0, 0]]
  have hval : ∀ action : List ℚ, ∀ out, (refRun exactCasts 1000 32 100 3 [.reset 2, .step action]).map
      (fun EP => (EP.env.stepIdx, EP.env.done, EP.env.qtyFilled)) = some out →
      ∀ ep', (episodes exactCasts 1000 32 100 true).run ep (.reset 2 :: [action].map .step) = some ep' →
        (ep'.env.stepIdx, ep'.env.done, ep'.env.qtyFilled) = out := by
    intro action out hout ep' hrun
    obtain ⟨ep1, EP1, hrun1, hRun1, -, hf1⟩ := hf.run exactCasts 1000 32 100 true hT
      (.reset 2 :: [action].map .step)
    obtain rfl : ep1 = ep' := Option.some.inj (hrun1.symm.trans hrun)
    rw [refRun, hE] at hout
    change ((refEpisodes exactCasts 1000 32 100).run (start E) [.reset 2, .step action]).map _ = _ at hout
    rw [show [Call.reset 2, .step action] = .reset 2 :: [action].map Call.step from rfl, hRun1] at hout
    rw [hf1.env.state]
    exact Option.some.inj hout
  have h₁ := hval [1, 1] (1, false, 30) (by decide +kernel) ep₁ hrun₁
  have h₂ := hval [0, 0] (1, false, 0) (by decide +kernel) ep₂ hrun₂
  simp only [Prod.mk.injEq] at h₁ h₂
  obtain ⟨hidx₁, hd₁, hq₁⟩ := h₁
  obtain ⟨hidx₂, hd₂, hq₂⟩ := h₂
  obtain ⟨e₁, report₁, e₂, report₂, he₁, he₂, heq, -⟩ :=
    h (hidx₁.trans hidx₂.symm) hd₁ hd₂ [1, 1] [0, 0] le_rfl le_rfl
  refine ⟨ep₁, ep₂, e₁, e₂, report₁, report₂, ?_, he₁, he₂, heq⟩
  rw [hq₁, hq₂]
  decide

end Independence
end ExecutionPlatform.Bindings
