import ExecutionPlatform.Bindings.SimRefinement
import ExecutionPlatform.Foundations.Machine

/-! Runs of an environment: any calls, from any construction. Every run is followed by one
over the reference book, and after a reset nothing of the past can be seen. -/
namespace ExecutionPlatform.Bindings
open ExecutionPlatform.Core External Exec Foundations

/-- What a client of the environment calls. -/
inductive Call (F : Type) where
  | step (action : List F)
  | reset (seed : BitVec 64)

/-- An environment with the record of its present episode: all fills, the synthetic orders
with the step that sent them, the child orders, and how often the terminal penalty was
charged. -/
structure Episode (B Ring Clock F : Type) where
  env : SimEnv B Ring Clock F
  fills : List Fill
  flow : List (Nat × Submission)
  children : List Submission
  charges : Nat

namespace Episode
variable {B Ring Clock F D : Type}

def start (env : SimEnv B Ring Clock F) : Episode B Ring Clock F := ⟨env, [], [], [], 0⟩

/-- Write a step's outcome into the record. -/
def record (ep : Episode B Ring Clock F) (env : SimEnv B Ring Clock F) :
    Except String (StepReport F) → Episode B Ring Clock F
  | .error _ => { ep with env := env }
  | .ok report =>
    { env := env
      fills := ep.fills ++ report.fills
      flow := ep.flow ++ report.flow.map fun s => (ep.env.stepIdx, s)
      children := ep.children ++ report.child.toList
      charges := ep.charges + if report.charged then 1 else 0 }

variable [EventRing Ring] [ClockFn Clock] [MachineFloat F] [MachineFloat D]

def call [MatchingBook B] (cast : Casts F D) (ep : Episode B Ring Clock F) :
    Call F → Option (Episode B Ring Clock F)
  | .step action => do
    let (env, out) ← ep.env.step cast action
    pure (ep.record env out)
  | .reset seed => do
    let env ← ep.env.reset cast seed
    pure (start env)

/-- What a call that succeeds was: a short action, a recorded step, or a reset. -/
theorem call_cases [MatchingBook B] {cast : Casts F D} {ep ep' : Episode B Ring Clock F} {c : Call F}
    (h : ep.call cast c = some ep') :
    (∃ action, c = .step action ∧ action.length < 2 ∧ ep' = ep) ∨
    (∃ sizeFrac aggression rest env report, c = .step (sizeFrac :: aggression :: rest) ∧
      ep.env.stepImpl cast (SimEnv.clampUnit sizeFrac) (SimEnv.clampUnit aggression) = some (env, report) ∧
      ep' = ep.record (env.writeState cast) (.ok report)) ∨
    ∃ seed env, c = .reset seed ∧ ep.env.reset cast seed = some env ∧ ep' = start env := by
  cases c with
  | reset seed =>
    obtain ⟨env, hreset, h⟩ := Option.bind_eq_some_iff.mp h
    exact .inr (.inr ⟨seed, env, rfl, hreset, (Option.some.inj h).symm⟩)
  | step action =>
    obtain ⟨⟨env, out⟩, hstep, h⟩ := Option.bind_eq_some_iff.mp h
    obtain rfl := Option.some.inj h
    rcases action with _ | ⟨sizeFrac, _ | ⟨aggression, rest⟩⟩
    · obtain ⟨rfl, rfl⟩ := Prod.mk.inj (Option.some.inj hstep)
      exact .inl ⟨_, rfl, Nat.zero_lt_two, rfl⟩
    · obtain ⟨rfl, rfl⟩ := Prod.mk.inj (Option.some.inj hstep)
      exact .inl ⟨_, rfl, Nat.one_lt_two, rfl⟩
    · obtain ⟨⟨env1, report⟩, himpl, hstep⟩ := Option.bind_eq_some_iff.mp hstep
      obtain ⟨rfl, rfl⟩ := Prod.mk.inj (Option.some.inj hstep)
      exact .inr (.inl ⟨sizeFrac, aggression, rest, env1, report, rfl, himpl, rfl⟩)

end Episode

section Machines
variable {Ring Clock F D : Type} [EventRing Ring] [ClockFn Clock] [MachineFloat F] [MachineFloat D]

/-- The environments of given constructor arguments, under any seed, ring and clock. -/
def episodes (cast : Casts F D) (parentQty horizonSteps : Nat) (arrivalMid : Price) (checked : Bool) :
    Machine (Episode OrderBook Ring Clock F) (Call F) where
  init ep := ∃ book ring clock seed env,
    OrderBook.new kBookCapacity OrderBook.defaultMinPrice OrderBook.defaultMaxPrice checked = some book ∧
    SimEnv.new cast book ring clock parentQty horizonSteps seed arrivalMid = some env ∧
    ep = .start env
  step := Episode.call cast

/-- The same environments over the reference book. -/
def refEpisodes (cast : Casts F D) (parentQty horizonSteps : Nat) (arrivalMid : Price) :
    Machine (Episode RefBook Unit Unit F) (Call F) where
  init ep := ∃ seed env,
    SimEnv.new cast SimEnv.startBook () () parentQty horizonSteps seed arrivalMid = some env ∧
    ep = .start env
  step := Episode.call cast

end Machines

namespace Episode
variable {Ring Clock F D : Type}

/-- The episode ep and the reference episode EP have one record and mirroring environments. -/
structure Follows (ep : Episode OrderBook Ring Clock F) (EP : Episode RefBook Unit Unit F) : Prop where
  env : ep.env.Mirrors EP.env
  fills : ep.fills = EP.fills
  flow : ep.flow = EP.flow
  children : ep.children = EP.children
  charges : ep.charges = EP.charges

theorem Follows.record {ep : Episode OrderBook Ring Clock F} {EP : Episode RefBook Unit Unit F}
    {e : SimEnv OrderBook Ring Clock F} {E : SimEnv RefBook Unit Unit F} (h : ep.Follows EP)
    (he : e.Mirrors E) (out : Except String (StepReport F)) :
    (ep.record e out).Follows (EP.record E out) := by
  cases out with
  | error msg => exact ⟨he, h.fills, h.flow, h.children, h.charges⟩
  | ok report =>
    have hidx : ep.env.stepIdx = EP.env.stepIdx := congrArg EnvState.stepIdx h.env.state
    refine ⟨he, ?_, ?_, ?_, ?_⟩
    · rw [Episode.record, Episode.record, h.fills]
    · rw [Episode.record, Episode.record, h.flow, hidx]
    · rw [Episode.record, Episode.record, h.children]
    · rw [Episode.record, Episode.record, h.charges]

variable [EventRing Ring] [ClockFn Clock] [MachineFloat F] [MachineFloat D]

/-- Everything a Step call does to a tracked reference environment. -/
theorem ref_step {E : SimEnv RefBook Unit Unit F} (hT : E.Tracked 0) (cast : Casts F D)
    (action : List F) :
    ∃ E' out, E.step cast action = some (E', out) ∧ E'.Tracked 0 ∧
      ((∃ msg, out = .error msg ∧ E' = E ∧ action.length < 2) ∨
        ∃ sizeFrac aggression rest, action = sizeFrac :: aggression :: rest ∧
          (E.done = true ∧ E' = E.writeState cast ∧
              out = .ok ⟨((0 : Nat) : F), [], [], none, false⟩ ∨
            E.done = false ∧ ∃ E1 report start mid bgFills, E1.Tracked 0 ∧
              SimEnv.StepEffect cast (SimEnv.clampUnit sizeFrac) (SimEnv.clampUnit aggression) E E1
                report start mid bgFills ∧
              E' = E1.writeState cast ∧ out = .ok report)) := by
  match action with
  | [] => exact ⟨E, _, rfl, hT, .inl ⟨_, rfl, rfl, Nat.zero_lt_two⟩⟩
  | [_] => exact ⟨E, _, rfl, hT, .inl ⟨_, rfl, rfl, Nat.one_lt_two⟩⟩
  | sizeFrac :: aggression :: rest =>
    cases hd : E.done with
    | true =>
      refine ⟨_, _, ?_, hT.writeState cast, .inr ⟨sizeFrac, aggression, rest, rfl, .inl ⟨rfl, rfl, rfl⟩⟩⟩
      rw [SimEnv.step, SimEnv.stepImpl_done hd]
      rfl
    | false =>
      obtain ⟨E1, report, he, hT1, start, mid, bgFills, heffect⟩ := hT.stepImpl hd cast (SimEnv.clampUnit sizeFrac)
        (SimEnv.clampUnit aggression)
      refine ⟨_, _, ?_, hT1.writeState cast, .inr ⟨sizeFrac, aggression, rest, rfl,
        .inr ⟨rfl, E1, report, start, mid, bgFills, hT1, heffect, rfl, rfl⟩⟩⟩
      rw [SimEnv.step, he]
      rfl

/-- A reset always succeeds and leaves a cleared environment with an empty book. -/
theorem ref_reset {k : Nat} {E : SimEnv RefBook Unit Unit F} (hT : E.Tracked k) (cast : Casts F D)
    (seed : BitVec 64) :
    ∃ P, E.reset cast seed =
        some ((SimEnv.cleared { E with rng := E.rng.reseed seed } P).writeState cast) ∧
      SimEnv.startBook.SameShape P.book ∧ P.book.orders = [] := by
  have hT' : SimEnv.Tracked k { E with rng := E.rng.reseed seed } := { hT with }
  obtain ⟨P, he, hshape, hempty⟩ := hT'.resetInternal
  refine ⟨P, ?_, hshape, hempty⟩
  rw [SimEnv.reset, he]
  rfl

/-- What a constructed environment starts from. -/
theorem ref_new {cast : Casts F D} {parentQty horizonSteps : Nat} {seed : BitVec 64}
    {arrivalMid : Price} {E : SimEnv RefBook Unit Unit F}
    (h : SimEnv.new cast SimEnv.startBook () () parentQty horizonSteps seed arrivalMid = some E) :
    ∃ E0, E = (SimEnv.cleared E0 E0.publisher).writeState cast ∧
      SimEnv.startBook.SameShape E0.publisher.book ∧ E0.publisher.book.orders = [] ∧
      E0.rng = .new seed ∧ E0.parentQty = (if parentQty ≠ 0 then parentQty else 1) ∧
      E0.horizonSteps = (if horizonSteps ≠ 0 then horizonSteps else 1) ∧ E0.arrivalMid = arrivalMid := by
  obtain rfl := Option.some.inj h
  exact ⟨_, rfl, ⟨rfl, rfl, rfl⟩, rfl, rfl, rfl, rfl, rfl⟩

theorem ref_new_tracked {cast : Casts F D} {parentQty horizonSteps : Nat} {seed : BitVec 64}
    {arrivalMid : Price} {E : SimEnv RefBook Unit Unit F}
    (h : SimEnv.new cast SimEnv.startBook () () parentQty horizonSteps seed arrivalMid = some E) :
    E.Tracked 0 := by
  obtain ⟨E0, rfl, hshape, hempty, -⟩ := ref_new h
  exact (SimEnv.cleared_tracked hshape hempty).writeState cast

/-- An environment at the start of an episode under the given seed. -/
structure Opened (seed : BitVec 64) (E : SimEnv RefBook Unit Unit F) : Prop where
  tracked : E.Tracked 0
  orders : E.orders = []
  rng : E.rng = .new seed
  remaining : E.remaining = E.parentQty
  qtyFilled : E.qtyFilled = 0
  cashFromFills : E.cashFromFills = 0
  stepIdx : E.stepIdx = 0
  done : E.done = false
  nextId : E.nextId = 1
  restingIds : E.restingIds = []
  bgIds : E.bgIds = []
  bgBirth : E.bgBirth = []
  bgHead : E.bgHead = 0

theorem opened_cleared {E : SimEnv RefBook Unit Unit F} {P : TelemetryPublisher RefBook Unit Unit}
    (cast : Casts F D) {seed : BitVec 64} (hshape : SimEnv.startBook.SameShape P.book)
    (hP : P.book.orders = []) (hrng : E.rng = .new seed) :
    Opened seed ((SimEnv.cleared E P).writeState cast) where
  tracked := (SimEnv.cleared_tracked hshape hP).writeState cast
  orders := hP
  rng := hrng
  remaining := rfl
  qtyFilled := rfl
  cashFromFills := rfl
  stepIdx := rfl
  done := rfl
  nextId := rfl
  restingIds := rfl
  bgIds := rfl
  bgBirth := rfl
  bgHead := rfl

/-- The constructor's arguments, which no call changes. -/
structure Params (parentQty horizonSteps : Nat) (arrivalMid : Price) (s : EnvState F) : Prop where
  parentQty : s.parentQty = if parentQty ≠ 0 then parentQty else 1
  horizonSteps : s.horizonSteps = if horizonSteps ≠ 0 then horizonSteps else 1
  arrivalMid : s.arrivalMid = arrivalMid

theorem Params.step {cast : Casts F D} {parentQty horizonSteps : Nat} {arrivalMid : Price}
    {sizeFrac aggression : F} {E E' start mid : SimEnv RefBook Unit Unit F} {report : StepReport F}
    {bgFills : List Fill} (h : Params parentQty horizonSteps arrivalMid E.toEnvState)
    (heffect : SimEnv.StepEffect cast sizeFrac aggression E E' report start mid bgFills) :
    Params parentQty horizonSteps arrivalMid E'.toEnvState := by
  have hstart : Params parentQty horizonSteps arrivalMid start.toEnvState := by
    rw [heffect.churn]
    exact { h with }
  have hacc := heffect.flow.account
  have hmid : Params parentQty horizonSteps arrivalMid mid.toEnvState :=
    ⟨hacc.parentQty.trans hstart.parentQty, hacc.horizonSteps.trans hstart.horizonSteps,
      hacc.arrivalMid.trans hstart.arrivalMid⟩
  rcases heffect.branch with ⟨-, hidle⟩ | ⟨-, s, fills, -, hchild⟩
  · obtain ⟨rfl, -⟩ := Prod.mk.inj hidle
    rw [SimEnv.maybeCloseOut_eq]
    exact { hmid with }
  · exact ⟨hchild.parentQty.trans hmid.parentQty, hchild.horizonSteps.trans hmid.horizonSteps,
      hchild.arrivalMid.trans hmid.arrivalMid⟩

/-- A reset opens an episode under its seed. -/
theorem ref_reset_opened {parentQty horizonSteps : Nat} {arrivalMid : Price}
    {E : SimEnv RefBook Unit Unit F} (hT : E.Tracked 0)
    (hparams : Params parentQty horizonSteps arrivalMid E.toEnvState) (cast : Casts F D)
    (seed : BitVec 64) :
    ∃ E', E.reset cast seed = some E' ∧ Opened seed E' ∧
      Params parentQty horizonSteps arrivalMid E'.toEnvState := by
  obtain ⟨P, hE, hshape, hempty⟩ := ref_reset hT cast seed
  have hopened := opened_cleared (E := { E with rng := E.rng.reseed seed }) cast hshape hempty
    (show (E.rng.reseed seed) = .new seed from rfl)
  exact ⟨_, hE, hopened, { hparams with }⟩

/-- What does not look at the state vector and survives a live step, survives every Step call. -/
theorem ref_step_keeps {cast : Casts F D} {parentQty horizonSteps : Nat} {arrivalMid : Price}
    {action : List F} {EP EP' : Episode RefBook Unit Unit F} {I : Episode RefBook Unit Unit F → Prop}
    (hwrite : ∀ EP, I EP → I { EP with env := EP.env.writeState cast })
    (hstep : ∀ E' report start mid bgFills sizeFrac aggression rest,
      action = sizeFrac :: aggression :: rest → EP.env.done = false → E'.Tracked 0 →
      SimEnv.StepEffect cast (SimEnv.clampUnit sizeFrac) (SimEnv.clampUnit aggression) EP.env E' report
        start mid bgFills → I (EP.record E' (.ok report)))
    (hT : EP.env.Tracked 0) (hparams : Params parentQty horizonSteps arrivalMid EP.env.toEnvState)
    (hI : I EP) (hcall : EP.call cast (.step action) = some EP') :
    I EP' ∧ EP'.env.Tracked 0 ∧ Params parentQty horizonSteps arrivalMid EP'.env.toEnvState := by
  obtain ⟨E', out, hE, hT', hcases⟩ := ref_step hT cast action
  rw [Episode.call, hE] at hcall
  obtain rfl := Option.some.inj hcall
  rcases hcases with ⟨msg, rfl, rfl, -⟩ | ⟨sizeFrac, aggression, rest, haction, hcases⟩
  · exact ⟨hI, hT, hparams⟩
  rcases hcases with ⟨-, rfl, rfl⟩ | ⟨hd, E1, report, start, mid, bgFills, hT1, heffect, rfl, rfl⟩
  · have hsame : EP.record (EP.env.writeState cast) (.ok ⟨((0 : Nat) : F), [], [], none, false⟩) =
        { EP with env := EP.env.writeState cast } := by simp [Episode.record]
    exact ⟨hsame ▸ hwrite EP hI, hT', { hparams with }⟩
  · exact ⟨hwrite _ (hstep E1 report start mid bgFills sizeFrac aggression rest haction hd hT1 heffect),
      hT', { hparams.step heffect with }⟩

/-- The invariant rule for reference episodes: what holds when an episode opens, does not
look at the state vector, and survives a live step, holds in every reachable one. -/
theorem ref_invariant {cast : Casts F D} {parentQty horizonSteps : Nat} {arrivalMid : Price}
    {ok : Episode RefBook Unit Unit F → Call F → Prop} {I : Episode RefBook Unit Unit F → Prop}
    (hopen : ∀ seed E, Opened seed E → Params parentQty horizonSteps arrivalMid E.toEnvState →
      I (.start E))
    (hwrite : ∀ EP, I EP → I { EP with env := EP.env.writeState cast })
    (hstep : ∀ EP E' report start mid bgFills sizeFrac aggression rest,
      EP.env.Tracked 0 → Params parentQty horizonSteps arrivalMid EP.env.toEnvState →
      EP.env.done = false → ok EP (.step (sizeFrac :: aggression :: rest)) → E'.Tracked 0 →
      SimEnv.StepEffect cast (SimEnv.clampUnit sizeFrac) (SimEnv.clampUnit aggression) EP.env E' report
        start mid bgFills → I EP → I (EP.record E' (.ok report)))
    {EP : Episode RefBook Unit Unit F}
    (h : (refEpisodes cast parentQty horizonSteps arrivalMid).ReachableVia ok EP) :
    I EP ∧ EP.env.Tracked 0 ∧ Params parentQty horizonSteps arrivalMid EP.env.toEnvState := by
  refine h.invariant (I := fun EP => I EP ∧ EP.env.Tracked 0 ∧
    Params parentQty horizonSteps arrivalMid EP.env.toEnvState) ?_ ?_
  · rintro EP ⟨seed, E, hnew, rfl⟩
    obtain ⟨E0, rfl, hshape, hempty, hrng, hp, hh, hm⟩ := ref_new hnew
    have hopened := opened_cleared cast hshape hempty hrng
    have hparams : Params parentQty horizonSteps arrivalMid
        ((SimEnv.cleared E0 E0.publisher).writeState cast).toEnvState := ⟨hp, hh, hm⟩
    exact ⟨hopen seed _ hopened hparams, hopened.tracked, hparams⟩
  · rintro EP c EP' hc ⟨hI, hT, hparams⟩ hcall
    cases c with
    | reset seed =>
      obtain ⟨E', hE, hopened, hparams'⟩ := ref_reset_opened hT hparams cast seed
      have hcall' : EP.call cast (.reset seed) = some EP' := hcall
      rw [Episode.call, hE] at hcall'
      obtain rfl := Option.some.inj hcall'
      exact ⟨hopen seed _ hopened hparams', hopened.tracked, hparams'⟩
    | step action =>
      refine ref_step_keeps hwrite ?_ hT hparams hI hcall
      rintro E' report start mid bgFills sizeFrac aggression rest rfl hd hT1 heffect
      exact hstep EP E' report start mid bgFills sizeFrac aggression rest hT hparams hd hc hT1 heffect hI

/-- Every reachable reference episode is tracked, under the constructor's arguments. -/
theorem reachable_params {cast : Casts F D} {parentQty horizonSteps : Nat} {arrivalMid : Price}
    {ok : Episode RefBook Unit Unit F → Call F → Prop} {EP : Episode RefBook Unit Unit F}
    (h : (refEpisodes cast parentQty horizonSteps arrivalMid).ReachableVia ok EP) :
    EP.env.Tracked 0 ∧ Params parentQty horizonSteps arrivalMid EP.env.toEnvState :=
  (ref_invariant (I := fun _ => True) (fun _ _ _ _ => trivial) (fun _ _ => trivial)
    (fun _ _ _ _ _ _ _ _ _ _ _ _ _ _ _ _ => trivial) h).2

/-- Every call succeeds, and one record and mirroring environments come out. -/
theorem Follows.call {ep : Episode OrderBook Ring Clock F} {EP : Episode RefBook Unit Unit F}
    (h : ep.Follows EP) (hT : EP.env.Tracked 0) (cast : Casts F D) (c : Call F) :
    ∃ ep' EP', ep.call cast c = some ep' ∧ EP.call cast c = some EP' ∧ EP'.env.Tracked 0 ∧
      ep'.Follows EP' := by
  cases c with
  | step action =>
    obtain ⟨E', out, hE, hT', -⟩ := ref_step hT cast action
    obtain ⟨e', he, hm⟩ := h.env.step hT hE
    refine ⟨ep.record e' out, EP.record E' out, ?_, ?_, ?_, h.record hm out⟩
    · rw [Episode.call, he]
      rfl
    · rw [Episode.call, hE]
      rfl
    · cases out <;> exact hT'
  | reset seed =>
    obtain ⟨P, hE, hshape, hempty⟩ := ref_reset hT cast seed
    obtain ⟨e', he, hm⟩ := h.env.reset hE
    refine ⟨.start e', .start _, ?_, ?_, (SimEnv.cleared_tracked hshape hempty).writeState cast,
      hm, rfl, rfl, rfl, rfl⟩
    · rw [Episode.call, he]
      rfl
    · rw [Episode.call, hE]
      rfl

/-- Every sequence of calls can be run, over either book. -/
theorem Follows.run {ep : Episode OrderBook Ring Clock F} {EP : Episode RefBook Unit Unit F}
    (h : ep.Follows EP) (cast : Casts F D) (parentQty horizonSteps : Nat) (arrivalMid : Price)
    (checked : Bool) (hT : EP.env.Tracked 0) (calls : List (Call F)) :
    ∃ ep' EP', (episodes cast parentQty horizonSteps arrivalMid checked).run ep calls = some ep' ∧
      (refEpisodes cast parentQty horizonSteps arrivalMid).run EP calls = some EP' ∧
      EP'.env.Tracked 0 ∧ ep'.Follows EP' := by
  induction calls generalizing ep EP with
  | nil => exact ⟨ep, EP, rfl, rfl, hT, h⟩
  | cons c calls ih =>
    obtain ⟨ep1, EP1, h1, h2, hT1, hf1⟩ := h.call hT cast c
    obtain ⟨ep2, EP2, h3, h4, hT2, hf2⟩ := ih hf1 hT1
    refine ⟨ep2, EP2, ?_, ?_, hT2, hf2⟩
    · rw [Machine.run]
      exact Option.bind_eq_some_iff.mpr ⟨ep1, h1, h3⟩
    · rw [Machine.run]
      exact Option.bind_eq_some_iff.mpr ⟨EP1, h2, h4⟩

/-- A run over the reference book, from construction. -/
def refRun (cast : Casts F D) (parentQty horizonSteps : Nat) (arrivalMid : Price) (seed : BitVec 64)
    (calls : List (Call F)) : Option (Episode RefBook Unit Unit F) := do
  let env ← SimEnv.new cast SimEnv.startBook () () parentQty horizonSteps seed arrivalMid
  (refEpisodes cast parentQty horizonSteps arrivalMid).run (.start env) calls

/-- The environment can be built, over either book. -/
theorem exists_start (cast : Casts F D) (ring : Ring) (clock : Clock) (parentQty horizonSteps : Nat)
    (arrivalMid : Price) (checked : Bool) (seed : BitVec 64) :
    ∃ (ep : Episode OrderBook Ring Clock F) (E : SimEnv RefBook Unit Unit F),
      (episodes cast parentQty horizonSteps arrivalMid checked).init ep ∧
      SimEnv.new cast SimEnv.startBook () () parentQty horizonSteps seed arrivalMid = some E ∧
      ep.Follows (start E) ∧ E.Tracked 0 := by
  obtain ⟨book, hbook, -⟩ := OrderBook.new_refines kBookCapacity OrderBook.defaultMinPrice
    OrderBook.defaultMaxPrice checked (by decide) (by decide)
  obtain ⟨e, E, he, hE, hm⟩ := SimEnv.Mirrors.new cast ring clock parentQty horizonSteps seed
    arrivalMid hbook
  exact ⟨start e, E, ⟨book, ring, clock, seed, e, hbook, he, rfl⟩, hE, ⟨hm, rfl, rfl, rfl, rfl⟩,
    ref_new_tracked hE⟩

/-- Every sequence of calls can be run from construction, over either book, with one record. -/
theorem exists_run (cast : Casts F D) (ring : Ring) (clock : Clock) (parentQty horizonSteps : Nat)
    (arrivalMid : Price) (checked : Bool) (seed : BitVec 64) {P : Call F → Prop}
    (calls : List (Call F)) (hP : ∀ c ∈ calls, P c) :
    ∃ (ep : Episode OrderBook Ring Clock F) (EP : Episode RefBook Unit Unit F),
      (episodes cast parentQty horizonSteps arrivalMid checked).ReachableVia (fun _ c => P c) ep ∧
      refRun cast parentQty horizonSteps arrivalMid seed calls = some EP ∧ ep.Follows EP := by
  obtain ⟨ep, E, hinit, hE, hf, hT⟩ := exists_start cast ring clock parentQty horizonSteps arrivalMid
    checked seed
  obtain ⟨ep', EP', hrun, hRun, -, hf'⟩ := hf.run cast parentQty horizonSteps arrivalMid checked hT calls
  refine ⟨ep', EP', ?_, ?_, hf'⟩
  · exact Machine.ReachableVia.run (.init hinit) (fun c hc _ => hP c hc) hrun
  · rw [refRun, hE]
    exact hRun

/-- Every run is followed by a run over the reference book. -/
theorem reachable_follows {cast : Casts F D} {parentQty horizonSteps : Nat} {arrivalMid : Price}
    {checked : Bool} {ok : Episode OrderBook Ring Clock F → Call F → Prop}
    {P : Episode RefBook Unit Unit F → Call F → Prop}
    (hok : ∀ {ep EP c}, ep.Follows EP → EP.env.Tracked 0 → ok ep c → P EP c)
    {ep : Episode OrderBook Ring Clock F}
    (h : (episodes cast parentQty horizonSteps arrivalMid checked).ReachableVia ok ep) :
    ∃ EP, (refEpisodes cast parentQty horizonSteps arrivalMid).ReachableVia P EP ∧
      ep.Follows EP ∧ EP.env.Tracked 0 := by
  refine h.simulate (R := fun ep EP => ep.Follows EP ∧ EP.env.Tracked 0) ?_ ?_
  · rintro ep ⟨book, ring, clock, seed, env, hbook, hnew, rfl⟩
    obtain ⟨e, E, he, hE, hm⟩ := SimEnv.Mirrors.new cast ring clock parentQty horizonSteps seed
      arrivalMid hbook
    obtain rfl : e = env := Option.some.inj (he.symm.trans hnew)
    exact ⟨.start E, ⟨seed, E, hE, rfl⟩, ⟨hm, rfl, rfl, rfl, rfl⟩, ref_new_tracked hE⟩
  · rintro ep EP c ep' ⟨hf, hT⟩ hc hstep
    obtain ⟨ep1, EP', he, hE, hT', hf'⟩ := hf.call hT cast c
    obtain rfl : ep1 = ep' := Option.some.inj (he.symm.trans hstep)
    exact ⟨hok hf hT hc, EP', hE, hf', hT'⟩

end Episode
end ExecutionPlatform.Bindings
