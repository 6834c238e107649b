import ExecutionPlatform.Bindings.TelemetryTape
import ExecutionPlatform.Bindings.Episode
import ExecutionPlatform.Exec.TelemetryBudget

/-! The ring of the bridge is large enough: what an environment emits is bounded by its Step
calls, and a relay that is still to run loses none of it. -/
namespace ExecutionPlatform.Bindings
open ExecutionPlatform.Core External Exec Foundations

variable {Ring Clock : Type} [EventRing Ring]

instance : MeteredRing (Tape Ring) where
  pushes t := t.accepted.length + t.dropped
  pushes_tryPush t event := by
    simp only [EventRing.tryPush]
    split_ifs
    · rw [List.length_append, List.length_singleton, Nat.add_right_comm]
    · rw [Nat.add_assoc]

section Publisher
variable [MeteredRing Ring] [ClockFn Clock] {p p' : TelemetryPublisher OrderBook Ring Clock}

/-- The fused child path publishes what the publisher would. -/
theorem submitChild_paid {R : RefBook} {rs : List Nat} (h : p.book.Refines R rs) {id : OrderId}
    {price : Price} {qty : Quantity} (hdup : ¬ R.RestsDuplicate (.addLimit id .sell price qty))
    {seq seq' : Nat} {fills : List Fill} {ok : Bool}
    (hp : submitChild p seq id price qty = some (p', seq', fills, ok)) :
    (∃ rs', p'.book.Refines (R.addLimit id .sell price qty).1 rs') ∧ p'.committed ≤ p.committed + 2 := by
  obtain ⟨⟨b', fills', ok'⟩, hb, hp⟩ := Option.bind_eq_some_iff.mp hp
  obtain ⟨rfl, -⟩ := Prod.mk.inj (Option.some.inj hp)
  have hout : ({ p.out with seq := seq } : Outlet Ring Clock).emitted = p.out.emitted := rfl
  exact TelemetryPublisher.report_paid h hdup hb hout rfl

end Publisher

namespace Desk
variable [ClockFn Clock] {d d' : Desk Ring Clock} {R : RefBook} {rs : List Nat}

theorem step_paid (h : d.publisher.book.Refines R rs) {op : TapeOp} (hop : R.Admissible op.call)
    (hd : d.step op = some d') :
    (∃ rs', d'.publisher.book.Refines (R.step op.call).1 rs') ∧
      d'.publisher.committed ≤ d.publisher.committed + op.call.pay := by
  cases op with
  | addLimit id side price qty =>
    obtain ⟨⟨p', fills, ok⟩, hp, hd⟩ := Option.bind_eq_some_iff.mp hd
    obtain rfl := Option.some.inj hd
    exact TelemetryPublisher.addLimit_paid h hop.not_restsDuplicate hp
  | cancel id =>
    obtain ⟨⟨p', ok⟩, hp, hd⟩ := Option.bind_eq_some_iff.mp hd
    obtain rfl := Option.some.inj hd
    exact TelemetryPublisher.cancel_paid h hp
  | child id price qty =>
    obtain ⟨⟨p', fusedSeq, fills, ok⟩, hp, hd⟩ := Option.bind_eq_some_iff.mp hd
    obtain rfl := Option.some.inj hd
    exact submitChild_paid h hop.not_restsDuplicate hp

theorem run_paid {ops : List TapeOp} (h : d.publisher.book.Refines R rs)
    (hops : R.AdmissibleRun (ops.map TapeOp.call)) (hd : d.run ops = some d') :
    d'.publisher.committed ≤ d.publisher.committed + (ops.map fun op => op.call.pay).sum := by
  induction ops generalizing d R rs with
  | nil =>
    obtain rfl := Option.some.inj hd
    exact Nat.le_add_right _ _
  | cons op ops ih =>
    obtain ⟨d1, h1, hd⟩ := Option.bind_eq_some_iff.mp hd
    obtain ⟨⟨rs1, hr⟩, hone⟩ := step_paid h hops.1 h1
    have hrest := ih hr hops.2 hd
    rw [List.map_cons, List.sum_cons]
    omega

end Desk

/-- After any run of both AddLimit paths and Cancel from an empty book, whatever the ring: the
events pushed, dropped ones included, and the orders still resting are at most two for each
AddLimit. -/
theorem tape_budget [ClockFn Clock] {orderCapacity : Nat} {minPrice maxPrice : Price}
    {ops : List TapeOp} (checked : Bool) (hcap : orderCapacity < 2 ^ 57) (hband : minPrice ≤ maxPrice)
    (hops : (RefBook.new orderCapacity minPrice maxPrice).AdmissibleRun (ops.map TapeOp.call))
    (ring : Ring) (clock : Clock) (seq fusedSeq : Nat) :
    ∃ b d, OrderBook.new orderCapacity minPrice maxPrice checked = some b ∧
      Desk.run ⟨⟨b, ⟨⟨ring, [], 0⟩, clock, seq⟩⟩, fusedSeq⟩ ops = some d ∧
      d.publisher.out.ring.accepted.length + d.publisher.out.ring.dropped +
        d.publisher.book.openOrderCount ≤ (ops.map fun op => op.call.pay).sum := by
  obtain ⟨b, hnew, href⟩ := OrderBook.new_refines orderCapacity minPrice maxPrice checked hcap hband
  have hstart : Desk.Tracks (⟨⟨b, ⟨⟨ring, [], 0⟩, clock, seq⟩⟩, fusedSeq⟩ : Desk Ring Clock)
      (RefBook.new orderCapacity minPrice maxPrice) := ⟨⟨_, href⟩, fun _ => rfl⟩
  obtain ⟨d, -, hrun, -⟩ := hstart.run hops
  refine ⟨b, d, hnew, hrun, ?_⟩
  have hpaid := Desk.run_paid href hops hrun
  have hzero : (⟨b, ⟨⟨ring, [], 0⟩, clock, seq⟩⟩ :
      TelemetryPublisher OrderBook (Tape Ring) Clock).committed = 0 := by
    rw [TelemetryPublisher.committed_eq href]
    rfl
  rw [hzero, Nat.zero_add] at hpaid
  exact hpaid

theorem tape_budget_short_session :
    ∃ b d, OrderBook.new 4 90 110 true = some b ∧
      Desk.run ⟨⟨b, ⟨⟨SpscRing.new 2 (TelemetryEvent.ack 0 0 0 .buy 0 0), [], 0⟩,
        (⟨0⟩ : CounterClock), 0⟩⟩, 1000000000⟩ shortSession = some d ∧
      d.publisher.out.ring.accepted.length + d.publisher.out.ring.dropped +
        d.publisher.book.openOrderCount ≤ 8 := by
  have hops : (RefBook.new 4 90 110).AdmissibleRun (shortSession.map TapeOp.call) :=
    ⟨by decide, by decide, by decide, by decide, by decide, by decide, trivial⟩
  exact tape_budget true (by decide) (by decide) hops _ _ 0 1000000000

namespace SimEnv
variable {F D : Type} [MeteredRing Ring] [ClockFn Clock]

/-- The ids of resting orders have all been given out. -/
def Issuing (p : TelemetryPublisher OrderBook Ring Clock) (nextId : OrderId) : Prop :=
  ∃ R rs, p.book.Refines R rs ∧ ∀ o ∈ R.orders, o.id < nextId

section Publisher
variable {p p' : TelemetryPublisher OrderBook Ring Clock} {nextId : OrderId}

theorem Issuing.fresh {R : RefBook} (h : ∀ o ∈ R.orders, o.id < nextId) : nextId ∉ R.ids := by
  intro hid
  obtain ⟨o, ho, hid⟩ := List.mem_map.mp hid
  exact absurd (hid ▸ h o ho) (Nat.lt_irrefl _)

theorem Issuing.cancel (h : Issuing p nextId) {id : OrderId} {ok : Bool}
    (hp : p.cancel id = some (p', ok)) : Issuing p' nextId ∧ p'.committed ≤ p.committed := by
  obtain ⟨R, rs, hr, hids⟩ := h
  obtain ⟨⟨rs', hr'⟩, hpaid⟩ := TelemetryPublisher.cancel_paid hr hp
  refine ⟨⟨_, rs', hr', fun o ho => hids o ?_⟩, hpaid⟩
  rw [RefBook.cancel_orders] at ho
  exact (List.mem_filter.mp ho).1

private theorem Issuing.added {R : RefBook} (h : ∀ o ∈ R.orders, o.id < nextId) (side : Side)
    (px : Price) (qty : Quantity) :
    ∀ o ∈ (R.addLimit nextId side px qty).1.orders, o.id < nextId + 1 := by
  intro o ho
  rcases R.addLimit_mem nextId side px qty o ho with ⟨m, hm, hpart⟩ | ⟨-, hpart, -⟩
  · exact Nat.lt_succ_of_lt (hpart.id ▸ h m hm)
  · exact Nat.lt_succ_of_le hpart.id.le

theorem Issuing.addLimit (h : Issuing p nextId) {side : Side} {px : Price} {qty : Quantity}
    {fills : List Fill} {ok : Bool} (hp : p.addLimit nextId side px qty = some (p', fills, ok)) :
    Issuing p' (nextId + 1) ∧ p'.committed ≤ p.committed + 2 := by
  obtain ⟨R, rs, hr, hids⟩ := h
  have hdup := RefBook.not_restsDuplicate (Issuing.fresh hids) side px qty
  obtain ⟨⟨rs', hr'⟩, hpaid⟩ := TelemetryPublisher.addLimit_paid hr hdup hp
  exact ⟨⟨_, rs', hr', Issuing.added hids side px qty⟩, hpaid⟩

theorem Issuing.submitChild (h : Issuing p nextId) {px : Price} {qty : Quantity} {seq seq' : Nat}
    {fills : List Fill} {ok : Bool}
    (hp : submitChild p seq nextId px qty = some (p', seq', fills, ok)) :
    Issuing p' (nextId + 1) ∧ p'.committed ≤ p.committed + 2 := by
  obtain ⟨R, rs, hr, hids⟩ := h
  have hdup := RefBook.not_restsDuplicate (Issuing.fresh hids) .sell px qty
  obtain ⟨⟨rs', hr'⟩, hpaid⟩ := submitChild_paid hr hdup hp
  exact ⟨⟨_, rs', hr', Issuing.added hids .sell px qty⟩, hpaid⟩

theorem Issuing.cancelAll {ids : List OrderId} (h : Issuing p nextId)
    (hp : cancelAll ids p = some p') : Issuing p' nextId ∧ p'.committed ≤ p.committed := by
  induction ids generalizing p with
  | nil =>
    obtain rfl := Option.some.inj hp
    exact ⟨h, le_rfl⟩
  | cons id ids ih =>
    obtain ⟨⟨p1, ok⟩, h1, hp⟩ := Option.bind_eq_some_iff.mp hp
    obtain ⟨hi, hle⟩ := h.cancel h1
    obtain ⟨hi', hle'⟩ := ih hi hp
    exact ⟨hi', hle'.trans hle⟩

end Publisher

/-- From env to env' at most k events were paid for, and ids are still fresh. -/
structure Paid (k : Nat) (env env' : SimEnv OrderBook Ring Clock F) : Prop where
  issuing : Issuing env'.publisher env'.nextId
  committed : env'.publisher.committed ≤ env.publisher.committed + k

variable {env env' env'' : SimEnv OrderBook Ring Clock F} {j k : Nat}

omit [ClockFn Clock] in
theorem Paid.trans (h : Paid j env env') (h' : Paid k env' env'') : Paid (j + k) env env'' := by
  refine ⟨h'.issuing, h'.committed.trans ?_⟩
  rw [← Nat.add_assoc]
  exact Nat.add_le_add_right h.committed k

theorem expireLiquidity_paid {fuel : Nat} (h : Issuing env.publisher env.nextId)
    (he : expireLiquidity fuel env = some env') : Paid 0 env env' := by
  induction fuel generalizing env with
  | zero => cases he
  | succ fuel ih =>
    rw [expireLiquidity] at he
    split_ifs at he with hlt
    · obtain ⟨birth, -, he⟩ := Option.bind_eq_some_iff.mp he
      split_ifs at he with hold
      · obtain ⟨id, -, he⟩ := Option.bind_eq_some_iff.mp he
        obtain ⟨⟨p, ok⟩, hc, he⟩ := Option.bind_eq_some_iff.mp he
        obtain ⟨hi, hle⟩ := h.cancel hc
        have hrest : Paid 0 { env with publisher := p, bgHead := env.bgHead + 1 } env' := ih hi he
        exact ⟨hrest.issuing, hrest.committed.trans hle⟩
      · obtain rfl := Option.some.inj he
        exact ⟨h, le_rfl⟩
    · obtain rfl := Option.some.inj he
      exact ⟨h, le_rfl⟩

omit [MeteredRing Ring] in
private theorem evict_eq (he : env.evict = some env') :
    env'.nextId = env.nextId ∧
      (env'.publisher = env.publisher ∨
        ∃ victim ok, env.publisher.cancel victim = some (env'.publisher, ok)) := by
  rw [evict] at he
  split_ifs at he with hfull
  · cases hlast : env.restingIds.getLast? with
    | none =>
      rw [hlast] at he
      obtain rfl := Option.some.inj he
      exact ⟨rfl, .inl rfl⟩
    | some victim =>
      rw [hlast] at he
      obtain ⟨⟨p, ok⟩, hc, he⟩ := Option.bind_eq_some_iff.mp he
      obtain rfl := Option.some.inj he
      exact ⟨rfl, .inr ⟨victim, ok, hc⟩⟩
  · obtain rfl := Option.some.inj he
    exact ⟨rfl, .inl rfl⟩

theorem backgroundOrder_paid {s : Submission} {fills : List Fill}
    (h : Issuing env.publisher env.nextId) (he : env.backgroundOrder = some (env', s, fills)) :
    Paid 2 env env' := by
  obtain ⟨⟨⟨side, px, qty⟩, rng⟩, hdraw⟩ : ∃ w, drawOrder env.arrivalMid env.rng = w := ⟨_, rfl⟩
  rw [backgroundOrder, hdraw] at he
  obtain ⟨env1, h1, he⟩ := Option.bind_eq_some_iff.mp he
  obtain ⟨⟨p, fills', ok⟩, hadd, he⟩ := Option.bind_eq_some_iff.mp he
  obtain ⟨hnext, hpub⟩ := evict_eq h1
  obtain ⟨hi, hle⟩ : Issuing env1.publisher env.nextId ∧
      env1.publisher.committed ≤ env.publisher.committed := by
    rcases hpub with hsame | ⟨victim, ok', hc⟩
    · exact ⟨hsame ▸ h, (congrArg TelemetryPublisher.committed hsame).le⟩
    · exact h.cancel hc
  obtain ⟨hi', hle'⟩ := hi.addLimit hadd
  have hnext' : env1.nextId = env.nextId + 1 := hnext
  have hpaid : p.committed ≤ env.publisher.committed + 2 := hle'.trans (Nat.add_le_add_right hle 2)
  rw [← hnext'] at hi'
  cases ok with
  | true =>
    obtain ⟨rfl, -⟩ := Prod.mk.inj (Option.some.inj he)
    exact ⟨hi', hpaid⟩
  | false =>
    obtain ⟨rfl, -⟩ := Prod.mk.inj (Option.some.inj he)
    exact ⟨hi', hpaid⟩

theorem backgroundFlow_paid {flow : List Submission} {fills : List Fill}
    (h : Issuing env.publisher env.nextId) (he : env.backgroundFlow k = some (env', flow, fills)) :
    Paid (2 * k) env env' := by
  induction k generalizing env flow fills with
  | zero =>
    obtain ⟨rfl, -⟩ := Prod.mk.inj (Option.some.inj he)
    exact ⟨h, le_rfl⟩
  | succ k ih =>
    obtain ⟨⟨env1, s, fills1⟩, h1, he⟩ := Option.bind_eq_some_iff.mp he
    obtain ⟨⟨env2, flow2, fills2⟩, h2, he⟩ := Option.bind_eq_some_iff.mp he
    obtain ⟨rfl, -⟩ := Prod.mk.inj (Option.some.inj he)
    have hone := backgroundOrder_paid h h1
    rw [Nat.mul_succ, Nat.add_comm]
    exact hone.trans (ih hone.issuing h2)

section Step
variable [MachineFloat F] [MachineFloat D] {cast : Casts F D} {sizeFrac aggression : F}
  {report : StepReport F}

theorem childStep_paid {childQty : Quantity} {flow : List Submission} {bgFills : List Fill}
    (h : Issuing env.publisher env.nextId)
    (he : env.childStep cast aggression childQty flow bgFills = some (env', report)) :
    Issuing env'.publisher (env.nextId + 1) ∧
      env'.publisher.committed ≤ env.publisher.committed + 2 := by
  obtain ⟨⟨p, fusedSeq, fills, ok⟩, hp, he⟩ := Option.bind_eq_some_iff.mp he
  obtain ⟨rfl, -⟩ := Prod.mk.inj (Option.some.inj he)
  exact h.submitChild hp

/-- Twelve synthetic orders and a child: twenty-six events. The churn costs nothing, since every
order that it takes out has paid for its cancel. -/
theorem stepImpl_paid (h : Issuing env.publisher env.nextId)
    (he : env.stepImpl cast sizeFrac aggression = some (env', report)) :
    env'.publisher.committed ≤ env.publisher.committed + 26 := by
  rw [stepImpl] at he
  split_ifs at he with hdone
  · obtain ⟨rfl, -⟩ := Prod.mk.inj (Option.some.inj he)
    exact Nat.le_add_right _ _
  · obtain ⟨env1, h1, he⟩ := Option.bind_eq_some_iff.mp he
    obtain ⟨⟨env2, flow, bgFills⟩, h2, he⟩ := Option.bind_eq_some_iff.mp he
    have hchurn := expireLiquidity_paid h h1
    have hflow := backgroundFlow_paid hchurn.issuing h2
    have hcost := (hchurn.trans hflow).committed
    simp only at he
    split_ifs at he with hz
    · obtain ⟨rfl, -⟩ := Prod.mk.inj (Option.some.inj he)
      exact hcost.trans (Nat.add_le_add_left (by decide) _)
    · have hchild := (childStep_paid hflow.issuing he).2
      exact hchild.trans (Nat.add_le_add_right hcost 2)

theorem step_paid {action : List F} {out : Except String (StepReport F)}
    (h : Issuing env.publisher env.nextId) (he : env.step cast action = some (env', out)) :
    env'.publisher.committed ≤ env.publisher.committed + 26 := by
  match action with
  | [] | [_] =>
    obtain ⟨rfl, -⟩ := Prod.mk.inj (Option.some.inj he)
    exact Nat.le_add_right _ _
  | sizeFrac :: aggression :: _ =>
    obtain ⟨⟨env1, report⟩, h1, he⟩ := Option.bind_eq_some_iff.mp he
    obtain ⟨rfl, -⟩ := Prod.mk.inj (Option.some.inj he)
    have hpaid := stepImpl_paid h h1
    exact hpaid

omit [MachineFloat F] in
theorem resetInternal_paid (h : Issuing env.publisher env.nextId)
    (he : env.resetInternal = some env') : env'.publisher.committed ≤ env.publisher.committed := by
  obtain ⟨p, hp, he⟩ := Option.bind_eq_some_iff.mp he
  obtain rfl := Option.some.inj he
  exact (h.cancelAll hp).2

theorem reset_paid {seed : BitVec 64} (h : Issuing env.publisher env.nextId)
    (he : env.reset cast seed = some env') : env'.publisher.committed ≤ env.publisher.committed := by
  obtain ⟨env1, h1, he⟩ := Option.bind_eq_some_iff.mp he
  obtain rfl := Option.some.inj he
  have h' : Issuing { env with rng := env.rng.reseed seed }.publisher env.nextId := h
  have hpaid := resetInternal_paid h' h1
  exact hpaid

end Step
end SimEnv

namespace Episode
variable {F D : Type} [MeteredRing Ring] [ClockFn Clock] [MachineFloat F] [MachineFloat D]
  {cast : Casts F D} {ep ep' : Episode OrderBook Ring Clock F}

omit [EventRing Ring] [MeteredRing Ring] [ClockFn Clock] [MachineFloat F] in
theorem Follows.issuing {EP : Episode RefBook Unit Unit F} (h : ep.Follows EP)
    (hT : EP.env.Tracked 0) : SimEnv.Issuing ep.env.publisher ep.env.nextId := by
  obtain ⟨rs, hr⟩ := h.env.book
  refine ⟨_, rs, hr, fun o ho => ?_⟩
  rw [show ep.env.nextId = EP.env.nextId from congrArg EnvState.nextId h.env.state]
  exact hT.fresh o ho

end Episode

/-- What a call pays for. -/
def Call.pay {F : Type} : Call F → Nat
  | .step _ => 26
  | .reset _ => 0

namespace Episode
variable {F D : Type} [MeteredRing Ring] [ClockFn Clock] [MachineFloat F] [MachineFloat D]
  {cast : Casts F D} {ep ep' : Episode OrderBook Ring Clock F}

theorem call_paid (h : SimEnv.Issuing ep.env.publisher ep.env.nextId) {c : Call F}
    (hc : ep.call cast c = some ep') :
    ep'.env.publisher.committed ≤ ep.env.publisher.committed + c.pay := by
  cases c with
  | step action =>
    obtain ⟨⟨env, out⟩, hstep, hc⟩ := Option.bind_eq_some_iff.mp hc
    obtain rfl := Option.some.inj hc
    have hpaid := SimEnv.step_paid h hstep
    cases out <;> exact hpaid
  | reset seed =>
    obtain ⟨env, hreset, hc⟩ := Option.bind_eq_some_iff.mp hc
    obtain rfl := Option.some.inj hc
    exact SimEnv.reset_paid h hreset

/-- Every run of an environment emits at most twenty-six events for each Step call. -/
theorem run_paid {parentQty horizonSteps : Nat} {arrivalMid : Price} {checked : Bool}
    {calls : List (Call F)} (h : ∃ EP, ep.Follows EP ∧ EP.env.Tracked 0)
    (hrun : (episodes cast parentQty horizonSteps arrivalMid checked).run ep calls = some ep') :
    ep'.env.publisher.committed ≤ ep.env.publisher.committed + (calls.map Call.pay).sum := by
  refine Machine.run_paid (I := fun ep : Episode OrderBook Ring Clock F =>
    ∃ EP, ep.Follows EP ∧ EP.env.Tracked 0) (c := fun ep => ep.env.publisher.committed) ?_ h hrun
  rintro ep c ep' ⟨EP, hf, hT⟩ hcall
  obtain ⟨ep1, EP', he, -, hT', hf'⟩ := hf.call hT cast c
  obtain rfl : ep1 = ep' := Option.some.inj (he.symm.trans hcall)
  exact ⟨⟨EP', hf', hT'⟩, call_paid (hf.issuing hT) hcall⟩

end Episode

/-- What an environment has handed to its ring since it was built. -/
def SimEnv.telemetry {B Clock F : Type} (env : SimEnv B EventLog Clock F) : List TelemetryEvent :=
  env.publisher.out.ring.events

/-- What a built environment starts from, with a ring that nothing was pushed to. -/
theorem new_committed {F D Clock : Type} [ClockFn Clock] [MachineFloat F] [MachineFloat D]
    {cast : Casts F D} {book : OrderBook} {clock : Clock} {parentQty horizonSteps : Nat}
    {seed : BitVec 64} {arrivalMid : Price} {checked : Bool} {env : SimEnv OrderBook EventLog Clock F}
    (hbook : OrderBook.new kBookCapacity OrderBook.defaultMinPrice OrderBook.defaultMaxPrice checked =
      some book)
    (hnew : SimEnv.new cast book ⟨[]⟩ clock parentQty horizonSteps seed arrivalMid = some env) :
    (∃ EP, (Episode.start env).Follows EP ∧ EP.env.Tracked 0) ∧ env.publisher.committed = 0 := by
  obtain ⟨e, E, he, hE, hm⟩ := SimEnv.Mirrors.new cast (⟨[]⟩ : EventLog) clock parentQty horizonSteps
    seed arrivalMid hbook
  obtain rfl : e = env := Option.some.inj (he.symm.trans hnew)
  refine ⟨⟨.start E, ⟨hm, rfl, rfl, rfl, rfl⟩, Episode.ref_new_tracked hE⟩, ?_⟩
  obtain ⟨rs, hr⟩ := hm.book
  obtain ⟨E0, rfl, -, hempty, -⟩ := Episode.ref_new hE
  rw [TelemetryPublisher.committed_eq hr]
  change e.publisher.out.emitted + E0.publisher.book.orders.length = 0
  rw [hempty]
  obtain rfl := Option.some.inj hnew
  rfl

end ExecutionPlatform.Bindings
