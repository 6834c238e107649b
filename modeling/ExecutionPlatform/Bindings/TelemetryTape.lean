import ExecutionPlatform.Bindings.SimEnv
import ExecutionPlatform.Core.BookLedger

/-! The telemetry tape determines the book: whoever folds the events that a ring accepted,
with none dropped, holds the resting orders. -/
namespace ExecutionPlatform.Bindings
open ExecutionPlatform.Core External Exec Foundations

/-- Take a fill out of the order of this id, which must be there and large enough. -/
def fillOrder (id : OrderId) (qty : Quantity) : List Resting → Option (List Resting)
  | [] => none
  | o :: os =>
    if o.id = id then
      if qty ≤ o.residual then some (o.leftover qty ++ os) else none
    else (fillOrder id qty os).map (o :: ·)

/-- What one event tells about the resting orders, in order of arrival; none when it speaks
of an order that is not there. -/
def applyEvent (orders : List Resting) (e : TelemetryEvent) : Option (List Resting) :=
  match e.type with
  | .ack => some (orders ++ [⟨e.orderId, e.side, e.price, e.qty⟩])
  | .fill => fillOrder e.counterId e.qty orders
  | .cancel =>
    if e.orderId ∈ orders.map Resting.id then some (orders.filter fun o => o.id ≠ e.orderId)
    else none

def replay (orders : List Resting) (events : List TelemetryEvent) : Option (List Resting) :=
  events.foldlM applyEvent orders

theorem replay_concat {orders orders' : List Resting} {events : List TelemetryEvent}
    (h : replay orders events = some orders') (e : TelemetryEvent) :
    replay orders (events ++ [e]) = applyEvent orders' e := by
  rw [replay, List.foldlM_append]
  change (replay orders events).bind _ = _
  rw [h, Option.bind_some, List.foldlM_cons]
  exact bind_pure _

theorem fillOrder_append {l r : List Resting} {m : Resting} {qty : Quantity}
    (hl : ∀ o ∈ l, o.id ≠ m.id) (hqty : qty ≤ m.residual) :
    fillOrder m.id qty (l ++ m :: r) = some (l ++ m.leftover qty ++ r) := by
  induction l with
  | nil => rw [List.nil_append, fillOrder, if_pos rfl, if_pos hqty, List.nil_append]
  | cons o l ih =>
    rw [List.cons_append, fillOrder, if_neg (hl o List.mem_cons_self),
      ih fun x hx => hl x (List.mem_cons_of_mem o hx)]
    rfl

/-- A fill event tells exactly what the matching loop did to its maker. -/
theorem applyEvent_fill {taker : OrderId} {side : Side} {limit : Price}
    {orders orders' : List Resting} {remaining remaining' : Quantity} {f : Fill}
    (h : takeOne taker side limit orders remaining = some (orders', remaining', f))
    (hn : (orders.map Resting.id).Nodup) (seq ts : Nat) :
    applyEvent orders (.fill seq ts f) = some orders' := by
  obtain ⟨l, m, r, rfl, -, -, -, -, rfl, -, rfl⟩ := takeOne_spec h
  refine fillOrder_append (fun o ho hid => ?_) (Nat.min_le_right _ _)
  rw [List.map_append, List.map_cons] at hn
  have hno := (List.nodup_cons.mp (List.nodup_middle.mp hn)).1
  exact hno (List.mem_append_left _ (List.mem_map.mpr ⟨o, ho, hid⟩))

/-- A ring, what it accepted in push order, and how many events it dropped. -/
structure Tape (Ring : Type) where
  ring : Ring
  accepted : List TelemetryEvent
  dropped : Nat

namespace Tape
variable {Ring Clock : Type} [EventRing Ring] [ClockFn Clock]

instance : EventRing (Tape Ring) where
  tryPush t event :=
    let (ring, pushed) := EventRing.tryPush t.ring event
    (if pushed then ⟨ring, t.accepted ++ [event], t.dropped⟩
      else ⟨ring, t.accepted, t.dropped + 1⟩, pushed)

/-- With nothing dropped, the tape folds to these orders. -/
def Tells (t : Tape Ring) (orders : List Resting) : Prop :=
  t.dropped = 0 → replay [] t.accepted = some orders

variable {out : Outlet (Tape Ring) Clock} {orders orders' : List Resting}

theorem Tells.emit {event : Nat → Nat → TelemetryEvent} (h : out.ring.Tells orders)
    (hevent : ∀ seq ts, applyEvent orders (event seq ts) = some orders') :
    (out.emit event).ring.Tells orders' := by
  intro hdropped
  obtain ⟨e, he⟩ : ∃ e, event out.seq (ClockFn.read out.clock).1 = e := ⟨_, rfl⟩
  have happly : applyEvent orders e = some orders' := he ▸ hevent _ _
  simp only [Outlet.emit, EventRing.tryPush, he] at hdropped ⊢
  cases hpush : (EventRing.tryPush out.ring.ring e).2 with
  | true =>
    simp only [hpush, if_true] at hdropped ⊢
    rw [replay_concat (h hdropped), happly]
  | false =>
    simp only [hpush, Bool.false_eq_true, if_false] at hdropped
    exact absurd hdropped (Nat.succ_ne_zero _)

theorem Tells.emitFills {taker : OrderId} {side : Side} {limit : Price}
    {remaining remaining' : Quantity} {fs : List Fill}
    (ht : Takes taker side limit orders remaining fs orders' remaining')
    (hn : (orders.map Resting.id).Nodup) (h : out.ring.Tells orders) :
    (out.emitFills fs).ring.Tells orders' := by
  induction ht generalizing out with
  | refl => exact h
  | cons hone _ ih =>
    have hsub := (Takes.cons hone (.refl _ _)).ids_sublist
    refine ih (hsub.nodup hn) ?_
    exact h.emit fun seq ts => applyEvent_fill hone hn seq ts

/-- Both AddLimit paths publish what the call did to the book. -/
theorem Tells.report {R : RefBook} (hn : R.ids.Nodup) (h : out.ring.Tells R.orders) (id : OrderId)
    (side : Side) (price : Price) (qty : Quantity) :
    (out.report id side price qty (R.addLimit id side price qty).2.1
      (R.addLimit id side price qty).2.2).ring.Tells (R.addLimit id side price qty).1.orders := by
  obtain ⟨orders, rem, fs, ht, -, hadd⟩ := R.addLimit_spec id side price qty
  have hfilled := ht.filled
  have hfills := h.emitFills ht hn
  rw [Outlet.report]
  rcases hadd with ⟨hz, hadd⟩ | ⟨hpos, -, -, hadd⟩ | ⟨-, -, hadd⟩ <;> rw [hadd] <;> simp only
  · -- nothing is left to acknowledge
    rw [if_neg]
    · exact hfills
    · lia
  · -- the ack carries what the fills left of the quantity
    have hresidual : qty - (fs.map Fill.qty).sum = rem := by lia
    rw [if_pos ⟨trivial, by lia⟩, hresidual]
    exact hfills.emit fun _ _ => rfl
  · rw [if_neg]
    · exact hfills
    · simp

theorem Tells.cancel {R : RefBook} (h : out.ring.Tells R.orders) {id : OrderId}
    {r : OrderBook.CancelReport} (hr : (R.cancel id).2 = some r) :
    (out.emit fun seq ts => .cancel seq ts r.id r.side r.price r.qty).ring.Tells
      (R.cancel id).1.orders := by
  rw [RefBook.cancel_orders]
  rw [RefBook.cancel] at hr
  cases hf : R.orders.find? (fun o => o.id = id) with
  | none =>
    rw [hf] at hr
    cases hr
  | some m =>
    rw [hf] at hr
    obtain rfl := Option.some.inj hr
    obtain rfl : m.id = id := by simpa using List.find?_some hf
    refine h.emit fun seq ts => ?_
    exact if_pos (List.mem_map_of_mem (List.mem_of_find?_eq_some hf))

end Tape

/-- The operations that reach the book, each by its own path. -/
inductive TapeOp where
  | addLimit (id : OrderId) (side : Side) (price : Price) (qty : Quantity)
  | cancel (id : OrderId)
  | child (id : OrderId) (price : Price) (qty : Quantity)

/-- The call that the book sees. -/
def TapeOp.call : TapeOp → BookOp
  | .addLimit id side price qty => .addLimit id side price qty
  | .cancel id => .cancel id
  | .child id price qty => .addLimit id .sell price qty

/-- A publisher, and the counter of the fused child path beside it. -/
structure Desk (Ring Clock : Type) where
  publisher : TelemetryPublisher OrderBook (Tape Ring) Clock
  fusedSeq : Nat

namespace Desk
variable {Ring Clock : Type} [EventRing Ring] [ClockFn Clock]

def step (d : Desk Ring Clock) : TapeOp → Option (Desk Ring Clock)
  | .addLimit id side price qty => do
    let (publisher, _, _) ← d.publisher.addLimit id side price qty
    pure ⟨publisher, d.fusedSeq⟩
  | .cancel id => do
    let (publisher, _) ← d.publisher.cancel id
    pure ⟨publisher, d.fusedSeq⟩
  | .child id price qty => do
    let (publisher, fusedSeq, _, _) ← submitChild d.publisher d.fusedSeq id price qty
    pure ⟨publisher, fusedSeq⟩

def run : Desk Ring Clock → List TapeOp → Option (Desk Ring Clock)
  | d, [] => some d
  | d, op :: ops => do
    let d' ← d.step op
    run d' ops

/-- The book is the reference's, and the tape tells its orders. -/
def Tracks (d : Desk Ring Clock) (R : RefBook) : Prop :=
  (∃ rs, d.publisher.book.Refines R rs) ∧ d.publisher.out.ring.Tells R.orders

theorem Tracks.step {d : Desk Ring Clock} {R : RefBook} (h : d.Tracks R) {op : TapeOp}
    (hop : R.Admissible op.call) : ∃ d', d.step op = some d' ∧ d'.Tracks (R.step op.call).1 := by
  obtain ⟨⟨rs, href⟩, htells⟩ := h
  have hn := href.ids_nodup
  cases op with
  | addLimit id side price qty =>
    obtain ⟨b', rs', he, hr⟩ := href.addLimit hop.not_restsDuplicate
    simp only [Desk.step, TelemetryPublisher.addLimit, MatchingBook.addLimit, he,
      Option.bind_eq_bind, Option.bind_some]
    exact ⟨_, rfl, ⟨rs', hr⟩, htells.report hn id side price qty⟩
  | child id price qty =>
    obtain ⟨b', rs', he, hr⟩ := href.addLimit hop.not_restsDuplicate
    simp only [Desk.step, submitChild, MatchingBook.addLimit, he, Option.bind_eq_bind,
      Option.bind_some]
    have hfused : ({ d.publisher.out with seq := d.fusedSeq } : Outlet (Tape Ring) Clock).ring.Tells
        R.orders := htells
    exact ⟨_, rfl, ⟨rs', hr⟩, hfused.report hn id .sell price qty⟩
  | cancel id =>
    obtain ⟨b', rs', he, hr⟩ := href.cancel id
    simp only [Desk.step, TelemetryPublisher.cancel, MatchingBook.cancel, he, Option.bind_eq_bind,
      Option.bind_some]
    cases hrep : (R.cancel id).2 with
    | some r => exact ⟨_, rfl, ⟨rs', hr⟩, htells.cancel hrep⟩
    | none =>
      have hsame : (R.cancel id).1 = R := by
        rw [RefBook.cancel] at hrep ⊢
        cases hf : R.orders.find? (fun o => o.id = id) with
        | none => rfl
        | some m =>
          rw [hf] at hrep
          cases hrep
      refine ⟨_, rfl, ⟨rs', hr⟩, ?_⟩
      change Tape.Tells _ (R.cancel id).1.orders
      rw [hsame]
      exact htells

theorem Tracks.run {ops : List TapeOp} {d : Desk Ring Clock} {R : RefBook} (h : d.Tracks R)
    (hops : R.AdmissibleRun (ops.map TapeOp.call)) :
    ∃ d' R', d.run ops = some d' ∧ d'.Tracks R' := by
  induction ops generalizing d R with
  | nil => exact ⟨d, R, rfl, h⟩
  | cons op ops ih =>
    obtain ⟨d1, h1, ht1⟩ := h.step hops.1
    obtain ⟨d2, R2, h2, ht2⟩ := ih ht1 hops.2
    refine ⟨d2, R2, ?_, ht2⟩
    rw [Desk.run, h1]
    exact h2

end Desk

/-- The fold of the tape always applies, and its orders are the book's, level by level in time
priority. -/
structure TapeFaithful {Ring : Type} (tape : Tape Ring) (b : OrderBook) (orders : List Resting) :
    Prop where
  replays : replay [] tape.accepted = some orders
  ids_nodup : (orders.map Resting.id).Nodup
  levels : ∀ side px, b.levelOrders side px = orders.filter fun o => o.side = side ∧ o.price = px
  count : b.openOrderCount = orders.length

/-- After any run of both AddLimit paths and Cancel from an empty book, whatever the ring and
whoever drains it: a tape without drops determines the book. -/
theorem tape_determines_book {Ring Clock : Type} [EventRing Ring] [ClockFn Clock]
    {orderCapacity : Nat} {minPrice maxPrice : Price} {ops : List TapeOp} (checked : Bool)
    (hcap : orderCapacity < 2 ^ 57) (hband : minPrice ≤ maxPrice)
    (hops : (RefBook.new orderCapacity minPrice maxPrice).AdmissibleRun (ops.map TapeOp.call))
    (ring : Ring) (clock : Clock) (seq fusedSeq : Nat) :
    ∃ b d, OrderBook.new orderCapacity minPrice maxPrice checked = some b ∧
      Desk.run ⟨⟨b, ⟨⟨ring, [], 0⟩, clock, seq⟩⟩, fusedSeq⟩ ops = some d ∧
      (d.publisher.out.ring.dropped = 0 →
        ∃ orders, TapeFaithful d.publisher.out.ring d.publisher.book orders) := by
  obtain ⟨b, hnew, href⟩ := OrderBook.new_refines orderCapacity minPrice maxPrice checked hcap hband
  have hstart : Desk.Tracks (⟨⟨b, ⟨⟨ring, [], 0⟩, clock, seq⟩⟩, fusedSeq⟩ : Desk Ring Clock)
      (RefBook.new orderCapacity minPrice maxPrice) := ⟨⟨_, href⟩, fun _ => rfl⟩
  obtain ⟨d, R, hrun, ⟨rs, hR⟩, htells⟩ := hstart.run hops
  refine ⟨b, d, hnew, hrun, fun hdropped => ⟨R.orders, htells hdropped, hR.ids_nodup, ?_, ?_⟩⟩
  · exact hR.shows.levelOrders
  · exact hR.shows.openOrderCount

/-- A child order fills and rests, a bid beyond the band takes it out, and the bid's own
residual is dropped. -/
def shortSession : List TapeOp :=
  [.addLimit 1 .buy 100 5, .addLimit 2 .buy 99 1, .child 3 100 8, .addLimit 4 .buy 111 4, .cancel 2,
    .cancel 9]

theorem tape_determines_book_short_session :
    ∃ b d, OrderBook.new 4 90 110 true = some b ∧
      Desk.run ⟨⟨b, ⟨⟨SpscRing.new 16 (TelemetryEvent.ack 0 0 0 .buy 0 0), [], 0⟩,
        (⟨0⟩ : CounterClock), 0⟩⟩, 1000000000⟩ shortSession = some d ∧
      ∃ orders, TapeFaithful d.publisher.out.ring d.publisher.book orders := by
  have hops : (RefBook.new 4 90 110).AdmissibleRun (shortSession.map TapeOp.call) :=
    ⟨by decide, by decide, by decide, by decide, by decide, by decide, trivial⟩
  have hdropped : ((OrderBook.new 4 90 110 true).bind fun b =>
      (Desk.run ⟨⟨b, ⟨⟨SpscRing.new 16 (TelemetryEvent.ack 0 0 0 .buy 0 0), [], 0⟩,
        (⟨0⟩ : CounterClock), 0⟩⟩, 1000000000⟩ shortSession).map fun d =>
          d.publisher.out.ring.dropped) = some 0 := by decide +kernel
  obtain ⟨b, d, hnew, hrun, h⟩ := tape_determines_book true (by decide) (by decide) hops
    (SpscRing.new 16 (TelemetryEvent.ack 0 0 0 .buy 0 0)) (⟨0⟩ : CounterClock) 0 1000000000
  rw [hnew, Option.bind_some, hrun] at hdropped
  exact ⟨b, d, hnew, hrun, h (Option.some.inj hdropped)⟩

end ExecutionPlatform.Bindings
