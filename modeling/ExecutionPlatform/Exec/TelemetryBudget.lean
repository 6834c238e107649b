import ExecutionPlatform.Exec.Delivery
import ExecutionPlatform.Core.BookLedger

/-! How much a publisher can emit. An order that comes to rest has paid for the event that will
take it out of the book, so two events for each AddLimit are enough, and cancels are free. -/
namespace ExecutionPlatform.Core

/-- An AddLimit pays for the two events that its order can cause. -/
def BookOp.pay : BookOp → Nat
  | .addLimit .. => 2
  | .cancel _ => 0

end ExecutionPlatform.Core

namespace ExecutionPlatform.Exec
open ExecutionPlatform.Core External Foundations

/-- A ring that can tell how often it was pushed, accepted or not. -/
class MeteredRing (Ring : Type) [EventRing Ring] where
  pushes : Ring → Nat
  pushes_tryPush : ∀ (ring : Ring) (event : TelemetryEvent),
    pushes (EventRing.tryPush ring event).1 = pushes ring + 1

instance : MeteredRing EventLog where
  pushes log := log.events.length
  pushes_tryPush _ _ := List.length_append

variable {Ring Clock : Type} [EventRing Ring] [MeteredRing Ring] [ClockFn Clock]

namespace Outlet

/-- How many events have been emitted here. -/
def emitted (out : Outlet Ring Clock) : Nat := MeteredRing.pushes out.ring

@[simp] theorem emitted_emit (out : Outlet Ring Clock) (event : Nat → Nat → TelemetryEvent) :
    (out.emit event).emitted = out.emitted + 1 := MeteredRing.pushes_tryPush _ _

@[simp] theorem emitted_emitFills (out : Outlet Ring Clock) (fills : List Fill) :
    (out.emitFills fills).emitted = out.emitted + fills.length := by
  induction fills generalizing out with
  | nil => rfl
  | cons f fills ih =>
    have hrest := ih (out.emit fun seq ts => .fill seq ts f)
    rw [emitted_emit] at hrest
    rw [List.length_cons, ← Nat.add_assoc, Nat.add_right_comm]
    exact hrest

theorem emitted_report (out : Outlet Ring Clock) (id : OrderId) (side : Side) (price : Price)
    (qty : Quantity) (fills : List Fill) (ok : Bool) :
    (out.report id side price qty fills ok).emitted =
      out.emitted + (fills.length + if ok = true ∧ (fills.map Fill.qty).sum < qty then 1 else 0) := by
  rw [report]
  split_ifs
  · rw [emitted_emit, emitted_emitFills, Nat.add_assoc]
  · exact emitted_emitFills out fills

end Outlet

namespace TelemetryPublisher

/-- The events emitted so far, and one more for every order that rests. -/
def committed (p : TelemetryPublisher OrderBook Ring Clock) : Nat :=
  p.out.emitted + MatchingBook.openOrderCount p.book

variable {p p' : TelemetryPublisher OrderBook Ring Clock} {R : RefBook} {rs : List Nat}

omit [ClockFn Clock] in
theorem committed_eq (h : p.book.Refines R rs) : p.committed = p.out.emitted + R.orders.length :=
  congrArg (p.out.emitted + ·) h.observers.1

/-- A cancel is paid for by the order it takes out. -/
theorem cancel_paid (h : p.book.Refines R rs) {id : OrderId} {ok : Bool}
    (hp : p.cancel id = some (p', ok)) :
    (∃ rs', p'.book.Refines (R.cancel id).1 rs') ∧ p'.committed ≤ p.committed := by
  obtain ⟨b', rs', he, hr⟩ := h.cancel id
  have hlen := R.cancel_length id
  simp only [TelemetryPublisher.cancel, MatchingBook.cancel, he, Option.bind_eq_bind,
    Option.bind_some] at hp
  cases hreport : (R.cancel id).2 with
  | none =>
    rw [hreport] at hp hlen
    obtain ⟨rfl, -⟩ := Prod.mk.inj (Option.some.inj hp)
    refine ⟨⟨rs', hr⟩, ?_⟩
    rw [committed_eq h, committed_eq (p := ⟨b', p.out⟩) hr]
    simpa using hlen
  | some r =>
    rw [hreport] at hp hlen
    obtain ⟨rfl, -⟩ := Prod.mk.inj (Option.some.inj hp)
    refine ⟨⟨rs', hr⟩, ?_⟩
    rw [committed_eq h, committed_eq (p := ⟨b', _⟩) hr, Outlet.emitted_emit]
    rw [if_pos (by rfl)] at hlen
    omega

/-- Both AddLimit paths call the book and report what it did: two events at most, one of them
perhaps in advance. -/
theorem report_paid (h : p.book.Refines R rs) {id : OrderId} {side : Side} {price : Price}
    {qty : Quantity} (hdup : ¬ R.RestsDuplicate (.addLimit id side price qty)) {b' : OrderBook}
    {fills : List Fill} {ok : Bool} (hb : p.book.addLimit id side price qty = some (b', fills, ok)) {out out' : Outlet Ring Clock}
    (hout : out.emitted = p.out.emitted)
    (hout' : out'.emitted = (out.report id side price qty fills ok).emitted) :
    (∃ rs', b'.Refines (R.addLimit id side price qty).1 rs') ∧
      (⟨b', out'⟩ : TelemetryPublisher OrderBook Ring Clock).committed ≤ p.committed + 2 := by
  obtain ⟨b1, rs', he, hr⟩ := h.addLimit hdup
  obtain ⟨rfl, hrest⟩ := Prod.mk.inj (Option.some.inj (he.symm.trans hb))
  obtain ⟨rfl, rfl⟩ := Prod.mk.inj hrest
  refine ⟨⟨rs', hr⟩, ?_⟩
  have hlen := R.addLimit_length id side price qty
  rw [committed_eq h, committed_eq (p := ⟨b1, out'⟩) hr, hout', Outlet.emitted_report, hout]
  omega

theorem addLimit_paid (h : p.book.Refines R rs) {id : OrderId} {side : Side} {price : Price}
    {qty : Quantity} (hdup : ¬ R.RestsDuplicate (.addLimit id side price qty)) {fills : List Fill}
    {ok : Bool} (hp : p.addLimit id side price qty = some (p', fills, ok)) :
    (∃ rs', p'.book.Refines (R.addLimit id side price qty).1 rs') ∧
      p'.committed ≤ p.committed + 2 := by
  obtain ⟨⟨b', fills', ok'⟩, hb, hp⟩ := Option.bind_eq_some_iff.mp hp
  obtain ⟨rfl, -⟩ := Prod.mk.inj (Option.some.inj hp)
  exact report_paid h hdup hb rfl rfl

theorem step_paid (h : p.book.Refines R rs) {op : BookOp} (hop : ¬ R.RestsDuplicate op)
    (hp : p.step op = some p') :
    (∃ rs', p'.book.Refines (R.step op).1 rs') ∧ p'.committed ≤ p.committed + op.pay := by
  cases op with
  | addLimit id side price qty =>
    obtain ⟨⟨p1, fills, ok⟩, h1, rfl⟩ := Option.map_eq_some_iff.mp hp
    exact addLimit_paid h hop h1
  | cancel id =>
    obtain ⟨⟨p1, ok⟩, h1, rfl⟩ := Option.map_eq_some_iff.mp hp
    exact cancel_paid h h1

end TelemetryPublisher

section Relay
open EventRelay
variable {events : List TelemetryEvent} {n N : Nat} {s s' : EventRelay}

/-- Everything emitted so far was accepted. -/
structure Undropped (events : List TelemetryEvent) (s : EventRelay) : Prop where
  emitted : s.emitted ≤ events.length
  accepted : s.accepted = events.take s.emitted

theorem Undropped.length (h : Undropped events s) : s.accepted.length = s.emitted := by
  rw [h.accepted, List.length_take, Nat.min_eq_left h.emitted]

theorem Undropped.droppedMessages (h : Undropped events s) (hinv : Inv n N s) :
    s.shared.ring.droppedMessages = 0 := by
  obtain ⟨d, hemitted, hdropped⟩ := hinv.dropped
  have hlen := h.length
  obtain rfl : d = 0 := by omega
  exact hdropped

/-- A ring with a slot for every emission never meets a full one. -/
theorem Undropped.step {act : RelayAction} (h : Undropped events s) (hinv : Inv n N s)
    (hfew : events.length ≤ n) (hact : Publishes events s act) (hs : s.step act = some s') :
    Undropped events s' := by
  by_cases hpush : ∃ e, act = .push e
  · obtain ⟨e, rfl⟩ := hpush
    have he := hact e rfl
    obtain ⟨hlt, -⟩ := List.getElem?_eq_some_iff.mp he
    have hroom : s.accepted.length < N + s.shared.ring.capacity := by
      rw [hinv.draining.capacity, h.length]
      omega
    obtain ⟨ring, hring, -⟩ := hinv.draining.window.tryPush_room hroom e
    rw [EventRelay.step, hring] at hs
    obtain rfl := Option.some.inj hs
    refine ⟨hlt, ?_⟩
    simp only [if_true, h.accepted, List.take_add_one, he]
    rfl
  · obtain ⟨hacc, hem⟩ := step_frame hs fun e he => hpush ⟨e, he⟩
    exact ⟨hem ▸ h.emitted, by rw [hacc, hem, h.accepted]⟩

/-- However the relay is scheduled, started or stopped: no more emissions than the ring has slots
means no drop, and a Stop then leaves all of them logged. -/
theorem reachable_undropped {k : Nat} (hk : k ≤ 63) (hfew : events.length ≤ 2 ^ k)
    (h : (machine (2 ^ k)).ReachableVia (Publishes events) s) :
    Undropped events s ∧ ∃ N, Inv (2 ^ k) N s := by
  refine h.invariant (I := fun s => Undropped events s ∧ ∃ N, Inv (2 ^ k) N s) ?_ ?_
  · rintro s ⟨idleSleep, zero, rfl⟩
    exact ⟨⟨Nat.zero_le _, rfl⟩, 0, new_inv hk idleSleep zero⟩
  · rintro s act s' hact ⟨hun, N, hinv⟩ hs
    exact ⟨hun.step hinv hfew hact hs, hinv.step hs⟩

end Relay
end ExecutionPlatform.Exec
