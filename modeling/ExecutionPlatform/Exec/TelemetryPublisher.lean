import ExecutionPlatform.Core.MatchingBook
import ExecutionPlatform.Core.SpscRing
import ExecutionPlatform.External.TelemetryEvent

/-! The adapter that drives a book and publishes every outcome into a ring. -/
namespace ExecutionPlatform.Exec
open ExecutionPlatform.Core External Foundations

/-- TryPush of the ring the publisher was instantiated with. The rest of the ring's world,
its consumer included, may move on at each call. -/
class EventRing (Ring : Type) where
  tryPush : Ring → TelemetryEvent → Ring × Bool

instance : EventRing (SpscRing TelemetryEvent) where
  tryPush := SpscRing.tryPush

/-- A reading of the clock, and the clock after it. -/
class ClockFn (Clock : Type) where
  read : Clock → Nat × Clock

/-- A clock that counts its readings. -/
structure CounterClock where
  ticks : Nat

instance : ClockFn CounterClock where
  read c := (c.ticks, ⟨c.ticks + 1⟩)

/-- Where events go: the ring, the clock that stamps them and the 64-bit counter that
numbers them. -/
structure Outlet (Ring Clock : Type) where
  ring : Ring
  clock : Clock
  seq : Nat

namespace Outlet
variable {Ring Clock : Type} [EventRing Ring] [ClockFn Clock]

/-- Number and stamp one event and push it; a rejected push still uses up the number. -/
def emit (out : Outlet Ring Clock) (event : Nat → Nat → TelemetryEvent) : Outlet Ring Clock :=
  let (ts, clock) := ClockFn.read out.clock
  { ring := (EventRing.tryPush out.ring (event out.seq ts)).1
    clock := clock
    seq := addWord 64 out.seq 1 }

/-- The on_fill callback, fill by fill. -/
def emitFills (out : Outlet Ring Clock) (fills : List Fill) : Outlet Ring Clock :=
  fills.foldl (fun out f => out.emit fun seq ts => .fill seq ts f) out

/-- What both AddLimit paths publish about a call: its fills, then an ack when a residual
rests. The fills of a call never exceed its quantity, so their sum is exact. -/
def report (out : Outlet Ring Clock) (id : OrderId) (side : Side) (price : Price) (qty : Quantity)
    (fills : List Fill) (ok : Bool) : Outlet Ring Clock :=
  let filled := (fills.map Fill.qty).sum
  let out := out.emitFills fills
  if ok ∧ filled < qty then out.emit fun seq ts => .ack seq ts id side price (qty - filled)
  else out

end Outlet

structure TelemetryPublisher (B Ring Clock : Type) where
  book : B
  out : Outlet Ring Clock

namespace TelemetryPublisher
variable {B Ring Clock : Type} [MatchingBook B] [EventRing Ring] [ClockFn Clock]

/-- AddLimit, with the fills that its callback saw. -/
def addLimit (p : TelemetryPublisher B Ring Clock) (id : OrderId) (side : Side) (price : Price)
    (qty : Quantity) : Option (TelemetryPublisher B Ring Clock × List Fill × Bool) := do
  let (book, fills, ok) ← MatchingBook.addLimit p.book id side price qty
  pure (⟨book, p.out.report id side price qty fills ok⟩, fills, ok)

def cancel (p : TelemetryPublisher B Ring Clock) (id : OrderId) :
    Option (TelemetryPublisher B Ring Clock × Bool) := do
  let (book, report) ← MatchingBook.cancel p.book id
  match report with
  | none => pure (⟨book, p.out⟩, false)
  | some r => pure (⟨book, p.out.emit fun seq ts => .cancel seq ts r.id r.side r.price r.qty⟩, true)

/-- One operation of the publisher's owner. -/
def step (p : TelemetryPublisher B Ring Clock) : BookOp → Option (TelemetryPublisher B Ring Clock)
  | .addLimit id side price qty => (p.addLimit id side price qty).map Prod.fst
  | .cancel id => (p.cancel id).map Prod.fst

def run : TelemetryPublisher B Ring Clock → List BookOp → Option (TelemetryPublisher B Ring Clock)
  | p, [] => some p
  | p, op :: ops => do
    let p' ← p.step op
    run p' ops

end TelemetryPublisher

/-- A ring that only writes down what it is handed. -/
structure EventLog where
  events : List TelemetryEvent

instance : EventRing EventLog where
  tryPush log event := (⟨log.events ++ [event]⟩, true)

/-- The events that a new publisher hands to its ring, call after call. TryPush's answers
are discarded, so that they are the same whatever the ring. -/
def emissions {B Clock : Type} [MatchingBook B] [ClockFn Clock] (book : B) (clock : Clock)
    (ops : List BookOp) : Option (List TelemetryEvent) :=
  (TelemetryPublisher.run ⟨book, ⟨(⟨[]⟩ : EventLog), clock, 0⟩⟩ ops).map fun p => p.out.ring.events

section Numbering
variable {B Clock : Type} [MatchingBook B] [ClockFn Clock]

/-- The events logged so far are numbered from 0 on. -/
structure Numbered (out : Outlet EventLog Clock) : Prop where
  sequence : ∀ i e, out.ring.events[i]? = some e → e.sequence = i % 2 ^ 64
  next : out.seq = out.ring.events.length % 2 ^ 64

theorem Numbered.emit {out : Outlet EventLog Clock} (h : Numbered out)
    {event : Nat → Nat → TelemetryEvent} (hseq : ∀ seq ts, (event seq ts).sequence = seq) :
    Numbered (out.emit event) := by
  refine ⟨fun i e he => ?_, ?_⟩
  · change (out.ring.events ++ [event out.seq _])[i]? = some e at he
    rcases Nat.lt_or_ge i out.ring.events.length with hlt | hge
    · rw [List.getElem?_append_left hlt] at he
      exact h.sequence i e he
    · rw [List.getElem?_append_right hge, List.getElem?_singleton] at he
      split_ifs at he with hi
      obtain rfl := Option.some.inj he
      rw [hseq, h.next]
      congr 1
      omega
  · change addWord 64 out.seq 1 = (out.ring.events ++ [event out.seq _]).length % 2 ^ 64
    rw [h.next, addWord_mod, List.length_append, List.length_singleton]

theorem Numbered.emitFills {out : Outlet EventLog Clock} (h : Numbered out) (fills : List Fill) :
    Numbered (out.emitFills fills) := by
  induction fills generalizing out with
  | nil => exact h
  | cons f fills ih =>
    have hone : Numbered (out.emit fun seq ts => .fill seq ts f) := by
      apply h.emit
      exact fun _ _ => rfl
    exact ih hone

theorem Numbered.report {out : Outlet EventLog Clock} (h : Numbered out) (id : OrderId) (side : Side)
    (price : Price) (qty : Quantity) (fills : List Fill) (ok : Bool) :
    Numbered (out.report id side price qty fills ok) := by
  rw [Outlet.report]
  split_ifs
  · refine Numbered.emit (h.emitFills fills) ?_
    exact fun _ _ => rfl
  · exact h.emitFills fills

theorem Numbered.step {p p' : TelemetryPublisher B EventLog Clock} (h : Numbered p.out) {op : BookOp}
    (hp : p.step op = some p') : Numbered p'.out := by
  cases op with
  | addLimit id side price qty =>
    obtain ⟨⟨p1, fills, ok⟩, h1, rfl⟩ := Option.map_eq_some_iff.mp hp
    obtain ⟨⟨book, fills', ok'⟩, -, h1⟩ := Option.bind_eq_some_iff.mp h1
    cases h1
    exact h.report id side price qty fills ok
  | cancel id =>
    obtain ⟨⟨p1, ok⟩, h1, rfl⟩ := Option.map_eq_some_iff.mp hp
    obtain ⟨⟨book, report⟩, -, h1⟩ := Option.bind_eq_some_iff.mp h1
    cases report with
    | none =>
      cases h1
      exact h
    | some r =>
      cases h1
      have hone : Numbered (p.out.emit fun seq ts => .cancel seq ts r.id r.side r.price r.qty) := by
        apply h.emit
        exact fun _ _ => rfl
      exact hone

theorem Numbered.run {ops : List BookOp} {p p' : TelemetryPublisher B EventLog Clock}
    (h : Numbered p.out) (hp : p.run ops = some p') : Numbered p'.out := by
  induction ops generalizing p with
  | nil =>
    obtain rfl := Option.some.inj hp
    exact h
  | cons op ops ih =>
    obtain ⟨p1, h1, hp⟩ := Option.bind_eq_some_iff.mp hp
    exact ih (h.step h1) hp

/-- The sequence numbers of the emissions count up from 0. -/
theorem emissions_sequence {book : B} {clock : Clock} {ops : List BookOp}
    {events : List TelemetryEvent} (h : emissions book clock ops = some events) :
    ∀ i e, events[i]? = some e → e.sequence = i % 2 ^ 64 := by
  obtain ⟨p, hrun, rfl⟩ := Option.map_eq_some_iff.mp h
  have hstart : Numbered (⟨book, ⟨⟨[]⟩, clock, 0⟩⟩ : TelemetryPublisher B EventLog Clock).out :=
    ⟨by simp, rfl⟩
  exact (hstart.run hrun).sequence

end Numbering
end ExecutionPlatform.Exec
