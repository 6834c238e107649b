import ExecutionPlatform.Main.WorkloadLoop
import ExecutionPlatform.Exec.TelemetryBudget

/-! The line that the runner prints at the end. Every iteration makes one call of the publisher,
so that the counters of the loop, of the publisher and of the relay add up. -/
namespace ExecutionPlatform.Main
open ExecutionPlatform.Core External Exec Foundations

def kRingCapacity : Nat := 2 ^ 16

namespace Turn

/-- The call that an iteration made; none when the eviction found no id. -/
def op : Turn → Option BookOp
  | .cancelled victim => some (.cancel victim)
  | .evicted victim => victim.map .cancel
  | .submitted id side px qty _ => some (.addLimit id side px qty)

def addCount : Turn → Nat
  | .submitted _ _ _ _ true => 1
  | _ => 0

def cancelCount : Turn → Nat
  | .cancelled _ => 1
  | .evicted (some _) => 1
  | _ => 0

theorem Sound.counted {turn : Turn} (h : turn.Sound) : turn.addCount + turn.cancelCount = 1 := by
  cases turn with
  | cancelled victim => rfl
  | evicted victim =>
    obtain ⟨id, rfl⟩ := Option.ne_none_iff_exists'.mp h
    rfl
  | submitted id side px qty ok =>
    obtain rfl : ok = true := h
    rfl

end Turn

namespace SimRunner
variable {B Ring Clock : Type} [MatchingBook B] [EventRing Ring] [ClockFn Clock]
  {r r' : SimRunner B Ring Clock} {turn : Turn}

/-- What an iteration does: one call of the publisher at most, with a new id if it is an AddLimit,
and one counter goes up. -/
structure Effect (r r' : SimRunner B Ring Clock) (turn : Turn) : Prop where
  publisher : r.publisher.run turn.op.toList = some r'.publisher
  fresh : ∀ id side px qty ok, turn = .submitted id side px qty ok → id = r.nextId
  adds : r'.adds = r.adds + turn.addCount
  cancels : r'.cancels = r.cancels + turn.cancelCount

private theorem run_singleton {p p' : TelemetryPublisher B Ring Clock} {op : BookOp} (h : p.step op = some p') : p.run [op] = some p' := by
  rw [TelemetryPublisher.run, h]
  rfl

theorem cancelBack_step {victim : OrderId} (h : r.cancelBack = some (r', victim)) :
    r.publisher.run [.cancel victim] = some r'.publisher ∧ r'.adds = r.adds ∧
      r'.cancels = r.cancels + 1 := by
  obtain ⟨id, -, h⟩ := Option.bind_eq_some_iff.mp h
  obtain ⟨⟨p, ok⟩, hp, h⟩ := Option.bind_eq_some_iff.mp h
  obtain ⟨rfl, rfl⟩ := Prod.mk.inj (Option.some.inj h)
  refine ⟨run_singleton ?_, rfl, rfl⟩
  rw [TelemetryPublisher.step, hp]
  rfl

theorem submit_effect (h : r.submit = some (r', turn)) : Effect r r' turn := by
  obtain ⟨⟨⟨side, px, qty⟩, rng⟩, hdraw⟩ : ∃ w, drawOrder r.rng = w := ⟨_, rfl⟩
  rw [submit, hdraw] at h
  obtain ⟨⟨p, fills, ok⟩, hp, h⟩ := Option.bind_eq_some_iff.mp h
  obtain ⟨rfl, rfl⟩ := Prod.mk.inj (Option.some.inj h)
  have hstep : r.publisher.step (.addLimit r.nextId side px qty) = some p := by
    rw [TelemetryPublisher.step, hp]
    rfl
  have hfresh : ∀ id side' px' qty' ok', Turn.submitted r.nextId side px qty ok =
      .submitted id side' px' qty' ok' → id = r.nextId := by
    intro id side' px' qty' ok' heq
    cases heq
    rfl
  cases ok with
  | true => exact ⟨run_singleton hstep, hfresh, rfl, rfl⟩
  | false => exact ⟨run_singleton hstep, hfresh, rfl, rfl⟩

theorem evict_effect (h : r.evict = some (r', turn)) : Effect r r' turn := by
  rw [evict] at h
  split_ifs at h with hempty
  · obtain ⟨rfl, rfl⟩ := Prod.mk.inj (Option.some.inj h)
    exact ⟨rfl, fun _ _ _ _ _ heq => (by cases heq), rfl, rfl⟩
  · obtain ⟨⟨r1, victim⟩, h1, h⟩ := Option.bind_eq_some_iff.mp h
    obtain ⟨rfl, rfl⟩ := Prod.mk.inj (Option.some.inj h)
    obtain ⟨hp, hadds, hcancels⟩ := cancelBack_step h1
    exact ⟨hp, fun _ _ _ _ _ heq => (by cases heq), hadds, hcancels⟩

theorem guardedSubmit_effect (h : r.guardedSubmit = some (r', turn)) : Effect r r' turn := by
  rw [guardedSubmit] at h
  split_ifs at h with hfull
  · exact evict_effect h
  · exact submit_effect h

theorem iterate_effect (h : r.iterate = some (r', turn)) : Effect r r' turn := by
  rw [iterate] at h
  split_ifs at h with hempty
  · exact guardedSubmit_effect h
  simp only at h
  split_ifs at h with hcancel
  · obtain ⟨⟨r1, victim⟩, h1, h⟩ := Option.bind_eq_some_iff.mp h
    obtain ⟨rfl, rfl⟩ := Prod.mk.inj (Option.some.inj h)
    obtain ⟨hp, hadds, hcancels⟩ := cancelBack_step h1
    exact ⟨hp, fun _ _ _ _ _ heq => (by cases heq), hadds, hcancels⟩
  · have heffect := guardedSubmit_effect h
    exact { heffect with }

private theorem run_append {p p' p'' : TelemetryPublisher B Ring Clock} {ops ops' : List BookOp}
    (h : p.run ops = some p') (h' : p'.run ops' = some p'') : p.run (ops ++ ops') = some p'' := by
  induction ops generalizing p with
  | nil =>
    obtain rfl := Option.some.inj h
    exact h'
  | cons op ops ih =>
    obtain ⟨p1, h1, h⟩ := Option.bind_eq_some_iff.mp h
    rw [List.cons_append, TelemetryPublisher.run, h1]
    exact ih h

/-- The loop is one run of the publisher, and each of its turns moves one counter. -/
theorem loop_effect {ops : Nat} {turns : List Turn} (h : r.loop ops = some (r', turns)) :
    turns.length = ops ∧ r.publisher.run (turns.flatMap fun turn => turn.op.toList) = some r'.publisher ∧
      r'.adds = r.adds + (turns.map Turn.addCount).sum ∧
      r'.cancels = r.cancels + (turns.map Turn.cancelCount).sum := by
  induction ops generalizing r turns with
  | zero =>
    obtain ⟨rfl, rfl⟩ := Prod.mk.inj (Option.some.inj h)
    exact ⟨rfl, rfl, rfl, rfl⟩
  | succ ops ih =>
    obtain ⟨⟨r1, turn⟩, h1, h⟩ := Option.bind_eq_some_iff.mp h
    obtain ⟨⟨r2, turns2⟩, h2, h⟩ := Option.bind_eq_some_iff.mp h
    obtain ⟨rfl, rfl⟩ := Prod.mk.inj (Option.some.inj h)
    have hone := iterate_effect h1
    obtain ⟨hlen, hrun, hadds, hcancels⟩ := ih h2
    refine ⟨congrArg Nat.succ hlen, ?_, ?_, ?_⟩
    · exact run_append hone.publisher hrun
    · rw [hadds, hone.adds, List.map_cons, List.sum_cons, Nat.add_assoc]
    · rw [hcancels, hone.cancels, List.map_cons, List.sum_cons, Nat.add_assoc]

/-- What has been handed to the ring. -/
def telemetry (r : SimRunner B EventLog Clock) : List TelemetryEvent := r.publisher.out.ring.events

end SimRunner

section Counters
variable {turns : List Turn}

theorem counted_sum (h : ∀ turn ∈ turns, turn.Sound) :
    (turns.map Turn.addCount).sum + (turns.map Turn.cancelCount).sum = turns.length := by
  induction turns with
  | nil => rfl
  | cons turn turns ih =>
    have hone := (h turn List.mem_cons_self).counted
    have hrest := ih fun t ht => h t (List.mem_cons_of_mem turn ht)
    rw [List.map_cons, List.map_cons, List.sum_cons, List.sum_cons, List.length_cons]
    omega

end Counters

namespace Tracks
variable {Ring Clock : Type} [EventRing Ring] [MeteredRing Ring] [ClockFn Clock] {R : RefBook}
  {r r' : SimRunner OrderBook Ring Clock}

/-- Every event of an iteration is paid for by an order that was accepted. -/
theorem iterate_paid (h : Tracks R r) {turn : Turn} (hsound : turn.Sound)
    (he : r.iterate = some (r', turn)) :
    r'.publisher.committed ≤ r.publisher.committed + 2 * turn.addCount := by
  obtain ⟨rs, hb⟩ := h.book
  have heffect := SimRunner.iterate_effect he
  have hone : ∀ op, turn.op = some op → r.publisher.step op = some r'.publisher := by
    intro op hop
    have hrun := heffect.publisher
    rw [hop] at hrun
    obtain ⟨p1, h1, hrun⟩ := Option.bind_eq_some_iff.mp hrun
    obtain rfl := Option.some.inj hrun
    exact h1
  cases turn with
  | cancelled victim =>
    have hcancel : ¬ R.RestsDuplicate (.cancel victim) := fun hno => hno
    exact (TelemetryPublisher.step_paid hb hcancel (hone _ rfl)).2
  | evicted victim =>
    obtain ⟨id, rfl⟩ := Option.ne_none_iff_exists'.mp hsound
    have hcancel : ¬ R.RestsDuplicate (.cancel id) := fun hno => hno
    exact (TelemetryPublisher.step_paid hb hcancel (hone _ rfl)).2
  | submitted id side px qty ok =>
    obtain rfl : ok = true := hsound
    obtain rfl := heffect.fresh id side px qty true rfl
    have hfresh : r.nextId ∉ R.ids := fun hid => absurd (h.issued _ (h.covered _ hid)) (Nat.lt_irrefl _)
    exact (TelemetryPublisher.step_paid hb (RefBook.not_restsDuplicate hfresh side px qty)
      (hone _ rfl)).2

theorem loop_paid {ops : Nat} (h : Tracks R r) {turns : List Turn}
    (he : r.loop ops = some (r', turns)) :
    r'.publisher.committed ≤ r.publisher.committed + 2 * (turns.map Turn.addCount).sum := by
  induction ops generalizing R r turns with
  | zero =>
    obtain ⟨rfl, rfl⟩ := Prod.mk.inj (Option.some.inj he)
    exact Nat.le_add_right _ _
  | succ ops ih =>
    obtain ⟨⟨r1, turn⟩, h1, he⟩ := Option.bind_eq_some_iff.mp he
    obtain ⟨⟨r2, turns2⟩, h2, he⟩ := Option.bind_eq_some_iff.mp he
    obtain ⟨rfl, rfl⟩ := Prod.mk.inj (Option.some.inj he)
    obtain ⟨R', r1', turn', h1', htracks, hsound, -⟩ := h.iterate
    obtain ⟨rfl, rfl⟩ := Prod.mk.inj (Option.some.inj (h1'.symm.trans h1))
    have hone := h.iterate_paid hsound h1
    have hrest := ih htracks h2
    rw [List.map_cons, List.sum_cons]
    omega

end Tracks

/-- The numbers of the last line, but for the wall time. -/
structure Report where
  ops : Nat
  adds : Nat
  cancels : Nat
  events : Nat
  processed : Nat
  dropped : Nat
  deriving DecidableEq, Repr

/-- What main prints once the loop has ended and Stop has returned. -/
def report {B Ring Clock : Type} (ops : Nat) (r : SimRunner B Ring Clock) (s : EventRelay) : Report where
  ops := ops
  adds := r.adds
  cancels := r.cancels
  events := r.publisher.out.seq
  processed := s.shared.processed
  dropped := s.shared.ring.droppedMessages

/-- The line adds up: every iteration was an add or a cancel, every event was logged or dropped, and
as long as two events for each add fit the ring, none was dropped. -/
structure Report.Balanced (rep : Report) (telemetry logged : List TelemetryEvent) : Prop where
  calls : rep.adds + rep.cancels = rep.ops
  events : rep.events = telemetry.length % 2 ^ 64
  conserved : rep.events = (rep.processed + rep.dropped) % 2 ^ 64
  budget : telemetry.length ≤ 2 * rep.adds
  complete : 2 * rep.adds ≤ kRingCapacity →
    rep.dropped = 0 ∧ rep.processed = rep.events ∧ logged = telemetry

/-- The runner starts with an empty book and an empty vector. -/
theorem start_tracks {Ring Clock : Type} {book : OrderBook} {rs : List Nat} (ring : Ring)
    (clock : Clock) (seed : BitVec 64)
    (hb : book.Refines (.new kBookCapacity OrderBook.defaultMinPrice OrderBook.defaultMaxPrice) rs) :
    Tracks (.new kBookCapacity OrderBook.defaultMinPrice OrderBook.defaultMaxPrice)
      (SimRunner.start book ring clock seed) where
  book := ⟨rs, hb⟩
  shape := ⟨rfl, rfl, rfl⟩
  covered := by simp [RefBook.ids, RefBook.new]
  issued := by simp [SimRunner.start]
  nodup := List.nodup_nil
  room := Nat.zero_le _
  adds := rfl

open EventRelay

/-- Between the Stop call and its return nothing is emitted. -/
theorem stop_emits_nothing {n : Nat} {events : List TelemetryEvent} {s s' : EventRelay}
    {acts : List RelayAction} (h : (machine n).ReachableVia (Publishes events) s)
    (hacts : ∀ a ∈ acts, a.inside = true) (hs : (machine n).run s (.stop :: acts) = some s') :
    (machine n).ReachableVia (Publishes events) s' ∧ s'.emitted = s.emitted := by
  have hquiet : ∀ a ∈ RelayAction.stop :: acts, ∀ e, a ≠ .push e := by
    intro a ha e he
    rcases List.mem_cons.mp ha with rfl | ha
    · cases he
    · have hin := hacts a ha
      rw [he] at hin
      cases hin
  refine ⟨h.run (fun a ha t e he => absurd he (hquiet a ha e)) hs, ?_⟩
  refine Machine.run_keeps (m := machine n) (I := fun t => t.emitted = s.emitted)
    (P := fun a => ∀ e, a ≠ RelayAction.push e) ?_ hquiet rfl hs
  intro t a t' ha hI hstep
  exact (step_frame hstep ha).2.trans hI

/-- Whatever the seed and however the relay's thread is scheduled between Start and the return of
Stop: the line that main prints is balanced. -/
theorem workload_report {Clock : Type} [ClockFn Clock] (clock : Clock) (seed : BitVec 64)
    (checked : Bool) (ops : Nat) :
    ∃ book r turns,
      OrderBook.new kBookCapacity OrderBook.defaultMinPrice OrderBook.defaultMaxPrice checked =
        some book ∧
      SimRunner.loop ops (.start book ⟨[]⟩ clock seed) = some (r, turns) ∧
      emissions book clock (turns.flatMap fun turn => turn.op.toList) = some r.telemetry ∧
      ∀ s acts s', (machine kRingCapacity).ReachableVia (Publishes r.telemetry) s →
        s.emitted = r.telemetry.length → s.owner = .idle → s.running = true →
        (∀ a ∈ acts, a.inside = true) → (machine kRingCapacity).run s (.stop :: acts) = some s' →
        s'.owner = .idle → (report ops r s').Balanced r.telemetry s'.shared.logged := by
  obtain ⟨book, hbook, hb⟩ := OrderBook.new_refines kBookCapacity OrderBook.defaultMinPrice
    OrderBook.defaultMaxPrice checked (by decide) (by decide)
  have hstart := start_tracks (⟨[]⟩ : EventLog) clock seed hb
  obtain ⟨R, r, turns, hrun, htracks, hsound, -⟩ := hstart.loop ops
  obtain ⟨hlen, hpub, hadds, hcancels⟩ := SimRunner.loop_effect hrun
  have hemissions : emissions book clock (turns.flatMap fun turn => turn.op.toList) =
      some r.telemetry := by
    rw [emissions]
    exact Option.map_eq_some_iff.mpr ⟨r.publisher, hpub, rfl⟩
  have hnumbered : Numbered r.publisher.out := by
    refine Numbered.run (p := (SimRunner.start book (⟨[]⟩ : EventLog) clock seed).publisher) ?_ hpub
    exact ⟨by simp [SimRunner.start], rfl⟩
  have hbudget : r.telemetry.length ≤ 2 * r.adds := by
    have hpaid := hstart.loop_paid hrun
    rw [TelemetryPublisher.committed_eq (p := (SimRunner.start book _ clock seed).publisher) hb] at hpaid
    have hzero : r.adds = (turns.map Turn.addCount).sum := hadds.trans (Nat.zero_add _)
    rw [hzero]
    refine (Nat.le_add_right _ _).trans (hpaid.trans ?_)
    exact (Nat.zero_add _).le
  refine ⟨book, r, turns, hbook, hrun, hemissions, ?_⟩
  intro s acts s' hs hall hidle hrunning hacts hstop hidle'
  obtain ⟨hs', hem⟩ := stop_emits_nothing hs hacts hstop
  obtain ⟨N, hinv⟩ := reachable_inv (k := 16) (by decide) hs
  obtain ⟨N', hinv'⟩ := reachable_inv (k := 16) (by decide) hs'
  obtain ⟨-, hacc, hlogged, hprocessed⟩ := hinv.stop_drains hidle hrunning hacts hstop hidle'
  obtain ⟨d, hemitted, hdropped⟩ := hinv'.dropped
  have hevents : r.publisher.out.seq = r.telemetry.length % 2 ^ 64 := hnumbered.next
  refine ⟨?_, hevents, ?_, hbudget, fun hfew => ?_⟩
  · have hsum := counted_sum hsound
    change r.adds + r.cancels = ops
    rw [hadds, hcancels]
    change 0 + _ + (0 + _) = ops
    omega
  · change r.publisher.out.seq =
      (s'.shared.processed + s'.shared.ring.droppedMessages) % 2 ^ 64
    rw [hevents, hprocessed, hdropped, ← Nat.add_mod, ← hemitted, hem, hall]
  · have hslots : r.telemetry.length ≤ 2 ^ 16 := hbudget.trans hfew
    obtain ⟨hun, -⟩ := reachable_undropped (k := 16) (by decide) hslots hs'
    have hlength : s'.accepted.length = r.telemetry.length := by rw [hun.length, hem, hall]
    refine ⟨hun.droppedMessages hinv', ?_, ?_⟩
    · change s'.shared.processed = r.publisher.out.seq
      rw [hprocessed, hevents, hlength]
    · rw [hlogged, hun.accepted, hem, hall, List.take_length]

/-- Twenty iterations under a relay that keeps up: fourteen adds and six cancels, and each of their
twenty-one events is logged when Stop returns. -/
theorem workload_report_twenty_calls :
    ∃ (r : SimRunner OrderBook EventLog CounterClock) (s s' : EventRelay) (acts : List RelayAction),
      s.emitted = 21 ∧ (∀ a ∈ acts, a.inside = true) ∧
      (machine kRingCapacity).run s (.stop :: acts) = some s' ∧ s'.owner = .idle ∧
      (report 20 r s').Balanced r.telemetry s'.shared.logged ∧
      report 20 r s' = ⟨20, 14, 6, 21, 21, 0⟩ := by
  have hval : (OrderBook.new kBookCapacity OrderBook.defaultMinPrice OrderBook.defaultMaxPrice
      true).bind (fun book =>
        (SimRunner.loop 20 (.start book (⟨[]⟩ : EventLog) (⟨0⟩ : CounterClock) 42)).map
          fun out => (out.1.adds, out.1.cancels, out.1.telemetry.length)) = some (14, 6, 21) := by
    rw [OrderBook.new, SlabAllocator.new_eq]
    decide +kernel
  obtain ⟨book, r, turns, hbook, hrun, -, hreport⟩ := workload_report (⟨0⟩ : CounterClock) 42 true 20
  rw [hbook, Option.bind_some, hrun, Option.map_some] at hval
  have hnumbers : (r.adds, r.cancels, r.telemetry.length) = (14, 6, 21) := Option.some.inj hval
  obtain ⟨hadds, hrest⟩ := Prod.mk.inj hnumbers
  obtain ⟨hcancels, hlen⟩ := Prod.mk.inj hrest
  obtain ⟨s, acts, s', hs, hidle, hrunning, hemitted, hacts, hstop, hidle', -, -⟩ :=
    stop_after (k := 16) (by decide) (.ack 0 0 0 .buy 0 0) r.telemetry
  have hbalanced := hreport s acts s' hs hemitted hidle hrunning hacts hstop hidle'
  have hfew : 2 * (report 20 r s').adds ≤ kRingCapacity := by
    change 2 * r.adds ≤ kRingCapacity
    rw [hadds]
    decide
  obtain ⟨hdropped, hprocessed, -⟩ := hbalanced.complete hfew
  have hevents : (report 20 r s').events = 21 := by
    rw [hbalanced.events, hlen]
    decide
  rw [hevents] at hprocessed
  refine ⟨r, s, s', acts, hemitted.trans hlen, hacts, hstop, hidle', hbalanced, ?_⟩
  calc report 20 r s' = ⟨20, r.adds, r.cancels, (report 20 r s').events, (report 20 r s').processed,
        (report 20 r s').dropped⟩ := rfl
    _ = ⟨20, 14, 6, 21, 21, 0⟩ := by
      rw [hevents, hprocessed, hdropped, hadds, hcancels]

end ExecutionPlatform.Main
