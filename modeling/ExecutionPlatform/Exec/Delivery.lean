import ExecutionPlatform.Exec.TelemetryPublisher
import ExecutionPlatform.External.EventRelay

/-! End to end: what a publisher emits, a ring accepts and a relay logs, however often the
relay is started and stopped. -/
namespace ExecutionPlatform.Exec
open ExecutionPlatform.Core External Foundations EventRelay

/-- The k-th TryPush gets the k-th emission. -/
def Publishes (events : List TelemetryEvent) (s : EventRelay) (act : RelayAction) : Prop :=
  ∀ e, act = .push e → events[s.emitted]? = some e

variable {events : List TelemetryEvent} {n R : Nat} {s s' : EventRelay}

/-- The accepted events are the emissions at increasing positions. -/
def InOrder (events : List TelemetryEvent) (s : EventRelay) : Prop :=
  ∃ positions : List Nat, positions.Pairwise (· < ·) ∧ (∀ i ∈ positions, i < s.emitted) ∧
    s.accepted.map some = positions.map fun i => events[i]?

theorem InOrder.step {act : RelayAction} (h : InOrder events s) (hact : Publishes events s act)
    (hs : s.step act = some s') : InOrder events s' := by
  obtain ⟨positions, hinc, hlt, hmap⟩ := h
  by_cases hpush : ∃ e, act = .push e
  · obtain ⟨e, rfl⟩ := hpush
    have he := hact e rfl
    obtain ⟨hem, hacc⟩ := step_push hs
    have hlt' : ∀ i ∈ positions, i < s'.emitted := fun i hi => by
      rw [hem]
      exact Nat.lt_succ_of_lt (hlt i hi)
    rcases hacc with hacc | hacc
    · refine ⟨positions ++ [s.emitted], ?_, fun i hi => ?_, ?_⟩
      · refine List.pairwise_append.mpr ⟨hinc, List.pairwise_singleton _ _, fun i hi j hj => ?_⟩
        obtain rfl := List.mem_singleton.mp hj
        exact hlt i hi
      · rcases List.mem_append.mp hi with hi | hi
        · exact hlt' i hi
        · obtain rfl := List.mem_singleton.mp hi
          rw [hem]
          exact Nat.lt_succ_self _
      · rw [hacc, List.map_append, List.map_append, hmap, List.map_singleton, List.map_singleton, he]
    · exact ⟨positions, hinc, hlt', by rw [hacc, hmap]⟩
  · obtain ⟨hacc, hem⟩ := step_frame hs fun e he => hpush ⟨e, he⟩
    rw [InOrder, hacc, hem]
    exact ⟨positions, hinc, hlt, hmap⟩

theorem reachable_inOrder (h : (machine n).ReachableVia (Publishes events) s) : InOrder events s := by
  refine h.invariant (I := InOrder events) ?_ fun s act s' hact hI hs => hI.step hact hs
  rintro s ⟨idleSleep, zero, rfl⟩
  exact ⟨[], List.Pairwise.nil, by simp, rfl⟩

/-- What holds at every moment. Sequence numbers and the drop counter are 64-bit words. -/
structure Delivered (events : List TelemetryEvent) (s : EventRelay) : Prop where
  logged : s.shared.logged <+: s.accepted
  inOrder : ∃ positions : List Nat, positions.Pairwise (· < ·) ∧ (∀ i ∈ positions, i < s.emitted) ∧
    s.accepted.map some = (positions.map fun i => events[i]?) ∧
    s.accepted.map TelemetryEvent.sequence = positions.map (· % 2 ^ 64)
  increasing : s.emitted ≤ 2 ^ 64 → (s.shared.logged.map TelemetryEvent.sequence).Pairwise (· < ·)
  oneConsumer : ∀ i j, s.Live i → s.Live j → i = j
  conserved : ∃ d, s.emitted = s.shared.logged.length + s.inHand.length + s.inRing + d ∧
    s.shared.ring.droppedMessages = d % 2 ^ 64

theorem Inv.delivered (h : Inv n R s) (horder : InOrder events s)
    (hseq : ∀ i e, events[i]? = some e → e.sequence = i % 2 ^ 64) : Delivered events s := by
  obtain ⟨positions, hinc, hlt, hmap⟩ := horder
  have hlogged : s.shared.logged <+: s.accepted := by
    have htake := List.take_prefix R s.accepted
    rw [h.draining.popped] at htake
    exact (List.prefix_append _ _).trans htake
  have hnumbers : s.accepted.map TelemetryEvent.sequence = positions.map (· % 2 ^ 64) := by
    refine List.ext_getElem? fun j => ?_
    have hj := congrArg (fun l => l[j]?) hmap
    simp only [List.getElem?_map] at hj ⊢
    cases ha : s.accepted[j]? <;> cases hp : positions[j]? <;> simp [ha, hp] at hj ⊢
    exact hseq _ _ hj.symm
  refine ⟨hlogged, ⟨positions, hinc, hlt, hmap, hnumbers⟩, fun hfew => ?_, fun i j hi hj => ?_, ?_⟩
  · refine List.Pairwise.sublist (hlogged.map _).sublist ?_
    rw [hnumbers, List.pairwise_map]
    refine hinc.imp_of_mem fun {i j} hi hj hij => ?_
    rw [Nat.mod_eq_of_lt ((hlt i hi).trans_le hfew), Nat.mod_eq_of_lt ((hlt j hj).trans_le hfew)]
    exact hij
  · exact Option.some.inj ((h.live hi).symm.trans (h.live hj))
  · obtain ⟨d, hemitted, hdropped⟩ := h.dropped
    refine ⟨d, ?_, hdropped⟩
    have hpopped := h.popped_length
    have hring := h.inRing_eq
    omega

/-- Every run of one publisher and one relay: what is logged is what was accepted, once and in
order of emission; one thread pops; every emission is accounted for; and a Stop that ends a
running period without a push since it began leaves nothing behind. -/
theorem events_delivered {B Clock : Type} [MatchingBook B] [ClockFn Clock] {book : B} {clock : Clock}
    {ops : List BookOp} (hev : emissions book clock ops = some events) {k : Nat} (hk : k ≤ 63)
    (h : (machine (2 ^ k)).ReachableVia (Publishes events) s) :
    Delivered events s ∧
    ∀ acts s', s.owner = .idle → s.running = true → (∀ a ∈ acts, a.inside = true) →
      (machine (2 ^ k)).run s (.stop :: acts) = some s' → s'.owner = .idle →
      s'.shared.ring.readIdx = s'.shared.ring.writeIdx ∧ s'.accepted = s.accepted ∧
        s'.shared.logged = s'.accepted ∧ s'.shared.processed = s'.accepted.length % 2 ^ 64 := by
  obtain ⟨R, hinv⟩ := reachable_inv hk h
  refine ⟨Inv.delivered hinv (reachable_inOrder h) (emissions_sequence hev), ?_⟩
  intro acts s' hidle hrunning hacts hrun hidle'
  exact hinv.stop_drains hidle hrunning hacts hrun hidle'

section Wrap

/-- An order that rests and is cancelled, n times, and then rests: 2 n + 1 events. -/
def churn : Nat → List BookOp
  | 0 => [.addLimit 1 .buy 100 1]
  | n + 1 => .addLimit 1 .buy 100 1 :: .cancel 1 :: churn n

section Churn
variable {p : TelemetryPublisher OrderBook EventLog CounterClock}

theorem rest_emits (h : ∃ rs, p.book.Refines (.new 1 90 110) rs) :
    ∃ p', p.step (.addLimit 1 .buy 100 1) = some p' ∧
      (∃ rs, p'.book.Refines ⟨1, 90, 110, [⟨1, .buy, 100, 1⟩]⟩ rs) ∧
      p'.out.ring.events.length = p.out.ring.events.length + 1 := by
  obtain ⟨rs, h⟩ := h
  have hadd : (RefBook.new 1 90 110).addLimit 1 .buy 100 1 =
      (⟨1, 90, 110, [⟨1, .buy, 100, 1⟩]⟩, [], true) := by decide
  have hid : 1 ∉ (RefBook.new 1 90 110).ids := by decide
  obtain ⟨b', rs', he, hr⟩ := h.addLimit (RefBook.not_restsDuplicate hid .buy 100 1)
  rw [hadd] at he hr
  refine ⟨⟨b', p.out.report 1 .buy 100 1 [] true⟩, ?_, ⟨rs', hr⟩, ?_⟩
  · simp only [TelemetryPublisher.step, TelemetryPublisher.addLimit, MatchingBook.addLimit, he]
    rfl
  · exact List.length_append

theorem cancel_emits (h : ∃ rs, p.book.Refines ⟨1, 90, 110, [⟨1, .buy, 100, 1⟩]⟩ rs) :
    ∃ p', p.step (.cancel 1) = some p' ∧ (∃ rs, p'.book.Refines (.new 1 90 110) rs) ∧
      p'.out.ring.events.length = p.out.ring.events.length + 1 := by
  obtain ⟨rs, h⟩ := h
  have hcancel : RefBook.cancel ⟨1, 90, 110, [⟨1, .buy, 100, 1⟩]⟩ 1 =
      (.new 1 90 110, some ⟨1, .buy, 100, 1⟩) := by decide
  obtain ⟨b', rs', he, hr⟩ := h.cancel 1
  rw [hcancel] at he hr
  refine ⟨⟨b', p.out.emit fun seq ts => .cancel seq ts 1 .buy 100 1⟩, ?_, ⟨rs', hr⟩, ?_⟩
  · simp only [TelemetryPublisher.step, TelemetryPublisher.cancel, MatchingBook.cancel, he]
    rfl
  · exact List.length_append

theorem churn_emits (n : Nat) (h : ∃ rs, p.book.Refines (.new 1 90 110) rs) :
    ∃ p', p.run (churn n) = some p' ∧
      p'.out.ring.events.length = p.out.ring.events.length + (2 * n + 1) := by
  induction n generalizing p with
  | zero =>
    obtain ⟨p1, h1, -, hlen⟩ := rest_emits h
    refine ⟨p1, ?_, hlen⟩
    rw [churn, TelemetryPublisher.run, h1]
    rfl
  | succ n ih =>
    obtain ⟨p1, h1, hbook1, hlen1⟩ := rest_emits h
    obtain ⟨p2, h2, hbook2, hlen2⟩ := cancel_emits hbook1
    obtain ⟨p3, h3, hlen3⟩ := ih hbook2
    refine ⟨p3, ?_, by omega⟩
    rw [churn, TelemetryPublisher.run, h1, Option.bind_eq_bind, Option.bind_some,
      TelemetryPublisher.run, h2, Option.bind_eq_bind, Option.bind_some, h3]

end Churn

/-- A new publisher emits as many events as one asks for. -/
theorem emissions_churn (n : Nat) : ∃ b events, OrderBook.new 1 90 110 true = some b ∧
    emissions b (⟨0⟩ : CounterClock) (churn n) = some events ∧ events.length = 2 * n + 1 := by
  obtain ⟨b, hnew, href⟩ := OrderBook.new_refines 1 90 110 true (by decide) (by decide)
  obtain ⟨p, hrun, hlen⟩ := churn_emits (p := ⟨b, ⟨⟨[]⟩, ⟨0⟩, 0⟩⟩) n ⟨_, href⟩
  refine ⟨b, p.out.ring.events, hnew, ?_, ?_⟩
  · rw [emissions, hrun]
    rfl
  · rw [hlen]
    exact Nat.zero_add _

/-- With no relay, a publisher can push whatever it emits. -/
theorem push_all (zero : TelemetryEvent) {j : Nat} (hj : j ≤ events.length) :
    ∃ s, (machine 1).ReachableVia (Publishes events) s ∧ s.emitted = j ∧ s.threads = [] ∧
      s.shared.logged = [] := by
  induction j with
  | zero => exact ⟨_, .init ⟨0, zero, rfl⟩, rfl, rfl, rfl⟩
  | succ j ih =>
    obtain ⟨s, hs, hem, hth, hlog⟩ := ih (Nat.le_of_succ_le hj)
    have he : events[s.emitted]? = some events[j] := by
      rw [hem]
      exact List.getElem?_eq_getElem hj
    refine ⟨_, hs.step (a := .push events[j]) (fun e h => ?_) rfl, ?_, hth, hlog⟩
    · cases h
      exact he
    · exact congrArg Nat.succ hem

/-- A relay that keeps up with the publisher, over a ring of any size. -/
theorem relay_all {k : Nat} (hk : k ≤ 63) (zero : TelemetryEvent) {j : Nat} (hj : j ≤ events.length) :
    ∃ ring processed gotAny, (machine (2 ^ k)).ReachableVia (Publishes events)
      ⟨⟨ring, events.take j, processed, false, 0⟩, true, [.tryPop false gotAny], some 0, .idle,
        events.take j, j⟩ ∧
      ring.Window 0 (events.take j) j j ∧ ring.capacity = 2 ^ k := by
  have hslots := Nat.two_pow_pos k
  induction j with
  | zero =>
    have h0 : (machine (2 ^ k)).ReachableVia (Publishes events) (EventRelay.new (2 ^ k) 0 zero) :=
      .init ⟨0, zero, rfl⟩
    have h1 := h0.step (a := .start) (fun e h => by cases h) rfl
    have h2 := h1.step (a := .owner) (fun e h => by cases h) rfl
    have h3 := h2.step (a := .owner) (fun e h => by cases h) rfl
    exact ⟨_, _, _, h3, SpscRing.new_window hk zero, rfl⟩
  | succ j ih =>
    obtain ⟨ring, processed, gotAny, hs, hwin, hcap⟩ := ih (Nat.le_of_succ_le hj)
    have he : events[j]? = some events[j] := List.getElem?_eq_getElem hj
    have htake : events.take (j + 1) = events.take j ++ [events[j]] := by
      rw [List.take_add_one, he]
      rfl
    -- the publisher pushes, and the thread pops, logs and counts
    obtain ⟨ring1, hpush, hwin1, hcap1, -⟩ := hwin.tryPush_room (by omega) events[j]
    obtain ⟨ring2, e, hpop, hmem, hwin2, hcap2, -⟩ := hwin1.tryPop_some (Nat.lt_succ_self j)
    rw [← htake, Option.mem_def, List.getElem?_take_of_lt (Nat.lt_succ_self j), he] at hmem
    obtain rfl := Option.some.inj hmem
    have hpushed : (machine (2 ^ k)).step ⟨⟨ring, events.take j, processed, false, 0⟩, true,
        [.tryPop false gotAny], some 0, .idle, events.take j, j⟩ (.push events[j]) =
        some ⟨⟨ring1, events.take j, processed, false, 0⟩, true, [.tryPop false gotAny], some 0,
          .idle, events.take (j + 1), j + 1⟩ := by
      simp only [machine, EventRelay.step, hpush, if_true, htake]
    have hpopped : (machine (2 ^ k)).step ⟨⟨ring1, events.take j, processed, false, 0⟩, true,
        [.tryPop false gotAny], some 0, .idle, events.take (j + 1), j + 1⟩ (.relay 0) =
        some ⟨⟨ring2, events.take j, processed, false, 0⟩, true, [.log false events[j]], some 0,
          .idle, events.take (j + 1), j + 1⟩ := by
      simp only [machine, EventRelay.step, List.getElem?_cons_zero, Option.bind_eq_bind, Option.bind_some,
        Relayed.runStep, hpop]
      rfl
    have h1 := hs.step (fun e h => by cases h; exact he) hpushed
    have h2 := h1.step (fun e h => by cases h) hpopped
    have h3 := h2.step (a := .relay 0) (fun e h => by cases h) rfl
    have h4 := h3.step (a := .relay 0) (fun e h => by cases h) rfl
    refine ⟨ring2, addWord 64 processed 1, true, ?_, htake ▸ hwin2, (hcap2.trans hcap1).trans hcap⟩
    rw [← htake] at h4
    exact h4

/-- A Stop then finds the ring empty: the thread sees the flag, looks once more and returns. -/
theorem stop_after {k : Nat} (hk : k ≤ 63) (zero : TelemetryEvent) (events : List TelemetryEvent) :
    ∃ s acts s', (machine (2 ^ k)).ReachableVia (Publishes events) s ∧ s.owner = .idle ∧
      s.running = true ∧ s.emitted = events.length ∧ (∀ a ∈ acts, a.inside = true) ∧
      (machine (2 ^ k)).run s (.stop :: acts) = some s' ∧ s'.owner = .idle ∧ s'.accepted = events ∧
      s'.shared.logged = events := by
  obtain ⟨ring, processed, gotAny, hs, hwin, -⟩ := relay_all hk zero (le_refl events.length)
  have hpop := hwin.tryPop_none
  rw [List.take_length] at hs
  refine ⟨_, [.owner, .relay 0, .relay 0, .relay 0, .owner, .owner],
    ⟨⟨ring, events, processed, true, 0⟩, false, [.returned], none, .idle, events, events.length⟩,
    hs, rfl, rfl, rfl, by decide, ?_, rfl, rfl, rfl⟩
  simp [Machine.run, machine, EventRelay.step, EventRelay.ownerStep, Relayed.runStep, hpop]

theorem events_delivered_churn : ∃ b events s acts s', OrderBook.new 1 90 110 true = some b ∧
    emissions b (⟨0⟩ : CounterClock) (churn 1) = some events ∧ events.length = 3 ∧
    (machine (2 ^ 0)).ReachableVia (Publishes events) s ∧ Delivered events s ∧
    (machine (2 ^ 0)).run s (.stop :: acts) = some s' ∧ s'.owner = .idle ∧
    s'.shared.logged = events ∧ s'.shared.ring.readIdx = s'.shared.ring.writeIdx ∧
    s'.shared.processed = 3 := by
  obtain ⟨b, events, hnew, hev, hlen⟩ := emissions_churn 1
  obtain ⟨s, acts, s', hs, hidle, hrunning, -, hacts, hrun, hidle', hacc, hlogged⟩ :=
    stop_after (k := 0) (Nat.zero_le 63) (.ack 0 0 0 .buy 0 0) events
  obtain ⟨hdelivered, hstop⟩ := events_delivered hev (Nat.zero_le 63) hs
  obtain ⟨hempty, -, -, hprocessed⟩ := hstop acts s' hidle hrunning hacts hrun hidle'
  rw [hacc, hlen] at hprocessed
  exact ⟨b, events, s, acts, s', hnew, hev, hlen, hs, hdelivered, hrun, hidle', hlogged, hempty,
    hprocessed⟩

/-- After 2^64 emissions the counters start over. Without a relay the drop counter falls short
of what was emitted; a relay that logs everything logs number 0 twice, and has counted one
event when it stops. -/
theorem counters_wrap : ∃ b events, OrderBook.new 1 90 110 true = some b ∧
    emissions b (⟨0⟩ : CounterClock) (churn (2 ^ 63)) = some events ∧
    (∃ s, (machine 1).ReachableVia (Publishes events) s ∧
      s.emitted ≠ s.shared.logged.length + s.inHand.length + s.inRing +
        s.shared.ring.droppedMessages) ∧
    ∃ s acts s', (machine 1).ReachableVia (Publishes events) s ∧ s.owner = .idle ∧
      s.running = true ∧ (∀ a ∈ acts, a.inside = true) ∧
      (machine 1).run s (.stop :: acts) = some s' ∧ s'.owner = .idle ∧
      ¬ (s'.shared.logged.map TelemetryEvent.sequence).Pairwise (· < ·) ∧
      s'.shared.processed ≠ s'.accepted.length := by
  obtain ⟨b, events, hnew, hev, hlen⟩ := emissions_churn (2 ^ 63)
  have hnum := emissions_sequence hev
  have hlong : events.length = 2 ^ 64 + 1 := by omega
  refine ⟨b, events, hnew, hev, ?_, ?_⟩
  · obtain ⟨s, hs, hem, hth, hlog⟩ := push_all (.ack 0 0 0 .buy 0 0) (le_refl events.length)
    refine ⟨s, hs, ?_⟩
    obtain ⟨R, hinv⟩ := reachable_inv (k := 0) (Nat.zero_le 63) hs
    have hhand : s.inHand = [] := by rw [inHand, hth]; rfl
    have hpopped := hinv.popped_length
    have hring := hinv.inRing_eq
    have hbound := hinv.draining.window.bound
    have hcap := hinv.draining.capacity
    obtain ⟨d, -, hdropped⟩ := hinv.dropped
    have hword := Nat.mod_lt d (Nat.two_pow_pos 64)
    rw [hhand, hlog] at hpopped ⊢
    simp only [List.length_nil] at hpopped ⊢
    omega
  · obtain ⟨s, acts, s', hs, hidle, hrunning, -, hacts, hrun, hidle', hacc, hlogged⟩ :=
      stop_after (k := 0) (Nat.zero_le 63) (.ack 0 0 0 .buy 0 0) events
    refine ⟨s, acts, s', hs, hidle, hrunning, hacts, hrun, hidle', ?_, ?_⟩
    · rw [hlogged, List.pairwise_map, List.pairwise_iff_getElem]
      intro hinc
      have hfirst := hnum 0 _ (List.getElem?_eq_getElem (by omega))
      have hlast := hnum (2 ^ 64) _ (List.getElem?_eq_getElem (by omega))
      have hlt := hinc 0 (2 ^ 64) (by omega) (by omega) (by omega)
      rw [hfirst, hlast] at hlt
      exact absurd hlt (by decide)
    · obtain ⟨R, hinv⟩ := reachable_inv (k := 0) (Nat.zero_le 63) hs
      obtain ⟨-, -, -, hprocessed⟩ := hinv.stop_drains hidle hrunning hacts hrun hidle'
      rw [hprocessed, hacc, hlong]
      decide

end Wrap

end ExecutionPlatform.Exec
