import ExecutionPlatform.Core.SpscInterleaving
import ExecutionPlatform.Exec.TelemetryPublisher

/-! What the tape's gaps say about drops: one publisher emits into one ring, one consumer
drains it, and the analysis script counts the sequence numbers that never arrived. -/
namespace ExecutionPlatform.Exec
open ExecutionPlatform.Core External Foundations

/-- expected less the number of rows, in 64-bit arithmetic. -/
def gapDrops (rows : List TelemetryEvent) : Nat :=
  match rows.head?, rows.getLast? with
  | some first, some last =>
    subWord 64 (addWord 64 1 (subWord 64 last.sequence first.sequence)) rows.length
  | _, _ => 0

/-- The ring under both threads; `late` counts the drops since the last accepted push. -/
structure TapeRun where
  sys : SpscSystem TelemetryEvent
  late : Nat

namespace TapeRun

def step (t : TapeRun) (act : SpscAction TelemetryEvent) : Option TapeRun := do
  let sys ← t.sys.step act
  pure ⟨sys, match act with
    | .pushDrop => t.late + 1
    | .pushStoreWrite => 0
    | _ => t.late⟩

def machine (capacity : Nat) : Machine TapeRun (SpscAction TelemetryEvent) where
  init t := (SpscSystem.machine TelemetryEvent capacity).init t.sys ∧ t.late = 0
  step := step

/-- The k-th TryPush gets the k-th emission. -/
def Pushes (events : List TelemetryEvent) (t : TapeRun) (act : SpscAction TelemetryEvent) : Prop :=
  ∀ e, act = .pushLoadWrite e → events[t.sys.completed]? = some e

variable {events : List TelemetryEvent} {t t' : TapeRun} {act : SpscAction TelemetryEvent}

/-- The event that a TryPush under way carries. -/
def carried : PushPoint TelemetryEvent → Option TelemetryEvent
  | .loadedWrite e _ => some e
  | .room e _ => some e
  | .written e _ => some e
  | _ => none

/-- The first event accepted is the first emitted, and the last one is followed only by
the drops counted as late. -/
structure Ends (t : TapeRun) : Prop where
  carried : ∀ e ∈ carried t.sys.producer, e.sequence = t.sys.completed % 2 ^ 64
  full : t.sys.producer = .full → t.sys.accepted ≠ []
  none : t.sys.accepted = [] → t.sys.completed = 0 ∧ t.late = 0
  first : ∀ e ∈ t.sys.accepted.head?, e.sequence = 0
  last : ∀ e ∈ t.sys.accepted.getLast?, t.late < t.sys.completed ∧
    e.sequence = (t.sys.completed - 1 - t.late) % 2 ^ 64
  word : t.sys.ring.droppedMessages < 2 ^ 64

theorem Ends.start {capacity base : Nat} {storage : Nat → TelemetryEvent} :
    Ends ⟨.start capacity base storage, 0⟩ :=
  ⟨by simp [SpscSystem.start, TapeRun.carried], by simp [SpscSystem.start], fun _ => ⟨rfl, rfl⟩,
    by simp [SpscSystem.start], by simp [SpscSystem.start], Nat.two_pow_pos 64⟩

/-- A step of the consumer, or a load of the producer that finds room. -/
theorem Ends.quiet {sys : SpscSystem TelemetryEvent} (h : Ends t)
    (hacc : sys.accepted = t.sys.accepted) (hcomp : sys.completed = t.sys.completed)
    (hcar : ∀ e ∈ TapeRun.carried sys.producer, e.sequence = t.sys.completed % 2 ^ 64)
    (hfull : sys.producer = .full → t.sys.accepted ≠ [])
    (hdrop : sys.ring.droppedMessages = t.sys.ring.droppedMessages) : Ends ⟨sys, t.late⟩ := by
  refine ⟨?_, ?_, ?_, ?_, ?_, hdrop.trans_lt h.word⟩ <;> simp only [hacc, hcomp]
  · exact hcar
  · exact hfull
  · exact h.none
  · exact h.first
  · exact h.last

/-- A push that finds the ring full is not the first one. -/
theorem accepted_ne_nil_of_full {n base a c pick : Nat} {s s' : SpscSystem TelemetryEvent}
    (h : SpscSystem.Inv n base a c s) (hs : s.step (.pushLoadRead pick) = some s')
    (hfull : s'.producer = .full) : s.accepted ≠ [] := by
  obtain ⟨k, -, hcap⟩ := h.window.sized
  have hpos : 0 < s.ring.capacity := hcap ▸ Nat.two_pow_pos k
  cases hp : s.producer <;> cases hr : s.readHistory[pick]? <;> simp [SpscSystem.step, hp, hr] at hs
  subst hs
  have hw := h.producer
  rw [SpscSystem.ProducerOK, hp] at hw
  rw [h.readHistory] at hr
  obtain ⟨hpick, rfl⟩ := SpscSystem.history_pick hr
  intro hnil
  have hzero : s.accepted.length = 0 := by rw [hnil, List.length_nil]
  have hnear := h.readNear
  have hord := h.window.ordered
  have hiff := h.window.full_iff (a := a + pick) (by omega) (by omega)
  simp only [hw] at hfull
  split_ifs at hfull with hf
  rw [hiff] at hf
  omega

theorem Ends.step (hnum : ∀ i e, events[i]? = some e → e.sequence = i % 2 ^ 64) (h : Ends t)
    {n base a c : Nat} (hinv : SpscSystem.Inv n base a c t.sys) (hok : Pushes events t act)
    (hs : t.step act = some t') : Ends t' := by
  obtain ⟨sys, hsys, hs⟩ := Option.bind_eq_some_iff.mp hs
  obtain rfl := Option.some.inj hs
  cases act with
  | pushLoadWrite e =>
    have he := hnum _ _ (hok e rfl)
    cases hp : t.sys.producer <;> simp [SpscSystem.step, hp] at hsys
    subst hsys
    refine h.quiet rfl rfl ?_ (by simp) rfl
    simpa [TapeRun.carried] using he
  | pushLoadRead pick =>
    have hne := accepted_ne_nil_of_full hinv hsys
    cases hp : t.sys.producer <;> cases hr : t.sys.readHistory[pick]? <;>
      simp [SpscSystem.step, hp, hr] at hsys
    subst hsys
    refine h.quiet rfl rfl (fun e he => ?_) hne rfl
    have hcar := h.carried
    rw [hp] at hcar
    simp only at he
    split_ifs at he
    · simp [TapeRun.carried] at he
    · exact hcar e he
  | pushDrop =>
    cases hp : t.sys.producer <;> simp [SpscSystem.step, hp] at hsys
    subst hsys
    have hne := h.full hp
    refine ⟨by simp [TapeRun.carried], by simp, fun hnil => absurd hnil hne, h.first, fun e he => ?_,
      Nat.mod_lt _ (Nat.two_pow_pos 64)⟩
    obtain ⟨hlt, hseq⟩ := h.last e he
    simp only
    exact ⟨by omega, by rw [hseq]; congr 1; omega⟩
  | pushWriteSlot =>
    cases hp : t.sys.producer <;> simp [SpscSystem.step, hp] at hsys
    subst hsys
    have hcar := h.carried
    rw [hp] at hcar
    exact h.quiet rfl rfl hcar (by simp) rfl
  | pushStoreWrite =>
    obtain ⟨e, w, hp⟩ : ∃ e w, t.sys.producer = .written e w := by
      cases hp : t.sys.producer <;> simp [SpscSystem.step, hp] at hsys ⊢
    simp only [SpscSystem.step, hp] at hsys
    obtain rfl := Option.some.inj hsys
    have hcar : e.sequence = t.sys.completed % 2 ^ 64 := h.carried e (by rw [hp]; rfl)
    refine ⟨by simp [TapeRun.carried], by simp, by simp, fun x hx => ?_, fun x hx => ?_, h.word⟩
    · cases hacc : t.sys.accepted with
      | nil =>
        simp [hacc] at hx
        rw [← hx, hcar, (h.none hacc).1, Nat.zero_mod]
      | cons y l =>
        refine h.first x ?_
        simpa [hacc] using hx
    · simp at hx
      simp only
      exact ⟨by omega, by rw [← hx, hcar]; congr 1⟩
  | popLoadRead | popReadSlot | popStoreRead =>
    cases hc : t.sys.consumer <;> simp [SpscSystem.step, hc] at hsys
    subst hsys
    exact h.quiet rfl rfl h.carried h.full rfl
  | popLoadWrite pick =>
    cases hc : t.sys.consumer <;> cases hr : t.sys.writeHistory[pick]? <;>
      simp [SpscSystem.step, hc, hr] at hsys
    subst hsys
    exact h.quiet rfl rfl h.carried h.full rfl

/-- The ring's invariant and the ends of the tape, in every run that pushes the emissions. -/
theorem reachable_ends (hnum : ∀ i e, events[i]? = some e → e.sequence = i % 2 ^ 64) {k : Nat}
    (hk : k ≤ 63) (h : (machine (2 ^ k)).ReachableVia (Pushes events) t) :
    (∃ base a c, SpscSystem.Inv (2 ^ k) base a c t.sys) ∧ Ends t := by
  refine h.invariant (I := fun t => (∃ base a c, SpscSystem.Inv (2 ^ k) base a c t.sys) ∧ Ends t)
    ?_ ?_
  · rintro ⟨sys, late⟩ ⟨⟨base, storage, rfl⟩, rfl⟩
    exact ⟨⟨base, 0, 0, SpscSystem.start_inv hk base storage⟩, Ends.start⟩
  · rintro t act t' hok ⟨⟨base, a, c, hinv⟩, hends⟩ hs
    refine ⟨⟨base, ?_⟩, hends.step hnum hinv hok hs⟩
    obtain ⟨sys, hsys, hs⟩ := Option.bind_eq_some_iff.mp hs
    obtain rfl := Option.some.inj hs
    exact hinv.step hsys

end TapeRun

/-- Once the ring is drained, the gaps count the drops up to the last event delivered: the
drop counter less the drops after it, and so all of them exactly when there is none after it. -/
theorem gapDrops_eq {B Clock : Type} [MatchingBook B] [ClockFn Clock] {book : B} {clock : Clock}
    {ops : List BookOp} {events : List TelemetryEvent} (hev : emissions book clock ops = some events)
    {k : Nat} (hk : k ≤ 63) {t : TapeRun}
    (h : (TapeRun.machine (2 ^ k)).ReachableVia (TapeRun.Pushes events) t)
    (hdrained : t.sys.popped = t.sys.accepted) (hne : t.sys.popped ≠ []) :
    gapDrops t.sys.popped = subWord 64 t.sys.ring.droppedMessages t.late ∧
      (gapDrops t.sys.popped = t.sys.ring.droppedMessages ↔ t.late % 2 ^ 64 = 0) := by
  obtain ⟨⟨base, a, c, hinv⟩, hends⟩ := TapeRun.reachable_ends (emissions_sequence hev) hk h
  rw [hdrained] at hne ⊢
  obtain ⟨first, hfirst⟩ : ∃ e, t.sys.accepted.head? = some e := ⟨_, List.head?_eq_some_head hne⟩
  obtain ⟨last, hlast⟩ : ∃ e, t.sys.accepted.getLast? = some e :=
    ⟨_, List.getLast?_eq_some_getLast hne⟩
  have hzero := hends.first first hfirst
  obtain ⟨hlt, hseq⟩ := hends.last last hlast
  have hcompleted := hinv.completed
  have hword := hends.word
  rw [gapDrops, hfirst, hlast]
  simp only [hzero, hseq, subWord, addWord]
  constructor <;> omega

/-- One slot: the ack is delivered and the cancel after it is dropped. -/
private theorem late_drop_run :
    ∃ b events t, OrderBook.new 8 90 110 true = some b ∧
      emissions b (⟨0⟩ : CounterClock) [.addLimit 1 .sell 101 5, .cancel 1] = some events ∧
      (TapeRun.machine (2 ^ 0)).ReachableVia (TapeRun.Pushes events) t ∧
      t.sys.popped = t.sys.accepted ∧ t.sys.popped = [⟨.ack, .sell, 0, 0, 1, 0, 101, 5⟩] ∧
      t.sys.ring.droppedMessages = 1 ∧ t.late = 1 := by
  have hev : ((OrderBook.new 8 90 110 true).bind fun b =>
      emissions b (⟨0⟩ : CounterClock) [.addLimit 1 .sell 101 5, .cancel 1]) =
        some [⟨.ack, .sell, 0, 0, 1, 0, 101, 5⟩, ⟨.cancel, .sell, 1, 1, 1, 0, 101, 5⟩] := by
    decide +kernel
  obtain ⟨b, hnew, hev⟩ := Option.bind_eq_some_iff.mp hev
  have h0 : (TapeRun.machine (2 ^ 0)).ReachableVia (TapeRun.Pushes
      [⟨.ack, .sell, 0, 0, 1, 0, 101, 5⟩, ⟨.cancel, .sell, 1, 1, 1, 0, 101, 5⟩])
      ⟨.start 1 0 fun _ => ⟨.ack, .buy, 0, 0, 0, 0, 0, 0⟩, 0⟩ := .init ⟨⟨0, _, rfl⟩, rfl⟩
  -- the ack finds the slot free
  have h1 := h0.step (a := .pushLoadWrite ⟨.ack, .sell, 0, 0, 1, 0, 101, 5⟩)
    (fun e he => by cases he; rfl) rfl
  have h2 := h1.step (a := .pushLoadRead 0) (fun e he => by cases he) rfl
  have h3 := h2.step (a := .pushWriteSlot) (fun e he => by cases he) rfl
  have h4 := h3.step (a := .pushStoreWrite) (fun e he => by cases he) rfl
  -- the cancel finds it taken
  have h5 := h4.step (a := .pushLoadWrite ⟨.cancel, .sell, 1, 1, 1, 0, 101, 5⟩)
    (fun e he => by cases he; rfl) rfl
  have h6 := h5.step (a := .pushLoadRead 0) (fun e he => by cases he) rfl
  have h7 := h6.step (a := .pushDrop) (fun e he => by cases he) rfl
  -- the consumer drains the ring
  have h8 := h7.step (a := .popLoadRead) (fun e he => by cases he) rfl
  have h9 := h8.step (a := .popLoadWrite 1) (fun e he => by cases he) rfl
  have h10 := h9.step (a := .popReadSlot) (fun e he => by cases he) rfl
  have h11 := h10.step (a := .popStoreRead) (fun e he => by cases he) rfl
  exact ⟨b, _, _, hnew, hev, h11, rfl, rfl, rfl, rfl⟩

theorem gapDrops_eq_late_drop :
    ∃ b events t, OrderBook.new 8 90 110 true = some b ∧
      emissions b (⟨0⟩ : CounterClock) [.addLimit 1 .sell 101 5, .cancel 1] = some events ∧
      (TapeRun.machine (2 ^ 0)).ReachableVia (TapeRun.Pushes events) t ∧
      gapDrops t.sys.popped = subWord 64 t.sys.ring.droppedMessages t.late := by
  obtain ⟨b, events, t, hnew, hev, hreach, hdrained, hpopped, -, -⟩ := late_drop_run
  refine ⟨b, events, t, hnew, hev, hreach, (gapDrops_eq hev (by decide) hreach hdrained ?_).1⟩
  rw [hpopped]
  exact List.cons_ne_nil _ _

/-- A drop after the last event delivered leaves no gap. -/
theorem gaps_miss_late_drop :
    ∃ b events t, OrderBook.new 8 90 110 true = some b ∧
      emissions b (⟨0⟩ : CounterClock) [.addLimit 1 .sell 101 5, .cancel 1] = some events ∧
      (TapeRun.machine (2 ^ 0)).ReachableVia (TapeRun.Pushes events) t ∧
      t.sys.popped = t.sys.accepted ∧ t.sys.popped ≠ [] ∧
      gapDrops t.sys.popped ≠ t.sys.ring.droppedMessages := by
  obtain ⟨b, events, t, hnew, hev, hreach, hdrained, hpopped, hdrop, -⟩ := late_drop_run
  refine ⟨b, events, t, hnew, hev, hreach, hdrained, ?_, ?_⟩
  · rw [hpopped]
    exact List.cons_ne_nil _ _
  · rw [hpopped, hdrop]
    decide

end ExecutionPlatform.Exec
