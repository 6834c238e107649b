import ExecutionPlatform.Core.SpscRing
import ExecutionPlatform.External.TelemetryEvent
import ExecutionPlatform.Foundations.Machine

/-! The relay between the clocks: one publisher pushes into a ring, the threads that Start
spawns drain it into the logger, and one owner starts and stops them. TryPush and TryPop are
single steps here. -/
namespace ExecutionPlatform.External
open ExecutionPlatform.Core Foundations

/-- Where a consumer thread stands in Run. The two drain loops differ in `closing`, which
marks the pass after the stop flag was seen. -/
inductive RunPoint where
  | tryPop (closing gotAny : Bool)
  | log (closing : Bool) (event : TelemetryEvent)
  | count (closing : Bool)
  | check (gotAny : Bool)
  | asleep
  | returned
  deriving DecidableEq

namespace RunPoint

/-- The event popped and not yet logged. -/
def inHand : RunPoint → List TelemetryEvent
  | .log _ event => [event]
  | _ => []

/-- Logged and not yet counted. -/
def uncounted : RunPoint → Nat
  | .count _ => 1
  | _ => 0

/-- The stop flag has been seen. -/
def isClosing : RunPoint → Bool
  | .tryPop closing _ => closing
  | .log closing _ => closing
  | .count closing => closing
  | .returned => true
  | _ => false

end RunPoint

/-- Where the owner stands: between calls, or inside Start or Stop. -/
inductive OwnerPoint where
  | idle
  | startClear
  | startSpawn
  | stopSignal
  | stopJoin
  | stopEnd
  deriving DecidableEq

/-- What the threads share with the publisher and the owner. -/
structure Relayed where
  ring : SpscRing TelemetryEvent
  logged : List TelemetryEvent
  processed : Nat
  stopRequested : Bool
  idleSleep : Nat

/-- `threads` are all that were ever spawned and `thread` is the one that can be joined. The
last two fields are bookkeeping: what TryPush accepted, and how often it was called. -/
structure EventRelay where
  shared : Relayed
  running : Bool
  threads : List RunPoint
  thread : Option Nat
  owner : OwnerPoint
  accepted : List TelemetryEvent
  emitted : Nat

inductive RelayAction where
  | push (event : TelemetryEvent)
  | relay (thread : Nat)
  | start
  | stop
  | owner
  deriving DecidableEq

/-- A step of a thread, or of the owner inside a call. -/
def RelayAction.inside : RelayAction → Bool
  | .relay _ => true
  | .owner => true
  | _ => false

/-- One step of Run. -/
def Relayed.runStep (sh : Relayed) : RunPoint → Option (Relayed × RunPoint)
  | .tryPop closing gotAny =>
    match sh.ring.tryPop with
    | (ring, some event) => some ({ sh with ring := ring }, .log closing event)
    | (ring, none) =>
      some ({ sh with ring := ring }, if closing then .returned else .check gotAny)
  | .log closing event => some ({ sh with logged := sh.logged ++ [event] }, .count closing)
  | .count closing => some ({ sh with processed := addWord 64 sh.processed 1 }, .tryPop closing true)
  | .check gotAny =>
    if sh.stopRequested then some (sh, .tryPop true gotAny)
    else if !gotAny && decide (0 < sh.idleSleep) then some (sh, .asleep)
    else some (sh, .tryPop false false)
  | .asleep => some (sh, .tryPop false false)
  | .returned => none

namespace EventRelay

/-- The ring, the logger and the relay as constructed. -/
def new (capacity idleSleep : Nat) (zero : TelemetryEvent) : EventRelay where
  shared := ⟨.new capacity zero, [], 0, false, idleSleep⟩
  running := false
  threads := []
  thread := none
  owner := .idle
  accepted := []
  emitted := 0

/-- The owner inside Start or Stop. Assigning to a thread that could still be joined would end
the process, and a join waits for the thread to return. -/
def ownerStep (s : EventRelay) : Option EventRelay :=
  match s.owner with
  | .idle => none
  | .startClear => some { s with shared := { s.shared with stopRequested := false }
                                 owner := .startSpawn }
  | .startSpawn =>
    if s.thread.isSome then none
    else some { s with threads := s.threads ++ [.tryPop false false]
                       thread := some s.threads.length
                       owner := .idle }
  | .stopSignal => some { s with shared := { s.shared with stopRequested := true }
                                 owner := .stopJoin }
  | .stopJoin =>
    match s.thread with
    | none => some { s with owner := .stopEnd }
    | some k =>
      if s.threads[k]? = some .returned then some { s with thread := none, owner := .stopEnd }
      else none
  | .stopEnd => some { s with running := false, owner := .idle }

def step (s : EventRelay) : RelayAction → Option EventRelay
  | .push event =>
    let (ring, pushed) := s.shared.ring.tryPush event
    some { s with shared := { s.shared with ring := ring }
                  accepted := if pushed then s.accepted ++ [event] else s.accepted
                  emitted := s.emitted + 1 }
  | .relay k => do
    let point ← s.threads[k]?
    let (shared, point') ← s.shared.runStep point
    pure { s with shared := shared, threads := s.threads.set k point' }
  | .start =>
    match s.owner with
    | .idle => if s.running then some s else some { s with running := true, owner := .startClear }
    | _ => none
  | .stop =>
    match s.owner with
    | .idle => if s.running then some { s with owner := .stopSignal } else some s
    | _ => none
  | .owner => s.ownerStep

/-- Any idle policy, any initial content of the slots, any schedule. -/
def machine (capacity : Nat) : Machine EventRelay RelayAction where
  init s := ∃ idleSleep zero, s = new capacity idleSleep zero
  step := step

/-- A thread that has not returned. -/
def Live (s : EventRelay) (k : Nat) : Prop := ∃ p, s.threads[k]? = some p ∧ p ≠ .returned

/-- The events popped and not yet logged, over all threads. -/
def inHand (s : EventRelay) : List TelemetryEvent := s.threads.flatMap RunPoint.inHand

/-- The number of events between the two indices. -/
def inRing (s : EventRelay) : Nat := subWord 64 s.shared.ring.writeIdx s.shared.ring.readIdx

/-- The point of the thread that can be joined; without one, nothing runs. -/
def point (s : EventRelay) : RunPoint := (s.thread.bind fun k => s.threads[k]?).getD .returned

end EventRelay

/-- The ring, the logger and the counter as one consumer at p leaves them, with R events
popped. -/
structure Draining (n R : Nat) (accepted : List TelemetryEvent) (sh : Relayed) (p : RunPoint) :
    Prop where
  window : sh.ring.Window 0 accepted R accepted.length
  capacity : sh.ring.capacity = n
  popped : accepted.take R = sh.logged ++ p.inHand
  processed : (sh.processed + p.uncounted) % 2 ^ 64 = sh.logged.length % 2 ^ 64
  word : sh.processed < 2 ^ 64

namespace Draining
variable {n R : Nat} {accepted : List TelemetryEvent} {sh sh' : Relayed} {p p' : RunPoint}

/-- A thread's step pops, logs or counts, sees the stop flag only when it is up, and returns
only from an empty ring. -/
theorem runStep (h : Draining n R accepted sh p) (hs : sh.runStep p = some (sh', p')) :
    ∃ R', R ≤ R' ∧ Draining n R' accepted sh' p' ∧ sh'.stopRequested = sh.stopRequested ∧
      sh'.ring.droppedMessages = sh.ring.droppedMessages ∧
      (p'.isClosing = true → p.isClosing = true ∨ sh.stopRequested = true) ∧
      (p' = .returned → R' = accepted.length) := by
  obtain ⟨hwin, hcap, hpop, hproc, hword⟩ := h
  cases p with
  | tryPop closing gotAny =>
    have hall : accepted.take R = sh.logged := hpop.trans (List.append_nil _)
    rcases Nat.eq_or_lt_of_le hwin.ordered with rfl | hR
    · rw [Relayed.runStep, hwin.tryPop_none] at hs
      cases hs
      refine ⟨_, le_rfl, ⟨hwin, hcap, ?_, ?_, hword⟩, rfl, rfl, ?_, fun _ => rfl⟩
      · cases closing <;> exact hpop
      · cases closing <;> exact hproc
      · cases closing <;> simp [RunPoint.isClosing]
    · obtain ⟨ring, event, hpop', hevent, hwin', hcap', hdrop⟩ := hwin.tryPop_some hR
      rw [Relayed.runStep, hpop'] at hs
      cases hs
      refine ⟨R + 1, Nat.le_succ R, ⟨hwin', hcap'.trans hcap, ?_, hproc, hword⟩, rfl, hdrop, .inl,
        by simp⟩
      rw [List.take_add_one, hall, Option.mem_def.mp hevent]
      rfl
  | log closing event =>
    cases hs
    refine ⟨R, le_rfl, ⟨hwin, hcap, ?_, ?_, hword⟩, rfl, rfl, .inl, by simp⟩
    · exact hpop.trans (List.append_nil _).symm
    · change (sh.processed + 1) % 2 ^ 64 = (sh.logged ++ [event]).length % 2 ^ 64
      have hcounted : (sh.processed + 0) % 2 ^ 64 = sh.logged.length % 2 ^ 64 := hproc
      rw [List.length_append, List.length_singleton]
      omega
  | count closing =>
    cases hs
    refine ⟨R, le_rfl, ⟨hwin, hcap, hpop, ?_, Nat.mod_lt _ (Nat.two_pow_pos 64)⟩, rfl, rfl, .inl,
      by simp⟩
    change ((sh.processed + 1) % 2 ^ 64 + 0) % 2 ^ 64 = sh.logged.length % 2 ^ 64
    rw [Nat.add_zero, Nat.mod_mod]
    exact hproc
  | check gotAny =>
    rw [Relayed.runStep] at hs
    split_ifs at hs with hstop <;> cases hs
    · exact ⟨R, le_rfl, ⟨hwin, hcap, hpop, hproc, hword⟩, rfl, rfl, fun _ => .inr hstop, by simp⟩
    · exact ⟨R, le_rfl, ⟨hwin, hcap, hpop, hproc, hword⟩, rfl, rfl, .inl, by simp⟩
    · exact ⟨R, le_rfl, ⟨hwin, hcap, hpop, hproc, hword⟩, rfl, rfl, .inl, by simp⟩
  | asleep =>
    cases hs
    exact ⟨R, le_rfl, ⟨hwin, hcap, hpop, hproc, hword⟩, rfl, rfl, .inl, by simp⟩
  | returned => cases hs

/-- A push extends what was accepted, or is dropped by a full ring. -/
theorem tryPush (h : Draining n R accepted sh p) (event : TelemetryEvent) :
    (∃ ring, sh.ring.tryPush event = (ring, true) ∧
      ring.droppedMessages = sh.ring.droppedMessages ∧
      Draining n R (accepted ++ [event]) { sh with ring := ring } p) ∨
    (∃ ring, sh.ring.tryPush event = (ring, false) ∧
      ring.droppedMessages = addWord 64 sh.ring.droppedMessages 1 ∧
      Draining n R accepted { sh with ring := ring } p) := by
  obtain ⟨hwin, hcap, hpop, hproc, hword⟩ := h
  rcases Nat.eq_or_lt_of_le hwin.bound with hfull | hroom
  · right
    exact ⟨_, hwin.tryPush_full hfull event, rfl, hwin.drop, hcap, hpop, hproc, hword⟩
  · left
    obtain ⟨ring, hpush, hwin', hcap', hdrop⟩ := hwin.tryPush_room hroom event
    refine ⟨ring, hpush, hdrop, ?_, hcap'.trans hcap, ?_, hproc, hword⟩
    · rw [List.length_append]
      exact hwin'
    · rw [List.take_append_of_le_length hwin.ordered]
      exact hpop

/-- The consumer matters only by what it holds. -/
theorem congr (h : Draining n R accepted sh p) (hhand : p'.inHand = p.inHand)
    (hcount : p'.uncounted = p.uncounted) : Draining n R accepted sh p' :=
  ⟨h.window, h.capacity, hhand ▸ h.popped, hcount ▸ h.processed, h.word⟩

/-- The owner writes the stop flag, which none of this depends on. -/
theorem withStopRequested (h : Draining n R accepted sh p) (flag : Bool) :
    Draining n R accepted { sh with stopRequested := flag } p :=
  ⟨h.window, h.capacity, h.popped, h.processed, h.word⟩

end Draining

namespace EventRelay
variable {n R k : Nat} {s s' : EventRelay} {p : RunPoint}

/-- What the owner's point says of running, of whether a thread can be joined, of whether that
thread has seen the stop flag, and of the flag. -/
def OwnerOK (running joinable closing stopRequested : Bool) : OwnerPoint → Prop
  | .idle => joinable = running ∧ (running = true → closing = false ∧ stopRequested = false)
  | .startClear => running = true ∧ joinable = false
  | .startSpawn => running = true ∧ joinable = false ∧ stopRequested = false
  | .stopSignal => running = true ∧ joinable = true ∧ closing = false ∧ stopRequested = false
  | .stopJoin => running = true ∧ joinable = true ∧ stopRequested = true
  | .stopEnd => running = true ∧ joinable = false

/-- Every thread but the one that can be joined has returned, and R of the accepted events
have been popped. -/
structure Inv (n R : Nat) (s : EventRelay) : Prop where
  draining : Draining n R s.accepted s.shared s.point
  dropped : ∃ d, s.emitted = s.accepted.length + d ∧ s.shared.ring.droppedMessages = d % 2 ^ 64
  returned : ∀ k p, s.threads[k]? = some p → s.thread ≠ some k → p = .returned
  spawned : ∀ k, s.thread = some k → k < s.threads.length
  owner : OwnerOK s.running s.thread.isSome s.point.isClosing s.shared.stopRequested s.owner

theorem point_of_thread (hk : s.thread = some k) (hp : s.threads[k]? = some p) : s.point = p := by
  rw [point, hk, Option.bind_some, hp, Option.getD_some]

theorem point_of_none (h : s.thread = none) : s.point = .returned := by
  rw [point, h]
  rfl

/-- Only the thread that can be joined is ever alive. -/
theorem Inv.live (h : Inv n R s) (hk : s.Live k) : s.thread = some k := by
  obtain ⟨p, hp, hne⟩ := hk
  by_contra hno
  exact hne (h.returned k p hp hno)

theorem new_inv {k : Nat} (hk : k ≤ 63) (idleSleep : Nat) (zero : TelemetryEvent) :
    Inv (2 ^ k) 0 (new (2 ^ k) idleSleep zero) where
  draining := ⟨SpscRing.new_window hk zero, rfl, rfl, rfl, Nat.two_pow_pos 64⟩
  dropped := ⟨0, rfl, rfl⟩
  returned := by simp [new]
  spawned := by simp [new]
  owner := ⟨rfl, fun h => absurd h Bool.false_ne_true⟩

theorem step_push {event : TelemetryEvent} (hs : s.step (.push event) = some s') :
    s'.emitted = s.emitted + 1 ∧
      (s'.accepted = s.accepted ++ [event] ∨ s'.accepted = s.accepted) := by
  obtain ⟨⟨ring, pushed⟩, hpush⟩ : ∃ w, s.shared.ring.tryPush event = w := ⟨_, rfl⟩
  rw [step, hpush] at hs
  obtain rfl := Option.some.inj hs
  cases pushed
  · exact ⟨rfl, .inr rfl⟩
  · exact ⟨rfl, .inl rfl⟩

/-- Only a push touches what the bookkeeping records. -/
theorem step_frame {act : RelayAction} (hs : s.step act = some s') (hact : ∀ e, act ≠ .push e) :
    s'.accepted = s.accepted ∧ s'.emitted = s.emitted := by
  cases act with
  | push event => exact absurd rfl (hact event)
  | relay k =>
    obtain ⟨p, -, hs⟩ := Option.bind_eq_some_iff.mp hs
    obtain ⟨w, -, hs⟩ := Option.bind_eq_some_iff.mp hs
    obtain rfl := Option.some.inj hs
    exact ⟨rfl, rfl⟩
  | start | stop =>
    cases ho : s.owner <;> simp only [step, ho, reduceCtorEq] at hs
    split_ifs at hs <;> obtain rfl := Option.some.inj hs <;> exact ⟨rfl, rfl⟩
  | owner =>
    cases ho : s.owner <;> simp only [step, ownerStep, ho, reduceCtorEq] at hs
    case stopJoin =>
      cases hk : s.thread <;> simp only [hk] at hs
      · obtain rfl := Option.some.inj hs
        exact ⟨rfl, rfl⟩
      · split_ifs at hs
        obtain rfl := Option.some.inj hs
        exact ⟨rfl, rfl⟩
    case startSpawn =>
      split_ifs at hs
      obtain rfl := Option.some.inj hs
      exact ⟨rfl, rfl⟩
    all_goals
      obtain rfl := Option.some.inj hs
      exact ⟨rfl, rfl⟩

/-- A step of a thread: it is the thread that can be joined, and it returns only from an
empty ring. -/
theorem Inv.relay (h : Inv n R s) (hs : s.step (.relay k) = some s') :
    ∃ R', Inv n R' s' ∧ s.thread = some k ∧ s'.owner = s.owner ∧
      (s'.point = .returned → R' = s'.accepted.length) := by
  obtain ⟨p, hp, hs⟩ := Option.bind_eq_some_iff.mp hs
  obtain ⟨⟨sh, p'⟩, hrun, hs⟩ := Option.bind_eq_some_iff.mp hs
  obtain rfl := Option.some.inj hs
  have hne : p ≠ .returned := by
    rintro rfl
    cases hrun
  have hk : s.thread = some k := h.live ⟨p, hp, hne⟩
  have hpoint := point_of_thread hk hp
  have hlt := h.spawned k hk
  have hpoint' : ({ s with shared := sh, threads := s.threads.set k p' } : EventRelay).point = p' :=
    point_of_thread hk (List.getElem?_set_self hlt)
  have hdrain := h.draining
  rw [hpoint] at hdrain
  obtain ⟨R', hR, hdrain', hstop, hdrop, hclosing, hreturned⟩ := hdrain.runStep hrun
  refine ⟨R', ⟨?_, ?_, ?_, ?_, ?_⟩, hk, rfl, ?_⟩
  · rw [hpoint']
    exact hdrain'
  · rw [hdrop]
    exact h.dropped
  · intro j q hj hjk
    refine h.returned j q ?_ hjk
    have hkj : k ≠ j := fun hkj => hjk (hkj ▸ hk)
    rwa [List.getElem?_set_ne hkj] at hj
  · intro j hj
    rw [List.length_set]
    exact h.spawned j hj
  · have howner := h.owner
    rw [hpoint] at howner
    rw [hpoint']
    change OwnerOK s.running s.thread.isSome p'.isClosing sh.stopRequested s.owner
    rw [hstop]
    have hquiet : p.isClosing = false ∧ s.shared.stopRequested = false →
        p'.isClosing = false ∧ s.shared.stopRequested = false := by
      rintro ⟨hp, hsr⟩
      refine ⟨?_, hsr⟩
      by_contra hno
      rcases hclosing (by simpa using hno) with h1 | h1
      · simp [hp] at h1
      · simp [hsr] at h1
    cases ho : s.owner <;> rw [ho] at howner
    · exact ⟨howner.1, fun hr => hquiet (howner.2 hr)⟩
    · exact howner
    · exact howner
    · exact ⟨howner.1, howner.2.1, hquiet howner.2.2⟩
    · exact howner
    · exact howner
  · intro hret
    rw [hpoint'] at hret
    exact hreturned hret

theorem Inv.push (h : Inv n R s) {event : TelemetryEvent} (hs : s.step (.push event) = some s') :
    Inv n R s' := by
  obtain ⟨d, hemitted, hdropped⟩ := h.dropped
  rcases h.draining.tryPush event with ⟨ring, hpush, hdrop, hdrain⟩ | ⟨ring, hpush, hdrop, hdrain⟩
  · rw [EventRelay.step, hpush] at hs
    obtain rfl := Option.some.inj hs
    refine ⟨hdrain, ⟨d, ?_, hdrop.trans hdropped⟩, h.returned, h.spawned, h.owner⟩
    simp only [if_true, List.length_append, List.length_singleton]
    omega
  · rw [EventRelay.step, hpush] at hs
    obtain rfl := Option.some.inj hs
    refine ⟨hdrain, ⟨d + 1, ?_, ?_⟩, h.returned, h.spawned, h.owner⟩
    · simp only [Bool.false_eq_true, if_false]
      omega
    · rw [hdrop, hdropped, addWord_mod]

theorem Inv.start (h : Inv n R s) (hs : s.step .start = some s') : Inv n R s' := by
  obtain ⟨hdrain, hdropped, hret, hspawned, howner⟩ := h
  cases ho : s.owner <;> simp only [step, ho, reduceCtorEq] at hs
  rw [ho] at howner
  split_ifs at hs with hrun <;> obtain rfl := Option.some.inj hs
  · exact ⟨hdrain, hdropped, hret, hspawned, ho ▸ howner⟩
  · refine ⟨hdrain, hdropped, hret, hspawned, rfl, ?_⟩
    rw [howner.1]
    simpa using hrun

theorem Inv.stop (h : Inv n R s) (hs : s.step .stop = some s') : Inv n R s' := by
  obtain ⟨hdrain, hdropped, hret, hspawned, howner⟩ := h
  cases ho : s.owner <;> simp only [step, ho, reduceCtorEq] at hs
  rw [ho] at howner
  split_ifs at hs with hrun <;> obtain rfl := Option.some.inj hs
  · exact ⟨hdrain, hdropped, hret, hspawned, hrun, howner.1.trans hrun, howner.2 hrun⟩
  · exact ⟨hdrain, hdropped, hret, hspawned, ho ▸ howner⟩

/-- Start finds no thread that could be joined, and spawns one. -/
theorem Inv.spawn (h : Inv n R s) (ho : s.owner = .startSpawn) :
    s.thread = none ∧ Inv n R { s with threads := s.threads ++ [.tryPop false false]
                                       thread := some s.threads.length
                                       owner := .idle } := by
  obtain ⟨hdrain, hdropped, hret, hspawned, howner⟩ := h
  rw [ho] at howner
  have hnone : s.thread = none := by simpa using howner.2.1
  have hpoint : ({ s with threads := s.threads ++ [.tryPop false false]
                          thread := some s.threads.length
                          owner := .idle } : EventRelay).point = .tryPop false false :=
    point_of_thread rfl (by simp)
  refine ⟨hnone, ?_, hdropped, ?_, ?_, ?_⟩
  · rw [hpoint]
    rw [point_of_none hnone] at hdrain
    exact hdrain.congr rfl rfl
  · intro j q hj hjk
    have hne : j ≠ s.threads.length := fun he => hjk (he ▸ rfl)
    rcases Nat.lt_or_ge j s.threads.length with hlt | hge
    · rw [List.getElem?_append_left hlt] at hj
      exact hret j q hj (by simp [hnone])
    · rw [List.getElem?_append_right hge, List.getElem?_eq_none] at hj
      · cases hj
      · simp only [List.length_singleton]
        omega
  · intro j hj
    obtain rfl := Option.some.inj hj
    simp
  · rw [hpoint]
    exact ⟨howner.1.symm, fun _ => ⟨rfl, howner.2.2⟩⟩

/-- Stop joins a thread that has returned. -/
theorem Inv.join (h : Inv n R s) (ho : s.owner = .stopJoin) (hk : s.thread = some k)
    (hjoin : s.threads[k]? = some .returned) :
    s.point = .returned ∧ Inv n R { s with thread := none, owner := .stopEnd } := by
  obtain ⟨hdrain, hdropped, hret, hspawned, howner⟩ := h
  rw [ho] at howner
  have hpoint := point_of_thread hk hjoin
  rw [hpoint] at hdrain
  refine ⟨hpoint, hdrain, hdropped, ?_, by simp, howner.1, rfl⟩
  intro i q hi _
  by_cases hki : k = i
  · subst hki
    exact Option.some.inj (hi.symm.trans hjoin)
  · exact hret i q hi fun hc => hki (Option.some.inj (hk.symm.trans hc))

/-- The owner inside a call. -/
theorem Inv.ownerStep (h : Inv n R s) (hs : s.ownerStep = some s') :
    Inv n R s' ∧
      (s.owner = .stopSignal → s'.owner = .stopJoin ∧ s'.point = s.point) ∧
      (s.owner = .stopJoin → s'.owner = .stopEnd ∧ s.point = .returned) ∧
      (s.owner = .stopEnd → s'.owner = .idle ∧ s'.running = false) := by
  have howner := h.owner
  cases ho : s.owner <;> simp only [EventRelay.ownerStep, ho, reduceCtorEq] at hs <;> rw [ho] at howner
  · -- Start clears the flag
    obtain rfl := Option.some.inj hs
    exact ⟨⟨h.draining.withStopRequested false, h.dropped, h.returned, h.spawned, howner.1, howner.2,
      rfl⟩, by simp⟩
  · obtain ⟨hnone, hspawn⟩ := h.spawn ho
    rw [hnone] at hs
    obtain rfl := Option.some.inj hs
    exact ⟨hspawn, by simp⟩
  · -- Stop raises the flag
    obtain rfl := Option.some.inj hs
    exact ⟨⟨h.draining.withStopRequested true, h.dropped, h.returned, h.spawned, howner.1,
      howner.2.1, rfl⟩, fun _ => ⟨rfl, rfl⟩, by simp, by simp⟩
  · obtain ⟨k, hk⟩ := Option.isSome_iff_exists.mp howner.2.1
    simp only [hk] at hs
    split_ifs at hs with hreturned
    obtain ⟨hpoint, hjoin⟩ := h.join ho hk hreturned
    obtain rfl := Option.some.inj hs
    exact ⟨hjoin, by simp, fun _ => ⟨rfl, hpoint⟩, by simp⟩
  · -- Stop ends the running period
    obtain rfl := Option.some.inj hs
    exact ⟨⟨h.draining, h.dropped, h.returned, h.spawned, howner.2,
      fun hc => absurd hc Bool.false_ne_true⟩, by simp, by simp, fun _ => ⟨rfl, rfl⟩⟩

theorem Inv.step {act : RelayAction} (h : Inv n R s) (hs : s.step act = some s') :
    ∃ R', Inv n R' s' := by
  cases act with
  | push event => exact ⟨R, h.push hs⟩
  | relay k =>
    obtain ⟨R', h', -⟩ := h.relay hs
    exact ⟨R', h'⟩
  | start => exact ⟨R, h.start hs⟩
  | stop => exact ⟨R, h.stop hs⟩
  | owner => exact ⟨R, (h.ownerStep hs).1⟩

theorem reachable_inv {k : Nat} (hk : k ≤ 63) {ok : EventRelay → RelayAction → Prop}
    (h : (machine (2 ^ k)).ReachableVia ok s) : ∃ R, Inv (2 ^ k) R s := by
  refine h.invariant (I := fun s => ∃ R, Inv (2 ^ k) R s) ?_ ?_
  · rintro s ⟨idleSleep, zero, rfl⟩
    exact ⟨0, new_inv hk idleSleep zero⟩
  · rintro s act s' - ⟨R, hinv⟩ hs
    exact hinv.step hs

/-- Only the thread that can be joined holds an event. -/
theorem Inv.inHand_eq (h : Inv n R s) : s.inHand = s.point.inHand := by
  cases hk : s.thread with
  | none =>
    rw [point_of_none hk, inHand]
    refine List.flatMap_eq_nil_iff.mpr fun p hp => ?_
    obtain ⟨j, hj⟩ := List.mem_iff_getElem?.mp hp
    rw [h.returned j p hj (by simp [hk])]
    rfl
  | some k =>
    have hlt := h.spawned k hk
    have hothers : ∀ j p, s.threads[j]? = some p → j ≠ k → p.inHand = [] := by
      intro j p hj hjk
      rw [h.returned j p hj fun hc => hjk (Option.some.inj (hc.symm.trans hk))]
      rfl
    have hbefore : (s.threads.take k).flatMap RunPoint.inHand = [] := by
      refine List.flatMap_eq_nil_iff.mpr fun p hp => ?_
      obtain ⟨j, hj⟩ := List.mem_iff_getElem?.mp hp
      rw [List.getElem?_take] at hj
      split_ifs at hj with hjk
      exact hothers j p hj hjk.ne
    have hafter : (s.threads.drop (k + 1)).flatMap RunPoint.inHand = [] := by
      refine List.flatMap_eq_nil_iff.mpr fun p hp => ?_
      obtain ⟨j, hj⟩ := List.mem_iff_getElem?.mp hp
      rw [List.getElem?_drop] at hj
      exact hothers _ p hj (by omega)
    have hsplit : s.threads = s.threads.take k ++ s.threads[k] :: s.threads.drop (k + 1) := by
      rw [List.getElem_cons_drop, List.take_append_drop]
    have hflat := congrArg (List.flatMap RunPoint.inHand) hsplit
    rw [List.flatMap_append, List.flatMap_cons, hbefore, hafter, List.nil_append,
      List.append_nil] at hflat
    rw [point_of_thread hk (List.getElem?_eq_getElem hlt)]
    exact hflat

/-- The indices measure what was accepted and not yet popped. -/
theorem Inv.inRing_eq (h : Inv n R s) : s.accepted.length = R + s.inRing := by
  have hwin := h.draining.window
  have hcap := hwin.capacity_lt
  have hbound := hwin.bound
  obtain ⟨d, hd⟩ := Nat.exists_eq_add_of_le hwin.ordered
  have hdist := subWord_add_mod 64 R d
  rw [inRing, hwin.writeIdx, hwin.readIdx, Nat.zero_add, Nat.zero_add, hd, hdist,
    Nat.mod_eq_of_lt (by omega)]

/-- What was popped was logged or is in hand. -/
theorem Inv.popped_length (h : Inv n R s) : R = s.shared.logged.length + s.inHand.length := by
  have hpop := congrArg List.length h.draining.popped
  rw [List.length_take, List.length_append, ← h.inHand_eq] at hpop
  have hord := h.draining.window.ordered
  omega

/-- Inside a Stop during which nothing is pushed, the thread returns from an empty ring. -/
def Stopping (R : Nat) (s : EventRelay) : Prop :=
  match s.owner with
  | .stopSignal => True
  | .stopJoin => s.point = .returned → R = s.accepted.length
  | .stopEnd => R = s.accepted.length
  | .idle => R = s.accepted.length ∧ s.running = false
  | _ => False

theorem Stopping.step {act : RelayAction} (hact : act.inside = true) (hinv : Inv n R s)
    (h : Stopping R s) (hs : s.step act = some s') :
    ∃ R', Inv n R' s' ∧ Stopping R' s' ∧ s'.accepted = s.accepted := by
  have howner := hinv.owner
  have hacc : s'.accepted = s.accepted := by
    refine (step_frame hs ?_).1
    rintro e rfl
    cases hact
  cases act with
  | relay k =>
    obtain ⟨R', hinv', hk, ho, hret⟩ := hinv.relay hs
    refine ⟨R', hinv', ?_, hacc⟩
    have hjoinable : s.thread.isSome = true := by rw [hk]; rfl
    rw [hjoinable] at howner
    rw [Stopping, ho]
    cases hp : s.owner <;> simp only [Stopping, hp] at h <;> rw [hp] at howner
    · rw [h.2] at howner
      cases howner.1
    · trivial
    · exact hret
    · cases howner.2
  | owner =>
    obtain ⟨hinv', hsignal, hjoin, hend⟩ := hinv.ownerStep hs
    refine ⟨R, hinv', ?_, hacc⟩
    cases hp : s.owner <;> simp only [Stopping, hp] at h <;> rw [hp] at howner
    · simp [EventRelay.step, EventRelay.ownerStep, hp] at hs
    · obtain ⟨ho, hpoint⟩ := hsignal hp
      rw [Stopping, ho, hpoint]
      intro hret
      rw [hret] at howner
      cases howner.2.2.1
    · obtain ⟨ho, hret⟩ := hjoin hp
      rw [Stopping, ho, hacc]
      exact h hret
    · obtain ⟨ho, hstopped⟩ := hend hp
      rw [Stopping, ho, hacc]
      exact ⟨h, hstopped⟩
  | push | start | stop => cases hact

/-- A Stop that ends a running period while nothing is pushed leaves the ring empty and
everything logged and counted. -/
theorem Inv.stop_drains (h : Inv n R s) (hidle : s.owner = .idle) (hrunning : s.running = true)
    {acts : List RelayAction} (hacts : ∀ a ∈ acts, a.inside = true)
    (hs : (machine n).run s (.stop :: acts) = some s') (hidle' : s'.owner = .idle) :
    s'.shared.ring.readIdx = s'.shared.ring.writeIdx ∧ s'.accepted = s.accepted ∧
      s'.shared.logged = s'.accepted ∧ s'.shared.processed = s'.accepted.length % 2 ^ 64 := by
  obtain ⟨s1, h1, hs⟩ := Option.bind_eq_some_iff.mp hs
  have hinv1 := h.stop h1
  simp only [machine, EventRelay.step, hidle, hrunning, if_true] at h1
  obtain rfl := Option.some.inj h1
  obtain ⟨⟨R', hinv', hstop⟩, hacc⟩ : (∃ R', Inv n R' s' ∧ Stopping R' s') ∧
      s'.accepted = s.accepted := by
    refine Machine.run_keeps (m := machine n) (P := fun a => a.inside = true)
      (I := fun t => (∃ R', Inv n R' t ∧ Stopping R' t) ∧ t.accepted = s.accepted) ?_ hacts
      ⟨⟨R, hinv1, trivial⟩, rfl⟩ hs
    rintro t act t' hact ⟨⟨R', hinv', hstop⟩, hacc⟩ hstep
    obtain ⟨R'', hinv'', hstop'', hacc''⟩ := hstop.step hact hinv' hstep
    exact ⟨⟨R'', hinv'', hstop''⟩, hacc''.trans hacc⟩
  rw [Stopping, hidle'] at hstop
  obtain ⟨rfl, hstopped⟩ := hstop
  have howner := hinv'.owner
  rw [hidle', hstopped] at howner
  have hdrain := hinv'.draining
  rw [point_of_none (by simpa using howner.1)] at hdrain
  obtain ⟨hwin, -, hpop, hproc, hword⟩ := hdrain
  rw [List.take_length] at hpop
  have hlogged : s'.shared.logged = s'.accepted := (hpop.trans (List.append_nil _)).symm
  refine ⟨hwin.readIdx.trans hwin.writeIdx.symm, hacc, hlogged, ?_⟩
  rw [← hlogged, ← hproc]
  exact (Nat.mod_eq_of_lt hword).symm

end EventRelay
end ExecutionPlatform.External
