import ExecutionPlatform.Exec.Delivery
import ExecutionPlatform.External.IpcKdbLogger

/-! From the publisher to the ticker plant: the relay's thread logs into the kdb+ logger, while its
owner connects, disconnects and flushes whenever it likes. -/
namespace ExecutionPlatform.Exec
open ExecutionPlatform.Core External Foundations EventRelay

/-- The call that a step of the relay's thread makes of the logger. -/
def loggerCalls (s : EventRelay) : RelayAction → List LoggerOp
  | .relay k =>
    match s.threads[k]? with
    | some (.log _ event) => [.log event]
    | _ => []
  | _ => []

/-- The relay and its logger. The owner makes the other calls of the logger. -/
def pipeline (capacity : Nat) (host : String) (port : Int) (tableName credentials : String) :
    Machine (EventRelay × LoggerSession) (RelayAction ⊕ LoggerOp) :=
  (machine capacity).driving (loggerSessions host port tableName credentials) loggerCalls

/-- The publisher pushes what it emits, and only the relay's thread logs. -/
def Wired (events : List TelemetryEvent) (s : EventRelay × LoggerSession) :
    RelayAction ⊕ LoggerOp → Prop
  | .inl a => Publishes events s.1 a
  | .inr op => ∀ event, op ≠ .log event

variable {events : List TelemetryEvent} {n k : Nat} {host tableName credentials : String} {port : Int}
  {s s' : EventRelay × LoggerSession}

/-- What a step of the relay logs is what it calls the logger with. -/
theorem step_logged {r r' : EventRelay} {a : RelayAction} (h : r.step a = some r') :
    ∃ logged, loggerCalls r a = logged.map LoggerOp.log ∧
      r'.shared.logged = r.shared.logged ++ logged := by
  cases a with
  | push event =>
    obtain rfl := Option.some.inj h
    exact ⟨[], rfl, (List.append_nil _).symm⟩
  | relay k =>
    obtain ⟨p, hp, h⟩ := Option.bind_eq_some_iff.mp h
    obtain ⟨⟨sh, p'⟩, hrun, h⟩ := Option.bind_eq_some_iff.mp h
    obtain rfl := Option.some.inj h
    rw [loggerCalls, hp]
    cases p with
    | log closing event =>
      obtain ⟨rfl, -⟩ := Prod.mk.inj (Option.some.inj hrun)
      exact ⟨[event], rfl, rfl⟩
    | tryPop closing gotAny =>
      refine ⟨[], rfl, ?_⟩
      rw [Relayed.runStep] at hrun
      split at hrun <;> obtain ⟨rfl, -⟩ := Prod.mk.inj (Option.some.inj hrun) <;> simp
    | count closing =>
      obtain ⟨rfl, -⟩ := Prod.mk.inj (Option.some.inj hrun)
      exact ⟨[], rfl, (List.append_nil _).symm⟩
    | check gotAny =>
      refine ⟨[], rfl, ?_⟩
      rw [Relayed.runStep] at hrun
      split_ifs at hrun <;> obtain ⟨rfl, -⟩ := Prod.mk.inj (Option.some.inj hrun) <;> simp
    | asleep =>
      obtain ⟨rfl, -⟩ := Prod.mk.inj (Option.some.inj hrun)
      exact ⟨[], rfl, (List.append_nil _).symm⟩
    | returned => cases hrun
  | start | stop =>
    refine ⟨[], rfl, ?_⟩
    cases ho : r.owner <;> simp only [EventRelay.step, ho, reduceCtorEq] at h
    split_ifs at h <;> obtain rfl := Option.some.inj h <;> simp
  | owner =>
    refine ⟨[], rfl, ?_⟩
    cases ho : r.owner <;> simp only [EventRelay.step, ownerStep, ho, reduceCtorEq] at h
    case startClear | stopSignal | stopEnd =>
      obtain rfl := Option.some.inj h
      simp
    case startSpawn =>
      split_ifs at h
      obtain rfl := Option.some.inj h
      simp
    case stopJoin =>
      split at h
      · obtain rfl := Option.some.inj h
        simp
      · split_ifs at h
        obtain rfl := Option.some.inj h
        simp

theorem run_log {t t' : LoggerSession} {logged : List TelemetryEvent}
    (h : (loggerSessions host port tableName credentials).run t (logged.map .log) = some t') :
    t'.logged = t.logged ++ logged := by
  induction logged generalizing t with
  | nil =>
    obtain rfl := Option.some.inj h
    exact (List.append_nil _).symm
  | cons event logged ih =>
    rw [ih h, List.append_assoc, List.singleton_append]

theorem client_logged {t t' : LoggerSession} {op : LoggerOp} (hop : ∀ event, op ≠ .log event)
    (h : t.step op = some t') : t'.logged = t.logged := by
  cases op with
  | log event => exact absurd rfl (hop event)
  | connect hnd =>
    obtain rfl := Option.some.inj h
    rfl
  | disconnect =>
    obtain rfl := Option.some.inj h
    rfl
  | flush reply =>
    obtain ⟨w, -, h⟩ := Option.bind_eq_some_iff.mp h
    obtain rfl := Option.some.inj h
    rfl

/-- The logger has logged what the relay's threads have. -/
theorem pipeline_step_logged {act : RelayAction ⊕ LoggerOp} (hact : ∀ op, act = .inr op → ∀ e, op ≠ .log e)
    (hs : s.2.logged = s.1.shared.logged)
    (h : (pipeline n host port tableName credentials).step s act = some s') :
    s'.2.logged = s'.1.shared.logged := by
  cases act with
  | inl a =>
    obtain ⟨h1, h2⟩ := Machine.driving_inl.mp h
    obtain ⟨logged, hcalls, hlogged⟩ := step_logged h1
    rw [hcalls] at h2
    rw [run_log h2, hlogged, hs]
  | inr op =>
    obtain ⟨h1, h2⟩ := Machine.driving_inr.mp h
    rw [client_logged (hact op rfl) h2, h1, hs]

theorem reachable_logged (h : (pipeline n host port tableName credentials).ReachableVia (Wired events) s) :
    s.2.logged = s.1.shared.logged := by
  refine h.invariant (I := fun s => s.2.logged = s.1.shared.logged) ?_ ?_
  · rintro ⟨r, t⟩ ⟨⟨idleSleep, zero, rfl⟩, rfl⟩
    rfl
  · intro s act s' hact hs hstep
    refine pipeline_step_logged (fun op hop => ?_) hs hstep
    subst hop
    exact hact

/-- The relay is in a state of its own machine, and the logger in one of its own. -/
theorem reachable_parts {p : EventRelay → RelayAction → Prop}
    {OK : EventRelay × LoggerSession → RelayAction ⊕ LoggerOp → Prop}
    (h : (pipeline n host port tableName credentials).ReachableVia OK s)
    (hp : ∀ s a, OK s (.inl a) → p s.1 a) :
    (machine n).ReachableVia p s.1 ∧ ∃ pending, s.2.Tracked pending := by
  obtain ⟨hrelay, hlogger⟩ := h.of_driving hp
  exact ⟨hrelay, reachable_tracked hlogger⟩

/-- The owner's calls that cannot log, and the steps inside a Stop. -/
def Waits : RelayAction ⊕ LoggerOp → Prop
  | .inl a => a.inside = true
  | .inr op => ∀ event, op ≠ .log event

/-- A flush over an open handle that is answered by an object leaves nothing behind. -/
theorem flush_all {t : LoggerSession} {pending : List TapeRow} (h : t.Tracked pending)
    (hopen : 0 < t.logger.handle) :
    ∃ t', t.step (.flush .object) = some t' ∧ t'.Tracked [] ∧
      ((∀ c ∈ t.calls, ¬ c.Failed) → ∀ c ∈ t'.calls, ¬ c.Failed) := by
  obtain ⟨t', pending', hstep, htracked⟩ := h.step (.flush .object)
  rcases IpcKdbLogger.flush_spec h.batch .object with
    ⟨hno, hflush⟩ | ⟨-, -, ⟨hbad, -⟩ | ⟨-, hflush⟩⟩
  · -- nothing was pending
    have hnil : pending = [] := by
      by_contra hne
      refine hno ⟨fun hseq => hne ?_, hopen⟩
      rw [h.batch] at hseq
      exact (Columns.seq_ofRows pending).mp hseq
    have hsame : t.step (.flush .object) = some { t with calls := t.calls ++ [] } :=
      congrArg (Option.bind · _) hflush
    rw [List.append_nil] at hsame
    exact ⟨t, hsame, hnil ▸ h, id⟩
  · cases hbad
  · have hsent : t.step (.flush .object) = _ := congrArg (Option.bind · _) hflush
    obtain rfl := Option.some.inj (hstep.symm.trans hsent)
    obtain rfl : pending' = [] := by
      have hbatch := htracked.batch
      have hseq := congrArg Columns.seq hbatch
      exact (Columns.seq_ofRows pending').mp hseq.symm
    refine ⟨_, hsent, htracked, fun hnone c hc => ?_⟩
    rcases List.mem_append.mp hc with hc | hc
    · exact hnone c hc
    · obtain rfl := List.mem_singleton.mp hc
      exact id

/-- The calls an owner makes between its Stop and the return of it. -/
theorem stop_run {acts : List (RelayAction ⊕ LoggerOp)} (hacts : ∀ a ∈ acts, Waits a) :
    ∀ a ∈ acts.filterMap Sum.getLeft?, a.inside = true := by
  intro a ha
  obtain ⟨b, hb, hab⟩ := List.mem_filterMap.mp ha
  cases b with
  | inl b =>
    obtain rfl := Option.some.inj hab
    exact hacts _ hb
  | inr op => cases hab

section Connected

/-- A logger whose one call of the client was to connect, with handle 5. -/
def Connected (t : LoggerSession) : Prop := t.logger.handle = 5 ∧ ∀ c ∈ t.calls, ¬ c.Failed

theorem Connected.log (host : String) (port : Int) (tableName credentials : String) {t : LoggerSession}
    (h : Connected t) (logged : List TelemetryEvent) :
    ∃ t', (loggerSessions host port tableName credentials).run t (logged.map .log) = some t' ∧
      Connected t' := by
  induction logged generalizing t with
  | nil => exact ⟨t, rfl, h⟩
  | cons event logged ih => exact ih (t := { t with logger := t.logger.log event, logged := t.logged ++ [event] }) h

/-- Logging never blocks the relay. -/
theorem Connected.step (host : String) (port : Int) (tableName credentials : String) {r r' : EventRelay} {t : LoggerSession} {a : RelayAction} (h : Connected t)
    (hstep : r.step a = some r') :
    ∃ t', (pipeline n host port tableName credentials).step (r, t) (.inl a) = some (r', t') ∧
      Connected t' := by
  obtain ⟨logged, hcalls, -⟩ := step_logged hstep
  obtain ⟨t', hrun, h'⟩ := h.log host port tableName credentials logged
  exact ⟨t', Machine.driving_inl.mpr ⟨hstep, by rw [hcalls]; exact hrun⟩, h'⟩

theorem Connected.run (host : String) (port : Int) (tableName credentials : String) {r r' : EventRelay} {t : LoggerSession} {acts : List RelayAction} (h : Connected t)
    (hrun : (machine n).run r acts = some r') :
    ∃ t', (pipeline n host port tableName credentials).run (r, t) (acts.map .inl) = some (r', t') ∧
      Connected t' := by
  induction acts generalizing r t with
  | nil =>
    obtain rfl := Option.some.inj hrun
    exact ⟨t, rfl, h⟩
  | cons a acts ih =>
    obtain ⟨r1, h1, hrun⟩ := Option.bind_eq_some_iff.mp hrun
    obtain ⟨t1, hstep, ht1⟩ := h.step (n := n) host port tableName credentials h1
    obtain ⟨t', hrest, ht'⟩ := ih ht1 hrun
    refine ⟨t', ?_, ht'⟩
    rw [List.map_cons, Machine.run, hstep]
    exact hrest

/-- Whatever the relay can do, it can do over a logger that was connected first. -/
theorem reachable_connected (host : String) (port : Int) (tableName credentials : String)
    {r : EventRelay} (h : (machine n).ReachableVia (Publishes events) r) :
    ∃ t, (pipeline n host port tableName credentials).ReachableVia (Wired events) (r, t) ∧
      Connected t := by
  induction h with
  | @init r h =>
    have h0 : (pipeline n host port tableName credentials).ReachableVia (Wired events)
        (r, { logger := { host, port, tableName, credentials } }) := .init ⟨h, rfl⟩
    refine ⟨_, h0.step (a := .inr (.connect 5)) (fun e he => by cases he) rfl, rfl, ?_⟩
    simp [ClientCall.Failed]
  | @step r r' a _ hok h ih =>
    obtain ⟨t, hreach, ht⟩ := ih
    obtain ⟨t', hstep, ht'⟩ := ht.step (n := n) host port tableName credentials h
    exact ⟨t', hreach.step (a := .inl a) hok hstep, ht'⟩

end Connected
end ExecutionPlatform.Exec
