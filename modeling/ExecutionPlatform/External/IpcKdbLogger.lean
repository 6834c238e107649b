import ExecutionPlatform.External.TelemetryEvent
import ExecutionPlatform.Foundations.Machine
import ExecutionPlatform.Foundations.Words

/-! The kdb+ logger: eight column batches, sent as one frame per Flush. What the KX client
answers is an input of each call; null stands for a network error, as its makers document. -/
namespace ExecutionPlatform.External
open ExecutionPlatform.Core Foundations

/-- A value cast to a signed 64-bit column. -/
def toInt64 (n : Nat) : Int := (BitVec.ofNat 64 n).toInt

structure TapeRow where
  type : String
  seq : Int
  tsNs : Int
  orderId : Int
  counterId : Int
  price : Int
  qty : Int
  side : String
  deriving DecidableEq, Repr

def TapeRow.of (event : TelemetryEvent) : TapeRow where
  type := telemetryEventTypeName event.type
  seq := toInt64 event.sequence
  tsNs := toInt64 event.timestampNs
  orderId := toInt64 event.orderId
  counterId := toInt64 event.counterId
  price := event.price
  qty := toInt64 event.qty
  side := sideName event.side

/-- The column batches, in the order of the wire. -/
structure Columns where
  type : List String := []
  seq : List Int := []
  tsNs : List Int := []
  orderId : List Int := []
  counterId : List Int := []
  price : List Int := []
  qty : List Int := []
  side : List String := []
  deriving DecidableEq, Repr

namespace Columns

def push (c : Columns) (row : TapeRow) : Columns where
  type := c.type ++ [row.type]
  seq := c.seq ++ [row.seq]
  tsNs := c.tsNs ++ [row.tsNs]
  orderId := c.orderId ++ [row.orderId]
  counterId := c.counterId ++ [row.counterId]
  price := c.price ++ [row.price]
  qty := c.qty ++ [row.qty]
  side := c.side ++ [row.side]

/-- Every column has at least n entries. -/
def Covers (c : Columns) (n : Nat) : Prop :=
  n ≤ c.type.length ∧ n ≤ c.seq.length ∧ n ≤ c.tsNs.length ∧ n ≤ c.orderId.length ∧
    n ≤ c.counterId.length ∧ n ≤ c.price.length ∧ n ≤ c.qty.length ∧ n ≤ c.side.length

instance (c : Columns) (n : Nat) : Decidable (c.Covers n) := by
  unfold Covers
  infer_instance

/-- All columns have the length of the seq column. -/
structure Aligned (c : Columns) : Prop where
  type : c.type.length = c.seq.length
  tsNs : c.tsNs.length = c.seq.length
  orderId : c.orderId.length = c.seq.length
  counterId : c.counterId.length = c.seq.length
  price : c.price.length = c.seq.length
  qty : c.qty.length = c.seq.length
  side : c.side.length = c.seq.length

def take (c : Columns) (n : Nat) : Columns where
  type := c.type.take n
  seq := c.seq.take n
  tsNs := c.tsNs.take n
  orderId := c.orderId.take n
  counterId := c.counterId.take n
  price := c.price.take n
  qty := c.qty.take n
  side := c.side.take n

def row (c : Columns) (i : Nat) : TapeRow where
  type := c.type.getD i ""
  seq := c.seq.getD i 0
  tsNs := c.tsNs.getD i 0
  orderId := c.orderId.getD i 0
  counterId := c.counterId.getD i 0
  price := c.price.getD i 0
  qty := c.qty.getD i 0
  side := c.side.getD i ""

def rows (c : Columns) : List TapeRow := (List.range c.seq.length).map c.row

/-- The columns of a list of rows. -/
def ofRows (rows : List TapeRow) : Columns where
  type := rows.map TapeRow.type
  seq := rows.map TapeRow.seq
  tsNs := rows.map TapeRow.tsNs
  orderId := rows.map TapeRow.orderId
  counterId := rows.map TapeRow.counterId
  price := rows.map TapeRow.price
  qty := rows.map TapeRow.qty
  side := rows.map TapeRow.side

theorem rows_ofRows (l : List TapeRow) : (ofRows l).rows = l := by
  refine List.ext_getElem (by simp [rows, ofRows]) fun i hi hi' => ?_
  simp [rows, row, ofRows, hi']

theorem push_ofRows (l : List TapeRow) (r : TapeRow) : (ofRows l).push r = ofRows (l ++ [r]) := by
  simp [push, ofRows]

theorem covers_ofRows (l : List TapeRow) : (ofRows l).Covers (ofRows l).seq.length := by
  simp [Covers, ofRows]

theorem take_ofRows (l : List TapeRow) : (ofRows l).take (ofRows l).seq.length = ofRows l := by
  simp [take, ofRows]

theorem aligned_ofRows (l : List TapeRow) : (ofRows l).Aligned := by
  constructor <;> simp [ofRows]

theorem seq_ofRows (l : List TapeRow) : (ofRows l).seq = [] ↔ l = [] := List.map_eq_nil_iff

end Columns

/-- What k() gives back: null, an object of type -128, or any other object. -/
inductive KReply where
  | null
  | error
  | object
  deriving DecidableEq, Repr

/-- The logger's calls of the client library. -/
inductive ClientCall where
  | khpu (host : String) (port : Int) (credentials : String) (h : Int)
  | kclose (handle : Int)
  | k (handle : Int) (function table : String) (cols : Columns) (reply : KReply)
  deriving DecidableEq, Repr

structure IpcKdbLogger where
  host : String
  port : Int
  tableName : String
  credentials : String
  handle : Int := 0
  batch : Columns := {}
  sentFrames : Nat := 0
  sendFailures : Nat := 0

namespace IpcKdbLogger

def connect (l : IpcKdbLogger) (h : Int) : IpcKdbLogger × List ClientCall × Bool :=
  if 0 < l.handle then (l, [], true)
  else
    let call := .khpu l.host l.port l.credentials h
    if h ≤ 0 then ({ l with handle := 0 }, [call], false) else ({ l with handle := h }, [call], true)

def disconnect (l : IpcKdbLogger) : IpcKdbLogger × List ClientCall :=
  if 0 < l.handle then ({ l with handle := 0 }, [.kclose l.handle]) else (l, [])

def connected (l : IpcKdbLogger) : Bool := 0 < l.handle

def log (l : IpcKdbLogger) (event : TelemetryEvent) : IpcKdbLogger :=
  { l with batch := l.batch.push (.of event) }

def pendingCount (l : IpcKdbLogger) : Nat := l.batch.seq.length

/-- Builds the frame from the first n entries of every column, a fault where one is
shorter, and reads the answer: only an object of type -128 counts as an error. -/
def sendBatchLocked (l : IpcKdbLogger) (reply : KReply) : Option (Bool × ClientCall) :=
  let n := l.batch.seq.length
  if l.batch.Covers n then
    some (match reply with
      | .null => true
      | .error => false
      | .object => true, .k (-l.handle) ".u.upd" l.tableName (l.batch.take n) reply)
  else none

def flush (l : IpcKdbLogger) (reply : KReply) : Option (IpcKdbLogger × List ClientCall) :=
  if l.batch.seq = [] then some (l, [])
  else if l.handle ≤ 0 then some (l, [])
  else do
    let (ok, call) ← l.sendBatchLocked reply
    if ok then pure ({ l with batch := {}, sentFrames := addWord 64 l.sentFrames 1 }, [call])
    else pure ({ l with handle := 0, sendFailures := addWord 64 l.sendFailures 1 },
      [call, .kclose l.handle])

end IpcKdbLogger

/-- The calls on the logger, each with the client's answer if it asks for one. -/
inductive LoggerOp where
  | log (event : TelemetryEvent)
  | connect (h : Int)
  | disconnect
  | flush (reply : KReply)

/-- A logger in use: what was logged so far, and every call made of the client. -/
structure LoggerSession where
  logger : IpcKdbLogger
  logged : List TelemetryEvent := []
  calls : List ClientCall := []

namespace LoggerSession

def step (s : LoggerSession) : LoggerOp → Option LoggerSession
  | .log event => some { s with logger := s.logger.log event, logged := s.logged ++ [event] }
  | .connect h =>
    let (logger, calls, _) := s.logger.connect h
    some { s with logger := logger, calls := s.calls ++ calls }
  | .disconnect =>
    let (logger, calls) := s.logger.disconnect
    some { s with logger := logger, calls := s.calls ++ calls }
  | .flush reply => do
    let (logger, calls) ← s.logger.flush reply
    pure { s with logger := logger, calls := s.calls ++ calls }

end LoggerSession

/-- All uses of one logger, from its construction on. -/
def loggerSessions (host : String) (port : Int) (tableName credentials : String) :
    Machine LoggerSession LoggerOp where
  init s := s = { logger := { host, port, tableName, credentials } }
  step := LoggerSession.step

namespace ClientCall

/-- The rows of a frame that was handed over. -/
def handedOver : ClientCall → List TapeRow
  | .k _ _ _ cols .object => cols.rows
  | _ => []

/-- The rows of a frame whose socket write failed. -/
def unwritten : ClientCall → List TapeRow
  | .k _ _ _ cols .null => cols.rows
  | _ => []

/-- A send that was answered null. -/
def Failed : ClientCall → Prop
  | .k _ _ _ _ .null => True
  | _ => False

instance (c : ClientCall) : Decidable c.Failed := by
  unfold Failed
  split <;> infer_instance

/-- The rows that left the batch with a call. -/
def taken (c : ClientCall) : List TapeRow := c.handedOver ++ c.unwritten

theorem unwritten_eq_nil {c : ClientCall} (h : ¬ c.Failed) : c.unwritten = [] := by
  unfold unwritten
  split
  · exact absurd trivial h
  · rfl

/-- Nothing is missing from the frames handed over exactly if no send was answered null. -/
theorem handedOver_eq_taken_iff {calls : List ClientCall}
    (hrows : ∀ c ∈ calls, c.Failed → c.unwritten ≠ []) :
    calls.flatMap handedOver = calls.flatMap taken ↔ ∀ c ∈ calls, ¬ c.Failed := by
  have hlen : ∀ cs : List ClientCall,
      (cs.flatMap handedOver).length + (cs.flatMap unwritten).length = (cs.flatMap taken).length := by
    intro cs
    induction cs with
    | nil => rfl
    | cons c cs ih =>
      rw [List.flatMap_cons, List.flatMap_cons, List.flatMap_cons, taken, List.length_append,
        List.length_append, List.length_append, List.length_append]
      omega
  constructor
  · intro heq c hc hfailed
    have hnil : calls.flatMap unwritten = [] := by
      refine List.length_eq_zero_iff.mp ?_
      have hsum := hlen calls
      rw [heq] at hsum
      omega
    exact hrows c hc hfailed (List.flatMap_eq_nil_iff.mp hnil c hc)
  · intro hnone
    refine List.flatMap_congr fun c hc => ?_
    rw [taken, unwritten_eq_nil (hnone c hc), List.append_nil]

end ClientCall

namespace IpcKdbLogger
variable {l : IpcKdbLogger} {pending : List TapeRow}

/-- A Flush reaches the client. -/
def Sends (l : IpcKdbLogger) : Prop := l.batch.seq ≠ [] ∧ 0 < l.handle

instance (l : IpcKdbLogger) : Decidable l.Sends := by
  unfold Sends
  infer_instance

/-- Connecting leaves the batch alone and sends nothing. -/
theorem connect_spec (l : IpcKdbLogger) (h : Int) :
    (l.connect h).1.batch = l.batch ∧ (l.connect h).2.1.flatMap ClientCall.taken = [] ∧
      ∀ c ∈ (l.connect h).2.1, ¬ c.Failed := by
  unfold connect
  split_ifs
  · exact ⟨rfl, rfl, by simp⟩
  · exact ⟨rfl, rfl, by simp [ClientCall.Failed]⟩
  · exact ⟨rfl, rfl, by simp [ClientCall.Failed]⟩

theorem disconnect_spec (l : IpcKdbLogger) :
    l.disconnect.1.batch = l.batch ∧ l.disconnect.2.flatMap ClientCall.taken = [] ∧
      ∀ c ∈ l.disconnect.2, ¬ c.Failed := by
  unfold disconnect
  split_ifs
  · exact ⟨rfl, rfl, by simp [ClientCall.Failed]⟩
  · exact ⟨rfl, rfl, by simp⟩

/-- Everything a Flush of an aligned batch does. -/
theorem flush_spec (hbatch : l.batch = .ofRows pending) (reply : KReply) :
    ¬ l.Sends ∧ l.flush reply = some (l, []) ∨
      l.Sends ∧ pending ≠ [] ∧
        ((reply = .error ∧ l.flush reply =
            some ({ l with handle := 0, sendFailures := addWord 64 l.sendFailures 1 },
              [.k (-l.handle) ".u.upd" l.tableName (.ofRows pending) reply, .kclose l.handle])) ∨
          (reply ≠ .error ∧ l.flush reply =
            some ({ l with batch := {}, sentFrames := addWord 64 l.sentFrames 1 },
              [.k (-l.handle) ".u.upd" l.tableName (.ofRows pending) reply]))) := by
  by_cases hempty : l.batch.seq = []
  · exact .inl ⟨fun hs => hs.1 hempty, if_pos hempty⟩
  by_cases hclosed : l.handle ≤ 0
  · exact .inl ⟨fun hs => absurd hs.2 (not_lt.mpr hclosed), (if_neg hempty).trans (if_pos hclosed)⟩
  have hpending : pending ≠ [] := fun hp => hempty (hbatch ▸ (Columns.seq_ofRows pending).mpr hp)
  have hcovers : l.batch.Covers l.batch.seq.length := by
    rw [hbatch]
    exact Columns.covers_ofRows pending
  have htake : l.batch.take l.batch.seq.length = .ofRows pending := by
    rw [hbatch, Columns.take_ofRows]
  refine .inr ⟨⟨hempty, not_le.mp hclosed⟩, hpending, ?_⟩
  rw [flush, if_neg hempty, if_neg hclosed]
  unfold sendBatchLocked
  rw [if_pos hcovers, htake]
  cases reply with
  | null => exact .inr ⟨by decide, rfl⟩
  | error => exact .inl ⟨rfl, rfl⟩
  | object => exact .inr ⟨by decide, rfl⟩

end IpcKdbLogger

namespace LoggerSession
variable {s s' : LoggerSession}

/-- What left the batch so far, and what is still in it, is what was logged. -/
structure Tracked (s : LoggerSession) (pending : List TapeRow) : Prop where
  batch : s.logger.batch = .ofRows pending
  rows : s.calls.flatMap ClientCall.taken ++ pending = s.logged.map TapeRow.of
  failed : ∀ c ∈ s.calls, c.Failed → c.unwritten ≠ []

/-- Calls that carry no rows leave a session tracked. -/
theorem Tracked.quiet {pending : List TapeRow} (h : s.Tracked pending) {l : IpcKdbLogger}
    {calls : List ClientCall} (hbatch : l.batch = s.logger.batch)
    (htaken : calls.flatMap ClientCall.taken = []) (hfailed : ∀ c ∈ calls, ¬ c.Failed) :
    Tracked { s with logger := l, calls := s.calls ++ calls } pending := by
  refine ⟨hbatch.trans h.batch, ?_, fun c hc hf => ?_⟩
  · rw [List.flatMap_append, htaken, List.append_nil]
    exact h.rows
  · rcases List.mem_append.mp hc with hc | hc
    · exact h.failed c hc hf
    · exact absurd hf (hfailed c hc)

theorem Tracked.step {pending : List TapeRow} (h : s.Tracked pending) (op : LoggerOp) :
    ∃ s' pending', s.step op = some s' ∧ s'.Tracked pending' := by
  cases op with
  | log event =>
    refine ⟨_, pending ++ [.of event], rfl, ?_, ?_, h.failed⟩
    · change s.logger.batch.push (.of event) = _
      rw [h.batch, Columns.push_ofRows]
    · rw [List.map_append, ← h.rows, List.append_assoc]
      rfl
  | connect hnd =>
    obtain ⟨hbatch, htaken, hfailed⟩ := s.logger.connect_spec hnd
    exact ⟨_, pending, rfl, h.quiet hbatch htaken hfailed⟩
  | disconnect =>
    obtain ⟨hbatch, htaken, hfailed⟩ := s.logger.disconnect_spec
    exact ⟨_, pending, rfl, h.quiet hbatch htaken hfailed⟩
  | flush reply =>
    rcases IpcKdbLogger.flush_spec h.batch reply with
      ⟨-, hflush⟩ | ⟨-, hpending, ⟨rfl, hflush⟩ | ⟨hok, hflush⟩⟩
    · refine ⟨_, pending, congrArg (Option.bind · _) hflush, ?_⟩
      exact h.quiet rfl rfl (by simp)
    · refine ⟨_, pending, congrArg (Option.bind · _) hflush, ?_⟩
      exact h.quiet rfl rfl (by simp [ClientCall.Failed])
    · refine ⟨_, [], congrArg (Option.bind · _) hflush, rfl, ?_, fun c hc hf => ?_⟩
      · rw [List.flatMap_append, List.append_nil, ← h.rows]
        cases reply with
        | null => simp [ClientCall.taken, ClientCall.handedOver, ClientCall.unwritten,
            Columns.rows_ofRows]
        | error => exact absurd rfl hok
        | object => simp [ClientCall.taken, ClientCall.handedOver, ClientCall.unwritten,
            Columns.rows_ofRows]
      · rcases List.mem_append.mp hc with hc | hc
        · exact h.failed c hc hf
        · obtain rfl := List.mem_singleton.mp hc
          cases reply with
          | null => rwa [ClientCall.unwritten, Columns.rows_ofRows]
          | error => exact absurd rfl hok
          | object => exact hf.elim

end LoggerSession

section Runs
variable {host tableName credentials : String} {port : Int} {s : LoggerSession}

theorem reachable_tracked (h : (loggerSessions host port tableName credentials).Reachable s) :
    ∃ pending, s.Tracked pending := by
  refine h.invariant (I := fun s => ∃ pending, s.Tracked pending) ?_ ?_
  · rintro s rfl
    exact ⟨[], rfl, rfl, by simp⟩
  · rintro s op s' ⟨pending, hs⟩ hstep
    obtain ⟨s1, pending', h1, hs1⟩ := hs.step op
    obtain rfl := Option.some.inj (h1.symm.trans hstep)
    exact ⟨pending', hs1⟩

/-- Every use keeps the columns aligned and never faults. The frames handed over and the
batch are what was logged exactly if no send was answered null; and a failed send closes the
handle and keeps the batch exactly if it was not answered null. -/
theorem loses_nothing_iff (h : (loggerSessions host port tableName credentials).Reachable s) :
    s.logger.batch.Aligned ∧ (∀ op, (s.step op).isSome) ∧
      (s.calls.flatMap ClientCall.handedOver ++ s.logger.batch.rows = s.logged.map TapeRow.of ↔
        ∀ c ∈ s.calls, ¬ c.Failed) ∧
      ∀ reply ≠ .object, s.logger.Sends → ∃ s', s.step (.flush reply) = some s' ∧
        (s'.logger.handle = 0 ∧ s'.logger.batch = s.logger.batch ↔ reply ≠ .null) := by
  obtain ⟨pending, hs⟩ := reachable_tracked h
  refine ⟨?_, fun op => ?_, ?_, fun reply hreply hsends => ?_⟩
  · rw [hs.batch]
    exact Columns.aligned_ofRows pending
  · obtain ⟨s', -, hstep, -⟩ := hs.step op
    rw [hstep]
    rfl
  · rw [hs.batch, Columns.rows_ofRows, ← hs.rows, List.append_left_inj,
      ClientCall.handedOver_eq_taken_iff hs.failed]
  · rcases IpcKdbLogger.flush_spec hs.batch reply with
      ⟨hno, -⟩ | ⟨-, hpending, ⟨rfl, hflush⟩ | ⟨hok, hflush⟩⟩
    · exact absurd hsends hno
    · exact ⟨_, congrArg (Option.bind · _) hflush, ⟨fun _ => by decide, fun _ => ⟨rfl, rfl⟩⟩⟩
    · refine ⟨_, congrArg (Option.bind · _) hflush, ⟨fun hkept => ?_, fun hnull => ?_⟩⟩
      · have hcleared : ({} : Columns) = s.logger.batch := hkept.2
        exact absurd (congrArg Columns.seq hcleared).symm hsends.1
      · cases reply with
        | null => exact absurd rfl hnull
        | error => exact absurd rfl hok
        | object => exact absurd rfl hreply

end Runs

/-- A batch that the q side refused is sent again over the next connection. -/
theorem loses_nothing_after_error :
    ∃ s, (loggerSessions "localhost" 5010 "trade" "").run ⟨⟨"localhost", 5010, "trade", "", 0, {}, 0, 0⟩, [], []⟩
        [.log ⟨.ack, .sell, 0, 17, 1, 0, 101, 5⟩, .connect 5, .flush .error, .connect 6,
          .flush .object] = some s ∧
      s.calls.flatMap ClientCall.handedOver ++ s.logger.batch.rows = s.logged.map TapeRow.of := by
  obtain ⟨s, hrun⟩ : ∃ s, (loggerSessions "localhost" 5010 "trade" "").run
      ⟨⟨"localhost", 5010, "trade", "", 0, {}, 0, 0⟩, [], []⟩
      [.log ⟨.ack, .sell, 0, 17, 1, 0, 101, 5⟩, .connect 5, .flush .error, .connect 6,
        .flush .object] = some s := ⟨_, rfl⟩
  have hreach : (loggerSessions "localhost" 5010 "trade" "").Reachable s :=
    Machine.ReachableVia.run (.init rfl) (fun _ _ _ => trivial) hrun
  refine ⟨s, hrun, (loses_nothing_iff hreach).2.2.1.mpr ?_⟩
  obtain rfl := Option.some.inj hrun
  decide

/-- A null answer clears a batch that was never sent and leaves the dead handle open. -/
theorem rows_lost_on_null :
    ∃ s, (loggerSessions "localhost" 5010 "trade" "").run ⟨⟨"localhost", 5010, "trade", "", 0, {}, 0, 0⟩, [], []⟩
        [.log ⟨.ack, .sell, 0, 17, 1, 0, 101, 5⟩, .connect 5, .flush .null] = some s ∧
      ¬ s.calls.flatMap ClientCall.handedOver ++ s.logger.batch.rows = s.logged.map TapeRow.of ∧
      s.logger.handle = 5 ∧ s.logger.batch.rows = [] :=
  ⟨_, rfl, by decide, rfl, rfl⟩

end ExecutionPlatform.External
