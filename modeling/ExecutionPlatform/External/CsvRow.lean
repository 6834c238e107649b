import ExecutionPlatform.External.IpcKdbLogger
import ExecutionPlatform.Foundations.DelimitedText

/-! The CSV tape: the row of an event, and how it compares with the row that the kdb+ logger
sends of it. -/
namespace ExecutionPlatform.External
open ExecutionPlatform.Core Foundations

/-- The fields of a CSV row. The stream prints unsigned words and the signed price in decimal. -/
def csvFields (e : TelemetryEvent) : List String :=
  [telemetryEventTypeName e.type, toString e.sequence, toString e.timestampNs, toString e.orderId,
    toString e.counterId, toString e.price, toString e.qty, sideName e.side]

def formatCsvRow (e : TelemetryEvent) : String := ",".intercalate (csvFields e)

/-- The sink of tests and of CI. -/
structure InMemoryKdbLogger where
  rows : List String := []
  flushCount : Nat := 0

namespace InMemoryKdbLogger

def log (l : InMemoryKdbLogger) (event : TelemetryEvent) : InMemoryKdbLogger :=
  { l with rows := l.rows ++ [formatCsvRow event] }

def flush (l : InMemoryKdbLogger) : InMemoryKdbLogger :=
  { l with flushCount := addWord 64 l.flushCount 1 }

end InMemoryKdbLogger

namespace TapeRow

/-- A row of the column batches in decimal, column by column. -/
def fields (row : TapeRow) : List String :=
  [row.type, toString row.seq, toString row.tsNs, toString row.orderId, toString row.counterId,
    toString row.price, toString row.qty, row.side]

def text (row : TapeRow) : String := ",".intercalate row.fields

end TapeRow

theorem telemetryEventTypeName_injective : Function.Injective telemetryEventTypeName := by
  intro t t' h
  cases t <;> cases t' <;> first | rfl | exact absurd h (by decide)

theorem sideName_injective : Function.Injective sideName := by
  intro s s' h
  cases s <;> cases s' <;> first | rfl | exact absurd h (by decide)

theorem comma_not_mem_typeName (t : TelemetryEventType) :
    ',' ∉ (telemetryEventTypeName t).toList := by
  cases t <;> decide

theorem comma_not_mem_sideName (s : Side) : ',' ∉ (sideName s).toList := by
  cases s <;> decide

/-- No field of a row contains the separator. -/
theorem comma_not_mem_csvFields (e : TelemetryEvent) : ∀ f ∈ csvFields e, ',' ∉ f.toList := by
  have hnat := not_mem_natRepr (c := ',') (by decide)
  have hint := not_mem_intRepr (c := ',') (by decide) (by decide)
  simp only [csvFields, List.forall_mem_cons]
  exact ⟨comma_not_mem_typeName _, hnat _, hnat _, hnat _, hnat _, hint _, hnat _,
    comma_not_mem_sideName _, by simp⟩

theorem comma_not_mem_fields_of (e : TelemetryEvent) :
    ∀ f ∈ (TapeRow.of e).fields, ',' ∉ f.toList := by
  have hint := not_mem_intRepr (c := ',') (by decide) (by decide)
  simp only [TapeRow.fields, TapeRow.of, List.forall_mem_cons]
  exact ⟨comma_not_mem_typeName _, hint _, hint _, hint _, hint _, hint _, hint _,
    comma_not_mem_sideName _, by simp⟩

/-- Every field can be told from the row. -/
theorem formatCsvRow_eq_iff {e e' : TelemetryEvent} : formatCsvRow e = formatCsvRow e' ↔ e = e' := by
  constructor
  · intro h
    have hfields : csvFields e = csvFields e' := intercalate_injective ',' (by simp [csvFields])
      (by simp [csvFields]) (comma_not_mem_csvFields e) (comma_not_mem_csvFields e') h
    simp only [csvFields, List.cons.injEq] at hfields
    obtain ⟨htype, hseq, hts, hid, hcounter, hprice, hqty, hside, -⟩ := hfields
    have hnat : ∀ {m n : Nat}, toString m = toString n → m = n := Nat.repr_injective
    cases e
    cases e'
    rw [TelemetryEvent.mk.injEq]
    exact ⟨telemetryEventTypeName_injective htype, sideName_injective hside, hnat hseq, hnat hts, hnat hid,
      hnat hcounter, Int.repr_injective hprice, hnat hqty⟩
  · rintro rfl
    rfl

/-- The words of an event are 64 bits wide. -/
structure WordSized (e : TelemetryEvent) : Prop where
  sequence : e.sequence < 2 ^ 64
  timestampNs : e.timestampNs < 2 ^ 64
  orderId : e.orderId < 2 ^ 64
  counterId : e.counterId < 2 ^ 64
  qty : e.qty < 2 ^ 64

/-- The words of an event are in the range of a signed column. -/
structure FitsColumns (e : TelemetryEvent) : Prop where
  sequence : e.sequence < 2 ^ 63
  timestampNs : e.timestampNs < 2 ^ 63
  orderId : e.orderId < 2 ^ 63
  counterId : e.counterId < 2 ^ 63
  qty : e.qty < 2 ^ 63

theorem toInt64_eq_iff {n : Nat} (h : n < 2 ^ 64) : toInt64 n = n ↔ n < 2 ^ 63 := by
  rw [toInt64, BitVec.toInt_eq_toNat_cond, BitVec.toNat_ofNat, Nat.mod_eq_of_lt h]
  split_ifs with hlow
  · exact iff_of_true rfl (by omega)
  · exact iff_of_false (by push_cast; omega) (by omega)

/-- The cast to a signed column shows exactly in the words that do not fit. -/
theorem text_of_eq_iff {e : TelemetryEvent} (h : WordSized e) :
    (TapeRow.of e).text = formatCsvRow e ↔ FitsColumns e := by
  have hfields : (TapeRow.of e).text = formatCsvRow e ↔ (TapeRow.of e).fields = csvFields e := by
    constructor
    · exact intercalate_injective ',' (by simp [TapeRow.fields]) (by simp [csvFields])
        (comma_not_mem_fields_of e) (comma_not_mem_csvFields e)
    · exact congrArg (",".intercalate ·)
  rw [hfields]
  simp only [TapeRow.fields, TapeRow.of, csvFields, List.cons.injEq, intRepr_eq_natRepr_iff, true_and,
    and_true, toInt64_eq_iff h.sequence, toInt64_eq_iff h.timestampNs, toInt64_eq_iff h.orderId,
    toInt64_eq_iff h.counterId, toInt64_eq_iff h.qty]
  exact ⟨fun ⟨h1, h2, h3, h4, h5⟩ => ⟨h1, h2, h3, h4, h5⟩,
    fun ⟨h1, h2, h3, h4, h5⟩ => ⟨h1, h2, h3, h4, h5⟩⟩

theorem inMemory_rows (events : List TelemetryEvent) (l : InMemoryKdbLogger) :
    (events.foldl InMemoryKdbLogger.log l).rows = l.rows ++ events.map formatCsvRow := by
  induction events generalizing l with
  | nil => exact (List.append_nil _).symm
  | cons e events ih =>
    rw [List.foldl_cons, ih, List.map_cons, List.append_cons]
    rfl

section Runs
variable {host tableName credentials : String} {port : Int} {s : LoggerSession}

/-- The two encoders agree on an event exactly if its words fit signed columns; and what the
in-memory sink records of a session is what the kdb+ logger sends and holds of it exactly if
that is so of every event. -/
theorem tapes_agree_iff (h : (loggerSessions host port tableName credentials).Reachable s)
    (hwords : ∀ e ∈ s.logged, WordSized e) :
    (∀ e, WordSized e → ∃ s' row, s.step (.log e) = some s' ∧
      s'.logger.batch.rows = s.logger.batch.rows ++ [row] ∧
      (row.text = formatCsvRow e ↔ FitsColumns e)) ∧
    ((s.calls.flatMap ClientCall.taken ++ s.logger.batch.rows).map TapeRow.text =
        (s.logged.foldl InMemoryKdbLogger.log {}).rows ↔ ∀ e ∈ s.logged, FitsColumns e) := by
  obtain ⟨pending, hs⟩ := reachable_tracked h
  constructor
  · intro e he
    refine ⟨_, .of e, rfl, ?_, text_of_eq_iff he⟩
    change (s.logger.batch.push (.of e)).rows = _
    rw [hs.batch, Columns.push_ofRows, Columns.rows_ofRows, Columns.rows_ofRows]
  · rw [hs.batch, Columns.rows_ofRows, hs.rows, inMemory_rows, List.nil_append, List.map_map,
      List.map_inj_left]
    exact forall₂_congr fun e he => text_of_eq_iff (hwords e he)

end Runs

/-- An acknowledged order, on both tapes. -/
theorem tapes_agree_ack :
    ∃ s, (loggerSessions "localhost" 5010 "trade" "").run ⟨⟨"localhost", 5010, "trade", "", 0, {}, 0, 0⟩, [], []⟩
        [.log ⟨.ack, .sell, 0, 17, 1, 0, 101, 5⟩] = some s ∧
      s.logger.batch.rows.map TapeRow.text = (s.logged.foldl InMemoryKdbLogger.log {}).rows := by
  obtain ⟨s, hrun⟩ : ∃ s, (loggerSessions "localhost" 5010 "trade" "").run
      ⟨⟨"localhost", 5010, "trade", "", 0, {}, 0, 0⟩, [], []⟩
      [.log ⟨.ack, .sell, 0, 17, 1, 0, 101, 5⟩] = some s := ⟨_, rfl⟩
  have hreach : (loggerSessions "localhost" 5010 "trade" "").Reachable s :=
    Machine.ReachableVia.run (.init rfl) (fun _ _ _ => trivial) hrun
  have hs : s.logged = [⟨.ack, .sell, 0, 17, 1, 0, 101, 5⟩] ∧ s.calls = [] := by
    obtain rfl := Option.some.inj hrun
    exact ⟨rfl, rfl⟩
  obtain ⟨-, hagree⟩ := tapes_agree_iff hreach (by
    rw [hs.1]
    simpa using (⟨by decide, by decide, by decide, by decide, by decide⟩ : WordSized _))
  rw [hs.2] at hagree
  refine ⟨s, hrun, hagree.mpr ?_⟩
  rw [hs.1]
  simpa using (⟨by decide, by decide, by decide, by decide, by decide⟩ : FitsColumns _)

/-- An order id from 2^63 on is recorded as it is, and sent as a negative number. -/
theorem order_id_past_column :
    ∃ s row, (loggerSessions "localhost" 5010 "trade" "").run
        ⟨⟨"localhost", 5010, "trade", "", 0, {}, 0, 0⟩, [], []⟩
        [.log ⟨.ack, .sell, 0, 17, 2 ^ 63, 0, 101, 5⟩] = some s ∧ s.logger.batch.rows = [row] ∧
      row.text = "ACK,0,17,-9223372036854775808,0,101,5,SELL" ∧
      row.text ≠ formatCsvRow ⟨.ack, .sell, 0, 17, 2 ^ 63, 0, 101, 5⟩ :=
  ⟨_, _, rfl, rfl, by decide +kernel, by decide +kernel⟩

end ExecutionPlatform.External
