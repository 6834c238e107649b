import ExecutionPlatform.Core.SpscRing
import ExecutionPlatform.Foundations.Machine

/-! The ring under two threads: TryPush and TryPop cut at every shared-memory access,
interleaved at will, with loads of the other side's index that may lag behind. -/
namespace ExecutionPlatform.Core
open Foundations

/-- The program points of TryPush, between its shared-memory accesses. -/
inductive PushPoint (T : Type) where
  | idle
  | loadedWrite (value : T) (w : Nat)
  | full
  | room (value : T) (w : Nat)
  | written (value : T) (w : Nat)
deriving DecidableEq

/-- The program points of TryPop. -/
inductive PopPoint (T : Type) where
  | idle
  | loadedRead (rd : Nat)
  | ready (rd : Nat)
  | taken (rd : Nat) (out : T)
deriving DecidableEq

/-- `readHistory` and `writeHistory` are the values that an index has held since the other
side last observed it, oldest first. The last three fields are bookkeeping: the values
accepted and popped so far, in order, and the number of TryPush calls that returned. -/
structure SpscSystem (T : Type) where
  ring : SpscRing T
  producer : PushPoint T
  consumer : PopPoint T
  readHistory : List Nat
  writeHistory : List Nat
  accepted : List T
  popped : List T
  completed : Nat

inductive SpscAction (T : Type) where
  | pushLoadWrite (value : T)
  | pushLoadRead (pick : Nat)
  | pushDrop
  | pushWriteSlot
  | pushStoreWrite
  | popLoadRead
  | popLoadWrite (pick : Nat)
  | popReadSlot
  | popStoreRead

namespace SpscSystem
variable {T : Type}

/-- Both indices start at the same word. -/
def start (capacity base : Nat) (storage : Nat → T) : SpscSystem T where
  ring := ⟨capacity, base % 2 ^ 64, base % 2 ^ 64, 0, storage⟩
  producer := .idle
  consumer := .idle
  readHistory := [base % 2 ^ 64]
  writeHistory := [base % 2 ^ 64]
  accepted := []
  popped := []
  completed := 0

def step (s : SpscSystem T) : SpscAction T → Option (SpscSystem T)
  | .pushLoadWrite value =>
    match s.producer with
    | .idle => some { s with producer := .loadedWrite value s.ring.writeIdx }
    | _ => none
  | .pushLoadRead pick =>
    match s.producer, s.readHistory[pick]? with
    | .loadedWrite value w, some rd =>
      some { s with producer := if s.ring.full w rd then .full else .room value w
                    readHistory := s.readHistory.drop pick }
    | _, _ => none
  | .pushDrop =>
    match s.producer with
    | .full => some { s with ring := s.ring.drop, producer := .idle, completed := s.completed + 1 }
    | _ => none
  | .pushWriteSlot =>
    match s.producer with
    | .room value w => some { s with ring := s.ring.writeSlot w value, producer := .written value w }
    | _ => none
  | .pushStoreWrite =>
    match s.producer with
    | .written value w =>
      some { s with ring := s.ring.storeWrite w
                    producer := .idle
                    writeHistory := s.writeHistory ++ [addWord 64 w 1]
                    accepted := s.accepted ++ [value]
                    completed := s.completed + 1 }
    | _ => none
  | .popLoadRead =>
    match s.consumer with
    | .idle => some { s with consumer := .loadedRead s.ring.readIdx }
    | _ => none
  | .popLoadWrite pick =>
    match s.consumer, s.writeHistory[pick]? with
    | .loadedRead rd, some w =>
      some { s with consumer := if rd = w then .idle else .ready rd
                    writeHistory := s.writeHistory.drop pick }
    | _, _ => none
  | .popReadSlot =>
    match s.consumer with
    | .ready rd => some { s with consumer := .taken rd (s.ring.storage (s.ring.slotOf rd)) }
    | _ => none
  | .popStoreRead =>
    match s.consumer with
    | .taken rd out =>
      some { s with ring := s.ring.storeRead rd
                    consumer := .idle
                    readHistory := s.readHistory ++ [addWord 64 rd 1]
                    popped := s.popped ++ [out] }
    | _ => none

/-- Every start word, every initial content and every schedule. -/
def machine (T : Type) (capacity : Nat) : Machine (SpscSystem T) (SpscAction T) where
  init s := ∃ base storage, s = start capacity base storage
  step := step

/-- A TryPush that runs alone, with a fresh view, is the sequential one. -/
theorem tryPush_alone {capacity pick : Nat} {s : SpscSystem T} (hidle : s.producer = .idle)
    (hview : s.readHistory[pick]? = some s.ring.readIdx) (value : T) :
    ∃ acts s', (machine T capacity).run s acts = some s' ∧ s'.producer = .idle ∧
      s'.ring = (s.ring.tryPush value).1 ∧
      s'.accepted = s.accepted ++ if (s.ring.tryPush value).2 then [value] else [] := by
  cases hfull : s.ring.full s.ring.writeIdx s.ring.readIdx with
  | true =>
    refine ⟨[.pushLoadWrite value, .pushLoadRead pick, .pushDrop],
      { s with ring := s.ring.drop
               producer := .idle
               readHistory := s.readHistory.drop pick
               completed := s.completed + 1 }, ?_, rfl, ?_, ?_⟩
    · simp only [Machine.run, machine, step, hidle, hview, hfull, Option.bind_eq_bind,
        Option.bind_some, if_true]
    · rw [SpscRing.tryPush, if_pos hfull]
    · rw [SpscRing.tryPush, if_pos hfull]
      exact (List.append_nil _).symm
  | false =>
    have hnot : ¬ s.ring.full s.ring.writeIdx s.ring.readIdx = true := by simp [hfull]
    refine ⟨[.pushLoadWrite value, .pushLoadRead pick, .pushWriteSlot, .pushStoreWrite],
      { s with ring := (s.ring.writeSlot s.ring.writeIdx value).storeWrite s.ring.writeIdx
               producer := .idle
               readHistory := s.readHistory.drop pick
               writeHistory := s.writeHistory ++ [addWord 64 s.ring.writeIdx 1]
               accepted := s.accepted ++ [value]
               completed := s.completed + 1 }, ?_, rfl, ?_, ?_⟩
    · simp only [Machine.run, machine, step, hidle, hview, hnot, Option.bind_eq_bind,
        Option.bind_some]
      rfl
    · rw [SpscRing.tryPush, if_neg hnot]
    · rw [SpscRing.tryPush, if_neg hnot]
      rfl

/-- A TryPop that runs alone, with a fresh view, is the sequential one. -/
theorem tryPop_alone {capacity pick : Nat} {s : SpscSystem T} (hidle : s.consumer = .idle)
    (hview : s.writeHistory[pick]? = some s.ring.writeIdx) :
    ∃ acts s', (machine T capacity).run s acts = some s' ∧ s'.consumer = .idle ∧
      s'.ring = s.ring.tryPop.1 ∧ s'.popped = s.popped ++ s.ring.tryPop.2.toList := by
  by_cases hempty : s.ring.readIdx = s.ring.writeIdx
  · refine ⟨[.popLoadRead, .popLoadWrite pick],
      { s with consumer := .idle, writeHistory := s.writeHistory.drop pick }, ?_, rfl, ?_, ?_⟩
    · simp only [Machine.run, machine, step, hidle, hview, hempty, Option.bind_eq_bind,
        Option.bind_some, if_true]
    · rw [SpscRing.tryPop, if_pos hempty]
    · rw [SpscRing.tryPop, if_pos hempty]
      exact (List.append_nil _).symm
  · refine ⟨[.popLoadRead, .popLoadWrite pick, .popReadSlot, .popStoreRead],
      { s with ring := s.ring.storeRead s.ring.readIdx
               consumer := .idle
               readHistory := s.readHistory ++ [addWord 64 s.ring.readIdx 1]
               writeHistory := s.writeHistory.drop pick
               popped := s.popped ++ [s.ring.storage (s.ring.slotOf s.ring.readIdx)] }, ?_, rfl, ?_, ?_⟩
    · simp only [Machine.run, machine, step, hidle, hview, hempty, Option.bind_eq_bind,
        Option.bind_some, if_false]
    · rw [SpscRing.tryPop, if_neg hempty]
    · rw [SpscRing.tryPop, if_neg hempty]
      rfl

/-- The words that an index has held between its positions a and m. -/
def history (base a m : Nat) : List Nat :=
  (List.range' a (m + 1 - a)).map fun i => (base + i) % 2 ^ 64

theorem history_pick {base a m pick x : Nat} (h : (history base a m)[pick]? = some x) :
    a + pick ≤ m ∧ x = (base + (a + pick)) % 2 ^ 64 := by
  rw [history, List.getElem?_map, Option.map_eq_some_iff] at h
  obtain ⟨i, hi, rfl⟩ := h
  obtain ⟨hlt, he⟩ := List.getElem?_eq_some_iff.mp hi
  rw [List.length_range'] at hlt
  rw [List.getElem_range', Nat.one_mul] at he
  exact ⟨by omega, by rw [he]⟩

theorem history_drop (base a m pick : Nat) :
    (history base a m).drop pick = history base (a + pick) m := by
  rw [history, ← List.map_drop, List.drop_range', Nat.mul_one, Nat.sub_sub]
  rfl

theorem history_push {base a m : Nat} (h : a ≤ m) :
    history base a m ++ [addWord 64 ((base + m) % 2 ^ 64) 1] = history base a (m + 1) := by
  rw [history, history, Nat.succ_sub (Nat.le_succ_of_le h), List.range'_1_concat, List.map_append,
    Nat.add_sub_cancel' (Nat.le_succ_of_le h), addWord_mod, Nat.add_assoc]
  rfl

/-- What the producer knows at each point: a is the read position it last observed. -/
def ProducerOK (base a : Nat) (s : SpscSystem T) : Prop :=
  match s.producer with
  | .idle => True
  | .loadedWrite _ w => w = (base + s.accepted.length) % 2 ^ 64
  | .full => True
  | .room _ w => w = (base + s.accepted.length) % 2 ^ 64 ∧ s.accepted.length < a + s.ring.capacity
  | .written value w => w = (base + s.accepted.length) % 2 ^ 64 ∧
      s.accepted.length < a + s.ring.capacity ∧ s.ring.storage (s.ring.slotOf w) = value

/-- What the consumer knows at each point: c is the write position it last observed. -/
def ConsumerOK (base c : Nat) (s : SpscSystem T) : Prop :=
  match s.consumer with
  | .idle => True
  | .loadedRead rd => rd = (base + s.popped.length) % 2 ^ 64
  | .ready rd => rd = (base + s.popped.length) % 2 ^ 64 ∧ s.popped.length < c
  | .taken rd out => rd = (base + s.popped.length) % 2 ^ 64 ∧ s.popped.length < c ∧
      out ∈ s.accepted[s.popped.length]?

/-- The inductive invariant: the ring is the window of values accepted and not yet popped,
and neither side's view of the other's index is more than a capacity behind. -/
structure Inv (n base a c : Nat) (s : SpscSystem T) : Prop where
  capacity : s.ring.capacity = n
  window : s.ring.Window base s.accepted s.popped.length s.accepted.length
  popped : s.popped <+: s.accepted
  readSeen : a ≤ s.popped.length
  readNear : s.accepted.length ≤ a + s.ring.capacity
  readHistory : s.readHistory = history base a s.popped.length
  writeSeen : s.popped.length ≤ c
  writeNear : c ≤ s.accepted.length
  writeHistory : s.writeHistory = history base c s.accepted.length
  completed : s.completed % 2 ^ 64 = (s.accepted.length + s.ring.droppedMessages) % 2 ^ 64
  producer : ProducerOK base a s
  consumer : ConsumerOK base c s

theorem start_inv {k : Nat} (hk : k ≤ 63) (base : Nat) (storage : Nat → T) :
    Inv (2 ^ k) base 0 0 (start (2 ^ k) base storage) where
  capacity := rfl
  window := ⟨⟨k, hk, rfl⟩, rfl, rfl, le_rfl, Nat.zero_le _, rfl,
    fun _ _ hi => absurd hi (Nat.not_lt_zero _)⟩
  popped := List.prefix_rfl
  readSeen := le_rfl
  readNear := Nat.zero_le _
  readHistory := rfl
  writeSeen := le_rfl
  writeNear := le_rfl
  writeHistory := rfl
  completed := rfl
  producer := trivial
  consumer := trivial

section Steps
variable {n base a c : Nat} {s s' : SpscSystem T}

/-- The producer's view moves forward to the read position it picked. -/
private theorem Inv.pushLoadRead {pick : Nat} (h : Inv n base a c s)
    (hs : s.step (.pushLoadRead pick) = some s') : Inv n base (a + pick) c s' := by
  cases hp : s.producer <;> cases hr : s.readHistory[pick]? <;> simp [step, hp, hr] at hs
  next value w rd =>
  subst hs
  rw [h.readHistory] at hr
  obtain ⟨hpick, rfl⟩ := history_pick hr
  have hw : w = (base + s.accepted.length) % 2 ^ 64 := by
    have := h.producer
    rwa [ProducerOK, hp] at this
  have hnear := h.readNear
  have hord := h.window.ordered
  refine { h with readSeen := hpick, readNear := by simp only; omega, readHistory := ?_, producer := ?_ }
  · rw [h.readHistory, history_drop]
  · have hfull := h.window.full_iff (a := a + pick) (by omega) (by omega)
    rw [ProducerOK, hw]
    split_ifs with hf
    · trivial
    · refine ⟨rfl, ?_⟩
      rw [hfull] at hf
      simp only
      omega

private theorem Inv.pushDrop (h : Inv n base a c s) (hs : s.step .pushDrop = some s') :
    Inv n base a c s' := by
  cases hp : s.producer <;> simp [step, hp] at hs
  subst hs
  refine { h with window := h.window.drop, completed := ?_, producer := trivial }
  simp only [SpscRing.drop, addWord, Nat.add_mod_mod]
  rw [Nat.add_mod, h.completed, Nat.mod_add_mod, ← Nat.add_assoc,
    Nat.mod_eq_of_lt (show 1 < 2 ^ 64 by decide)]

/-- The slot being written lies outside the window. -/
private theorem Inv.pushWriteSlot (h : Inv n base a c s) (hs : s.step .pushWriteSlot = some s') :
    Inv n base a c s' := by
  cases hp : s.producer <;> simp [step, hp] at hs
  next value w =>
  subst hs
  have hprod := h.producer
  rw [ProducerOK, hp] at hprod
  obtain ⟨rfl, hroom⟩ := hprod
  have hseen := h.readSeen
  exact { h with
    window := h.window.writeSlot (by omega) value
    producer := ⟨rfl, hroom, Function.update_self ..⟩ }

private theorem Inv.pushStoreWrite (h : Inv n base a c s) (hs : s.step .pushStoreWrite = some s') :
    Inv n base a c s' := by
  cases hp : s.producer <;> simp [step, hp] at hs
  next value w =>
  subst hs
  have hprod := h.producer
  rw [ProducerOK, hp] at hprod
  obtain ⟨rfl, hroom, hval⟩ := hprod
  have hseen := h.readSeen
  have hnear := h.writeNear
  have hlen : (s.accepted ++ [value]).length = s.accepted.length + 1 := by simp
  refine ⟨h.capacity, ?_, h.popped.trans (List.prefix_append ..), hseen, ?_, h.readHistory, h.writeSeen, ?_, ?_,
    ?_, trivial, ?_⟩
  · rw [hlen]
    exact h.window.storeWrite (by omega) hval
  · rw [hlen]
    exact hroom
  · rw [hlen]
    omega
  · rw [hlen, h.writeHistory, history_push hnear]
  · rw [hlen, Nat.add_mod, h.completed, Nat.mod_add_mod, SpscRing.storeWrite_droppedMessages,
      Nat.add_right_comm]
    simp
  · have hcons := h.consumer
    have hc := h.writeNear
    rw [ConsumerOK] at hcons ⊢
    cases hcs : s.consumer <;> simp only [hcs] at hcons ⊢
    · exact hcons
    · exact hcons
    · obtain ⟨h1, h2, h3⟩ := hcons
      exact ⟨h1, h2, by rwa [List.getElem?_append_left (by omega)]⟩

/-- The consumer's view moves forward to the write position it picked. -/
private theorem Inv.popLoadWrite {pick : Nat} (h : Inv n base a c s)
    (hs : s.step (.popLoadWrite pick) = some s') : Inv n base a (c + pick) s' := by
  cases hp : s.consumer <;> cases hr : s.writeHistory[pick]? <;> simp [step, hp, hr] at hs
  next rd w =>
  subst hs
  rw [h.writeHistory] at hr
  obtain ⟨hpick, rfl⟩ := history_pick hr
  have hrd : rd = (base + s.popped.length) % 2 ^ 64 := by
    have := h.consumer
    rwa [ConsumerOK, hp] at this
  have hseen := h.writeSeen
  have hbound := h.window.bound
  refine { h with writeSeen := by simp only; omega, writeNear := hpick, writeHistory := ?_, consumer := ?_ }
  · rw [h.writeHistory, history_drop]
  · have heq := h.window.word_eq_iff (c := c + pick) (by omega) (by omega)
    rw [ConsumerOK, hrd]
    simp only [heq]
    split_ifs with hempty
    · trivial
    · exact ⟨rfl, by omega⟩

private theorem Inv.popReadSlot (h : Inv n base a c s) (hs : s.step .popReadSlot = some s') :
    Inv n base a c s' := by
  cases hp : s.consumer <;> simp [step, hp] at hs
  next rd =>
  subst hs
  have hcons := h.consumer
  rw [ConsumerOK, hp] at hcons
  obtain ⟨rfl, hlt⟩ := hcons
  have hnear := h.writeNear
  obtain ⟨v, hv⟩ : ∃ v, s.accepted[s.popped.length]? = some v :=
    ⟨_, List.getElem?_eq_getElem (by omega)⟩
  refine { h with consumer := ⟨rfl, hlt, ?_⟩ }
  rw [h.window.slots _ le_rfl (by omega) v hv]
  exact hv

private theorem Inv.popStoreRead (h : Inv n base a c s) (hs : s.step .popStoreRead = some s') :
    Inv n base a c s' := by
  cases hp : s.consumer <;> simp [step, hp] at hs
  next rd out =>
  subst hs
  have hcons := h.consumer
  rw [ConsumerOK, hp] at hcons
  obtain ⟨rfl, hlt, hout⟩ := hcons
  have hseen := h.readSeen
  have hnear := h.writeNear
  have hlen : (s.popped ++ [out]).length = s.popped.length + 1 := by simp
  refine ⟨h.capacity, ?_, ?_, ?_, h.readNear, ?_, ?_, hnear, h.writeHistory, h.completed, ?_, trivial⟩
  · rw [hlen]
    exact h.window.storeRead (by omega)
  · obtain ⟨rest, hrest⟩ := h.popped
    rw [← hrest, List.getElem?_append_right le_rfl, Nat.sub_self] at hout
    cases rest with
    | nil => cases hout
    | cons v rest =>
      obtain rfl := Option.some.inj hout
      exact ⟨rest, by rw [← hrest]; simp⟩
  · rw [hlen]
    omega
  · rw [hlen, h.readHistory, history_push hseen]
  · rw [hlen]
    exact hlt
  · exact h.producer

/-- Every step of either thread keeps the invariant. -/
theorem Inv.step {act : SpscAction T} (h : Inv n base a c s) (hs : s.step act = some s') :
    ∃ a' c', Inv n base a' c' s' := by
  cases act with
  | pushLoadWrite value =>
    cases hp : s.producer <;> simp [SpscSystem.step, hp] at hs
    subst hs
    exact ⟨a, c, { h with producer := h.window.writeIdx }⟩
  | pushLoadRead pick => exact ⟨_, _, h.pushLoadRead hs⟩
  | pushDrop => exact ⟨_, _, h.pushDrop hs⟩
  | pushWriteSlot => exact ⟨_, _, h.pushWriteSlot hs⟩
  | pushStoreWrite => exact ⟨_, _, h.pushStoreWrite hs⟩
  | popLoadRead =>
    cases hp : s.consumer <;> simp [SpscSystem.step, hp] at hs
    subst hs
    exact ⟨a, c, { h with consumer := h.window.readIdx }⟩
  | popLoadWrite pick => exact ⟨_, _, h.popLoadWrite hs⟩
  | popReadSlot => exact ⟨_, _, h.popReadSlot hs⟩
  | popStoreRead => exact ⟨_, _, h.popStoreRead hs⟩

end Steps

theorem reachable_inv {k : Nat} (hk : k ≤ 63) {s : SpscSystem T}
    (h : (machine T (2 ^ k)).Reachable s) : ∃ base a c, Inv (2 ^ k) base a c s := by
  refine h.invariant (I := fun s => ∃ base a c, Inv (2 ^ k) base a c s) ?_ ?_
  · rintro s ⟨base, storage, rfl⟩
    exact ⟨base, 0, 0, start_inv hk base storage⟩
  · rintro s act s' ⟨base, a, c, hinv⟩ hs
    exact ⟨base, hinv.step hs⟩

/-- The producer has decided to write, or has written, the slot of index w and has not
yet published it. -/
def Writing (s : SpscSystem T) (w : Nat) : Prop :=
  ∃ value, s.producer = .room value w ∨ s.producer = .written value w

/-- The consumer is about to read the slot of index rd. -/
def Reading (s : SpscSystem T) (rd : Nat) : Prop := s.consumer = .ready rd

/-- A call on its way to rejection has written nothing, and one that found room is not. -/
private def Rejecting (s0 s : SpscSystem T) : Prop :=
  match s.producer with
  | .idle => False
  | .loadedWrite _ _ => s.ring.storage = s0.ring.storage ∧ s.ring.writeIdx = s0.ring.writeIdx ∧
      s.ring.droppedMessages = s0.ring.droppedMessages ∧ s.accepted = s0.accepted
  | .full => s.ring.storage = s0.ring.storage ∧ s.ring.writeIdx = s0.ring.writeIdx ∧
      s.ring.droppedMessages = s0.ring.droppedMessages ∧ s.accepted = s0.accepted
  | .room _ _ => True
  | .written _ _ => True

private theorem Rejecting.step {s0 s s' : SpscSystem T} {act : SpscAction T} (h : Rejecting s0 s)
    (hd : act ≠ .pushDrop) (hw : act ≠ .pushStoreWrite) (hs : s.step act = some s') :
    Rejecting s0 s' := by
  cases act with
  | pushDrop => exact absurd rfl hd
  | pushStoreWrite => exact absurd rfl hw
  | pushLoadRead pick =>
    cases hp : s.producer <;> cases hr : s.readHistory[pick]? <;> simp [SpscSystem.step, hp, hr] at hs
    subst hs
    rw [Rejecting, hp] at h
    rw [Rejecting]
    split_ifs
    · exact h
    · trivial
  | pushLoadWrite value | pushWriteSlot =>
    cases hp : s.producer <;> simp [SpscSystem.step, hp] at hs
    subst hs
    simp [Rejecting, hp] at h ⊢
  | popLoadWrite pick =>
    cases hc : s.consumer <;> cases hr : s.writeHistory[pick]? <;> simp [SpscSystem.step, hc, hr] at hs
    subst hs
    exact h
  | popLoadRead | popReadSlot | popStoreRead =>
    cases hc : s.consumer <;> simp [SpscSystem.step, hc] at hs
    subst hs
    exact h

/-- Only a pop moves the read index. -/
private theorem step_readIdx {s s' : SpscSystem T} {act : SpscAction T} (hne : act ≠ .popStoreRead)
    (hs : s.step act = some s') : s'.ring.readIdx = s.ring.readIdx := by
  cases act with
  | popStoreRead => exact absurd rfl hne
  | pushLoadRead pick =>
    cases hp : s.producer <;> cases hr : s.readHistory[pick]? <;> simp [step, hp, hr] at hs
    subst hs
    rfl
  | popLoadWrite pick =>
    cases hc : s.consumer <;> cases hr : s.writeHistory[pick]? <;> simp [step, hc, hr] at hs
    subst hs
    rfl
  | pushLoadWrite value | pushDrop | pushWriteSlot | pushStoreWrite =>
    cases hp : s.producer <;> simp [step, hp] at hs
    subst hs
    rfl
  | popLoadRead | popReadSlot =>
    cases hc : s.consumer <;> simp [step, hc] at hs
    subst hs
    rfl

/-- From the first load of a call to the drop-counter increment that ends it, the ring
keeps its slots and its write index, and only pops move its read index. -/
theorem rejected_push_frame {capacity : Nat} {s s' : SpscSystem T} {value : T}
    {mid : List (SpscAction T)} (hd : .pushDrop ∉ mid) (hw : .pushStoreWrite ∉ mid)
    (h : (machine T capacity).run s (.pushLoadWrite value :: mid ++ [.pushDrop]) = some s') :
    s'.ring.storage = s.ring.storage ∧ s'.ring.writeIdx = s.ring.writeIdx ∧
      s'.accepted = s.accepted ∧ s'.ring.droppedMessages = addWord 64 s.ring.droppedMessages 1 ∧
      (.popStoreRead ∉ mid → s'.ring.readIdx = s.ring.readIdx) := by
  rw [List.cons_append] at h
  obtain ⟨s1, h1, h⟩ := Option.bind_eq_some_iff.mp h
  rw [Machine.run_append] at h
  obtain ⟨s2, h2, h⟩ := Option.bind_eq_some_iff.mp h
  obtain ⟨s3, h3, h⟩ := Option.bind_eq_some_iff.mp h
  obtain rfl : s3 = s' := Option.some.inj h
  have h1' : s.step (.pushLoadWrite value) = some s1 := h1
  have hstart : Rejecting s s1 := by
    cases hp : s.producer <;> simp [machine, step, hp] at h1
    subst h1
    exact ⟨rfl, rfl, rfl, rfl⟩
  have hend : Rejecting s s2 := Machine.run_keeps
    (fun _ _ _ hok hI => hI.step (fun hc => hd (hc ▸ hok)) fun hc => hw (hc ▸ hok))
    (fun _ hact => hact) hstart h2
  have hread : .popStoreRead ∉ mid → s2.ring.readIdx = s.ring.readIdx := fun hr =>
    Machine.run_keeps (I := fun t => t.ring.readIdx = s.ring.readIdx)
      (fun _ _ _ hok hI hs => (step_readIdx (fun hc => hr (hc ▸ hok)) hs).trans hI)
      (fun _ hact => hact) (step_readIdx (by simp) h1') h2
  cases hp : s2.producer <;> simp [machine, step, hp] at h3
  subst h3
  rw [Rejecting, hp] at hend
  obtain ⟨e1, e2, e3, e4⟩ := hend
  exact ⟨e1, e2, e4, by rw [← e3]; rfl, hread⟩

theorem Inv.writing {n base a c w : Nat} {s : SpscSystem T} (h : Inv n base a c s)
    (hw : s.Writing w) :
    w = (base + s.accepted.length) % 2 ^ 64 ∧ s.accepted.length < a + s.ring.capacity := by
  obtain ⟨value, hw⟩ := hw
  have hprod := h.producer
  rw [ProducerOK] at hprod
  rcases hw with hw | hw <;> rw [hw] at hprod
  · exact hprod
  · exact ⟨hprod.1, hprod.2.1⟩

/-- The ring is a lossless bounded FIFO up to counted drops, under every schedule, from
every start word, with views of the other index as stale as coherence allows. -/
theorem spsc_lossless {k : Nat} (hk : k ≤ 63) {s : SpscSystem T}
    (h : (machine T (2 ^ k)).Reachable s) :
    s.popped <+: s.accepted ∧
    s.accepted.length ≤ s.popped.length + 2 ^ k ∧
    (∀ w, s.Writing w → (∀ rd, s.Reading rd → s.ring.slotOf rd ≠ s.ring.slotOf w) ∧
      ∀ d, s.popped.length + d < s.accepted.length →
        s.ring.slotOf ((s.ring.readIdx + d) % 2 ^ 64) ≠ s.ring.slotOf w) ∧
    s.completed % 2 ^ 64 = (s.accepted.length + s.ring.droppedMessages) % 2 ^ 64 ∧
    ∀ value mid s', .pushDrop ∉ mid → .pushStoreWrite ∉ mid →
      (machine T (2 ^ k)).run s (.pushLoadWrite value :: mid ++ [.pushDrop]) = some s' →
      s'.ring.storage = s.ring.storage ∧ s'.ring.writeIdx = s.ring.writeIdx ∧
      s'.accepted = s.accepted ∧ s'.ring.droppedMessages = addWord 64 s.ring.droppedMessages 1 ∧
      (.popStoreRead ∉ mid → s'.ring.readIdx = s.ring.readIdx) := by
  obtain ⟨base, a, c, hinv⟩ := reachable_inv hk h
  refine ⟨hinv.popped, ?_, fun w hw => ?_, hinv.completed,
    fun value mid s' hd hw hrun => rejected_push_frame hd hw hrun⟩
  · rw [← hinv.capacity]
    exact hinv.window.bound
  · obtain ⟨rfl, hroom⟩ := hinv.writing hw
    have hseen := hinv.readSeen
    have hnear := hinv.writeNear
    constructor
    · intro rd hrd
      have hcons := hinv.consumer
      rw [ConsumerOK, hrd] at hcons
      obtain ⟨rfl, hlt⟩ := hcons
      exact hinv.window.slotOf_ne (by omega) (by omega)
    · intro d hd
      rw [hinv.window.readIdx, Nat.mod_add_mod, Nat.add_assoc]
      exact hinv.window.slotOf_ne hd (by omega)

/-- Two slots, both indices about to wrap: the producer has found room past the wrap while
the consumer is about to read the value pushed before it. -/
theorem spsc_lossless_at_wrap : ∃ s : SpscSystem Nat, (machine Nat (2 ^ 1)).Reachable s ∧
    s.Writing 0 ∧ s.Reading (2 ^ 64 - 1) ∧ s.ring.slotOf (2 ^ 64 - 1) ≠ s.ring.slotOf 0 := by
  have hrun : ((machine Nat (2 ^ 1)).run (start (2 ^ 1) (2 ^ 64 - 1) fun _ => 0)
      [.pushLoadWrite 7, .pushLoadRead 0, .pushWriteSlot, .pushStoreWrite, .pushLoadWrite 8,
        .popLoadRead, .popLoadWrite 1, .pushLoadRead 0]).map (fun s => (s.producer, s.consumer)) =
      some (.room 8 0, .ready (2 ^ 64 - 1)) := by decide +kernel
  obtain ⟨s, hs, hpoints⟩ := Option.map_eq_some_iff.mp hrun
  obtain ⟨hp, hc⟩ := Prod.mk.inj hpoints
  have hreach : (machine Nat (2 ^ 1)).Reachable s :=
    Machine.ReachableVia.run (.init ⟨_, _, rfl⟩) (fun _ _ _ => trivial) hs
  have hsafe := (spsc_lossless (by decide) hreach).2.2.1 0 ⟨8, .inl hp⟩
  exact ⟨s, hreach, ⟨8, .inl hp⟩, hc, hsafe.1 _ hc⟩

end SpscSystem
end ExecutionPlatform.Core
