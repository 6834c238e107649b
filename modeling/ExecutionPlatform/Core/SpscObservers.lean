import ExecutionPlatform.Core.SpscInterleaving
import Mathlib.Tactic.FinCases

/-! size_approx called while TryPush and TryPop run: by the producer between its pushes, by
the consumer between its pops, and by a third thread that only reads. -/
namespace ExecutionPlatform.Core
open Foundations

namespace SpscRing
variable {T : Type}

def sizeApprox (r : SpscRing T) : Nat := subWord 64 r.writeIdx r.readIdx

def emptyApprox (r : SpscRing T) : Bool := r.sizeApprox == 0

/-- With nobody else running the difference is the number of values in the ring. -/
theorem Window.sizeApprox {r : SpscRing T} {base R W : Nat} {tape : List T}
    (h : r.Window base tape R W) : r.sizeApprox = W - R := by
  have hcap := h.capacity_lt
  have hbound := h.bound
  obtain ⟨d, rfl⟩ := Nat.exists_eq_add_of_le h.ordered
  rw [SpscRing.sizeApprox, h.writeIdx, h.readIdx, ← Nat.add_assoc, subWord_add_mod,
    Nat.add_sub_cancel_left, Nat.mod_eq_of_lt (by omega)]

theorem Window.emptyApprox_iff {r : SpscRing T} {base R W : Nat} {tape : List T}
    (h : r.Window base tape R W) : r.emptyApprox = true ↔ R = W := by
  have hord := h.ordered
  rw [emptyApprox, h.sizeApprox, beq_iff_eq]
  omega

end SpscRing

inductive Caller where
  | producer
  | consumer
  | observer
deriving DecidableEq

/-- `loaded` is the write index that a call in flight has loaded. The last two fields are
bookkeeping: how many values had been accepted when the third thread loaded it, and what
the calls returned. -/
structure SpscObserved (T : Type) where
  sys : SpscSystem T
  loaded : Caller → Option Nat
  pushedAtLoad : Nat
  returned : List (Caller × Nat)

inductive ObservedAction (T : Type) where
  | ring (act : SpscAction T)
  | sizeLoadWrite (who : Caller) (pick : Nat)
  | sizeLoadRead (who : Caller) (pick : Nat)

namespace SpscSystem
variable {T : Type}

/-- A load of the write index, and the views after it: the producer finds its own last
store, the consumer one as old as coherence allows, the third thread the current one. -/
def loadWrite (s : SpscSystem T) : Caller → Nat → Option (Nat × SpscSystem T)
  | .producer, _ => some (s.ring.writeIdx, s)
  | .consumer, pick => s.writeHistory[pick]?.map fun w =>
    (w, { s with writeHistory := s.writeHistory.drop pick })
  | .observer, _ => some (s.ring.writeIdx, s)

def loadRead (s : SpscSystem T) : Caller → Nat → Option (Nat × SpscSystem T)
  | .producer, pick => s.readHistory[pick]?.map fun r =>
    (r, { s with readHistory := s.readHistory.drop pick })
  | .consumer, _ => some (s.ring.readIdx, s)
  | .observer, _ => some (s.ring.readIdx, s)

/-- Whether the caller is between two calls of TryPush or TryPop. -/
def between (s : SpscSystem T) : Caller → Bool
  | .producer => match s.producer with
    | .idle => true
    | _ => false
  | .consumer => match s.consumer with
    | .idle => true
    | _ => false
  | .observer => true

/-- The thread that begins a call with this step. -/
def begins : SpscAction T → Option Caller
  | .pushLoadWrite _ => some .producer
  | .popLoadRead => some .consumer
  | _ => none

section Steps
variable {s s' : SpscSystem T} {act : SpscAction T}

theorem step_popped_le (hs : s.step act = some s') : s.popped.length ≤ s'.popped.length := by
  cases act with
  | pushLoadRead pick =>
    cases hp : s.producer <;> cases hr : s.readHistory[pick]? <;> simp [step, hp, hr] at hs
    subst hs
    exact le_rfl
  | popLoadWrite pick =>
    cases hc : s.consumer <;> cases hr : s.writeHistory[pick]? <;> simp [step, hc, hr] at hs
    subst hs
    exact le_rfl
  | pushLoadWrite value | pushDrop | pushWriteSlot | pushStoreWrite =>
    cases hp : s.producer <;> simp [step, hp] at hs
    subst hs
    exact le_rfl
  | popLoadRead | popReadSlot | popStoreRead =>
    cases hc : s.consumer <;> simp [step, hc] at hs
    subst hs
    simp

/-- While the producer stays between two pushes, nothing is accepted. -/
theorem step_producer_idle (hidle : s.producer = .idle) (hact : begins act ≠ some .producer)
    (hs : s.step act = some s') : s'.producer = .idle ∧ s'.accepted = s.accepted := by
  cases act with
  | pushLoadWrite value => exact absurd rfl hact
  | pushLoadRead pick | pushDrop | pushWriteSlot | pushStoreWrite => simp [step, hidle] at hs
  | popLoadWrite pick =>
    cases hc : s.consumer <;> cases hr : s.writeHistory[pick]? <;> simp [step, hc, hr] at hs
    subst hs
    exact ⟨hidle, rfl⟩
  | popLoadRead | popReadSlot | popStoreRead =>
    cases hc : s.consumer <;> simp [step, hc] at hs
    subst hs
    exact ⟨hidle, rfl⟩

/-- While the consumer stays between two pops, nothing is popped. -/
theorem step_consumer_idle (hidle : s.consumer = .idle) (hact : begins act ≠ some .consumer)
    (hs : s.step act = some s') : s'.consumer = .idle ∧ s'.popped = s.popped := by
  cases act with
  | popLoadRead => exact absurd rfl hact
  | popLoadWrite pick | popReadSlot | popStoreRead => simp [step, hidle] at hs
  | pushLoadRead pick =>
    cases hp : s.producer <;> cases hr : s.readHistory[pick]? <;> simp [step, hp, hr] at hs
    subst hs
    exact ⟨hidle, rfl⟩
  | pushLoadWrite value | pushDrop | pushWriteSlot | pushStoreWrite =>
    cases hp : s.producer <;> simp [step, hp] at hs
    subst hs
    exact ⟨hidle, rfl⟩

end Steps

section Views
variable {n base a c pick x : Nat} {s s' : SpscSystem T} {who : Caller}

/-- A load of the read index moves no view but the producer's, and only forward. What it
finds lags behind the pops by no more than the producer's own view does. -/
theorem Inv.loadRead (h : Inv n base a c s) (hidle : who = .producer → s.producer = .idle)
    (hl : s.loadRead who pick = some (x, s')) :
    (∃ a', Inv n base a' c s') ∧ s' = { s with readHistory := s'.readHistory } ∧
      ∃ b, x = (base + b) % 2 ^ 64 ∧ b ≤ s.popped.length ∧ s.accepted.length ≤ b + n ∧
        (who ≠ .producer → b = s.popped.length) := by
  have hnear := h.readNear
  have hbound := h.window.bound
  have hcap := h.capacity
  cases who with
  | producer =>
    obtain ⟨r, hr, he⟩ := Option.map_eq_some_iff.mp hl
    obtain ⟨rfl, rfl⟩ := Prod.mk.inj he
    rw [h.readHistory] at hr
    obtain ⟨hpick, rfl⟩ := history_pick hr
    refine ⟨⟨a + pick, ?_⟩, rfl, a + pick, rfl, hpick, by omega, fun hne => absurd rfl hne⟩
    refine { h with readSeen := hpick, readNear := by simp only; omega, readHistory := ?_, producer := ?_ }
    · rw [h.readHistory, history_drop]
    · rw [ProducerOK, hidle rfl]
      trivial
  | consumer | observer =>
    obtain ⟨rfl, rfl⟩ := Prod.mk.inj (Option.some.inj hl)
    exact ⟨⟨a, h⟩, rfl, s.popped.length, h.window.readIdx, le_rfl, by omega, fun _ => rfl⟩

/-- A load of the write index moves no view but the consumer's, and only forward. -/
theorem Inv.loadWrite (h : Inv n base a c s) (hidle : who = .consumer → s.consumer = .idle)
    (hl : s.loadWrite who pick = some (x, s')) :
    (∃ c', Inv n base a c' s') ∧ s' = { s with writeHistory := s'.writeHistory } ∧
      ∃ b, x = (base + b) % 2 ^ 64 ∧ s.popped.length ≤ b ∧ b ≤ s.accepted.length ∧
        (who ≠ .consumer → b = s.accepted.length) := by
  have hseen := h.writeSeen
  have hord := h.window.ordered
  cases who with
  | consumer =>
    obtain ⟨w, hw, he⟩ := Option.map_eq_some_iff.mp hl
    obtain ⟨rfl, rfl⟩ := Prod.mk.inj he
    rw [h.writeHistory] at hw
    obtain ⟨hpick, rfl⟩ := history_pick hw
    refine ⟨⟨c + pick, ?_⟩, rfl, c + pick, rfl, by omega, hpick, fun hne => absurd rfl hne⟩
    refine { h with writeSeen := by simp only; omega, writeNear := hpick, writeHistory := ?_, consumer := ?_ }
    · rw [h.writeHistory, history_drop]
    · rw [ConsumerOK, hidle rfl]
      trivial
  | producer | observer =>
    obtain ⟨rfl, rfl⟩ := Prod.mk.inj (Option.some.inj hl)
    exact ⟨⟨c, h⟩, rfl, s.accepted.length, h.window.writeIdx, hord, le_rfl, fun _ => rfl⟩

theorem between_producer (h : s.between .producer = true) : s.producer = .idle := by
  cases hp : s.producer <;> simp [between, hp] at h
  rfl

theorem between_consumer (h : s.between .consumer = true) : s.consumer = .idle := by
  cases hc : s.consumer <;> simp [between, hc] at h
  rfl

end Views
end SpscSystem

namespace SpscObserved
variable {T : Type}

def start (capacity base : Nat) (storage : Nat → T) : SpscObserved T :=
  ⟨SpscSystem.start capacity base storage, fun _ => none, 0, []⟩

/-- A thread runs one call at a time. -/
def step (s : SpscObserved T) : ObservedAction T → Option (SpscObserved T)
  | .ring act =>
    if ((SpscSystem.begins act).bind s.loaded).isSome then none
    else (s.sys.step act).map fun sys => { s with sys := sys }
  | .sizeLoadWrite who pick =>
    if s.sys.between who && (s.loaded who).isNone then
      (s.sys.loadWrite who pick).map fun (w, sys) =>
        { s with sys := sys
                 loaded := Function.update s.loaded who (some w)
                 pushedAtLoad := if who = .observer then s.sys.accepted.length else s.pushedAtLoad }
    else none
  | .sizeLoadRead who pick =>
    (s.loaded who).bind fun w => (s.sys.loadRead who pick).map fun (r, sys) =>
      { s with sys := sys
               loaded := Function.update s.loaded who none
               returned := s.returned ++ [(who, subWord 64 w r)] }

def machine (T : Type) (capacity : Nat) : Machine (SpscObserved T) (ObservedAction T) where
  init s := ∃ base storage, s = start capacity base storage
  step := step

/-- A call that runs alone, with a fresh view, returns what the sequential one does. -/
theorem sizeApprox_alone {capacity pick pick' : Nat} {s : SpscObserved T} {sys sys' : SpscSystem T}
    {who : Caller} (hfree : s.sys.between who = true) (hnone : s.loaded who = none)
    (hw : s.sys.loadWrite who pick = some (s.sys.ring.writeIdx, sys))
    (hr : sys.loadRead who pick' = some (s.sys.ring.readIdx, sys')) :
    ∃ s', (machine T capacity).run s [.sizeLoadWrite who pick, .sizeLoadRead who pick'] = some s' ∧
      s'.sys = sys' ∧ s'.returned = s.returned ++ [(who, s.sys.ring.sizeApprox)] := by
  refine ⟨{ s with sys := sys'
                   loaded := Function.update (Function.update s.loaded who (some s.sys.ring.writeIdx)) who none
                   pushedAtLoad := if who = .observer then s.sys.accepted.length else s.pushedAtLoad
                   returned := s.returned ++ [(who, s.sys.ring.sizeApprox)] }, ?_, rfl, rfl⟩
  simp only [Machine.run, machine, step, hfree, hnone, hw, hr, Option.isNone_none, Bool.and_self,
    if_true, Option.map_some, Option.bind_eq_bind, Option.bind_some, Function.update_self]
  rfl

/-- The third thread finds no more values popped at its second load than it saw accepted at
its first, up to full turns of the 64-bit clock. -/
def InTime (n : Nat) (s : SpscObserved T) : ObservedAction T → Prop
  | .sizeLoadRead .observer _ =>
    (s.sys.popped.length - s.pushedAtLoad) % 2 ^ 64 = 0 ∨
      2 ^ 64 ≤ (s.sys.popped.length - s.pushedAtLoad) % 2 ^ 64 + n
  | _ => True

/-- What a call in flight knows of the write index it has loaded. -/
def CallOK (n base : Nat) (s : SpscObserved T) : Caller → Nat → Prop
  | .producer, w => s.sys.producer = .idle ∧ w = (base + s.sys.accepted.length) % 2 ^ 64
  | .consumer, w => s.sys.consumer = .idle ∧ ∃ c, w = (base + c) % 2 ^ 64 ∧
      s.sys.popped.length ≤ c ∧ c ≤ s.sys.popped.length + n
  | .observer, w => w = (base + s.pushedAtLoad) % 2 ^ 64 ∧ s.pushedAtLoad ≤ s.sys.popped.length + n

structure ObservedInv (n base : Nat) (s : SpscObserved T) : Prop where
  ring : ∃ a c, SpscSystem.Inv n base a c s.sys
  calls : ∀ who w, s.loaded who = some w → s.CallOK n base who w

/-- Two positions no further apart than n give a difference within n exactly if the read
position has not overtaken the write position. -/
theorem subWord_le_iff {n W R : Nat} (base : Nat) (hn : n < 2 ^ 64) (hW : W ≤ R + n) :
    subWord 64 ((base + W) % 2 ^ 64) ((base + R) % 2 ^ 64) ≤ n ↔
      (R - W) % 2 ^ 64 = 0 ∨ 2 ^ 64 ≤ (R - W) % 2 ^ 64 + n := by
  rcases Nat.le_total R W with hle | hle
  · obtain ⟨d, rfl⟩ := Nat.exists_eq_add_of_le hle
    rw [← Nat.add_assoc, subWord_add_mod, Nat.mod_eq_of_lt (by omega), Nat.sub_eq_zero_of_le hle]
    exact ⟨fun _ => .inl rfl, fun _ => by omega⟩
  · obtain ⟨d, rfl⟩ := Nat.exists_eq_add_of_le hle
    have hd := Nat.mod_lt d (Nat.two_pow_pos 64)
    rw [← Nat.add_assoc, subWord_mod_add, Nat.add_sub_cancel_left]
    rcases Nat.eq_zero_or_pos (d % 2 ^ 64) with h0 | h0
    · rw [h0, Nat.sub_zero, Nat.mod_self]
      exact ⟨fun _ => .inl rfl, fun _ => Nat.zero_le n⟩
    · rw [Nat.mod_eq_of_lt (by omega)]
      omega

section Steps
variable {n base pick : Nat} {s s' : SpscObserved T} {who : Caller}

private theorem ObservedInv.ring_step {act : SpscAction T} (h : ObservedInv n base s)
    (hs : s.step (.ring act) = some s') : ObservedInv n base s' ∧ s'.returned = s.returned := by
  rw [step] at hs
  split_ifs at hs with hfree
  obtain ⟨sys, hsys, rfl⟩ := Option.map_eq_some_iff.mp hs
  obtain ⟨a, c, hring⟩ := h.ring
  obtain ⟨a', c', hring'⟩ := hring.step hsys
  have hbegin : ∀ who w, s.loaded who = some w → SpscSystem.begins act ≠ some who := by
    intro who w hw hact
    rw [hact, Option.bind_some, hw] at hfree
    exact hfree rfl
  refine ⟨⟨⟨a', c', hring'⟩, fun who w hw => ?_⟩, rfl⟩
  have hcall := h.calls who w hw
  cases who with
  | producer =>
    obtain ⟨hidle, hacc⟩ := SpscSystem.step_producer_idle hcall.1 (hbegin .producer w hw) hsys
    exact ⟨hidle, by rw [hacc]; exact hcall.2⟩
  | consumer =>
    obtain ⟨hidle, hpop⟩ := SpscSystem.step_consumer_idle hcall.1 (hbegin .consumer w hw) hsys
    exact ⟨hidle, by rw [hpop]; exact hcall.2⟩
  | observer => exact ⟨hcall.1, hcall.2.trans (Nat.add_le_add_right (SpscSystem.step_popped_le hsys) n)⟩

/-- A call in flight has loaded a write position within a capacity of the pops. -/
private theorem ObservedInv.sizeLoadWrite (h : ObservedInv n base s)
    (hs : s.step (.sizeLoadWrite who pick) = some s') :
    ObservedInv n base s' ∧ s'.returned = s.returned := by
  have hfree : (s.sys.between who && (s.loaded who).isNone) = true := by
    by_contra hbusy
    rw [step, if_neg hbusy] at hs
    cases hs
  rw [step, if_pos hfree] at hs
  rw [Bool.and_eq_true] at hfree
  obtain ⟨⟨w, sys⟩, hsys, rfl⟩ := Option.map_eq_some_iff.mp hs
  obtain ⟨a, c, hring⟩ := h.ring
  have hbound := hring.window.bound
  rw [hring.capacity] at hbound
  obtain ⟨⟨c', hring'⟩, hframe, b, rfl, hlow, hhigh, hexact⟩ :=
    hring.loadWrite (fun he => SpscSystem.between_consumer (he ▸ hfree.1)) hsys
  refine ⟨⟨⟨a, c', hring'⟩, fun who' w' hw' => ?_⟩, rfl⟩
  simp only at hw' ⊢
  rw [hframe]
  by_cases he : who' = who
  · subst he
    rw [Function.update_self] at hw'
    obtain rfl := Option.some.inj hw'
    cases who' with
    | producer => exact ⟨SpscSystem.between_producer hfree.1, by rw [hexact (by decide)]⟩
    | consumer => exact ⟨SpscSystem.between_consumer hfree.1, b, rfl, hlow, hhigh.trans hbound⟩
    | observer =>
      obtain rfl := hexact (by decide)
      exact ⟨rfl, hbound⟩
  · rw [Function.update_of_ne he] at hw'
    have hcall := h.calls who' w' hw'
    cases who' with
    | producer | consumer => exact hcall
    | observer => simpa only [CallOK, if_neg (Ne.symm he)] using hcall

/-- The difference that a call returns stays within the capacity exactly if the second load
is in time. -/
private theorem ObservedInv.sizeLoadRead (h : ObservedInv n base s) (hn : n < 2 ^ 64)
    (hs : s.step (.sizeLoadRead who pick) = some s') : ObservedInv n base s' ∧
      ∃ v, s'.returned = s.returned ++ [(who, v)] ∧ (v ≤ n ↔ s.InTime n (.sizeLoadRead who pick)) := by
  obtain ⟨w, hw, hs⟩ := Option.bind_eq_some_iff.mp hs
  obtain ⟨⟨r, sys⟩, hsys, rfl⟩ := Option.map_eq_some_iff.mp hs
  obtain ⟨a, c, hring⟩ := h.ring
  have hcall := h.calls who w hw
  have hord := hring.window.ordered
  obtain ⟨⟨a', hring'⟩, hframe, b, rfl, hlow, hnear, hexact⟩ :=
    hring.loadRead (fun he => by subst he; exact hcall.1) hsys
  refine ⟨⟨⟨a', c, hring'⟩, fun who' w' hw' => ?_⟩, _, rfl, ?_⟩
  · simp only at hw' ⊢
    rw [hframe]
    by_cases he : who' = who
    · rw [he, Function.update_self] at hw'
      cases hw'
    · rw [Function.update_of_ne he] at hw'
      have hcall' := h.calls who' w' hw'
      cases who' <;> exact hcall'
  · cases who with
    | producer =>
      rw [hcall.2, subWord_le_iff base hn hnear, Nat.sub_eq_zero_of_le (hlow.trans hord)]
      exact ⟨fun _ => trivial, fun _ => .inl rfl⟩
    | consumer =>
      obtain ⟨-, c0, rfl, hc, hcn⟩ := hcall
      rw [hexact (by decide), subWord_le_iff base hn hcn, Nat.sub_eq_zero_of_le hc]
      exact ⟨fun _ => trivial, fun _ => .inl rfl⟩
    | observer =>
      rw [hcall.1, hexact (by decide), subWord_le_iff base hn hcall.2]
      rfl

/-- One step keeps the invariant, and keeps what has been returned within the capacity
exactly if it is in time. -/
theorem ObservedInv.step {act : ObservedAction T} (h : ObservedInv n base s) (hn : n < 2 ^ 64)
    (hs : s.step act = some s') : ObservedInv n base s' ∧
      ((∀ call ∈ s'.returned, call.2 ≤ n) ↔ (∀ call ∈ s.returned, call.2 ≤ n) ∧ s.InTime n act) := by
  cases act with
  | ring act =>
    obtain ⟨hinv, hret⟩ := h.ring_step hs
    exact ⟨hinv, by rw [hret]; exact (and_iff_left trivial).symm⟩
  | sizeLoadWrite who pick =>
    obtain ⟨hinv, hret⟩ := h.sizeLoadWrite hs
    exact ⟨hinv, by rw [hret]; exact (and_iff_left trivial).symm⟩
  | sizeLoadRead who pick =>
    obtain ⟨hinv, v, hret, hv⟩ := h.sizeLoadRead hn hs
    refine ⟨hinv, ?_⟩
    rw [hret, List.forall_mem_append, List.forall_mem_singleton, hv]

end Steps

theorem start_observedInv {k : Nat} (hk : k ≤ 63) (base : Nat) (storage : Nat → T) :
    ObservedInv (2 ^ k) base (start (2 ^ k) base storage) where
  ring := ⟨0, 0, SpscSystem.start_inv hk base storage⟩
  calls _ _ hw := by cases hw

/-- In every run whose second loads by the third thread are in time, whatever the three
threads are told lies within the capacity, and the next step keeps that exactly if it is in
time as well. Calls by the producer and by the consumer always are. -/
theorem size_approx_iff {k : Nat} (hk : k ≤ 63) {s : SpscObserved T}
    (h : (machine T (2 ^ k)).ReachableVia (fun s act => s.InTime (2 ^ k) act) s) :
    (∀ call ∈ s.returned, call.2 ≤ 2 ^ k) ∧
    ∀ act s', s.step act = some s' →
      ((∀ call ∈ s'.returned, call.2 ≤ 2 ^ k) ↔ s.InTime (2 ^ k) act) := by
  have hn : 2 ^ k < 2 ^ 64 := Nat.pow_lt_pow_right (by decide) (by omega)
  have hinv : ∃ base, ObservedInv (2 ^ k) base s ∧ ∀ call ∈ s.returned, call.2 ≤ 2 ^ k := by
    refine h.invariant
      (I := fun s => ∃ base, ObservedInv (2 ^ k) base s ∧ ∀ call ∈ s.returned, call.2 ≤ 2 ^ k) ?_ ?_
    · rintro s ⟨base, storage, rfl⟩
      exact ⟨base, start_observedInv hk base storage, fun call hcall => by cases hcall⟩
    · rintro s act s' hok ⟨base, hinv, hret⟩ hs
      obtain ⟨hinv', hiff⟩ := hinv.step hn hs
      exact ⟨base, hinv', hiff.mpr ⟨hret, hok⟩⟩
  obtain ⟨base, hinv, hret⟩ := hinv
  exact ⟨hret, fun act s' hs => (hinv.step hn hs).2.trans (and_iff_right hret)⟩

/-- The third thread loads the write index, one value is pushed and popped, and the read
index it then loads is ahead: a full turn less one in an empty ring. -/
theorem size_approx_underflow : ∃ s : SpscObserved Nat, (machine Nat (2 ^ 1)).Reachable s ∧
    (.observer, 2 ^ 64 - 1) ∈ s.returned ∧ s.sys.popped.length = s.sys.accepted.length ∧
    ¬ ∀ call ∈ s.returned, call.2 ≤ 2 ^ 1 := by
  have hrun : ((machine Nat (2 ^ 1)).run (start (2 ^ 1) 0 fun _ => 0)
      [.sizeLoadWrite .observer 0, .ring (.pushLoadWrite 7), .ring (.pushLoadRead 0),
        .ring .pushWriteSlot, .ring .pushStoreWrite, .ring .popLoadRead, .ring (.popLoadWrite 1),
        .ring .popReadSlot, .ring .popStoreRead, .sizeLoadRead .observer 0]).map
        (fun s => (s.returned, s.sys.popped, s.sys.accepted)) =
      some ([(.observer, 2 ^ 64 - 1)], [7], [7]) := by decide +kernel
  obtain ⟨s, hs, hends⟩ := Option.map_eq_some_iff.mp hrun
  obtain ⟨hret, hseqs⟩ := Prod.mk.inj hends
  obtain ⟨hpop, hacc⟩ := Prod.mk.inj hseqs
  refine ⟨s, Machine.ReachableVia.run (.init ⟨0, _, rfl⟩) (fun _ _ _ => trivial) hs, ?_, ?_, ?_⟩
  · rw [hret]
    exact List.mem_singleton_self _
  · rw [hpop, hacc]
  · rw [hret]
    decide

/-- A push completes between the loads of the third thread, which is told the one value that
was there at its first load. -/
theorem size_approx_iff_in_time : ∃ s : SpscObserved Nat,
    (machine Nat (2 ^ 1)).ReachableVia (fun s act => s.InTime (2 ^ 1) act) s ∧
    s.loaded .observer = some 1 ∧ ∀ s', s.step (.sizeLoadRead .observer 0) = some s' →
      ∀ call ∈ s'.returned, call.2 ≤ 2 ^ 1 := by
  have hrun : ((machine Nat (2 ^ 1)).run (start (2 ^ 1) 0 fun _ => 0)
      [.ring (.pushLoadWrite 7), .ring (.pushLoadRead 0), .ring .pushWriteSlot,
        .ring .pushStoreWrite, .sizeLoadWrite .observer 0, .ring (.pushLoadWrite 8),
        .ring (.pushLoadRead 0), .ring .pushWriteSlot, .ring .pushStoreWrite]).map
        (fun s => (s.loaded .observer, s.pushedAtLoad, s.sys.popped)) = some (some 1, 1, []) := by
    decide +kernel
  obtain ⟨s, hs, hends⟩ := Option.map_eq_some_iff.mp hrun
  obtain ⟨hload, hrest⟩ := Prod.mk.inj hends
  obtain ⟨hpushed, hpop⟩ := Prod.mk.inj hrest
  have hreach : (machine Nat (2 ^ 1)).ReachableVia (fun s act => s.InTime (2 ^ 1) act) s :=
    Machine.ReachableVia.run (.init ⟨0, _, rfl⟩)
      (fun act hact t => by fin_cases hact <;> trivial) hs
  refine ⟨s, hreach, hload, fun s' hs' => ((size_approx_iff (by decide) hreach).2 _ s' hs').mpr (.inl ?_)⟩
  rw [hpop, List.length_nil, Nat.zero_sub, Nat.zero_mod]

end SpscObserved
end ExecutionPlatform.Core
