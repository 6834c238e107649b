import ExecutionPlatform.Foundations.Words
import Mathlib.Data.List.Basic
import Mathlib.Logic.Function.Basic

/-! The single-producer single-consumer ring: its memory, and TryPush and TryPop as they
run when the other side stands still. -/
namespace ExecutionPlatform.Core
open Foundations

/-- The indices and the drop counter are 64-bit words. -/
structure SpscRing (T : Type) where
  capacity : Nat
  writeIdx : Nat
  readIdx : Nat
  droppedMessages : Nat
  storage : Nat → T

namespace SpscRing
variable {T : Type}

def new (capacity : Nat) (zero : T) : SpscRing T := ⟨capacity, 0, 0, 0, fun _ => zero⟩

def kMask (r : SpscRing T) : Nat := r.capacity - 1

/-- The slot that an index selects. -/
def slotOf (r : SpscRing T) (idx : Nat) : Nat := idx &&& r.kMask

def full (r : SpscRing T) (w rd : Nat) : Bool := r.capacity ≤ subWord 64 w rd

def drop (r : SpscRing T) : SpscRing T :=
  { r with droppedMessages := addWord 64 r.droppedMessages 1 }

def writeSlot (r : SpscRing T) (w : Nat) (value : T) : SpscRing T :=
  { r with storage := Function.update r.storage (r.slotOf w) value }

def storeWrite (r : SpscRing T) (w : Nat) : SpscRing T := { r with writeIdx := addWord 64 w 1 }

def storeRead (r : SpscRing T) (rd : Nat) : SpscRing T := { r with readIdx := addWord 64 rd 1 }

def tryPush (r : SpscRing T) (value : T) : SpscRing T × Bool :=
  let w := r.writeIdx
  let rd := r.readIdx
  if r.full w rd then (r.drop, false)
  else ((r.writeSlot w value).storeWrite w, true)

def tryPop (r : SpscRing T) : SpscRing T × Option T :=
  let rd := r.readIdx
  let w := r.writeIdx
  if rd = w then (r, none)
  else (r.storeRead rd, some (r.storage (r.slotOf rd)))

section Memory
variable (r : SpscRing T) (w : Nat) (v : T)

@[simp] theorem storeWrite_writeIdx : (r.storeWrite w).writeIdx = addWord 64 w 1 := rfl
@[simp] theorem storeWrite_droppedMessages : (r.storeWrite w).droppedMessages = r.droppedMessages := rfl
@[simp] theorem storeRead_capacity : (r.storeRead w).capacity = r.capacity := rfl
@[simp] theorem storeRead_readIdx : (r.storeRead w).readIdx = addWord 64 w 1 := rfl

end Memory

/-- The ring is a window [R, W) on an unbounded tape: the indices are the words of R and W
counted from base, and the window's slots hold the tape. -/
structure Window (r : SpscRing T) (base : Nat) (tape : List T) (R W : Nat) : Prop where
  sized : ∃ k, k ≤ 63 ∧ r.capacity = 2 ^ k
  writeIdx : r.writeIdx = (base + W) % 2 ^ 64
  readIdx : r.readIdx = (base + R) % 2 ^ 64
  ordered : R ≤ W
  bound : W ≤ R + r.capacity
  length : W = tape.length
  slots : ∀ i, R ≤ i → i < W → ∀ v ∈ tape[i]?, r.storage (r.slotOf ((base + i) % 2 ^ 64)) = v

namespace Window
variable {r : SpscRing T} {base R W : Nat} {tape : List T}

theorem capacity_lt (h : r.Window base tape R W) : r.capacity < 2 ^ 64 := by
  obtain ⟨k, hk, hc⟩ := h.sized
  rw [hc]
  exact Nat.pow_lt_pow_right (by decide) (by omega)

/-- A read index that the writer's has not left behind measures the distance exactly. -/
theorem full_iff (h : r.Window base tape R W) {a : Nat} (ha : a ≤ W) (hb : W ≤ a + r.capacity) :
    r.full ((base + W) % 2 ^ 64) ((base + a) % 2 ^ 64) = true ↔ W = a + r.capacity := by
  have hcap := h.capacity_lt
  obtain ⟨d, rfl⟩ := Nat.exists_eq_add_of_le ha
  rw [full, ← Nat.add_assoc, subWord_add_mod, Nat.mod_eq_of_lt (by omega), decide_eq_true_eq]
  omega

/-- Two indices that are no further apart than the capacity agree only if they are one. -/
theorem word_eq_iff (h : r.Window base tape R W) {c : Nat} (hc : R ≤ c) (hb : c ≤ R + r.capacity) :
    (base + R) % 2 ^ 64 = (base + c) % 2 ^ 64 ↔ c = R := by
  have hcap := h.capacity_lt
  constructor
  · intro he
    have hd := subWord_add_mod 64 (base + R) (c - R)
    rw [Nat.add_assoc, Nat.add_sub_cancel' hc, ← he, ← Nat.add_zero (base + R)] at hd
    rw [Nat.add_zero, Nat.mod_eq_of_lt (show c - R < 2 ^ 64 by omega)] at hd
    have h0 := subWord_add_mod 64 (base + R) 0
    rw [Nat.add_zero] at h0
    omega
  · rintro rfl
    rfl

/-- The slots of a window never alias. -/
theorem slotOf_ne (h : r.Window base tape R W) {i j : Nat} (hij : i < j) (hj : j < i + r.capacity) :
    r.slotOf ((base + i) % 2 ^ 64) ≠ r.slotOf ((base + j) % 2 ^ 64) := by
  obtain ⟨k, hk, hc⟩ := h.sized
  rw [hc] at hj
  rw [slotOf, slotOf, kMask, hc]
  exact word_and_mask_ne (by omega) base hij hj

theorem drop (h : r.Window base tape R W) : r.drop.Window base tape R W :=
  ⟨h.sized, h.writeIdx, h.readIdx, h.ordered, h.bound, h.length, h.slots⟩

/-- A write beyond the window leaves the window alone. -/
theorem writeSlot (h : r.Window base tape R W) (hroom : W < R + r.capacity) (v : T) :
    (r.writeSlot ((base + W) % 2 ^ 64) v).Window base tape R W := by
  refine ⟨h.sized, h.writeIdx, h.readIdx, h.ordered, h.bound, h.length, fun i hR hW x hx => ?_⟩
  have hne : r.slotOf ((base + i) % 2 ^ 64) ≠ r.slotOf ((base + W) % 2 ^ 64) :=
    h.slotOf_ne hW (by omega)
  rw [SpscRing.writeSlot]
  exact (Function.update_of_ne hne ..).trans (h.slots i hR hW x hx)

/-- Publishing the slot that was written extends the tape. -/
theorem storeWrite (h : r.Window base tape R W) (hroom : W < R + r.capacity) {v : T}
    (hv : r.storage (r.slotOf ((base + W) % 2 ^ 64)) = v) :
    (r.storeWrite ((base + W) % 2 ^ 64)).Window base (tape ++ [v]) R (W + 1) := by
  refine ⟨h.sized, ?_, h.readIdx, Nat.le_succ_of_le h.ordered, hroom, ?_, fun i hR hW x hx => ?_⟩
  · rw [storeWrite_writeIdx, addWord_mod, Nat.add_assoc]
  · rw [List.length_append, List.length_singleton, h.length]
  · rcases Nat.lt_succ_iff_lt_or_eq.mp hW with hW | rfl
    · rw [List.getElem?_append_left (h.length ▸ hW)] at hx
      exact h.slots i hR hW x hx
    · rw [h.length, List.getElem?_concat_length] at hx
      obtain rfl := Option.mem_some_iff.mp hx
      exact hv

/-- Releasing the oldest slot shrinks the window. -/
theorem storeRead (h : r.Window base tape R W) (hne : R < W) :
    (r.storeRead ((base + R) % 2 ^ 64)).Window base tape (R + 1) W := by
  have hb := h.bound
  refine ⟨h.sized, h.writeIdx, ?_, hne, ?_, h.length, fun i hR hW => h.slots i (by omega) hW⟩
  · rw [storeRead_readIdx, addWord_mod, Nat.add_assoc]
  · rw [storeRead_capacity]
    omega

theorem tryPush_room (h : r.Window base tape R W) (hroom : W < R + r.capacity) (v : T) :
    ∃ r', r.tryPush v = (r', true) ∧ r'.Window base (tape ++ [v]) R (W + 1) ∧
      r'.capacity = r.capacity ∧ r'.droppedMessages = r.droppedMessages := by
  have hnot : ¬ r.full r.writeIdx r.readIdx = true := by
    rw [h.writeIdx, h.readIdx, h.full_iff h.ordered h.bound]
    omega
  have hpub := (h.writeSlot hroom v).storeWrite hroom (Function.update_self ..)
  rw [← h.writeIdx] at hpub
  exact ⟨_, by rw [tryPush, if_neg hnot], hpub, rfl, rfl⟩

theorem tryPush_full (h : r.Window base tape R W) (hfull : W = R + r.capacity) (v : T) :
    r.tryPush v = (r.drop, false) := by
  rw [tryPush, if_pos]
  rw [h.writeIdx, h.readIdx, h.full_iff h.ordered h.bound]
  exact hfull

theorem tryPop_some (h : r.Window base tape R W) (hne : R < W) :
    ∃ r' v, r.tryPop = (r', some v) ∧ v ∈ tape[R]? ∧ r'.Window base tape (R + 1) W ∧
      r'.capacity = r.capacity ∧ r'.droppedMessages = r.droppedMessages := by
  have hnot : r.readIdx ≠ r.writeIdx := by
    rw [h.readIdx, h.writeIdx, Ne, h.word_eq_iff h.ordered h.bound]
    omega
  obtain ⟨v, hv⟩ : ∃ v, tape[R]? = some v := ⟨_, List.getElem?_eq_getElem (h.length ▸ hne)⟩
  have hpop := h.storeRead hne
  rw [← h.readIdx] at hpop
  refine ⟨_, v, ?_, hv, hpop, rfl, rfl⟩
  rw [tryPop, if_neg hnot, h.readIdx, h.slots R le_rfl hne v hv]

theorem tryPop_none (h : r.Window base tape W W) : r.tryPop = (r, none) := by
  rw [tryPop, if_pos]
  rw [h.readIdx, h.writeIdx]

end Window

theorem new_window {k : Nat} (hk : k ≤ 63) (zero : T) : (new (2 ^ k) zero).Window 0 [] 0 0 :=
  ⟨⟨k, hk, rfl⟩, rfl, rfl, le_rfl, Nat.zero_le _, rfl, fun _ _ hi => absurd hi (Nat.not_lt_zero _)⟩

end SpscRing
end ExecutionPlatform.Core
