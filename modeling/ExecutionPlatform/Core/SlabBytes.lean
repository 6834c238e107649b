import ExecutionPlatform.Core.SlabSessions
import ExecutionPlatform.Foundations.ByteMemory

/-! The allocator as it lies in memory: slots are cache lines of one buffer, pointers are
addresses, and the first word of a free slot is its link. It refines the allocator of slots. -/
namespace ExecutionPlatform.Core
open Foundations

def kCacheLine : Nat := 64

/-- The size of an object rounded up to whole cache lines. -/
def kSlotSize (sizeofT : Nat) : Nat := addWord 64 sizeofT (kCacheLine - 1) &&& (2 ^ 64 - kCacheLine)

/-- The null pointer is the address 0. A pointer takes eight bytes. -/
structure ByteSlab where
  sizeofT : Nat
  capacity : Nat
  storage : Nat
  freeHead : Nat
  inUse : Nat
  memory : ByteMemory

namespace ByteSlab

def slotAt (s : ByteSlab) (i : Nat) : Nat := s.storage + mulWord 64 i (kSlotSize s.sizeofT)

def threadSlot (s : ByteSlab) (i : Nat) : ByteSlab :=
  { s with memory := s.memory.store 8 (s.slotAt i) s.freeHead, freeHead := s.slotAt i }

/-- The constructor, given the buffer that operator new[] returned. -/
def new (sizeofT capacity buffer : Nat) (memory : ByteMemory) : ByteSlab :=
  (List.range capacity).foldl threadSlot
    ⟨sizeofT, capacity, if capacity = 0 then 0 else buffer, 0, 0, memory⟩

def allocate (s : ByteSlab) : Nat × ByteSlab :=
  if s.freeHead = 0 then (0, s)
  else (s.freeHead, { s with freeHead := s.memory.load 8 s.freeHead, inUse := addWord 64 s.inUse 1 })

def owns (s : ByteSlab) (p : Nat) : Bool :=
  if p = 0 ∨ s.storage = 0 then false
  else if p < s.storage ∨ s.storage + mulWord 64 s.capacity (kSlotSize s.sizeofT) ≤ p then false
  else decide ((p - s.storage) % kSlotSize s.sizeofT = 0)

/-- A failing assert is a fault. -/
def deallocate (s : ByteSlab) (p : Nat) : Option ByteSlab :=
  if p ≠ 0 ∧ s.owns p = true ∧ 0 < s.inUse then
    some { s with memory := s.memory.store 8 p s.freeHead,
                  freeHead := p,
                  inUse := subWord 64 s.inUse 1 }
  else none

/-- The client writes over a whole slot. -/
def write (s : ByteSlab) (p : Nat) (bytes : Nat → BitVec 8) : ByteSlab :=
  { s with memory := s.memory.fill (kSlotSize s.sizeofT) p bytes }

/-- The buffer is as large as its slots. The product in operator new[] is a word, so this asks
that it does not wrap. -/
structure Fits (s : ByteSlab) : Prop where
  size_pos : 0 < s.sizeofT
  size : s.sizeofT + kCacheLine ≤ 2 ^ 64
  buffer : s.capacity ≠ 0 → 0 < s.storage
  bound : s.storage + s.capacity * kSlotSize s.sizeofT ≤ 2 ^ 64

end ByteSlab

/-- The slot is the least number of whole cache lines that holds the object. -/
theorem kSlotSize_spec {sizeofT : Nat} (h : sizeofT + kCacheLine ≤ 2 ^ 64) :
    kSlotSize sizeofT % kCacheLine = 0 ∧ sizeofT ≤ kSlotSize sizeofT ∧
      kSlotSize sizeofT < sizeofT + kCacheLine := by
  have hmask : 2 ^ 64 - kCacheLine = 2 ^ 64 - 2 ^ 6 := rfl
  rw [kCacheLine] at h ⊢
  rw [kSlotSize, hmask, kCacheLine, addWord_of_lt (by omega), word_and_not_mask (by decide) (by omega)]
  omega

example : kSlotSize 24 = 64 ∧ kSlotSize 64 = 64 ∧ kSlotSize 65 = 128 := by decide

namespace ByteSlab
variable {s : ByteSlab} {i j : Nat}

namespace Fits

theorem reload (h : s.Fits) (freeHead inUse : Nat) (memory : ByteMemory) :
    Fits ⟨s.sizeofT, s.capacity, s.storage, freeHead, inUse, memory⟩ :=
  ⟨h.size_pos, h.size, h.buffer, h.bound⟩

theorem slot_pos (h : s.Fits) : kCacheLine ≤ kSlotSize s.sizeofT := by
  obtain ⟨hlines, hle, -⟩ := kSlotSize_spec h.size
  have hpos := h.size_pos
  rw [kCacheLine] at *
  omega

theorem slot_le (hi : i < s.capacity) :
    i * kSlotSize s.sizeofT + kSlotSize s.sizeofT ≤ s.capacity * kSlotSize s.sizeofT := by
  rw [← Nat.succ_mul]
  exact Nat.mul_le_mul_right _ hi

/-- The slots lie one after the other. -/
theorem slotAt_eq (h : s.Fits) (hi : i < s.capacity) :
    s.slotAt i = s.storage + i * kSlotSize s.sizeofT := by
  have hbuffer := h.buffer (Nat.ne_zero_of_lt hi)
  have hbound := h.bound
  have hle := slot_le hi
  have hpos := h.slot_pos
  rw [kCacheLine] at hpos
  rw [slotAt, mulWord_of_lt (by omega)]

theorem slotAt_pos (h : s.Fits) (hi : i < s.capacity) : 0 < s.slotAt i := by
  rw [h.slotAt_eq hi]
  exact Nat.add_pos_left (h.buffer (Nat.ne_zero_of_lt hi)) _

theorem slotAt_lt (h : s.Fits) (hi : i < s.capacity) : s.slotAt i < 2 ^ 64 := by
  have hbound := h.bound
  have hle := slot_le hi
  have hpos := h.slot_pos
  rw [kCacheLine] at hpos
  rw [h.slotAt_eq hi]
  omega

theorem slotAt_apart_of_lt (h : s.Fits) (hij : i < j) (hj : j < s.capacity) :
    s.slotAt i + kSlotSize s.sizeofT ≤ s.slotAt j := by
  rw [h.slotAt_eq hj, h.slotAt_eq (hij.trans hj), Nat.add_assoc, ← Nat.succ_mul]
  exact Nat.add_le_add_left (Nat.mul_le_mul_right _ hij) _

/-- Two slots share no byte. -/
theorem slotAt_apart (h : s.Fits) (hi : i < s.capacity) (hj : j < s.capacity) (hij : i ≠ j) :
    s.slotAt i + kSlotSize s.sizeofT ≤ s.slotAt j ∨
      s.slotAt j + kSlotSize s.sizeofT ≤ s.slotAt i := by
  rcases Nat.lt_or_gt_of_ne hij with hlt | hlt
  · exact .inl (h.slotAt_apart_of_lt hlt hj)
  · exact .inr (h.slotAt_apart_of_lt hlt hi)

/-- The link of one slot is not where another slot is. -/
theorem link_apart (h : s.Fits) (hi : i < s.capacity) (hj : j < s.capacity) (hji : j ≠ i) :
    s.slotAt j + 8 ≤ s.slotAt i ∨ s.slotAt i + kSlotSize s.sizeofT ≤ s.slotAt j := by
  have hpos := h.slot_pos
  rw [kCacheLine] at hpos
  rcases h.slotAt_apart hi hj hji.symm with hle | hle
  · exact .inr hle
  · exact .inl (by omega)

theorem slotAt_inj (h : s.Fits) (hi : i < s.capacity) (hj : j < s.capacity)
    (he : s.slotAt i = s.slotAt j) : i = j := by
  by_contra hij
  have hpos := h.slot_pos
  rw [kCacheLine] at hpos
  rcases h.slotAt_apart hi hj hij with hle | hle <;> omega

/-- Owns accepts the addresses of the slots and nothing else. -/
theorem owns_iff (h : s.Fits) {p : Nat} : s.owns p = true ↔ ∃ i < s.capacity, p = s.slotAt i := by
  have hpos := h.slot_pos
  have hbound := h.bound
  rw [kCacheLine] at hpos
  constructor
  · intro howns
    rw [owns] at howns
    split_ifs at howns with hnull hout
    obtain ⟨-, hstorage⟩ := not_or.mp hnull
    rw [mulWord_of_lt (by omega)] at hout
    obtain ⟨hlow, hhigh⟩ := not_or.mp hout
    have hoffset : (p - s.storage) / kSlotSize s.sizeofT * kSlotSize s.sizeofT = p - s.storage :=
      Nat.div_mul_cancel (Nat.dvd_of_mod_eq_zero (of_decide_eq_true howns))
    have hi : (p - s.storage) / kSlotSize s.sizeofT < s.capacity :=
      Nat.div_lt_of_lt_mul (by rw [Nat.mul_comm]; omega)
    refine ⟨_, hi, ?_⟩
    rw [h.slotAt_eq hi, hoffset]
    omega
  · rintro ⟨i, hi, rfl⟩
    have hbuffer := h.buffer (Nat.ne_zero_of_lt hi)
    have hle := slot_le hi
    have hne := (h.slotAt_pos hi).ne'
    rw [owns, mulWord_of_lt (by omega), if_neg (not_or.mpr ⟨hne, hbuffer.ne'⟩), h.slotAt_eq hi,
      if_neg (by omega), Nat.add_sub_cancel_left, Nat.mul_mod_left]
    rfl

/-- In a buffer that is aligned every slot is, so no two slots share a cache line. -/
theorem slotAt_aligned (h : s.Fits) (haligned : s.storage % kCacheLine = 0) (hi : i < s.capacity) :
    s.slotAt i % kCacheLine = 0 := by
  obtain ⟨hlines, -, -⟩ := kSlotSize_spec h.size
  rw [h.slotAt_eq hi]
  exact Nat.mod_eq_zero_of_dvd (Nat.dvd_add (Nat.dvd_of_mod_eq_zero haligned)
    (Nat.dvd_mul_left_of_dvd (Nat.dvd_of_mod_eq_zero hlines) i))

end Fits

/-- The address that stands for a pointer. -/
def address (s : ByteSlab) : Ptr → Nat
  | none => 0
  | some i => s.slotAt i

/-- Addresses depend on the buffer and the slot size only. -/
theorem slotAt_with (s : ByteSlab) (capacity freeHead inUse : Nat) (memory : ByteMemory) :
    (⟨s.sizeofT, capacity, s.storage, freeHead, inUse, memory⟩ : ByteSlab).slotAt = s.slotAt := rfl

theorem address_with (s : ByteSlab) (capacity freeHead inUse : Nat) (memory : ByteMemory) (p : Ptr) :
    (⟨s.sizeofT, capacity, s.storage, freeHead, inUse, memory⟩ : ByteSlab).address p = s.address p := by
  cases p <;> rfl

end ByteSlab

/-- Of a free slot only the link matters. -/
instance : SlotStorage Ptr where
  link p := p
  setLink _ p := p
  link_setLink _ _ := rfl

/-- The memory of b lays out the slab s: in each free slot stands the address of the next. Of
the bytes of a live slot nothing is said. -/
structure LaysOut (b : ByteSlab) (s : SlabAllocator Ptr) (free : Nat → Prop) : Prop where
  fits : b.Fits
  capacity : s.capacity = b.capacity
  inUse : b.inUse = s.inUse
  head_lt : ∀ i, s.freeHead = some i → i < b.capacity
  head : b.freeHead = b.address s.freeHead
  links : ∀ i, i < b.capacity → free i → b.memory.load 8 (b.slotAt i) = b.address (s.storage i)

namespace LaysOut
variable {b : ByteSlab} {s : SlabAllocator Ptr} {free : Nat → Prop} {i : Nat}

theorem head_word (h : LaysOut b s free) : b.freeHead < 256 ^ 8 := by
  rw [h.head]
  cases hhead : s.freeHead with
  | none => exact Nat.pow_pos (by decide)
  | some i => exact h.fits.slotAt_lt (h.head_lt i hhead)

/-- Pushing a slot: the constructor's loop and Deallocate do this. -/
theorem push (h : LaysOut b s free) (hi : i < b.capacity) :
    LaysOut { b with memory := b.memory.store 8 (b.slotAt i) b.freeHead, freeHead := b.slotAt i }
      { s with storage := Function.update s.storage i s.freeHead, freeHead := some i }
      fun j => free j ∨ j = i where
  fits := h.fits.reload ..
  capacity := h.capacity
  inUse := h.inUse
  head_lt j hj := by
    obtain rfl := Option.some.inj hj
    exact hi
  head := rfl
  links j hj hfree := by
    change (b.memory.store 8 (b.slotAt i) b.freeHead).load 8 (b.slotAt j) =
      b.address (Function.update s.storage i s.freeHead j)
    by_cases hji : j = i
    · rw [hji, Function.update_self, ByteMemory.load_store_of_lt h.head_word, h.head]
    · have hpos := h.fits.slot_pos
      rw [kCacheLine] at hpos
      have hapart := h.fits.link_apart hi hj hji
      rw [Function.update_of_ne hji, ByteMemory.load_store_apart (by omega)]
      exact h.links j hj (hfree.resolve_right hji)

theorem foldl_threadSlot {l : List Nat} (h : LaysOut b s free) (hl : ∀ i ∈ l, i < b.capacity) :
    LaysOut (l.foldl ByteSlab.threadSlot b) (l.foldl SlabAllocator.threadSlot s)
      fun i => free i ∨ i ∈ l := by
  induction l generalizing b s free with
  | nil => exact { h with links := fun i hi hfree => h.links i hi (hfree.resolve_right List.not_mem_nil) }
  | cons i l ih =>
    have hrest := ih (h.push (hl i List.mem_cons_self)) fun j hj => hl j (List.mem_cons_of_mem i hj)
    refine { hrest with links := fun j hj hfree => hrest.links j hj ?_ }
    rw [List.mem_cons, ← or_assoc] at hfree
    exact hfree

end LaysOut

/-- What the constructor is given: an object type, and a buffer as large as its slots. -/
structure SlabBuffer (sizeofT capacity buffer : Nat) : Prop where
  size_pos : 0 < sizeofT
  size : sizeofT + kCacheLine ≤ 2 ^ 64
  start : capacity ≠ 0 → 0 < buffer
  bound : capacity ≠ 0 → buffer + capacity * kSlotSize sizeofT ≤ 2 ^ 64

theorem SlabBuffer.capacity_lt {sizeofT capacity buffer : Nat} (h : SlabBuffer sizeofT capacity buffer) :
    capacity < 2 ^ 64 := by
  by_cases hcap : capacity = 0
  · rw [hcap]
    exact Nat.two_pow_pos 64
  have hstart := h.start hcap
  have hbound := h.bound hcap
  have hsize := h.size_pos.trans_le (kSlotSize_spec h.size).2.1
  have hle := Nat.le_mul_of_pos_right capacity hsize
  omega

theorem new_laysOut {sizeofT capacity buffer : Nat} (h : SlabBuffer sizeofT capacity buffer)
    (memory : ByteMemory) (raw : Nat → Ptr) (checked : Bool) :
    LaysOut (.new sizeofT capacity buffer memory) (.new raw capacity checked) fun _ => True := by
  have hfits : ByteSlab.Fits ⟨sizeofT, capacity, if capacity = 0 then 0 else buffer, 0, 0, memory⟩ := by
    refine ⟨h.size_pos, h.size, fun hcap => ?_, ?_⟩
    · rw [if_neg hcap]
      exact h.start hcap
    · by_cases hcap : capacity = 0
      · simp only [hcap, if_true, Nat.zero_mul, Nat.zero_add, Nat.zero_le]
      · simp only [if_neg hcap]
        exact h.bound hcap
  have hbare : LaysOut ⟨sizeofT, capacity, if capacity = 0 then 0 else buffer, 0, 0, memory⟩
      ⟨capacity, raw, none, 0, fun _ => false, checked⟩ fun _ => False :=
    ⟨hfits, rfl, rfl, fun i hi => (by cases hi), rfl, fun _ _ hfree => hfree.elim⟩
  have hloop := hbare.foldl_threadSlot (l := List.range capacity) fun i hi => List.mem_range.mp hi
  have hcapacity : (ByteSlab.new sizeofT capacity buffer memory).capacity = capacity :=
    hloop.capacity.symm.trans (SlabAllocator.new_capacity raw capacity checked)
  refine { hloop with links := fun i hi _ => ?_ }
  exact hloop.links i hi (.inr (List.mem_range.mpr (hi.trans_eq hcapacity)))

/-- The live pointers are addresses here. -/
structure ByteSession where
  slab : ByteSlab
  live : List Nat

def ByteSession.step (s : ByteSession) : SlabCall (Nat → BitVec 8) → Option ByteSession
  | .allocate =>
    let (p, slab) := s.slab.allocate
    some ⟨slab, if p = 0 then s.live else s.live ++ [p]⟩
  | .deallocate p => do
    let slab ← s.slab.deallocate p
    pure ⟨slab, s.live.erase p⟩
  | .write p bytes => some ⟨s.slab.write p bytes, s.live⟩

/-- The sessions over a buffer, whatever its bytes are at first. -/
def byteSessions (sizeofT capacity buffer : Nat) : Machine ByteSession (SlabCall (Nat → BitVec 8)) where
  init s := ∃ memory, s = ⟨.new sizeofT capacity buffer memory, []⟩
  step := ByteSession.step

/-- The session b in memory is the session s over slots. -/
structure ByteSession.Refines (b : ByteSession) (s : SlabSession Ptr) : Prop where
  slab : LaysOut b.slab s.slab fun i => i ∉ s.live
  holds : s.slab.Holds s.live
  live : b.live = s.live.map b.slab.slotAt

namespace ByteSession.Refines
variable {b : ByteSession} {s : SlabSession Ptr}

theorem lt_capacity (h : b.Refines s) {i : Nat} (hi : i ∈ s.live) : i < b.slab.capacity :=
  h.slab.capacity ▸ h.holds.lt_capacity hi

/-- Allocate pops the same slot. -/
theorem allocate (h : b.Refines s) :
    ∃ b' s', b.step .allocate = some b' ∧ s.step .allocate = some s' ∧ b'.Refines s' := by
  cases hhead : s.slab.freeHead with
  | none =>
    have hnull : b.slab.freeHead = 0 := by
      rw [h.slab.head, hhead]
      rfl
    refine ⟨b, s, ?_, ?_, h⟩
    · simp only [step, ByteSlab.allocate, hnull, if_true]
    · rw [SlabSession.step, SlabAllocator.allocate, hhead]
  | some i =>
    have hpop : s.step .allocate = some ⟨{ s.slab with
        freeHead := s.slab.storage i, inUse := addWord 64 s.slab.inUse 1,
        allocated := Function.update s.slab.allocated i true }, s.live ++ [i]⟩ := by
      rw [SlabSession.step, SlabAllocator.allocate, hhead]
      rfl
    have hcall : (SlabCall.allocate : SlabCall Ptr).Permitted s.live := trivial
    obtain ⟨s', hs, hholds, -⟩ := SlabSession.step_holds h.holds hcall
    obtain rfl := Option.some.inj (hpop.symm.trans hs)
    obtain ⟨-, hfresh⟩ := h.holds.head_free hhead
    have hi := h.slab.head_lt i hhead
    have haddr : b.slab.freeHead = b.slab.slotAt i := by
      rw [h.slab.head, hhead]
      rfl
    have hne := (h.slab.fits.slotAt_pos hi).ne'
    refine ⟨⟨{ b.slab with
        freeHead := b.slab.memory.load 8 (b.slab.slotAt i), inUse := addWord 64 b.slab.inUse 1 },
      b.live ++ [b.slab.slotAt i]⟩, _, ?_, hpop, ⟨⟨h.slab.fits.reload .., h.slab.capacity, ?_, ?_, ?_, ?_⟩,
      hholds, ?_⟩⟩
    · simp only [step, ByteSlab.allocate, haddr, hne, if_false]
    · exact congrArg (addWord 64 · 1) h.slab.inUse
    · intro j hj
      exact h.slab.capacity ▸ (hholds.head_free hj).1
    · simp only [ByteSlab.address_with]
      exact h.slab.links i hi hfresh
    · intro j hj hfree
      simp only [ByteSlab.address_with, ByteSlab.slotAt_with]
      exact h.slab.links j hj fun hlive => hfree (List.mem_append_left _ hlive)
    · simp only [ByteSlab.slotAt_with, h.live, List.map_append, List.map_singleton]

/-- Deallocate pushes the same slot, and its asserts hold. -/
theorem deallocate (h : b.Refines s) {p : Nat} (hp : p ∈ b.live) :
    ∃ i ∈ s.live, ∃ b' s', b.step (.deallocate p) = some b' ∧ s.step (.deallocate i) = some s' ∧
      b'.Refines s' := by
  rw [h.live] at hp
  obtain ⟨i, hlive, rfl⟩ := List.mem_map.mp hp
  have hi := h.lt_capacity hlive
  have hcount : 0 < b.slab.inUse := by
    rw [h.slab.inUse, h.holds.inUse]
    exact List.length_pos_of_mem hlive
  have hfreed : s.step (.deallocate i) = some ⟨{ s.slab with
      storage := Function.update s.slab.storage i s.slab.freeHead,
      freeHead := some i, inUse := subWord 64 s.slab.inUse 1,
      allocated := Function.update s.slab.allocated i false }, s.live.erase i⟩ := by
    rw [SlabSession.step, SlabAllocator.deallocate, if_pos (h.holds.accessible hlive)]
    rfl
  have hcall : (SlabCall.deallocate i : SlabCall Ptr).Permitted s.live := hlive
  obtain ⟨s', hs, hholds, -⟩ := SlabSession.step_holds h.holds hcall
  obtain rfl := Option.some.inj (hfreed.symm.trans hs)
  have hpush := h.slab.push hi
  have hasserts : b.slab.slotAt i ≠ 0 ∧ b.slab.owns (b.slab.slotAt i) = true ∧ 0 < b.slab.inUse :=
    ⟨(h.slab.fits.slotAt_pos hi).ne', h.slab.fits.owns_iff.mpr ⟨i, hi, rfl⟩, hcount⟩
  refine ⟨i, hlive, ⟨{ b.slab with
      memory := b.slab.memory.store 8 (b.slab.slotAt i) b.slab.freeHead,
      freeHead := b.slab.slotAt i, inUse := subWord 64 b.slab.inUse 1 },
    b.live.erase (b.slab.slotAt i)⟩, _, ?_, hfreed,
    ⟨⟨h.slab.fits.reload .., h.slab.capacity, ?_, hpush.head_lt, ?_, ?_⟩, hholds, ?_⟩⟩
  · rw [ByteSession.step, ByteSlab.deallocate, if_pos hasserts, Option.bind_eq_bind, Option.bind_some,
      Option.pure_def]
  · exact congrArg (subWord 64 · 1) h.slab.inUse
  · simp only [ByteSlab.address_with]
    rfl
  · intro j hj hfree
    have hlinks := hpush.links j hj
    simp only [ByteSlab.address_with, ByteSlab.slotAt_with] at hlinks ⊢
    refine hlinks ?_
    by_cases hji : j = i
    · exact .inr hji
    · exact .inl fun hlive => hfree ((List.mem_erase_of_ne hji).mpr hlive)
  · obtain ⟨l, r, hil, hsplit, herase⟩ := List.exists_erase_eq hlive
    have hnot : b.slab.slotAt i ∉ l.map b.slab.slotAt := by
      intro hmem
      obtain ⟨j, hj, he⟩ := List.mem_map.mp hmem
      have hjlive : j ∈ s.live := hsplit ▸ List.mem_append_left _ hj
      exact hil (h.slab.fits.slotAt_inj (h.lt_capacity hjlive) hi he ▸ hj)
    simp only [ByteSlab.slotAt_with]
    rw [h.live, herase, hsplit, List.map_append, List.map_cons, List.erase_append_right _ hnot,
      List.erase_cons_head, List.map_append]

/-- A write reaches no free slot. -/
theorem write (h : b.Refines s) {p : Nat} (hp : p ∈ b.live) (bytes : Nat → BitVec 8) :
    ∃ i ∈ s.live, ∃ b' s', b.step (.write p bytes) = some b' ∧ s.step (.write i none) = some s' ∧
      b'.Refines s' := by
  rw [h.live] at hp
  obtain ⟨i, hlive, rfl⟩ := List.mem_map.mp hp
  have hi := h.lt_capacity hlive
  have hstored : s.step (.write i none) = some ⟨{ s.slab with
      storage := Function.update s.slab.storage i none }, s.live⟩ := by
    rw [SlabSession.step, SlabAllocator.store_live h.holds hlive]
    rfl
  have hcall : (SlabCall.write i none : SlabCall Ptr).Permitted s.live := hlive
  obtain ⟨s', hs, hholds, -⟩ := SlabSession.step_holds h.holds hcall
  obtain rfl := Option.some.inj (hstored.symm.trans hs)
  refine ⟨i, hlive, ⟨b.slab.write (b.slab.slotAt i) bytes, b.live⟩, _, rfl, hstored,
    ⟨⟨h.slab.fits.reload .., h.slab.capacity, h.slab.inUse, h.slab.head_lt, ?_, ?_⟩, hholds, ?_⟩⟩
  · simp only [ByteSlab.write, ByteSlab.address_with]
    exact h.slab.head
  · intro j hj hfree
    have hji : j ≠ i := fun he => hfree (he ▸ hlive)
    simp only [ByteSlab.write, ByteSlab.address_with, ByteSlab.slotAt_with]
    rw [Function.update_of_ne hji, ByteMemory.load_fill_apart (h.slab.fits.link_apart hi hj hji)]
    exact h.slab.links j hj hfree
  · simp only [ByteSlab.write, ByteSlab.slotAt_with]
    exact h.live

/-- Every permitted call of a session in memory is one of the session over slots. -/
theorem step (h : b.Refines s) {call : SlabCall (Nat → BitVec 8)} (hcall : call.Permitted b.live) :
    ∃ b' s' call', b.step call = some b' ∧ call'.Permitted s.live ∧ s.step call' = some s' ∧
      b'.Refines s' := by
  cases call with
  | allocate =>
    obtain ⟨b', s', hb, hs, h'⟩ := h.allocate
    exact ⟨b', s', .allocate, hb, trivial, hs, h'⟩
  | deallocate p =>
    obtain ⟨i, hi, b', s', hb, hs, h'⟩ := h.deallocate hcall
    exact ⟨b', s', .deallocate i, hb, hi, hs, h'⟩
  | write p bytes =>
    obtain ⟨i, hi, b', s', hb, hs, h'⟩ := h.write hcall bytes
    exact ⟨b', s', .write i none, hb, hi, hs, h'⟩

end ByteSession.Refines

namespace ByteSession
variable {sizeofT capacity buffer : Nat} {b : ByteSession}

/-- Every session in memory refines one over slots. -/
theorem reachable_refines (hbuffer : SlabBuffer sizeofT capacity buffer) (raw : Nat → Ptr) (checked : Bool)
    (h : (byteSessions sizeofT capacity buffer).ReachableVia (fun b call => call.Permitted b.live) b) :
    ∃ s, (slabSessions raw capacity checked).ReachableVia (fun s call => call.Permitted s.live) s ∧
      b.Refines s := by
  induction h with
  | init hinit =>
    obtain ⟨memory, rfl⟩ := hinit
    have hslab := new_laysOut hbuffer memory raw checked
    exact ⟨_, .init rfl, { hslab with links := fun i hi _ => hslab.links i hi trivial },
      SlabAllocator.new_holds raw capacity checked hbuffer.capacity_lt, rfl⟩
  | step _ hcall hstep ih =>
    obtain ⟨s, hreach, hrefines⟩ := ih
    obtain ⟨b', s', call', hb, hcall', hs, hrefines'⟩ := hrefines.step hcall
    obtain rfl := Option.some.inj (hb.symm.trans hstep)
    exact ⟨s', hreach.step hcall' hs, hrefines'⟩

end ByteSession

/-- An address as a pointer. -/
def toPtr (p : Nat) : Option Nat := if p = 0 then none else some p

namespace ByteSession.Refines
variable {b : ByteSession} {s : SlabSession Ptr}

theorem toPtr_address (h : b.Refines s) {p : Ptr} (hp : ∀ i, p = some i → i < b.slab.capacity) :
    toPtr (b.slab.address p) = p.map b.slab.slotAt := by
  cases p with
  | none => rfl
  | some i => exact if_neg (h.slab.fits.slotAt_pos (hp i rfl)).ne'

/-- The slots that are not live, by their addresses. -/
theorem owns_and_not_live_iff (h : b.Refines s) {a : Nat} :
    b.slab.owns a = true ∧ a ∉ b.live ↔ ∃ i, (i < b.slab.capacity ∧ i ∉ s.live) ∧ b.slab.slotAt i = a := by
  rw [h.slab.fits.owns_iff, h.live]
  constructor
  · rintro ⟨⟨i, hi, rfl⟩, hlive⟩
    exact ⟨i, ⟨hi, fun hmem => hlive (List.mem_map_of_mem hmem)⟩, rfl⟩
  · rintro ⟨i, ⟨hi, hlive⟩, rfl⟩
    refine ⟨⟨i, hi, rfl⟩, fun hmem => ?_⟩
    obtain ⟨j, hj, he⟩ := List.mem_map.mp hmem
    exact hlive (h.slab.fits.slotAt_inj (h.lt_capacity hj) hi he ▸ hj)

/-- The chain of addresses is the chain of slots. -/
theorem chain (h : b.Refines s) : ∃ chain,
    Chained (fun a => toPtr (b.slab.memory.load 8 a)) (toPtr b.slab.freeHead) chain ∧ chain.Nodup ∧
      ∀ a, a ∈ chain ↔ b.slab.owns a = true ∧ a ∉ b.live := by
  obtain ⟨chain, hc, hnodup, hfree⟩ := h.holds.chain
  rw [h.slab.capacity] at hfree
  refine ⟨chain.map b.slab.slotAt, ?_, ?_, fun a => ?_⟩
  · rw [h.slab.head, h.toPtr_address h.slab.head_lt]
    refine hc.map fun i hi => ?_
    obtain ⟨hlt, hlive⟩ := (hfree i).mp hi
    rw [h.slab.links i hlt hlive]
    exact h.toPtr_address fun j hj => ((hfree j).mp (hc.next_mem hi hj)).1
  · refine hnodup.map_on fun i hi j hj he => ?_
    exact h.slab.fits.slotAt_inj ((hfree i).mp hi).1 ((hfree j).mp hj).1 he
  · rw [h.owns_and_not_live_iff, List.mem_map]
    exact exists_congr fun i => and_congr_left fun _ => hfree i

end ByteSession.Refines

namespace ByteSession
variable {sizeofT capacity buffer : Nat} {b : ByteSession}

/-- The free list in the buffer's bytes is sound, whatever the client writes over its slots;
and the asserts of Deallocate hold for every live pointer. -/
theorem bytes_sound (hbuffer : SlabBuffer sizeofT capacity buffer)
    (h : (byteSessions sizeofT capacity buffer).ReachableVia (fun b call => call.Permitted b.live) b) :
    (∃ chain, Chained (fun a => toPtr (b.slab.memory.load 8 a)) (toPtr b.slab.freeHead) chain ∧
      chain.Nodup ∧ ∀ a, a ∈ chain ↔ b.slab.owns a = true ∧ a ∉ b.live) ∧
    (b.slab.freeHead ≠ 0 → b.slab.owns b.slab.freeHead = true ∧ b.slab.freeHead ∉ b.live) ∧
    (b.slab.freeHead = 0 ↔ ∀ a, b.slab.owns a = true → a ∈ b.live) ∧
    b.slab.inUse = b.live.length ∧
    ∀ call : SlabCall (Nat → BitVec 8), call.Permitted b.live → ∃ b', b.step call = some b' := by
  obtain ⟨s, -, hrefines⟩ := reachable_refines hbuffer (fun _ => none) true h
  obtain ⟨chain, hc, hnodup, hfree⟩ := hrefines.chain
  have hhead : b.slab.freeHead ≠ 0 → b.slab.owns b.slab.freeHead = true ∧ b.slab.freeHead ∉ b.live := by
    intro hne
    rw [toPtr, if_neg hne] at hc
    exact (hfree _).mp hc.head_mem
  refine ⟨⟨chain, hc, hnodup, hfree⟩, hhead, ⟨fun hnull a howns => ?_, fun hall => ?_⟩, ?_, fun call hcall => ?_⟩
  · rw [hnull] at hc
    obtain rfl := Chained.eq_nil hc
    by_contra hlive
    exact List.not_mem_nil ((hfree a).mpr ⟨howns, hlive⟩)
  · by_contra hne
    exact (hhead hne).2 (hall _ (hhead hne).1)
  · rw [hrefines.slab.inUse, hrefines.holds.inUse, hrefines.live, List.length_map]
  · obtain ⟨b', -, -, hb, -⟩ := hrefines.step hcall
    exact ⟨b', hb⟩

end ByteSession
end ExecutionPlatform.Core
