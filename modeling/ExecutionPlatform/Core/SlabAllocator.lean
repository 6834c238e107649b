import ExecutionPlatform.Foundations.Threaded
import ExecutionPlatform.Foundations.Words
import Mathlib.Data.List.Perm.Lattice
import Mathlib.Logic.Function.Basic

/-! The fixed-capacity block allocator. A slot is named by its index, a pointer is
an optional index, and a free slot's link shares storage with its payload. -/
namespace ExecutionPlatform.Core
open Foundations

abbrev Ptr := Option Nat

/-- Slot storage seen through the free-list node that overlays it. -/
class SlotStorage (T : Type) where
  link : T → Ptr
  setLink : T → Ptr → T
  link_setLink : ∀ t p, link (setLink t p) = p

/-- `allocated` and `checked` are not in the source. When `checked` is set, touching
a slot that is not allocated is a fault, as under an address sanitizer; when it is
not, such an access sees whatever bytes the slot holds. -/
structure SlabAllocator (T : Type) where
  capacity : Nat
  storage : Nat → T
  freeHead : Ptr
  inUse : Nat
  allocated : Nat → Bool
  checked : Bool

namespace SlabAllocator
variable {T : Type} [SlotStorage T]

/-- One pass of the constructor's loop. -/
def threadSlot (s : SlabAllocator T) (i : Nat) : SlabAllocator T :=
  { s with storage := Function.update s.storage i (SlotStorage.setLink (s.storage i) s.freeHead),
           freeHead := some i }

/-- The constructor over storage with the bytes `raw`. -/
def new (raw : Nat → T) (capacity : Nat) (checked : Bool) : SlabAllocator T :=
  (List.range capacity).foldl threadSlot
    ⟨capacity, raw, none, 0, fun _ => false, checked⟩

/-- Pop the free list; the null pointer on exhaustion. -/
def allocate (s : SlabAllocator T) : Ptr × SlabAllocator T :=
  match s.freeHead with
  | none => (none, s)
  | some i => (some i, { s with freeHead := SlotStorage.link (s.storage i),
                                inUse := addWord 64 s.inUse 1,
                                allocated := Function.update s.allocated i true })

def accessible (s : SlabAllocator T) (i : Nat) : Bool := !s.checked || s.allocated i

/-- Push a slot onto the free list. -/
def deallocate (s : SlabAllocator T) (i : Nat) : Option (SlabAllocator T) :=
  if s.accessible i then
    some { s with storage := Function.update s.storage i (SlotStorage.setLink (s.storage i) s.freeHead),
                  freeHead := some i,
                  inUse := subWord 64 s.inUse 1,
                  allocated := Function.update s.allocated i false }
  else none

/-- Read the payload of a slot. -/
def load (s : SlabAllocator T) (i : Nat) : Option T :=
  if s.accessible i then some (s.storage i) else none

/-- Overwrite the payload of a slot. -/
def store (s : SlabAllocator T) (i : Nat) (t : T) : Option (SlabAllocator T) :=
  if s.accessible i then some { s with storage := Function.update s.storage i t } else none

def available (s : SlabAllocator T) : Nat := subWord 64 s.capacity s.inUse

/-- Exactly the slots of `live` are allocated, and the free list runs through the others. -/
structure Holds (s : SlabAllocator T) (live : List Nat) : Prop where
  free : ∃ fl, Chained (fun i => SlotStorage.link (s.storage i)) s.freeHead fl ∧
    (live ++ fl).Perm (List.range s.capacity)
  sized : s.capacity < 2 ^ 64
  inUse : s.inUse = live.length
  allocated : ∀ i, s.allocated i = true ↔ i ∈ live

variable {s : SlabAllocator T} {live : List Nat}

namespace Holds

theorem nodup (h : s.Holds live) : live.Nodup := by
  obtain ⟨fl, -, hp⟩ := h.free
  exact (List.nodup_append.mp (hp.nodup_iff.mpr List.nodup_range)).1

theorem length_le (h : s.Holds live) : live.length ≤ s.capacity := by
  obtain ⟨fl, -, hp⟩ := h.free
  have := hp.length_eq
  rw [List.length_append, List.length_range] at this
  omega

theorem accessible (h : s.Holds live) {i : Nat} (hi : i ∈ live) : s.accessible i = true := by
  simp [SlabAllocator.accessible, (h.allocated i).mpr hi]

end Holds

private theorem foldl_threadSlot (s : SlabAllocator T) (l fl : List Nat)
    (hc : Chained (fun i => SlotStorage.link (s.storage i)) s.freeHead fl)
    (hn : (l.reverse ++ fl).Nodup) :
    let s' := l.foldl threadSlot s
    Chained (fun i => SlotStorage.link (s'.storage i)) s'.freeHead (l.reverse ++ fl) ∧
      s'.capacity = s.capacity ∧ s'.inUse = s.inUse ∧ s'.allocated = s.allocated := by
  induction l generalizing s fl with
  | nil => exact ⟨hc, rfl, rfl, rfl⟩
  | cons i l ih =>
    rw [List.reverse_cons, List.append_assoc, List.singleton_append] at hn ⊢
    have hi : i ∉ fl := (List.nodup_cons.mp (List.nodup_append.mp hn).2.1).1
    refine ih (s.threadSlot i) (i :: fl) ⟨rfl, ?_⟩ hn
    simp only [threadSlot, Function.update_self, SlotStorage.link_setLink]
    refine hc.congr fun j hj => ?_
    rw [Function.update_of_ne (ne_of_mem_of_not_mem hj hi)]

/-- The slot that the constructor links slot i to. -/
def below : Nat → Ptr
  | 0 => none
  | i + 1 => some i

/-- The state that the constructor's loop leaves, in closed form. -/
theorem new_eq (raw : Nat → T) (capacity : Nat) (checked : Bool) : new raw capacity checked =
    ⟨capacity, fun i => if i < capacity then SlotStorage.setLink (raw i) (below i) else raw i,
      below capacity, 0, fun _ => false, checked⟩ := by
  have hloop : ∀ n, (List.range n).foldl threadSlot ⟨capacity, raw, none, 0, fun _ => false, checked⟩ =
      ⟨capacity, fun i => if i < n then SlotStorage.setLink (raw i) (below i) else raw i, below n, 0,
        fun _ => false, checked⟩ := by
    intro n
    induction n with
    | zero => rfl
    | succ n ih =>
      rw [List.range_succ, List.foldl_append, ih, List.foldl_cons, List.foldl_nil, threadSlot]
      congr 1
      funext i
      by_cases hi : i = n
      · subst hi
        simp only [Function.update_self, Nat.lt_irrefl, Nat.lt_succ_self, if_true, if_false]
      · have hlt : i < n + 1 ↔ i < n := by omega
        simp only [Function.update_of_ne hi, hlt]
  exact hloop capacity

theorem new_holds (raw : Nat → T) (capacity : Nat) (checked : Bool) (hsize : capacity < 2 ^ 64) :
    (new raw capacity checked).Holds [] := by
  obtain ⟨hc, hcap, hu, ha⟩ := foldl_threadSlot
    (⟨capacity, raw, none, 0, fun _ => false, checked⟩ : SlabAllocator T)
    (List.range capacity) [] rfl (by simpa using List.nodup_range)
  refine ⟨⟨_, hc, ?_⟩, hcap.trans_lt hsize, hu, fun i => ?_⟩
  · rw [List.nil_append, List.append_nil, new, hcap]
    exact List.reverse_perm _
  · rw [new, ha]
    simp

theorem new_capacity (raw : Nat → T) (capacity : Nat) (checked : Bool) :
    (new raw capacity checked).capacity = capacity := by
  rw [new_eq]

/-- With room left, Allocate returns a slot that was not live and touches no payload. -/
theorem allocate_of_lt (h : s.Holds live) (hlt : live.length < s.capacity) :
    ∃ i s', s.allocate = (some i, s') ∧ i ∉ live ∧ s'.Holds (live ++ [i]) ∧
      s'.storage = s.storage ∧ s'.capacity = s.capacity := by
  obtain ⟨fl, hc, hp⟩ := h.free
  cases fl with
  | nil =>
    have := hp.length_eq
    simp only [List.append_nil, List.length_range] at this
    omega
  | cons i fl =>
    have hn := hp.nodup_iff.mpr List.nodup_range
    have hi : i ∉ live := fun hm => (List.nodup_append.mp hn).2.2 i hm i List.mem_cons_self rfl
    have he : s.allocate = (some i, { s with
        freeHead := SlotStorage.link (s.storage i), inUse := addWord 64 s.inUse 1,
        allocated := Function.update s.allocated i true }) := by
      rw [allocate, hc.1]
    refine ⟨i, _, he, hi, ⟨⟨fl, hc.2, ?_⟩, h.sized, ?_, ?_⟩, rfl, rfl⟩
    · simpa using hp
    · have hsized := h.sized
      rw [List.length_append, List.length_singleton, h.inUse, addWord_of_lt (by omega)]
    · intro j
      simp only [Function.update_apply]
      split_ifs with hj
      · simp [hj]
      · simp [hj, h.allocated]

/-- With every slot live, Allocate returns the null pointer. -/
theorem allocate_of_full (h : s.Holds live) (hfull : s.capacity ≤ live.length) :
    s.allocate = (none, s) := by
  obtain ⟨fl, hc, hp⟩ := h.free
  cases fl with
  | nil => rw [allocate, show s.freeHead = none from hc]
  | cons i fl =>
    have := hp.length_eq
    simp only [List.length_append, List.length_cons, List.length_range] at this
    omega

/-- Deallocating a live slot frees that slot and no other. -/
theorem deallocate_spec {l r : List Nat} {i : Nat} (h : s.Holds (l ++ i :: r)) :
    ∃ s', s.deallocate i = some s' ∧ s'.Holds (l ++ r) ∧ s'.capacity = s.capacity ∧
      ∀ j, j ≠ i → s'.storage j = s.storage j := by
  have hi : i ∈ l ++ i :: r := by simp
  obtain ⟨fl, hc, hp⟩ := h.free
  have hn := h.nodup
  have he : s.deallocate i = some { s with
      storage := Function.update s.storage i (SlotStorage.setLink (s.storage i) s.freeHead),
      freeHead := some i, inUse := subWord 64 s.inUse 1,
      allocated := Function.update s.allocated i false } := by
    rw [deallocate, if_pos (h.accessible hi)]
  have hif : i ∉ fl := fun hm =>
    (List.nodup_append.mp (hp.nodup_iff.mpr List.nodup_range)).2.2 i hi i hm rfl
  have hlr : i ∉ l ++ r := (List.nodup_cons.mp (List.nodup_middle.mp hn)).1
  refine ⟨_, he, ⟨⟨i :: fl, ⟨rfl, ?_⟩, ?_⟩, h.sized, ?_, ?_⟩, rfl, ?_⟩
  · simp only [Function.update_self, SlotStorage.link_setLink]
    refine hc.congr fun j hj => ?_
    rw [Function.update_of_ne (ne_of_mem_of_not_mem hj hif)]
  · refine List.Perm.trans ?_ hp
    have : (l ++ i :: r).Perm (i :: (l ++ r)) := List.perm_middle
    exact List.perm_middle.trans (this.symm.append_right fl)
  · have hsized := h.sized
    have hlen := h.length_le
    have hpos : 0 < (l ++ i :: r).length := List.length_pos_of_mem hi
    rw [h.inUse, subWord_of_le hpos (by omega)]
    simp
  · intro j
    simp only [Function.update_apply]
    split_ifs with hj
    · simpa [hj] using hlr
    · rw [h.allocated]
      simp [hj]
  · intro j hj
    exact Function.update_of_ne hj ..

theorem load_live (h : s.Holds live) {i : Nat} (hi : i ∈ live) : s.load i = some (s.storage i) := by
  rw [load, if_pos (h.accessible hi)]

theorem store_live (h : s.Holds live) {i : Nat} (hi : i ∈ live) (t : T) :
    s.store i t = some { s with storage := Function.update s.storage i t } := by
  rw [store, if_pos (h.accessible hi)]

/-- Writing a live slot leaves the free list alone. -/
theorem Holds.update (h : s.Holds live) {i : Nat} (hi : i ∈ live) (t : T) :
    ({ s with storage := Function.update s.storage i t } : SlabAllocator T).Holds live := by
  obtain ⟨fl, hc, hp⟩ := h.free
  refine ⟨⟨fl, hc.congr fun j hj => ?_, hp⟩, h.sized, h.inUse, h.allocated⟩
  have hji : j ≠ i := fun he =>
    (List.nodup_append.mp (hp.nodup_iff.mpr List.nodup_range)).2.2 i hi j hj he.symm
  simp [Function.update_of_ne hji]

/-- Constructing a payload in a fresh slot. -/
theorem allocate_store (h : s.Holds live) (hlt : live.length < s.capacity) (t : T) :
    ∃ i s' s'', s.allocate = (some i, s') ∧ s'.store i t = some s'' ∧ i ∉ live ∧
      s''.Holds (live ++ [i]) ∧ s''.storage i = t ∧ (∀ j, j ≠ i → s''.storage j = s.storage j) ∧
      s''.capacity = s.capacity := by
  obtain ⟨i, s', he, hi, hs', hst, hc⟩ := allocate_of_lt h hlt
  have hin : i ∈ live ++ [i] := by simp
  refine ⟨i, s', _, he, store_live hs' hin t, hi, hs'.update hin t, Function.update_self .., ?_, hc⟩
  intro j hj
  rw [← hst]
  exact Function.update_of_ne hj ..

end SlabAllocator
end ExecutionPlatform.Core
