import ExecutionPlatform.Core.OrderBook
import ExecutionPlatform.Foundations.Machine

/-! What a client can make of the allocator: it takes slots, gives back those it holds, and
writes over them as it likes. The free list never notices. -/
namespace ExecutionPlatform.Core
open Foundations

namespace SlabAllocator
variable {T : Type} [SlotStorage T] {s : SlabAllocator T} {live : List Nat}

/-- The link in a slot's storage, which is a link only while the slot is free. -/
def next (s : SlabAllocator T) (i : Nat) : Ptr := SlotStorage.link (s.storage i)

theorem new_checked (raw : Nat → T) (capacity : Nat) (checked : Bool) :
    (new raw capacity checked).checked = checked := by
  have hloop : ∀ (l : List Nat) (s : SlabAllocator T), (l.foldl threadSlot s).checked = s.checked := by
    intro l
    induction l with
    | nil => exact fun _ => rfl
    | cons i l ih => exact fun s => ih (s.threadSlot i)
  exact hloop _ _

namespace Holds

/-- The chain from the head is the slots that are not live, each once. -/
theorem chain (h : s.Holds live) : ∃ chain, Chained s.next s.freeHead chain ∧ chain.Nodup ∧
    ∀ i, i ∈ chain ↔ i < s.capacity ∧ i ∉ live := by
  obtain ⟨fl, hc, hp⟩ := h.free
  have hn := hp.nodup_iff.mpr List.nodup_range
  refine ⟨fl, hc, (List.nodup_append.mp hn).2.1, fun i => ?_⟩
  have hmem : i ∈ live ∨ i ∈ fl ↔ i < s.capacity := by
    rw [← List.mem_append, hp.mem_iff, List.mem_range]
  constructor
  · intro hi
    exact ⟨hmem.mp (.inr hi), fun hlive => (List.nodup_append.mp hn).2.2 i hlive i hi rfl⟩
  · rintro ⟨hi, hlive⟩
    exact (hmem.mpr hi).resolve_left hlive

theorem lt_capacity (h : s.Holds live) {i : Nat} (hi : i ∈ live) : i < s.capacity := by
  obtain ⟨fl, -, hp⟩ := h.free
  exact List.mem_range.mp (hp.mem_iff.mp (List.mem_append_left fl hi))

theorem head_free (h : s.Holds live) {i : Nat} (hhead : s.freeHead = some i) :
    i < s.capacity ∧ i ∉ live := by
  obtain ⟨chain, hc, -, hfree⟩ := h.chain
  rw [hhead] at hc
  exact (hfree i).mp hc.head_mem

theorem allocate_fresh (h : s.Holds live) {i : Nat} {s' : SlabAllocator T}
    (he : s.allocate = (some i, s')) : i < s.capacity ∧ i ∉ live := by
  rw [allocate] at he
  cases hhead : s.freeHead with
  | none =>
    rw [hhead] at he
    cases he
  | some j =>
    rw [hhead] at he
    obtain rfl : j = i := Option.some.inj (congrArg Prod.fst he)
    exact h.head_free hhead

/-- Allocate returns the null pointer exactly when every slot is live. -/
theorem allocate_eq_none_iff (h : s.Holds live) :
    s.allocate.1 = none ↔ ∀ i < s.capacity, i ∈ live := by
  rw [allocate]
  cases hhead : s.freeHead with
  | none =>
    refine iff_of_true rfl fun i hi => ?_
    obtain ⟨chain, hc, -, hfree⟩ := h.chain
    rw [hhead] at hc
    obtain rfl := hc.eq_nil
    by_contra hlive
    exact List.not_mem_nil ((hfree i).mpr ⟨hi, hlive⟩)
  | some j =>
    obtain ⟨hj, hlive⟩ := h.head_free hhead
    exact iff_of_false (Option.some_ne_none j) fun hall => hlive (hall j hj)

theorem inUse_add_available (h : s.Holds live) : s.inUse + s.available = s.capacity := by
  have hle := h.length_le
  rw [available, h.inUse, subWord_of_le hle h.sized, Nat.add_sub_cancel' hle]

end Holds
end SlabAllocator

inductive SlabCall (T : Type) where
  | allocate
  | deallocate (p : Nat)
  | write (p : Nat) (payload : T)

/-- The client gives back and writes through live pointers only. -/
def SlabCall.Permitted {T : Type} (live : List Nat) : SlabCall T → Prop
  | .allocate => True
  | .deallocate p => p ∈ live
  | .write p _ => p ∈ live

/-- An allocator, and the pointers that it has handed out and not been given back. -/
structure SlabSession (T : Type) where
  slab : SlabAllocator T
  live : List Nat

namespace SlabSession
variable {T : Type} [SlotStorage T]

def step (s : SlabSession T) : SlabCall T → Option (SlabSession T)
  | .allocate =>
    match s.slab.allocate with
    | (none, slab) => some ⟨slab, s.live⟩
    | (some p, slab) => some ⟨slab, s.live ++ [p]⟩
  | .deallocate p => do
    let slab ← s.slab.deallocate p
    pure ⟨slab, s.live.erase p⟩
  | .write p payload => do
    let slab ← s.slab.store p payload
    pure ⟨slab, s.live⟩

end SlabSession

/-- The sessions that begin with the constructor. -/
def slabSessions {T : Type} [SlotStorage T] (raw : Nat → T) (capacity : Nat) (checked : Bool) :
    Machine (SlabSession T) (SlabCall T) where
  init s := s = ⟨.new raw capacity checked, []⟩
  step := SlabSession.step

namespace SlabSession
variable {T : Type} [SlotStorage T] {s : SlabSession T} {call : SlabCall T}

/-- What the client may do succeeds, and the free list keeps to the slots that are not live. -/
theorem step_holds (h : s.slab.Holds s.live) (hcall : call.Permitted s.live) :
    ∃ s', s.step call = some s' ∧ s'.slab.Holds s'.live ∧ s'.slab.capacity = s.slab.capacity := by
  cases call with
  | allocate =>
    rcases Nat.lt_or_ge s.live.length s.slab.capacity with hroom | hfull
    · obtain ⟨i, slab, he, -, h', -, hcap⟩ := SlabAllocator.allocate_of_lt h hroom
      refine ⟨⟨slab, s.live ++ [i]⟩, ?_, h', hcap⟩
      rw [step, he]
    · refine ⟨s, ?_, h, rfl⟩
      rw [step, SlabAllocator.allocate_of_full h hfull]
  | deallocate p =>
    obtain ⟨l, r, -, hlive, herase⟩ := List.exists_erase_eq hcall
    rw [hlive] at h
    obtain ⟨slab, he, h', hcap, -⟩ := SlabAllocator.deallocate_spec h
    refine ⟨⟨slab, s.live.erase p⟩, ?_, herase ▸ h', hcap⟩
    rw [step, he]
    rfl
  | write p payload =>
    refine ⟨⟨_, s.live⟩, ?_, h.update hcall payload, rfl⟩
    rw [step, SlabAllocator.store_live h hcall payload]
    rfl

theorem reachable_holds {raw : Nat → T} {capacity : Nat} {checked : Bool} (hsize : capacity < 2 ^ 64)
    (h : (slabSessions raw capacity checked).ReachableVia (fun s call => call.Permitted s.live) s) :
    s.slab.Holds s.live ∧ s.slab.capacity = capacity := by
  refine h.invariant (I := fun s => s.slab.Holds s.live ∧ s.slab.capacity = capacity) ?_ ?_
  · rintro s rfl
    exact ⟨SlabAllocator.new_holds raw capacity checked hsize, SlabAllocator.new_capacity ..⟩
  · rintro s call s' hcall ⟨hI, hcap⟩ hs
    obtain ⟨t, ht, hI', hcap'⟩ := step_holds hI hcall
    obtain rfl : t = s' := Option.some.inj (ht.symm.trans hs)
    exact ⟨hI', hcap'.trans hcap⟩

theorem step_checked {s' : SlabSession T} (hs : s.step call = some s') :
    s'.slab.checked = s.slab.checked := by
  cases call with
  | allocate =>
    rw [step, SlabAllocator.allocate] at hs
    cases hhead : s.slab.freeHead <;>
      · rw [hhead] at hs
        obtain rfl := Option.some.inj hs
        rfl
  | deallocate p =>
    obtain ⟨slab, he, hs⟩ := Option.bind_eq_some_iff.mp hs
    obtain rfl := Option.some.inj hs
    rw [SlabAllocator.deallocate] at he
    split_ifs at he
    obtain rfl := Option.some.inj he
    rfl
  | write p payload =>
    obtain ⟨slab, he, hs⟩ := Option.bind_eq_some_iff.mp hs
    obtain rfl := Option.some.inj hs
    rw [SlabAllocator.store] at he
    split_ifs at he
    obtain rfl := Option.some.inj he
    rfl

/-- On a checked slab a call faults unless it is permitted. -/
theorem permitted_of_step (h : s.slab.Holds s.live) (hchecked : s.slab.checked = true)
    {s' : SlabSession T} (hs : s.step call = some s') : call.Permitted s.live := by
  have hlive : ∀ p, s.slab.accessible p = true → p ∈ s.live := by
    intro p hp
    rw [SlabAllocator.accessible, hchecked, Bool.not_true, Bool.false_or] at hp
    exact (h.allocated p).mp hp
  cases call with
  | allocate => trivial
  | deallocate p =>
    obtain ⟨slab, he, -⟩ := Option.bind_eq_some_iff.mp hs
    rw [SlabAllocator.deallocate] at he
    split_ifs at he with hp
    exact hlive p hp
  | write p payload =>
    obtain ⟨slab, he, -⟩ := Option.bind_eq_some_iff.mp hs
    rw [SlabAllocator.store] at he
    split_ifs at he with hp
    exact hlive p hp

/-- So a run over a checked slab that meets no fault is one of a permitted client. -/
theorem reachable_permitted {raw : Nat → T} {capacity : Nat} (hsize : capacity < 2 ^ 64)
    (h : (slabSessions raw capacity true).Reachable s) :
    (slabSessions raw capacity true).ReachableVia (fun s call => call.Permitted s.live) s := by
  have hinv : (slabSessions raw capacity true).ReachableVia (fun s call => call.Permitted s.live) s ∧
      s.slab.checked = true := by
    refine h.invariant (I := fun s => (slabSessions raw capacity true).ReachableVia
      (fun s call => call.Permitted s.live) s ∧ s.slab.checked = true) ?_ ?_
    · rintro s rfl
      exact ⟨.init rfl, SlabAllocator.new_checked raw capacity true⟩
    · rintro s call s' ⟨hvia, hchecked⟩ hs
      have hcall := permitted_of_step (reachable_holds hsize hvia).1 hchecked hs
      exact ⟨hvia.step hcall hs, (step_checked hs).trans hchecked⟩
  exact hinv.1

/-- A slot that stays live holds what was last written through its pointer. -/
theorem payload_kept (h : s.slab.Holds s.live) (hcall : call.Permitted s.live) {s' : SlabSession T}
    (hs : s.step call = some s') {p : Nat} (hstays : p ∈ s'.live) :
    s'.slab.storage p = match call with
      | .write q payload => if p = q then payload else s.slab.storage p
      | _ => s.slab.storage p := by
  cases call with
  | allocate =>
    rcases Nat.lt_or_ge s.live.length s.slab.capacity with hroom | hfull
    · obtain ⟨i, slab, he, -, -, hstorage, -⟩ := SlabAllocator.allocate_of_lt h hroom
      rw [step, he] at hs
      obtain rfl := Option.some.inj hs
      exact congrFun hstorage p
    · rw [step, SlabAllocator.allocate_of_full h hfull] at hs
      obtain rfl := Option.some.inj hs
      rfl
  | deallocate q =>
    obtain ⟨l, r, -, hlive, -⟩ := List.exists_erase_eq hcall
    have hnodup := h.nodup
    rw [hlive] at h
    obtain ⟨slab, he, -, -, hstorage⟩ := SlabAllocator.deallocate_spec h
    rw [step, he] at hs
    obtain rfl := Option.some.inj hs
    refine hstorage p fun hpq => ?_
    rw [hpq] at hstays
    exact (hnodup.mem_erase_iff.mp hstays).1 rfl
  | write q payload =>
    rw [step, SlabAllocator.store_live h hcall payload] at hs
    obtain rfl := Option.some.inj hs
    exact Function.update_apply ..

/-- Free-list soundness: after any calls of a client that keeps to its live pointers, the
chain from free_head_ is the slots that are not live, each once; Allocate hands out one of
these, or null if there is none; the counters count; and no call of the client faults. -/
theorem free_list_sound {raw : Nat → T} {capacity : Nat} {checked : Bool} (hsize : capacity < 2 ^ 64)
    (h : (slabSessions raw capacity checked).ReachableVia (fun s call => call.Permitted s.live) s) :
    (∃ chain, Chained s.slab.next s.slab.freeHead chain ∧ chain.Nodup ∧
      ∀ i, i ∈ chain ↔ i < capacity ∧ i ∉ s.live) ∧
    (∀ i slab, s.slab.allocate = (some i, slab) → i < capacity ∧ i ∉ s.live) ∧
    (s.slab.allocate.1 = none ↔ ∀ i < capacity, i ∈ s.live) ∧
    (s.live.Nodup ∧ (∀ i ∈ s.live, i < capacity) ∧ s.slab.inUse = s.live.length) ∧
    s.slab.inUse + s.slab.available = capacity ∧
    ∀ call : SlabCall T, call.Permitted s.live → ∃ s', s.step call = some s' := by
  obtain ⟨hI, rfl⟩ := reachable_holds hsize h
  refine ⟨hI.chain, fun _ _ he => hI.allocate_fresh he, hI.allocate_eq_none_iff,
    ⟨hI.nodup, fun _ hi => hI.lt_capacity hi, hI.inUse⟩, hI.inUse_add_available, fun call hcall => ?_⟩
  obtain ⟨s', hs, -⟩ := step_holds hI hcall
  exact ⟨s', hs⟩

/-- An order is written over the link of the slot that holds it, and the slot is given back. -/
theorem free_list_sound_reused : ∃ s : SlabSession Order,
    (slabSessions (fun i => ⟨i, 0, 0, .buy, none, none⟩) 2 true).Reachable s ∧ s.live = [0] ∧
    s.slab.allocate.1 = some 1 ∧ s.slab.inUse + s.slab.available = 2 := by
  obtain ⟨s, hrun, hlive, hnext⟩ : ∃ s : SlabSession Order,
      (slabSessions (fun i => ⟨i, 0, 0, .buy, none, none⟩) 2 true).run
        ⟨.new (fun i => ⟨i, 0, 0, .buy, none, none⟩) 2 true, []⟩
        [.allocate, .write 1 ⟨77, 101, 5, .sell, none, none⟩, .allocate, .deallocate 1] = some s ∧
      s.live = [0] ∧ s.slab.allocate.1 = some 1 := ⟨_, rfl, rfl, rfl⟩
  have hreach := Machine.ReachableVia.run (.init rfl) (fun _ _ _ => trivial) hrun
  obtain ⟨-, -, -, -, hcount, -⟩ := free_list_sound (by decide) (reachable_permitted (by decide) hreach)
  exact ⟨s, hreach, hlive, hnext, hcount⟩

end SlabSession
end ExecutionPlatform.Core
