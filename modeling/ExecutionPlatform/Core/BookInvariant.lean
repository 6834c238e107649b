import ExecutionPlatform.Core.IdIndex
import ExecutionPlatform.Core.LevelQueue
import Mathlib.Data.Finset.Max
import Mathlib.Order.Interval.Finset.Defs
import Mathlib.Data.Int.Interval
import Mathlib.Tactic.Ring

/-! The invariant of the concrete book, in three parts that the code breaks and repairs
at different times: the linked levels over the slab, the id index, and the cached
touch. The slots of the resting orders, in arrival order, witness all three. -/
namespace ExecutionPlatform.Core
open Foundations

/-- The slots of one level's orders, in arrival order. -/
def levelQueue (mem : Nat → Order) (rs : List Nat) (s : Side) (px : Price) : List Nat :=
  rs.filter fun i => decide ((mem i).side = s ∧ (mem i).price = px)

section LevelQueue
variable {mem mem' : Nat → Order} {rs l r : List Nat} {s : Side} {px : Price} {i : Nat}

theorem mem_levelQueue :
    i ∈ levelQueue mem rs s px ↔ i ∈ rs ∧ (mem i).side = s ∧ (mem i).price = px := by
  simp [levelQueue]

theorem levelQueue_append :
    levelQueue mem (l ++ r) s px = levelQueue mem l s px ++ levelQueue mem r s px := by
  simp [levelQueue]

theorem levelQueue_cons_self :
    levelQueue mem (i :: r) (mem i).side (mem i).price =
      i :: levelQueue mem r (mem i).side (mem i).price := by
  simp [levelQueue]

theorem levelQueue_cons_other (h : ¬ ((mem i).side = s ∧ (mem i).price = px)) :
    levelQueue mem (i :: r) s px = levelQueue mem r s px := by
  simp [levelQueue, h]

theorem levelQueue_congr (hs : ∀ j ∈ rs, (mem' j).side = (mem j).side)
    (hp : ∀ j ∈ rs, (mem' j).price = (mem j).price) :
    levelQueue mem' rs s px = levelQueue mem rs s px :=
  List.filter_congr fun j hj => by rw [hs j hj, hp j hj]

theorem levelQueue_nodup (h : rs.Nodup) : (levelQueue mem rs s px).Nodup := h.filter _

end LevelQueue

/-- The slots of one id's orders, in arrival order. -/
def idQueue (mem : Nat → Order) (rs : List Nat) (id : OrderId) : List Nat :=
  rs.filter fun i => decide ((mem i).id = id)

section IdQueue
variable {mem mem' : Nat → Order} {rs : List Nat} {id : OrderId} {i : Nat}

theorem mem_idQueue : i ∈ idQueue mem rs id ↔ i ∈ rs ∧ (mem i).id = id := by
  simp [idQueue]

theorem idQueue_congr (h : ∀ j ∈ rs, (mem' j).id = (mem j).id) :
    idQueue mem' rs id = idQueue mem rs id :=
  List.filter_congr fun j hj => by rw [h j hj]

/-- With distinct slots, fewer orders than index slots leave an index slot empty. -/
theorem roomy_of_length_lt {t : IdIndex} (h : t.Queues (idQueue mem rs)) (hn : rs.Nodup)
    (hlen : rs.length < t.idCapacity) : t.Roomy := by
  refine h.probe.exists_empty h.sized.home_lt (rs.map fun i => ((mem i).id, i))
    (fun k => hn.filter _) (fun k v hv => ?_) ((List.length_map _).trans_lt hlen)
  obtain ⟨hrs, rfl⟩ := mem_idQueue.mp hv
  exact List.mem_map_of_mem hrs

end IdQueue

namespace OrderBook

def live (b : OrderBook) : Side → Nat
  | .buy => b.liveBidLevels
  | .sell => b.liveAskLevels

def best (b : OrderBook) : Side → Price
  | .buy => b.bestBidPx
  | .sell => b.bestAskPx

/-- The two books agree except, perhaps, in the cached touch. -/
def SameButTouch (b b' : OrderBook) : Prop :=
  b'.slab = b.slab ∧ b'.minPrice = b.minPrice ∧ b'.maxPrice = b.maxPrice ∧
    b'.bidLevels = b.bidLevels ∧ b'.askLevels = b.askLevels ∧ b'.index = b.index

/-- Levels, nodes and slab agree with the slots rs of the resting orders. -/
structure Linked (b : OrderBook) (rs : List Nat) : Prop where
  slab : b.slab.Holds rs
  band : ∀ i ∈ rs, b.inBand (b.slab.storage i).price = true
  level : ∀ s px, b.inBand px = true →
    LevelHolds b.slab.storage (b.levels s (b.idx px)) (levelQueue b.slab.storage rs s px)

/-- The id index holds the slots of q, and has slots to spare. -/
structure Queued (b : OrderBook) (q : OrderId → List Nat) : Prop where
  queues : b.index.Queues q
  roomy : b.index.Roomy
  spare : b.slab.capacity < b.index.idCapacity

/-- The id index holds, for every id, the slots of its orders in arrival order. -/
def Indexed (b : OrderBook) (rs : List Nat) : Prop := b.Queued (idQueue b.slab.storage rs)

/-- The live-level counters and the cached touch agree with the set ne of non-empty levels. -/
def Touched (b : OrderBook) (ne : Side → Price → Prop) : Prop :=
  ∀ s, ∃ S : Finset Price, (∀ p, p ∈ S ↔ ne s p) ∧ b.live s = S.card ∧
    (S.Nonempty → b.best s ∈ S ∧ ∀ p ∈ S, better s p (b.best s) = false)

/-- The levels on which an order rests. -/
def occupied (b : OrderBook) (rs : List Nat) (s : Side) (px : Price) : Prop :=
  levelQueue b.slab.storage rs s px ≠ []

/-- All that matching relies on: the index may be wrong. -/
structure Sound (b : OrderBook) (rs : List Nat) : Prop where
  linked : b.Linked rs
  qty : ∀ i ∈ rs, 0 < (b.slab.storage i).qty
  touched : b.Touched (b.occupied rs)

structure WellFormed (b : OrderBook) (rs : List Nat) : Prop extends Sound b rs where
  indexed : b.Indexed rs

section Access
variable (b : OrderBook) (s s' : Side) (px px' : Price) (lvl : LevelFIFO) (k : Nat)

@[simp] theorem setLevel_index : (b.setLevel s px lvl).index = b.index := by cases s <;> rfl
@[simp] theorem setLevel_minPrice : (b.setLevel s px lvl).minPrice = b.minPrice := by cases s <;> rfl
@[simp] theorem setLevel_maxPrice : (b.setLevel s px lvl).maxPrice = b.maxPrice := by cases s <;> rfl
@[simp] theorem setLevel_inBand : (b.setLevel s px lvl).inBand px' = b.inBand px' := by cases s <;> rfl
@[simp] theorem setLevel_idx : (b.setLevel s px lvl).idx px' = b.idx px' := by cases s <;> rfl
@[simp] theorem setLevel_live : (b.setLevel s px lvl).live s' = b.live s' := by
  cases s <;> cases s' <;> rfl
@[simp] theorem setLevel_best : (b.setLevel s px lvl).best s' = b.best s' := by
  cases s <;> cases s' <;> rfl

theorem setLevel_levels : (b.setLevel s px lvl).levels s' k =
    if s' = s ∧ k = b.idx px then lvl else b.levels s' k := by
  cases s <;> cases s' <;> simp [setLevel, levels, Function.update_apply]

theorem idx_injective {b : OrderBook} {px px' : Price} (h : b.inBand px = true)
    (h' : b.inBand px' = true) (he : b.idx px = b.idx px') : px = px' := by
  simp only [inBand, Bool.and_eq_true, decide_eq_true_eq] at h h'
  simp only [idx] at he
  lia

theorem levelAt_of_inBand {b : OrderBook} {s : Side} {px : Price} (h : b.inBand px = true) :
    b.levelAt s px = some (b.levels s (b.idx px)) := if_pos h

end Access

namespace Linked
variable {b : OrderBook} {rs rs' : List Nat}

theorem nodup (h : b.Linked rs) : rs.Nodup := h.slab.nodup

theorem inBand_of_occupied (h : b.Linked rs) {s : Side} {px : Price} (ho : b.occupied rs s px) :
    b.inBand px = true := by
  obtain ⟨i, hi⟩ := List.exists_mem_of_ne_nil _ ho
  obtain ⟨hrs, -, rfl⟩ := mem_levelQueue.mp hi
  exact h.band i hrs

theorem empty_iff (h : b.Linked rs) {s : Side} {px : Price} (hb : b.inBand px = true) :
    (b.levels s (b.idx px)).empty = true ↔ ¬ b.occupied rs s px := by
  rw [(h.level s px hb).empty_iff, occupied, not_not]

/-- Rewriting one level and its nodes: the other levels stay if their nodes do. -/
theorem replaceLevel (h : b.Linked rs) {s : Side} {px : Price} {lvl : LevelFIFO}
    {slab' : SlabAllocator Order} (hb : b.inBand px = true) (hslab : slab'.Holds rs')
    (hband : ∀ i ∈ rs', b.inBand (slab'.storage i).price = true)
    (hlvl : LevelHolds slab'.storage lvl (levelQueue slab'.storage rs' s px))
    (hframe : ∀ s' px', ¬ (s' = s ∧ px' = px) →
      levelQueue slab'.storage rs' s' px' = levelQueue b.slab.storage rs s' px' ∧
        ∀ j ∈ levelQueue b.slab.storage rs s' px', slab'.storage j = b.slab.storage j) :
    ({ b.setLevel s px lvl with slab := slab' } : OrderBook).Linked rs' := by
  refine ⟨hslab, ?_, ?_⟩
  · intro i hi
    have := hband i hi
    rwa [← setLevel_inBand b s px _ lvl] at this
  · intro s' px' hin
    have hb' : b.inBand px' = true := by rw [← setLevel_inBand b s px _ lvl]; exact hin
    change LevelHolds slab'.storage ((b.setLevel s px lvl).levels s' ((b.setLevel s px lvl).idx px')) _
    rw [setLevel_levels, setLevel_idx]
    split_ifs with heq
    · obtain ⟨rfl, he⟩ := heq
      obtain rfl := idx_injective hb' hb he
      exact hlvl
    · obtain ⟨hq, hm⟩ := hframe s' px' fun hc => heq ⟨hc.1, by rw [hc.2]⟩
      rw [show levelQueue slab'.storage rs' s' px' = _ from hq]
      exact (h.level s' px' hb').congr hm

theorem of_sameButTouch {b' : OrderBook} (h : b.Linked rs) (hs : b.SameButTouch b') :
    b'.Linked rs := by
  obtain ⟨h1, h2, h3, h4, h5, -⟩ := hs
  obtain ⟨⟩ := b'
  obtain ⟨⟩ := b
  subst h1 h2 h3 h4 h5
  refine ⟨h.slab, h.band, fun s px hb => ?_⟩
  have := h.level s px hb
  cases s <;> exact this

end Linked

theorem Queued.of_sameButTouch {b b' : OrderBook} {q : OrderId → List Nat} (h : b.Queued q)
    (hs : b.SameButTouch b') : b'.Queued q := by
  obtain ⟨h1, -, -, -, -, h6⟩ := hs
  exact ⟨h6 ▸ h.queues, h6 ▸ h.roomy, by rw [h6, h1]; exact h.spare⟩

theorem Queued.congr {b : OrderBook} {q q' : OrderId → List Nat} (h : b.Queued q)
    (hq : ∀ k, q k = q' k) : b.Queued q' := ⟨h.queues.congr hq, h.roomy, h.spare⟩

theorem Touched.congr {b b' : OrderBook} {ne ne' : Side → Price → Prop} (h : b.Touched ne)
    (hl : ∀ s, b'.live s = b.live s) (hb : ∀ s, b'.best s = b.best s)
    (hne : ∀ s p, ne' s p ↔ ne s p) : b'.Touched ne' := by
  intro s
  obtain ⟨S, hS, hc, hbest⟩ := h s
  exact ⟨S, fun p => (hS p).trans (hne s p).symm, (hl s).trans hc, by rw [hb]; exact hbest⟩

theorem Touched.live_pos_iff {b : OrderBook} {ne : Side → Price → Prop} (h : b.Touched ne)
    {s : Side} : 0 < b.live s ↔ ∃ p, ne s p := by
  obtain ⟨S, hS, hc, -⟩ := h s
  rw [hc, Finset.card_pos]
  exact ⟨fun ⟨p, hp⟩ => ⟨p, (hS p).mp hp⟩, fun ⟨p, hp⟩ => ⟨p, (hS p).mpr hp⟩⟩

theorem Touched.best_spec {b : OrderBook} {ne : Side → Price → Prop} (h : b.Touched ne)
    {s : Side} (hl : 0 < b.live s) :
    ne s (b.best s) ∧ ∀ p, ne s p → better s p (b.best s) = false := by
  obtain ⟨S, hS, hc, hbest⟩ := h s
  obtain ⟨h1, h2⟩ := hbest (Finset.card_pos.mp (hc ▸ hl))
  exact ⟨(hS _).mp h1, fun p hp => h2 p ((hS p).mpr hp)⟩

/-- There are no more live levels than orders. -/
theorem Touched.live_le {b : OrderBook} {rs : List Nat} (h : b.Touched (b.occupied rs)) (s : Side) :
    b.live s ≤ rs.length := by
  obtain ⟨S, hS, hc, -⟩ := h s
  have hsub : S ⊆ (rs.map fun i => (b.slab.storage i).price).toFinset := by
    intro p hp
    obtain ⟨i, hi⟩ := List.exists_mem_of_ne_nil _ ((hS p).mp hp)
    obtain ⟨hrs, -, rfl⟩ := mem_levelQueue.mp hi
    exact List.mem_toFinset.mpr (List.mem_map_of_mem hrs)
  calc b.live s = S.card := hc
    _ ≤ (rs.map fun i => (b.slab.storage i).price).toFinset.card := Finset.card_le_card hsub
    _ ≤ rs.length := (List.toFinset_card_le _).trans_eq (List.length_map _)

/-- MarkLevelLive counts the new level and moves the touch if it improves it. -/
theorem markLevelLive_spec {b : OrderBook} {ne : Side → Price → Prop} {s : Side} {px : Price}
    (h : b.Touched ne) (hne : ¬ ne s px) (hroom : b.live s + 1 < 2 ^ 64) :
    (b.markLevelLive s px).Touched (fun s' p => ne s' p ∨ (s' = s ∧ p = px)) ∧
      b.SameButTouch (b.markLevelLive s px) := by
  refine ⟨fun s' => ?_, by cases s <;> exact ⟨rfl, rfl, rfl, rfl, rfl, rfl⟩⟩
  obtain ⟨S, hS, hc, hbest⟩ := h s'
  by_cases hs : s' = s
  · subst hs
    have hnS : px ∉ S := fun hm => hne ((hS px).mp hm)
    refine ⟨insert px S, fun p => by simp [hS, or_comm], ?_, fun _ => ?_⟩
    · rw [Finset.card_insert_of_notMem hnS, ← hc, ← addWord_of_lt hroom]
      cases s' <;> rfl
    · rcases S.eq_empty_or_nonempty with rfl | hnon
      · have hz : b.live s' = 0 := by simpa using hc
        have hbpx : (b.markLevelLive s' px).best s' = px := by
          cases s' <;> simp only [live] at hz <;> simp [markLevelLive, best, hz]
        simp [hbpx, better_irrefl]
      · have hpos : b.live s' ≠ 0 := by rw [hc]; exact Finset.card_ne_zero.mpr hnon
        obtain ⟨hb1, hb2⟩ := hbest hnon
        have hbpx : (b.markLevelLive s' px).best s' =
            if better s' px (b.best s') then px else b.best s' := by
          cases s' <;> simp only [live] at hpos <;> simp only [markLevelLive, best, hpos, false_or]
          · by_cases hlt : b.bestBidPx < px <;> simp [better, hlt]
          · by_cases hlt : px < b.bestAskPx <;> simp [better, hlt]
        rw [hbpx]
        split_ifs with hi
        · refine ⟨Finset.mem_insert_self .., fun p hp => ?_⟩
          rcases Finset.mem_insert.mp hp with rfl | hp
          · exact better_irrefl _ _
          · by_contra hbad
            have hbad : better s' p px = true := by simpa using hbad
            have := better_of_not_better_of_better (better_asymm hbad) hi
            rw [hb2 p hp] at this
            cases this
        · refine ⟨Finset.mem_insert_of_mem hb1, fun p hp => ?_⟩
          rcases Finset.mem_insert.mp hp with rfl | hp
          · simpa using hi
          · exact hb2 p hp
  · refine ⟨S, fun p => by simp [hS, hs], ?_, ?_⟩
    · rw [← hc]
      cases s <;> cases s' <;> first | exact absurd rfl hs | rfl
    · have : (b.markLevelLive s px).best s' = b.best s' := by
        cases s <;> cases s' <;> first | exact absurd rfl hs | rfl
      rw [this]
      exact hbest

/-- The scan walks over k empty levels to the next non-empty one, inside the ladder. -/
private theorem scanLevels_spec {b : OrderBook} {s : Side} {dir : Price} (k : Nat) {fuel : Nat}
    (px : Price) (hfuel : k < fuel)
    (hempty : ∀ j : Nat, j < k → b.inBand (px + dir * (j + 1)) = true ∧
      (b.levels s (b.idx (px + dir * (j + 1)))).empty = true)
    (hin : b.inBand (px + dir * (k + 1)) = true)
    (hlive : (b.levels s (b.idx (px + dir * (k + 1)))).empty = false) :
    b.scanLevels s dir fuel px = some (px + dir * (k + 1)) := by
  induction k generalizing fuel px with
  | zero =>
    obtain ⟨fuel, rfl⟩ : ∃ f, fuel = f + 1 := ⟨fuel - 1, by omega⟩
    simp only [Nat.cast_zero, zero_add, mul_one] at hin hlive ⊢
    simp [scanLevels, levelAt_of_inBand hin, hlive]
  | succ k ih =>
    obtain ⟨fuel, rfl⟩ : ∃ f, fuel = f + 1 := ⟨fuel - 1, by omega⟩
    obtain ⟨h0, h0e⟩ := hempty 0 (Nat.succ_pos k)
    simp only [Nat.cast_zero, zero_add, mul_one] at h0 h0e
    have hshift : ∀ j : Nat, px + dir + dir * ((j : Int) + 1) = px + dir * (((j + 1 : Nat) : Int) + 1) := by
      intro j
      push_cast
      ring
    have : b.scanLevels s dir fuel (px + dir) = some (px + dir + dir * (k + 1)) := ih (px + dir) (by omega)
      (fun j hj => by rw [hshift]; exact hempty (j + 1) (by omega))
      (by rw [hshift]; exact hin) (by rw [hshift]; exact hlive)
    rw [hshift] at this
    simp [scanLevels, levelAt_of_inBand h0, h0e, this]

private theorem exists_best (s : Side) {S : Finset Price} (h : S.Nonempty) :
    ∃ q ∈ S, ∀ p ∈ S, better s p q = false := by
  cases s with
  | buy =>
    obtain ⟨q, hq, hmax⟩ := S.exists_max_image (fun p => p) h
    exact ⟨q, hq, fun p hp => by simpa [better] using hmax p hp⟩
  | sell =>
    obtain ⟨q, hq, hmin⟩ := S.exists_min_image (fun p => p) h
    exact ⟨q, hq, fun p hp => by simpa [better] using hmin p hp⟩

/-- The level that the repair scan is looking for, a number of steps from the emptied one. -/
private theorem scanLevels_reaches {b : OrderBook} {ne : Price → Prop} {s : Side} {dir px q : Price}
    (hdir : s = .buy ∧ dir = -1 ∨ s = .sell ∧ dir = 1) (hpx : b.inBand px = true)
    (hlev : ∀ p, b.inBand p = true → ((b.levels s (b.idx p)).empty = true ↔ ¬ ne p))
    (hqb : b.inBand q = true) (hq : ne q) (hworse : better s px q = true)
    (hfirst : ∀ p, ne p → better s px p = true → better s p q = false) :
    b.scanLevels s dir b.ladderSize px = some q := by
  obtain ⟨k, hk⟩ : ∃ k : Nat, q = px + dir * (k + 1) := by
    rcases hdir with ⟨rfl, rfl⟩ | ⟨rfl, rfl⟩
    · refine ⟨(px - q - 1).toNat, ?_⟩
      simp only [better, decide_eq_true_eq] at hworse
      lia
    · refine ⟨(q - px - 1).toNat, ?_⟩
      simp only [better, decide_eq_true_eq] at hworse
      lia
  have hbq := hqb
  have hbpx := hpx
  simp only [inBand, Bool.and_eq_true, decide_eq_true_eq] at hbq hbpx
  have hfuel : k < b.ladderSize := by
    unfold ladderSize
    rcases hdir with ⟨-, rfl⟩ | ⟨-, rfl⟩ <;> lia
  rw [scanLevels_spec k px hfuel, ← hk]
  · intro j hj
    have hin : b.inBand (px + dir * (j + 1)) = true := by
      simp only [inBand, Bool.and_eq_true, decide_eq_true_eq]
      rcases hdir with ⟨-, rfl⟩ | ⟨-, rfl⟩ <;> constructor <;> lia
    refine ⟨hin, (hlev _ hin).mpr fun hne => ?_⟩
    have hb1 : better s px (px + dir * (j + 1)) = true := by
      rcases hdir with ⟨rfl, rfl⟩ | ⟨rfl, rfl⟩ <;> simp only [better, decide_eq_true_eq] <;> lia
    have hb2 := hfirst _ hne hb1
    rcases hdir with ⟨rfl, rfl⟩ | ⟨rfl, rfl⟩ <;>
      simp only [better, decide_eq_false_iff_not, not_lt] at hb2 <;> lia
  · rw [← hk]
    exact hqb
  · rw [← hk]
    by_contra hbad
    exact (hlev q hqb).mp (by simpa using hbad) hq

/-- MarkLevelEmptied terminates inside the ladder and leaves the touch exact. -/
theorem markLevelEmptied_spec {b : OrderBook} {ne : Side → Price → Prop} {s : Side} {px : Price}
    (h : b.Touched fun s' p => ne s' p ∨ (s' = s ∧ p = px)) (hne : ¬ ne s px)
    (hsmall : b.live s < 2 ^ 64) (hpx : b.inBand px = true) (hband : ∀ p, ne s p → b.inBand p = true)
    (hlev : ∀ p, b.inBand p = true → ((b.levels s (b.idx p)).empty = true ↔ ¬ ne s p)) :
    ∃ b', b.markLevelEmptied s px = some b' ∧ b'.Touched ne ∧ b.SameButTouch b' := by
  obtain ⟨S, hS, hc, hbest⟩ := h s
  have hpS : px ∈ S := (hS px).mpr (.inr ⟨rfl, rfl⟩)
  have hS' : ∀ p, p ∈ S.erase px ↔ ne s p := by
    intro p
    rw [Finset.mem_erase, hS]
    constructor
    · rintro ⟨hpp, hn | ⟨-, rfl⟩⟩
      · exact hn
      · exact absurd rfl hpp
    · exact fun hn => ⟨fun hpp => hne (hpp ▸ hn), .inl hn⟩
  obtain ⟨n, hn⟩ : ∃ n, subWord 64 (b.live s) 1 = n := ⟨_, rfl⟩
  have hcard : n = (S.erase px).card := by
    rw [← hn, subWord_of_le (hc ▸ Finset.card_pos.mpr ⟨px, hpS⟩) hsmall, hc,
      Finset.card_erase_of_mem hpS]
  obtain ⟨hbS, hbB⟩ := hbest ⟨px, hpS⟩
  -- the other side is untouched
  have hother : ∀ s', s' ≠ s → ∃ S : Finset Price, (∀ p, p ∈ S ↔ ne s' p) ∧ b.live s' = S.card ∧
      (S.Nonempty → b.best s' ∈ S ∧ ∀ p ∈ S, better s' p (b.best s') = false) := by
    intro s' hs'
    obtain ⟨S', h1, h2, h3⟩ := h s'
    exact ⟨S', fun p => (h1 p).trans (by simp [hs']), h2, h3⟩
  by_cases hrepair : 0 < n ∧ px = b.best s
  · obtain ⟨q, hqS, hqB⟩ := exists_best s (Finset.card_pos.mp (hcard ▸ hrepair.1))
    have hqne := (hS' q).mp hqS
    have hworse : better s px q = true := by
      by_contra hbad
      have hpq := eq_of_not_better (hrepair.2 ▸ hbB q (Finset.mem_of_mem_erase hqS))
        (by simpa using hbad)
      exact Finset.ne_of_mem_erase hqS hpq
    cases s with
    | buy =>
      have hscan := scanLevels_reaches (b := { b with liveBidLevels := n })
        (.inl ⟨rfl, rfl⟩) hpx hlev (hband q hqne) hqne hworse
        fun p hp _ => hqB p ((hS' p).mpr hp)
      refine ⟨{ b with liveBidLevels := n, bestBidPx := q }, ?_, fun s' => ?_,
        rfl, rfl, rfl, rfl, rfl, rfl⟩
      · simp only [live, best] at hn hrepair
        simp only [markLevelEmptied, hn]
        rw [if_pos hrepair, hscan]
        rfl
      · cases s' with
        | buy => exact ⟨S.erase px, hS', hcard, fun _ => ⟨hqS, hqB⟩⟩
        | sell => exact hother .sell (by decide)
    | sell =>
      have hscan := scanLevels_reaches (b := { b with liveAskLevels := n })
        (.inr ⟨rfl, rfl⟩) hpx hlev (hband q hqne) hqne hworse
        fun p hp _ => hqB p ((hS' p).mpr hp)
      refine ⟨{ b with liveAskLevels := n, bestAskPx := q }, ?_, fun s' => ?_,
        rfl, rfl, rfl, rfl, rfl, rfl⟩
      · simp only [live, best] at hn hrepair
        simp only [markLevelEmptied, hn]
        rw [if_pos hrepair, hscan]
        rfl
      · cases s' with
        | buy => exact hother .buy (by decide)
        | sell => exact ⟨S.erase px, hS', hcard, fun _ => ⟨hqS, hqB⟩⟩
  · -- no repair: the side is now empty, or another level carries the touch
    have hkeep : (S.erase px).Nonempty →
        b.best s ∈ S.erase px ∧ ∀ p ∈ S.erase px, better s p (b.best s) = false := by
      intro hnon
      have hpos : 0 < n := hcard ▸ Finset.card_pos.mpr hnon
      exact ⟨Finset.mem_erase.mpr ⟨fun he => hrepair ⟨hpos, he.symm⟩, hbS⟩,
        fun p hp => hbB p (Finset.mem_of_mem_erase hp)⟩
    cases s with
    | buy =>
      refine ⟨{ b with liveBidLevels := n }, ?_, fun s' => ?_,
        rfl, rfl, rfl, rfl, rfl, rfl⟩
      · simp only [live, best] at hn hrepair
        simp only [markLevelEmptied, hn]
        rw [if_neg hrepair]
        rfl
      · cases s' with
        | buy => exact ⟨S.erase px, hS', hcard, hkeep⟩
        | sell => exact hother .sell (by decide)
    | sell =>
      refine ⟨{ b with liveAskLevels := n }, ?_, fun s' => ?_,
        rfl, rfl, rfl, rfl, rfl, rfl⟩
      · simp only [live, best] at hn hrepair
        simp only [markLevelEmptied, hn]
        rw [if_neg hrepair]
        rfl
      · cases s' with
        | buy => exact hother .buy (by decide)
        | sell => exact ⟨S.erase px, hS', hcard, hkeep⟩

/-- After a removal the level is either still occupied or its loss is repaired. -/
theorem repairLevel_spec {b : OrderBook} {ne : Side → Price → Prop} {s : Side} {px : Price}
    (h : b.Touched fun s' p => ne s' p ∨ (s' = s ∧ p = px)) (hsmall : b.live s < 2 ^ 64)
    (hpx : b.inBand px = true) (hband : ∀ p, ne s p → b.inBand p = true)
    (hlev : ∀ p, b.inBand p = true → ((b.levels s (b.idx p)).empty = true ↔ ¬ ne s p)) :
    ∃ b', (if (b.levels s (b.idx px)).empty then b.markLevelEmptied s px else pure b) = some b' ∧
      b'.Touched ne ∧ b.SameButTouch b' := by
  split_ifs with hemp
  · exact markLevelEmptied_spec h ((hlev px hpx).mp hemp) hsmall hpx hband hlev
  · have hne : ne s px := by
      by_contra hno
      exact hemp ((hlev px hpx).mpr hno)
    refine ⟨b, rfl, h.congr (fun _ => rfl) (fun _ => rfl) fun s' p => ?_, rfl, rfl, rfl, rfl, rfl, rfl⟩
    rw [or_iff_left_of_imp]
    rintro ⟨rfl, rfl⟩
    exact hne

end OrderBook
end ExecutionPlatform.Core
