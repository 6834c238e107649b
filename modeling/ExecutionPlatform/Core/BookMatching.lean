import ExecutionPlatform.Core.SoldOut

/-! The matching loops against the reference book: one pass of ConsumeLevel is one fill
of the reference, a drained level repairs the touch, and the loops run to the end. -/
namespace ExecutionPlatform.Core
open Foundations
namespace OrderBook

/-- The orders in the slots rs. -/
def resting (b : OrderBook) (rs : List Nat) : List Resting :=
  rs.map fun i => (b.slab.storage i).resting

theorem resting_split (b : OrderBook) (l r : List Nat) (i : Nat) :
    b.resting (l ++ i :: r) = b.resting l ++ (b.slab.storage i).resting :: b.resting r := by
  simp [resting]

/-- The two books have one geometry. -/
structure SameShape (b b' : OrderBook) : Prop where
  minPrice : b'.minPrice = b.minPrice
  maxPrice : b'.maxPrice = b.maxPrice
  capacity : b'.slab.capacity = b.slab.capacity

/-- The two books agree in their geometry and their cached touch. -/
structure SameTouch (b b' : OrderBook) : Prop extends SameShape b b' where
  live : ∀ s, b'.live s = b.live s
  best : ∀ s, b'.best s = b.best s

section Frames
variable {b b' b'' : OrderBook}

theorem SameShape.refl (b : OrderBook) : b.SameShape b := ⟨rfl, rfl, rfl⟩

theorem SameShape.trans (h : b.SameShape b') (h' : b'.SameShape b'') : b.SameShape b'' :=
  ⟨h'.minPrice.trans h.minPrice, h'.maxPrice.trans h.maxPrice, h'.capacity.trans h.capacity⟩

theorem SameShape.inBand (h : b.SameShape b') (px : Price) : b'.inBand px = b.inBand px := by
  rw [OrderBook.inBand, OrderBook.inBand, h.minPrice, h.maxPrice]

theorem SameTouch.refl (b : OrderBook) : b.SameTouch b := ⟨.refl b, fun _ => rfl, fun _ => rfl⟩

theorem SameTouch.trans (h : b.SameTouch b') (h' : b'.SameTouch b'') : b.SameTouch b'' :=
  ⟨h.toSameShape.trans h'.toSameShape, fun s => (h'.live s).trans (h.live s),
    fun s => (h'.best s).trans (h.best s)⟩

theorem SameButTouch.shape (h : b.SameButTouch b') : b.SameShape b' :=
  ⟨h.2.1, h.2.2.1, by rw [h.1]⟩

end Frames

/-- Rewriting one level, the slab and the index leaves the touch. -/
private theorem sameTouch_setLevel (b : OrderBook) (s : Side) (px : Price) (lvl : LevelFIFO)
    {slab : SlabAllocator Order} (index : IdIndex) (hc : slab.capacity = b.slab.capacity) :
    b.SameTouch { b.setLevel s px lvl with slab := slab, index := index } :=
  ⟨⟨setLevel_minPrice .., setLevel_maxPrice .., hc⟩, fun s' => setLevel_live b s s' px lvl,
    fun s' => setLevel_best b s s' px lvl⟩

theorem Linked.withIndex {b : OrderBook} {rs : List Nat} (h : b.Linked rs) (index : IdIndex) :
    ({ b with index := index } : OrderBook).Linked rs := ⟨h.slab, h.band, h.level⟩

theorem Queued.withIndex {b b' : OrderBook} {q q' : OrderId → List Nat} (h : b.Queued q)
    (hcap : b'.index.idCapacity = b.index.idCapacity) (hQ : b'.index.Queues q')
    (hroom : b'.index.Roomy) (hc : b'.slab.capacity = b.slab.capacity) : b'.Queued q' :=
  ⟨hQ, hroom, by rw [hcap, hc]; exact h.spare⟩

/-- LookupAndEraseId forgets the oldest slot of the id, if there is one. -/
theorem Queued.erase {b : OrderBook} {q : OrderId → List Nat} (h : b.Queued q) (i : Nat) :
    ∃ index, b.index.lookupAndEraseId (b.slab.storage i).id =
        some ((q (b.slab.storage i).id).head?, index) ∧
      index.idCapacity = b.index.idCapacity ∧ index.Queues (b.unqueue [i] q) ∧ index.Roomy := by
  obtain ⟨id, hid⟩ : ∃ id, (b.slab.storage i).id = id := ⟨_, rfl⟩
  have hself : b.unqueue [i] q id = (q id).tail := by simp [unqueue, hid]
  have hother : ∀ k, k ≠ id → b.unqueue [i] q k = q k := fun k hk => by
    simp [unqueue, hid, Ne.symm hk]
  rw [hid]
  cases hq : q id with
  | nil =>
    refine ⟨b.index, IdIndex.lookupAndEraseId_absent id h.queues hq h.roomy, rfl,
      h.queues.congr fun k => ?_, h.roomy⟩
    by_cases hk : k = id
    · rw [hk, hself, hq]
      rfl
    · exact (hother k hk).symm
  | cons o os =>
    obtain ⟨index, he, hcap, hQ, hroom⟩ := IdIndex.lookupAndEraseId_present h.queues hq h.roomy
    refine ⟨index, he, hcap, hQ.congr fun k => ?_, hroom⟩
    by_cases hk : k = id
    · rw [hk, hself, hq, Function.update_self]
      rfl
    · rw [Function.update_of_ne hk, hother k hk]

section Remove
variable {b : OrderBook} {mem : Nat → Order} {l r : List Nat} {i : Nat} {s : Side} {px : Price}

theorem levelQueue_remove_self (hs : (mem i).side = s) (hp : (mem i).price = px) :
    levelQueue mem (l ++ i :: r) s px = levelQueue mem l s px ++ i :: levelQueue mem r s px := by
  subst hs hp
  rw [levelQueue_append, levelQueue_cons_self]

theorem levelQueue_remove_other (h : ¬ ((mem i).side = s ∧ (mem i).price = px)) :
    levelQueue mem (l ++ r) s px = levelQueue mem (l ++ i :: r) s px := by
  rw [levelQueue_append, levelQueue_append, levelQueue_cons_other h]

/-- A node leaves its level and the slab: what popping a maker and cancelling share. -/
theorem Linked.remove (h : b.Linked (l ++ i :: r)) {lvl : LevelFIFO} {s1 s2 : SlabAllocator Order}
    (hos : (b.slab.storage i).side = s) (hop : (b.slab.storage i).price = px)
    (hs2 : s2.Holds (l ++ r))
    (hlvl : LevelHolds s1.storage lvl
      (levelQueue b.slab.storage l s px ++ levelQueue b.slab.storage r s px))
    (hrest : ∀ j, (s1.storage j).resting = (b.slab.storage j).resting)
    (hoff : ∀ j, j ∉ levelQueue b.slab.storage l s px ++ levelQueue b.slab.storage r s px →
      s1.storage j = b.slab.storage j)
    (hm2 : ∀ j, j ≠ i → s2.storage j = s1.storage j) :
    ({ b.setLevel s px lvl with slab := s2 } : OrderBook).Linked (l ++ r) := by
  have hi : i ∉ l ++ r := (List.nodup_cons.mp (List.nodup_middle.mp h.nodup)).1
  have hmem : ∀ j ∈ l ++ r, j ∈ l ++ i :: r := fun _ hj =>
    ((List.sublist_cons_self i r).append_left l).subset hj
  have hrest2 : ∀ j ∈ l ++ r, (s2.storage j).resting = (b.slab.storage j).resting := fun j hj => by
    rw [hm2 j (ne_of_mem_of_not_mem hj hi), hrest]
  have hqueue : ∀ s px, levelQueue s2.storage (l ++ r) s px =
      levelQueue b.slab.storage (l ++ r) s px := fun s px =>
    levelQueue_congr (fun j hj => congrArg Resting.side (hrest2 j hj))
      fun j hj => congrArg Resting.price (hrest2 j hj)
  refine h.replaceLevel (hop ▸ h.band i (by simp)) hs2 (fun j hj => ?_) ?_ fun s' px' hother => ?_
  · rw [show (s2.storage j).price = _ from congrArg Resting.price (hrest2 j hj)]
    exact h.band j (hmem j hj)
  · rw [hqueue, levelQueue_append]
    refine hlvl.congr fun j hj => hm2 j fun hc => hi ?_
    rw [← levelQueue_append] at hj
    exact hc ▸ (mem_levelQueue.mp hj).1
  · have hne : ¬ ((b.slab.storage i).side = s' ∧ (b.slab.storage i).price = px') := fun hc =>
      hother ⟨hc.1.symm.trans hos, hc.2.symm.trans hop⟩
    rw [hqueue, levelQueue_remove_other hne]
    refine ⟨rfl, fun j hj => ?_⟩
    rw [← levelQueue_remove_other hne] at hj
    obtain ⟨hj1, hj2, hj3⟩ := mem_levelQueue.mp hj
    rw [hm2 j (ne_of_mem_of_not_mem hj1 hi)]
    refine hoff j fun hc => hother ?_
    rw [← levelQueue_append] at hc
    obtain ⟨-, h1, h2⟩ := mem_levelQueue.mp hc
    exact ⟨hj2.symm.trans h1, hj3.symm.trans h2⟩

end Remove

/-- A maker filled to zero leaves the head of its level, the index and the slab. -/
theorem popMaker_spec {b : OrderBook} {l r c : List Nat} {i : Nat} {s : Side} {px : Price}
    {q : OrderId → List Nat} (hl : b.Linked (l ++ i :: r)) (hx : b.Queued q)
    (hq : levelQueue b.slab.storage (l ++ i :: r) s px = i :: c)
    (hz : (b.slab.storage i).qty = 0) :
    ∃ b', b.popMaker s px i = some b' ∧ b'.Linked (l ++ r) ∧ b'.Queued (b.unqueue [i] q) ∧
      b.SameTouch b' ∧ ∀ j ∈ l ++ r, (b'.slab.storage j).resting = (b.slab.storage j).resting := by
  have hi : i ∈ l ++ i :: r := by simp
  have hni : i ∉ l ++ r := (List.nodup_cons.mp (List.nodup_middle.mp hl.nodup)).1
  obtain ⟨-, hos, hop⟩ := mem_levelQueue.mp (hq ▸ List.mem_cons_self :
    i ∈ levelQueue b.slab.storage (l ++ i :: r) s px)
  have hb : b.inBand px = true := hop ▸ hl.band i hi
  have hlvl := hl.level s px hb
  have hd : (levelQueue b.slab.storage (l ++ i :: r) s px).Nodup := levelQueue_nodup hl.nodup
  have hcin : ∀ j ∈ c, j ∈ l ++ i :: r := fun j hj => (mem_levelQueue.mp
    (hq ▸ List.mem_cons_of_mem i hj : j ∈ levelQueue b.slab.storage (l ++ i :: r) s px)).1
  -- the head has no order of its level before it
  have hl0 : levelQueue b.slab.storage l s px ++ levelQueue b.slab.storage r s px = c := by
    rw [levelQueue_remove_self hos hop] at hq
    cases hlq : levelQueue b.slab.storage l s px with
    | nil =>
      rw [hlq] at hq
      exact List.cons.inj hq |>.2
    | cons a t =>
      rw [hlq] at hq
      obtain rfl : a = i := (List.cons.inj hq).1
      have : a ∈ levelQueue b.slab.storage l _ _ := hlq ▸ List.mem_cons_self
      exact absurd (List.mem_append_left r (mem_levelQueue.mp this).1) hni
  rw [hq] at hlvl hd
  have hic : i ∉ c := (List.nodup_cons.mp hd).1
  have hnext : (b.slab.storage i).next = c.head? := (hlvl.links [] i c rfl).2
  obtain ⟨lvl, hlv⟩ : ∃ lvl, b.levels s (b.idx px) = lvl := ⟨_, rfl⟩
  rw [hlv] at hlvl
  obtain ⟨s1, he1, hs1, hc1, hm1⟩ := linkBackward_spec { lvl with head := c.head? } none c.head?
    hl.slab fun j hj => hcin j (List.mem_of_head? hj)
  have hi1 : s1.storage i = b.slab.storage i := by
    rw [hm1, if_neg fun hc => hic (List.mem_of_head? hc)]
  have hrest1 : ∀ j, (s1.storage j).resting = (b.slab.storage j).resting := by
    intro j
    rw [hm1]
    split_ifs <;> rfl
  obtain ⟨index, hix, hcap, hQ, hroom⟩ := hx.erase i
  obtain ⟨s2, he2, hs2, hc2, hm2⟩ := SlabAllocator.deallocate_spec hs1
  have hrest2 : ∀ j, j ≠ i → (s2.storage j).resting = (b.slab.storage j).resting := fun j hj => by
    rw [hm2 j hj, hrest1]
  have hrun : b.popMaker s px i =
      some { b.setLevel s px { ({ lvl with head := c.head? } : LevelFIFO).tailFrom c.head? none with
          orderCount := subWord 32 lvl.orderCount 1 } with
        slab := s2, index := index } := by
    simp only [popMaker, SlabAllocator.load_live hl.slab hi, levelAt_of_inBand hb, hlv, hnext, he1,
      Option.bind_eq_bind, Option.bind_some, SlabAllocator.load_live hs1 hi, hi1, setLevel_index,
      hix, he2, tailFrom_orderCount]
    rfl
  refine ⟨_, hrun, ?_, ?_, sameTouch_setLevel _ _ _ _ _ (hc2.trans hc1), ?_⟩
  · refine (hl.remove hos hop hs2 ?_ hrest1 ?_ hm2).withIndex index
    · rw [hl0]
      refine LevelHolds.remove (l := []) hlvl hd (fun j _ => hrest1 j) (fun j _ => ?_)
        (fun j _ => ?_) ?_ ?_ ?_ ?_
      · rw [hm1]
        split_ifs <;> rfl
      · rw [hm1]
        simp only [List.getLast?_nil, reduceCtorEq, if_false]
        split_ifs <;> rfl
      · rw [tailFrom_head]
        rfl
      · have ht := hlvl.tail
        rw [tailFrom_tail, ht]
        cases c <;> simp
      · have ht := hlvl.total
        rw [tailFrom_totalQty, hz, ht, ← Nat.add_zero (List.sum _), subWord_mod]
        rfl
      · rfl
    · intro j hj
      rw [hl0] at hj
      rw [hm1, if_neg fun hc => hj (List.mem_of_head? hc)]
  · exact hx.withIndex hcap hQ hroom (hc2.trans hc1)
  · exact fun j hj => hrest2 j (ne_of_mem_of_not_mem hj hni)

private theorem sum_qty_fill (mem mem' : Nat → Order) (c : List Nat) {i : Nat} {fill : Quantity}
    (hle : fill ≤ (mem i).qty) (hi : (mem' i).qty = (mem i).qty - fill)
    (hc : ∀ j ∈ c, mem' j = mem j) :
    ((i :: c).map fun j => (mem j).qty).sum = ((i :: c).map fun j => (mem' j).qty).sum + fill := by
  have hmap : c.map (fun j => (mem' j).qty) = c.map (fun j => (mem j).qty) :=
    List.map_congr_left fun j hj => by rw [hc j hj]
  simp only [List.map_cons, List.sum_cons, hmap, hi]
  lia

/-- The book after a fill, the filled maker still on its level. -/
def afterFill (b : OrderBook) (s : Side) (px : Price) (i : Nat) (fill : Quantity) : OrderBook :=
  let m := b.slab.storage i
  let lvl := b.levels s (b.idx px)
  { b.setLevel s px { lvl with totalQty := subWord 64 lvl.totalQty fill } with
    slab := { b.slab with
      storage := Function.update b.slab.storage i { m with qty := m.qty - fill } } }

/-- A fill changes one residual and nothing else about any node. -/
private theorem afterFill_storage (b : OrderBook) (s : Side) (px : Price) (i : Nat) (fill : Quantity)
    (j : Nat) : (b.afterFill s px i fill).slab.storage j = { b.slab.storage j with
      qty := if j = i then (b.slab.storage j).qty - fill else (b.slab.storage j).qty } := by
  rw [afterFill]
  by_cases hji : j = i
  · subst hji
    simp
  · simp [hji]

private theorem afterFill_spec {b : OrderBook} {rs c : List Nat} {i : Nat} {s : Side} {px : Price}
    {q : OrderId → List Nat} (fill : Quantity) (hl : b.Linked rs) (hx : b.Queued q)
    (hq : levelQueue b.slab.storage rs s px = i :: c) (hle : fill ≤ (b.slab.storage i).qty) :
    (b.afterFill s px i fill).Linked rs ∧ (b.afterFill s px i fill).Queued q ∧
      b.SameTouch (b.afterFill s px i fill) ∧
      levelQueue (b.afterFill s px i fill).slab.storage rs s px = i :: c := by
  have hmem := afterFill_storage b s px i fill
  obtain ⟨hi, hside, hprice⟩ := mem_levelQueue.mp (hq ▸ List.mem_cons_self :
    i ∈ levelQueue b.slab.storage rs s px)
  have hb : b.inBand px = true := hprice ▸ hl.band i hi
  have hlvl := hl.level s px hb
  have hd : (levelQueue b.slab.storage rs s px).Nodup := levelQueue_nodup hl.nodup
  rw [hq] at hlvl hd
  have hqueue : ∀ s' p, levelQueue (b.afterFill s px i fill).slab.storage rs s' p =
      levelQueue b.slab.storage rs s' p :=
    fun s' p => levelQueue_congr (fun j _ => by rw [hmem]) fun j _ => by rw [hmem]
  have hindex : (b.afterFill s px i fill).index = b.index := setLevel_index ..
  refine ⟨?_, hx.withIndex (by rw [hindex]) (hindex ▸ hx.queues) (hindex ▸ hx.roomy) rfl,
    sameTouch_setLevel b s px _ _ rfl, (hqueue s px).trans hq⟩
  · refine hl.replaceLevel hb (hl.slab.update hi _) (fun j hj => ?_) ?_ fun s' p hsp => ?_
    · change b.inBand ((b.afterFill s px i fill).slab.storage j).price = true
      rw [hmem]
      exact hl.band j hj
    · have hsum := sum_qty_fill b.slab.storage (b.afterFill s px i fill).slab.storage c hle (by simp [hmem])
        fun j hj => by
          have hji : j ≠ i := fun hc => (List.nodup_cons.mp hd).1 (hc ▸ hj)
          simp [hmem, hji]
      change LevelHolds (b.afterFill s px i fill).slab.storage _
        (levelQueue (b.afterFill s px i fill).slab.storage rs s px)
      rw [hqueue, hq]
      refine ⟨hlvl.head, hlvl.tail, hlvl.links.congr (fun j _ => by rw [hmem])
        (fun j _ => by rw [hmem]), ?_, hlvl.count⟩
      change subWord 64 (b.levels s (b.idx px)).totalQty fill = _
      rw [hlvl.total, hsum, subWord_mod]
    · refine ⟨hqueue s' p, fun j hj => ?_⟩
      obtain ⟨-, h1, h2⟩ := mem_levelQueue.mp hj
      have hji : j ≠ i := by
        rintro rfl
        exact hsp ⟨h1.symm.trans hside, h2.symm.trans hprice⟩
      exact Function.update_of_ne hji ..

/-- A fill of the head of a level: at zero it leaves, otherwise it keeps its place. -/
inductive Filled (b : OrderBook) (l r : List Nat) (i : Nat) (remaining : Quantity)
    (b' : OrderBook) : List Nat → List Nat → Prop
  | popped (h : (b.slab.storage i).qty ≤ remaining) : Filled b l r i remaining b' [i] (l ++ r)
  | kept (h : remaining < (b.slab.storage i).qty) (hi : (b'.slab.storage i).resting =
      { (b.slab.storage i).resting with residual := (b.slab.storage i).qty - remaining }) :
      Filled b l r i remaining b' [] (l ++ i :: r)

/-- One pass of ConsumeLevel fills the head of the level and drops it at zero. -/
theorem fillMaker_spec {b : OrderBook} {rs c : List Nat} {i : Nat} {taker : Side} {px : Price}
    {q : OrderId → List Nat} (takerId : OrderId) (remaining : Quantity) (hl : b.Linked rs)
    (hx : b.Queued q) (hq : levelQueue b.slab.storage rs taker.opposite px = i :: c) :
    ∃ b' rs' l r gone, rs = l ++ i :: r ∧ levelQueue b.slab.storage l taker.opposite px = [] ∧
      b.fillMaker takerId taker px i remaining = some (b',
        remaining - min remaining (b.slab.storage i).qty, ⟨(b.slab.storage i).id, takerId, px,
          min remaining (b.slab.storage i).qty, taker⟩) ∧
      b'.Linked rs' ∧ b'.Queued (b.unqueue gone q) ∧ b.SameTouch b' ∧
      b'.resting rs' = b.resting l ++ (b.slab.storage i).resting.leftover
        (min remaining (b.slab.storage i).qty) ++ b.resting r ∧
      (∀ j ∈ l ++ r, (b'.slab.storage j).resting = (b.slab.storage j).resting) ∧
      Filled b l r i remaining b' gone rs' := by
  obtain ⟨l, r, rfl, hlq, hmi, -⟩ := List.filter_eq_cons_iff.mp hq
  have hlq : levelQueue b.slab.storage l taker.opposite px = [] := List.filter_eq_nil_iff.mpr hlq
  have hi : i ∈ l ++ i :: r := by simp
  have hni : i ∉ l ++ r := (List.nodup_cons.mp (List.nodup_middle.mp hl.nodup)).1
  have hb : b.inBand px = true := by
    have hpx : (b.slab.storage i).side = taker.opposite ∧ (b.slab.storage i).price = px := by
      simpa using hmi
    exact hpx.2 ▸ hl.band i hi
  obtain ⟨fill, hfill⟩ : ∃ f, min remaining (b.slab.storage i).qty = f := ⟨_, rfl⟩
  obtain ⟨hl1, hx1, hst1, hq1⟩ := afterFill_spec fill hl hx hq (by lia)
  have hmem := afterFill_storage b taker.opposite px i fill
  have hrest : ∀ j, j ≠ i → ((b.afterFill taker.opposite px i fill).slab.storage j).resting =
      (b.slab.storage j).resting := fun j hj => by
    rw [hmem]
    simp [Order.resting, hj]
  have hparts : ∀ b' : OrderBook, (∀ j ∈ l ++ r, (b'.slab.storage j).resting =
      ((b.afterFill taker.opposite px i fill).slab.storage j).resting) →
      (∀ j ∈ l ++ r, (b'.slab.storage j).resting = (b.slab.storage j).resting) ∧
        b'.resting l = b.resting l ∧ b'.resting r = b.resting r := by
    intro b' h
    have hj : ∀ j ∈ l ++ r, (b'.slab.storage j).resting = (b.slab.storage j).resting :=
      fun j hj => (h j hj).trans (hrest j (ne_of_mem_of_not_mem hj hni))
    exact ⟨hj, List.map_congr_left fun j hm => hj j (List.mem_append_left r hm),
      List.map_congr_left fun j hm => hj j (List.mem_append_right l hm)⟩
  have hstart : b.fillMaker takerId taker px i remaining =
      if (b.slab.storage i).qty - fill = 0 then
        ((b.afterFill taker.opposite px i fill).popMaker taker.opposite px i).map
          fun b' => (b', remaining - fill, ⟨(b.slab.storage i).id, takerId, px, fill, taker⟩)
      else some (b.afterFill taker.opposite px i fill, remaining - fill,
        ⟨(b.slab.storage i).id, takerId, px, fill, taker⟩) := by
    simp only [fillMaker, SlabAllocator.load_live hl.slab hi, SlabAllocator.store_live hl.slab hi,
      levelAt_of_inBand hb, hfill, Option.bind_eq_bind, Option.bind_some]
    split_ifs
    · rw [Option.map_eq_bind]
      rfl
    · rfl
  rw [hfill, hstart]
  split_ifs with hz
  · -- the maker is exhausted
    obtain ⟨b', he, hl', hx', hst', hrest'⟩ := popMaker_spec hl1 hx1 hq1 (by simp [hmem, hz])
    obtain ⟨hsame, hbl, hbr⟩ := hparts b' hrest'
    have hids : ∀ k, (b.afterFill taker.opposite px i fill).unqueue [i] q k = b.unqueue [i] q k :=
      fun k => by simp only [unqueue, hmem]
    refine ⟨b', l ++ r, l, r, [i], rfl, hlq, by rw [he]; rfl, hl', hx'.congr hids, hst1.trans hst', ?_,
      hsame, .popped (by lia)⟩
    have hgone : (b.slab.storage i).resting.leftover fill = [] := if_pos hz
    rw [hgone, List.append_nil, ← hbl, ← hbr]
    exact List.map_append
  · obtain ⟨hsame, hbl, hbr⟩ := hparts _ fun j _ => rfl
    have hlt : remaining < (b.slab.storage i).qty := by lia
    refine ⟨_, l ++ i :: r, l, r, [], rfl, hlq, rfl, hl1, hx1, hst1, ?_, hsame, .kept hlt ?_⟩
    · have hleft : (b.slab.storage i).resting.leftover fill =
          [((b.afterFill taker.opposite px i fill).slab.storage i).resting] := by
        rw [hmem]
        simp [Resting.leftover, Order.resting, hz]
      rw [hleft, ← hbl, ← hbr]
      simp [resting]
    · rw [hmem, if_pos rfl, ← hfill, Nat.min_eq_left hlt.le]
      rfl

theorem occupied_iff {b : OrderBook} {rs : List Nat} {s : Side} {px : Price} :
    b.occupied rs s px ↔ ∃ o ∈ b.resting rs, o.side = s ∧ o.price = px := by
  simp [occupied, levelQueue, resting, Order.resting]

/-- A fill of the first maker takes it out of the book, or nobody. -/
theorem Filled.leaves {b b' : OrderBook} {l r gone rs' c : List Nat} {i : Nat} {taker : Side}
    {limit px : Price} {remaining : Quantity} (h : Filled b l r i remaining b' gone rs')
    (hl : b.Linked (l ++ i :: r)) (hl' : b'.Linked rs') (hst : b.SameShape b')
    (hsame : ∀ j ∈ l ++ r, (b'.slab.storage j).resting = (b.slab.storage j).resting)
    (hq : levelQueue b.slab.storage (l ++ i :: r) taker.opposite px = i :: c)
    (hbest : ∀ p, b.occupied (l ++ i :: r) taker.opposite p → better taker.opposite p px = false)
    (hc : crosses taker limit px = true) :
    Leaves taker limit b (l ++ i :: r) remaining gone b' rs'
      (remaining - min remaining (b.slab.storage i).qty) := by
  obtain ⟨-, hside, hprice⟩ := mem_levelQueue.mp (hq ▸ List.mem_cons_self :
    i ∈ levelQueue b.slab.storage (l ++ i :: r) taker.opposite px)
  obtain ⟨T, hT, hiT, hTrs, hT'⟩ := hl.makers_head hq hbest
  have hni : i ∉ l ++ r := (List.nodup_cons.mp (List.nodup_middle.mp hl.nodup)).1
  have hTlr : ∀ j ∈ T, j ∈ l ++ r := fun j hj => by
    have hji : j ≠ i := ne_of_mem_of_not_mem hj hiT
    simpa [hji] using hTrs j hj
  cases h with
  | popped hle =>
    have hkeep : ∀ p, levelQueue b'.slab.storage (l ++ r) taker.opposite p =
        levelQueue b.slab.storage (l ++ r) taker.opposite p := fun p =>
      levelQueue_congr (fun j hj => congrArg Resting.side (hsame j hj))
        fun j hj => congrArg Resting.price (hsame j hj)
    have hmakers : b'.makers taker.opposite = T := by
      refine (hT' b' (l ++ r) hl' hst.minPrice hst.maxPrice fun p hp => ?_).2 ?_
      · rw [hkeep]
        exact levelQueue_remove_other fun hc => hp (hc.2.symm.trans hprice)
      · have hhead := levelQueue_remove_self (l := l) (r := r) hside hprice
        rw [hq] at hhead
        rw [hkeep, levelQueue_append]
        cases hll : levelQueue b.slab.storage l taker.opposite px with
        | nil =>
          rw [hll] at hhead
          exact (List.cons.inj hhead).2.symm
        | cons a t =>
          rw [hll] at hhead
          obtain rfl : i = a := (List.cons.inj hhead).1
          have hin : i ∈ levelQueue b.slab.storage l taker.opposite px := hll ▸ List.mem_cons_self
          exact absurd (List.mem_append_left r (mem_levelQueue.mp hin).1) hni
    refine ⟨?_, fun j hj => by simp [List.mem_singleton.mp hj], List.nodup_singleton i,
      fun j hj => congrArg Resting.id (hsame j hj), fun j => ?_⟩
    · have hdrop : ∀ m : List Nat, i ∉ m → m.filter (fun j => decide (j ∉ [i])) = m := fun m hm =>
        List.filter_eq_self.mpr fun j hj => by simpa using ne_of_mem_of_not_mem hj hm
      rw [List.filter_append, List.filter_cons_of_neg (by simp), ← List.filter_append, hdrop _ hni]
    · rw [Nat.min_eq_right hle, List.mem_singleton]
      exact soldOut_pop hT hiT hmakers (fun j hj => hsame j (hTlr j hj)) (hprice ▸ hc) hle
  | kept hlt hi =>
    have hall : ∀ j ∈ l ++ i :: r, (b'.slab.storage j).id = (b.slab.storage j).id ∧
        (b'.slab.storage j).side = (b.slab.storage j).side ∧
        (b'.slab.storage j).price = (b.slab.storage j).price := by
      intro j hj
      by_cases hji : j = i
      · subst hji
        exact ⟨congrArg Resting.id hi, congrArg Resting.side hi, congrArg Resting.price hi⟩
      · have hjr := hsame j (by simpa [hji] using hj)
        exact ⟨congrArg Resting.id hjr, congrArg Resting.side hjr, congrArg Resting.price hjr⟩
    have hkeep : ∀ p, levelQueue b'.slab.storage (l ++ i :: r) taker.opposite p =
        levelQueue b.slab.storage (l ++ i :: r) taker.opposite p := fun p =>
      levelQueue_congr (fun j hj => (hall j hj).2.1) fun j hj => (hall j hj).2.2
    have hmakers := (hT' b' _ hl' hst.minPrice hst.maxPrice fun p _ => hkeep p).1 ((hkeep px).trans hq)
    have hleft : (b'.slab.storage i).qty = (b.slab.storage i).qty - remaining :=
      congrArg Resting.residual hi
    refine ⟨?_, fun j hj => absurd hj List.not_mem_nil, .nil, fun j hj => (hall j hj).1, fun j => ?_⟩
    · exact (List.filter_eq_self.mpr fun j _ => decide_eq_true List.not_mem_nil).symm
    · refine iff_of_false (not_soldOut_of_lt hT hlt) fun hno => ?_
      rcases hno with hno | hno
      · cases hno
      · exact not_soldOut_of_lt hmakers (by lia) hno

/-- One pass of ConsumeLevel on the best opposite level is one fill of the reference, and
changes what rests on that level only. -/
theorem fillMaker_takes {b : OrderBook} {rs c : List Nat} {i : Nat} {taker : Side} {limit px : Price}
    {remaining : Quantity} {q : OrderId → List Nat} (takerId : OrderId)
    (hc : crosses taker limit px = true) (hl : b.Linked rs) (hx : b.Queued q)
    (hq : levelQueue b.slab.storage rs taker.opposite px = i :: c)
    (hbest : ∀ o ∈ b.resting rs, o.side = taker.opposite →
      better taker.opposite o.price px = false) (hpos : 0 < remaining) :
    ∃ b' rs' remaining' f gone,
      b.fillMaker takerId taker px i remaining = some (b', remaining', f) ∧
      b'.Linked rs' ∧ b'.Queued (b.unqueue gone q) ∧ b.SameTouch b' ∧
      Leaves taker limit b rs remaining gone b' rs' remaining' ∧
      takeOne takerId taker limit (b.resting rs) remaining =
        some (b'.resting rs', remaining', f) ∧
      (∀ o ∈ b'.resting rs', o ∈ b.resting rs ∨ o.side = taker.opposite ∧ o.price = px) ∧
      ∀ s p, ¬ (s = taker.opposite ∧ p = px) → (b'.occupied rs' s p ↔ b.occupied rs s p) := by
  obtain ⟨b', rs', l, r, gone, rfl, hlq, he, hl', hx', hst, hrest, hsame, hfilled⟩ :=
    fillMaker_spec takerId remaining hl hx hq
  obtain ⟨-, hside, hprice⟩ := mem_levelQueue.mp (hq ▸ List.mem_cons_self :
    i ∈ levelQueue b.slab.storage (l ++ i :: r) taker.opposite px)
  have hpx : (b.slab.storage i).resting.price = px := hprice
  have hsplit := b.resting_split l r i
  have hkeep : ∀ o ∈ b'.resting rs', o ∈ b.resting (l ++ i :: r) ∨
      o.side = taker.opposite ∧ o.price = px := by
    intro o ho
    rw [hrest] at ho
    rw [hsplit]
    simp only [List.mem_append] at ho
    rcases ho with (ho | ho) | ho
    · exact .inl (by simp [ho])
    · rw [Resting.leftover] at ho
      split_ifs at ho
      · cases ho
      · obtain rfl := List.mem_singleton.mp ho
        exact .inr ⟨hside, hprice⟩
    · exact .inl (by simp [ho])
  have hleaves : Leaves taker limit b (l ++ i :: r) remaining gone b' rs'
      (remaining - min remaining (b.slab.storage i).qty) := by
    refine hfilled.leaves hl hl' hst.toSameShape hsame hq (fun p hp => ?_) hc
    obtain ⟨o, ho, hs, rfl⟩ := occupied_iff.mp hp
    exact hbest o ho hs
  refine ⟨b', rs', _, _, gone, he, hl', hx', hst, hleaves, ?_, hkeep, fun s p hsp => ?_⟩
  · rw [hsplit] at hbest ⊢
    rw [hrest, ← hprice]
    refine takeOne_eq_some hpos ?_ (fun o ho hs => ?_) fun o ho hs => ?_
    · simpa [Resting.crossedBy, Order.resting, hside, hprice] using hc
    · rw [hpx]
      exact hbest o (((List.sublist_cons_self _ _).append_left _).subset ho) hs
    · rw [hpx] at hs
      exact (occupied_iff.mpr ⟨o, ho, hs⟩) hlq
  · rw [occupied_iff, occupied_iff]
    constructor
    · rintro ⟨o, ho, rfl, rfl⟩
      exact ⟨o, (hkeep o ho).resolve_right hsp, rfl, rfl⟩
    · rintro ⟨o, ho, rfl, rfl⟩
      refine ⟨o, ?_, rfl, rfl⟩
      rw [hsplit] at ho
      rw [hrest]
      simp only [List.mem_append, List.mem_cons] at ho ⊢
      rcases ho with ho | rfl | ho
      · exact .inl (.inl ho)
      · exact absurd ⟨hside, hprice⟩ hsp
      · exact .inr ho

/-- ConsumeLevel on the best opposite level: a run of the reference's fills that ends
with the taker or the level exhausted and leaves the other levels alone. -/
theorem consumeLevel_spec (takerId : OrderId) (taker : Side) {limit px : Price}
    (hc : crosses taker limit px = true) (fuel : Nat) {b : OrderBook} {rs : List Nat}
    {remaining : Quantity} {q : OrderId → List Nat} (hl : b.Linked rs) (hx : b.Queued q)
    (hb : b.inBand px = true)
    (hbest : ∀ o ∈ b.resting rs, o.side = taker.opposite →
      better taker.opposite o.price px = false)
    (hfuel : 0 < fuel) (hfuel' : remaining = 0 ∨ rs.length < fuel) :
    ∃ b' rs' remaining' fs gone, consumeLevel takerId taker px fuel b remaining =
        some (b', remaining', fs) ∧
      b'.Linked rs' ∧ b'.Queued (b.unqueue gone q) ∧ b.SameTouch b' ∧
      Leaves taker limit b rs remaining gone b' rs' remaining' ∧
      Takes takerId taker limit (b.resting rs) remaining fs (b'.resting rs') remaining' ∧
      (remaining' = 0 ∨ ¬ b'.occupied rs' taker.opposite px) ∧
      ∀ s p, ¬ (s = taker.opposite ∧ p = px) → (b'.occupied rs' s p ↔ b.occupied rs s p) := by
  induction fuel generalizing b rs remaining q with
  | zero => lia
  | succ fuel ih =>
    rw [consumeLevel, levelAt_of_inBand hb, Option.bind_eq_bind, Option.bind_some,
      (hl.level taker.opposite px hb).head]
    cases hq : levelQueue b.slab.storage rs taker.opposite px with
    | nil =>
      exact ⟨b, rs, remaining, [], [], rfl, hl, hx, .refl b, .refl b rs remaining, .refl _ _,
        .inr fun ho => ho hq, fun _ _ _ => Iff.rfl⟩
    | cons i c =>
      simp only [List.head?_cons]
      split_ifs with hz
      · exact ⟨b, rs, remaining, [], [], rfl, hl, hx, .refl b, .refl b rs remaining, .refl _ _,
          .inl hz, fun _ _ _ => Iff.rfl⟩
      obtain ⟨b1, rs1, rem1, f, gone1, he1, hl1, hx1, hst1, hg1, ht1, hkeep, hoth1⟩ :=
        fillMaker_takes takerId hc hl hx hq hbest (Nat.pos_of_ne_zero hz)
      have hfuel1 : 0 < fuel ∧ (rem1 = 0 ∨ rs1.length < fuel) := by
        have hlen := (Takes.cons ht1 (.refl _ _)).length
        have hrs : 0 < rs.length := List.length_pos_of_mem
          (mem_levelQueue.mp (hq ▸ List.mem_cons_self : i ∈ levelQueue _ rs _ px)).1
        simp only [resting, List.length_map, List.length_cons, List.length_nil] at hlen
        lia
      obtain ⟨b2, rs2, rem2, fs, gone2, he2, hl2, hx2, hst2, hg2, ht2, hend, hoth2⟩ := ih hl1 hx1
        (by rw [hst1.toSameShape.inBand, hb])
        (fun o ho hs => (hkeep o ho).elim (fun h => hbest o h hs)
          fun h => by rw [h.2]; exact better_irrefl _ _)
        hfuel1.1 hfuel1.2
      refine ⟨b2, rs2, rem2, f :: fs, gone1 ++ gone2, ?_, hl2, hx2.congr (hg1.unqueue_trans hg2),
        hst1.trans hst2, hg1.trans hg2, .cons ht1 ht2, hend,
        fun s p hsp => (hoth2 s p hsp).trans (hoth1 s p hsp)⟩
      simp only [Option.bind_eq_bind, he1, Option.bind_some, he2]
      rfl

/-- The two outer loops, by the taker's side. -/
def matchOpposite (takerId : OrderId) (taker : Side) (limit : Price) (fuel : Nat) (b : OrderBook)
    (remaining : Quantity) : Option (OrderBook × Quantity × List Fill) :=
  match taker with
  | .buy => matchBuy takerId limit fuel b remaining
  | .sell => matchSell takerId limit fuel b remaining

theorem matchOpposite_succ (takerId : OrderId) (taker : Side) (limit : Price) (fuel : Nat)
    (b : OrderBook) (remaining : Quantity) :
    matchOpposite takerId taker limit (fuel + 1) b remaining =
      if (0 < remaining ∧ 0 < b.live taker.opposite) ∧
          crosses taker limit (b.best taker.opposite) = true then do
        let (b1, remaining, reports) ← consumeLevel takerId taker (b.best taker.opposite) b.passes b
          remaining
        let lvl ← b1.levelAt taker.opposite (b.best taker.opposite)
        let b2 ← (if lvl.empty then b1.markLevelEmptied taker.opposite (b.best taker.opposite)
          else pure b1)
        let (b3, remaining, rest) ← matchOpposite takerId taker limit fuel b2 remaining
        pure (b3, remaining, reports ++ rest)
      else pure (b, remaining, []) := by
  cases taker with
  | buy =>
    rw [matchOpposite, matchBuy]
    by_cases hlt : limit < b.bestAskPx
    · simp [crosses, best, Side.opposite, hlt, not_le.mpr hlt]
    · simp only [crosses, best, live, Side.opposite, hlt, decide_eq_true_eq, not_lt.mp hlt,
        and_true, if_false]
      rfl
  | sell =>
    rw [matchOpposite, matchSell]
    by_cases hlt : b.bestBidPx < limit
    · simp [crosses, best, Side.opposite, hlt, not_le.mpr hlt]
    · simp only [crosses, best, live, Side.opposite, hlt, decide_eq_true_eq, not_lt.mp hlt,
        and_true, if_false]
      rfl

theorem Sound.residual_pos {b : OrderBook} {rs : List Nat} (h : b.Sound rs) :
    ∀ o ∈ b.resting rs, 0 < o.residual := by
  intro o ho
  obtain ⟨i, hi, rfl⟩ := List.mem_map.mp ho
  exact h.qty i hi

theorem qty_pos_of_residual_pos {b : OrderBook} {rs : List Nat}
    (h : ∀ o ∈ b.resting rs, 0 < o.residual) : ∀ i ∈ rs, 0 < (b.slab.storage i).qty :=
  fun _ hi => h _ (List.mem_map_of_mem hi)

/-- The cached touch is the best price of the orders that rest. -/
theorem Sound.best_spec {b : OrderBook} {rs : List Nat} (h : b.Sound rs) {s : Side}
    (hlive : 0 < b.live s) : b.occupied rs s (b.best s) ∧
      ∀ o ∈ b.resting rs, o.side = s → better s o.price (b.best s) = false := by
  obtain ⟨h1, h2⟩ := h.touched.best_spec hlive
  exact ⟨h1, fun o ho hs => h2 o.price (occupied_iff.mpr ⟨o, ho, hs, rfl⟩)⟩

/-- One pass of an outer loop: drain the best opposite level, then repair the touch. -/
private theorem drainLevel_spec {b : OrderBook} {rs : List Nat} {taker : Side} {limit : Price}
    {q : OrderId → List Nat} (remaining : Quantity) (takerId : OrderId) (h : b.Sound rs)
    (hx : b.Queued q) (hlive : 0 < b.live taker.opposite)
    (hc : crosses taker limit (b.best taker.opposite) = true) :
    ∃ b1 b2 rs' remaining' fs lvl gone, consumeLevel takerId taker (b.best taker.opposite) b.passes b
        remaining = some (b1, remaining', fs) ∧
      b1.levelAt taker.opposite (b.best taker.opposite) = some lvl ∧
      (if lvl.empty then b1.markLevelEmptied taker.opposite (b.best taker.opposite) else pure b1) =
        some b2 ∧
      b2.Sound rs' ∧ b2.Queued (b.unqueue gone q) ∧ b.SameShape b2 ∧
      Leaves taker limit b rs remaining gone b2 rs' remaining' ∧
      Takes takerId taker limit (b.resting rs) remaining fs (b2.resting rs') remaining' ∧
      (remaining' = 0 ∨ rs'.length < rs.length) := by
  obtain ⟨hocc, hbest⟩ := h.best_spec hlive
  obtain ⟨px, hpx⟩ : ∃ px, b.best taker.opposite = px := ⟨_, rfl⟩
  rw [hpx] at hc hocc hbest ⊢
  have hb := h.linked.inBand_of_occupied hocc
  have hlen : rs.length ≤ b.slab.capacity := h.linked.slab.length_le
  obtain ⟨b1, rs', remaining', fs, gone, he, hl1, hx1, hst, hg, ht, hend, hoth⟩ := consumeLevel_spec
    takerId taker hc b.passes h.linked hx hb hbest (Nat.succ_pos _)
    (.inr (Nat.lt_succ_of_le hlen) : remaining = 0 ∨ rs.length < b.passes)
  have hb1 : b1.inBand px = true := by rw [hst.toSameShape.inBand, hb]
  have hprog : remaining' = 0 ∨ rs'.length < rs.length := by
    rcases hend with hz | hgone
    · exact .inl hz
    · refine ht.length.imp_right fun hle => ?_
      simp only [resting, List.length_map] at hle
      cases fs with
      | nil =>
        exact absurd (occupied_iff.mpr (by rw [ht.eq_of_nil]; exact occupied_iff.mp hocc)) hgone
      | cons f fs =>
        rw [List.length_cons] at hle
        lia
  have htouch : b1.Touched fun s p => b1.occupied rs' s p ∨ s = taker.opposite ∧ p = px := by
    refine h.touched.congr hst.live hst.best fun s p => ?_
    by_cases hsp : s = taker.opposite ∧ p = px
    · rw [hsp.1, hsp.2]
      exact iff_of_true (.inr ⟨rfl, rfl⟩) hocc
    · rw [or_iff_left hsp]
      exact hoth s p hsp
  obtain ⟨b2, he2, ht2, hsame⟩ := repairLevel_spec htouch
    (by rw [hst.live]; exact (h.touched.live_le _).trans_lt (hlen.trans_lt h.linked.slab.sized)) hb1
    (fun p hp => hl1.inBand_of_occupied hp) fun p hp => hl1.empty_iff hp
  have hrest : b2.resting rs' = b1.resting rs' := by
    unfold resting
    rw [hsame.1]
  have hocc2 : b2.occupied rs' = b1.occupied rs' := by
    unfold occupied
    rw [hsame.1]
  rw [← hrest] at ht
  exact ⟨b1, b2, rs', remaining', fs, _, gone, he, levelAt_of_inBand hb1, he2,
    ⟨hl1.of_sameButTouch hsame, qty_pos_of_residual_pos (ht.residual_pos h.residual_pos), hocc2 ▸ ht2⟩,
    hx1.of_sameButTouch hsame, hst.toSameShape.trans hsame.shape, hg.of_sameButTouch hsame, ht, hprog⟩

/-- The whole matching loop, whatever the index holds: a run of the reference's fills that
cannot be extended. -/
theorem matchOpposite_spec (takerId : OrderId) (taker : Side) (limit : Price) (fuel : Nat)
    {b : OrderBook} {rs : List Nat} {remaining : Quantity} {q : OrderId → List Nat} (h : b.Sound rs)
    (hx : b.Queued q) (hfuel : 0 < fuel) (hfuel' : remaining = 0 ∨ rs.length < fuel) :
    ∃ b' rs' remaining' fs gone, matchOpposite takerId taker limit fuel b remaining =
        some (b', remaining', fs) ∧
      b'.Sound rs' ∧ b'.Queued (b.unqueue gone q) ∧ b.SameShape b' ∧
      Leaves taker limit b rs remaining gone b' rs' remaining' ∧
      Takes takerId taker limit (b.resting rs) remaining fs (b'.resting rs') remaining' ∧
      takeOne takerId taker limit (b'.resting rs') remaining' = none := by
  induction fuel generalizing b rs remaining q with
  | zero => lia
  | succ fuel ih =>
    rw [matchOpposite_succ]
    split_ifs with hgo
    · obtain ⟨⟨hpos, hlive⟩, hc⟩ := hgo
      obtain ⟨b1, b2, rs2, rem2, fs, lvl, gone1, he1, he2, he3, hw2, hx2, hsh2, hg2, ht2, hprog⟩ :=
        drainLevel_spec remaining takerId h hx hlive hc
      have hrs : 0 < rs.length := by
        obtain ⟨i, hi⟩ := List.exists_mem_of_ne_nil _ (h.best_spec hlive).1
        exact List.length_pos_of_mem (mem_levelQueue.mp hi).1
      have hfuel2 : 0 < fuel ∧ (rem2 = 0 ∨ rs2.length < fuel) := by lia
      obtain ⟨b3, rs3, rem3, fs', gone2, he4, hw3, hx3, hsh3, hg3, ht3, hstuck⟩ :=
        ih hw2 hx2 hfuel2.1 hfuel2.2
      refine ⟨b3, rs3, rem3, fs ++ fs', gone1 ++ gone2, ?_, hw3, hx3.congr (hg2.unqueue_trans hg3),
        hsh2.trans hsh3, hg2.trans hg3, ht2.trans ht3, hstuck⟩
      simp only [he1, he2, he3, he4, Option.bind_eq_bind, Option.bind_some]
      rfl
    · refine ⟨b, rs, remaining, [], [], rfl, h, hx, .refl b, .refl b rs remaining, .refl _ _,
        takeOne_eq_none ?_⟩
      refine or_iff_not_imp_left.mpr fun hz o ho => ?_
      by_contra hcr
      simp only [Bool.not_eq_false, Resting.crossedBy, Bool.and_eq_true, decide_eq_true_eq] at hcr
      have hlive : 0 < b.live taker.opposite :=
        h.touched.live_pos_iff.mpr ⟨o.price, occupied_iff.mpr ⟨o, ho, hcr.1, rfl⟩⟩
      exact hgo ⟨⟨Nat.pos_of_ne_zero hz, hlive⟩,
        crosses_of_better hcr.2 ((h.best_spec hlive).2 o ho hcr.1)⟩

end OrderBook
end ExecutionPlatform.Core
