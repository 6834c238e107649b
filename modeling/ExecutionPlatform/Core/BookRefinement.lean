import ExecutionPlatform.Core.BookMatching

/-! Resting and cancelling keep the invariant, and with matching they make every call
of the concrete book the same call of the reference book. -/
namespace ExecutionPlatform.Core
open Foundations
namespace OrderBook

section Rest
variable {b : OrderBook} {rs : List Nat} {o : Nat} {slab : SlabAllocator Order}

/-- A new node joins the back of its level. -/
private theorem Linked.append (h : b.Linked rs) {lvl : LevelFIFO} {mem : Nat → Order} {s : Side}
    {px : Price} (hos : (mem o).side = s) (hop : (mem o).price = px)
    (hs : slab.Holds (rs ++ [o])) (ho : o ∉ rs) (hb : b.inBand px = true)
    (hmem : ∀ j ∈ rs, mem j = b.slab.storage j)
    (hlvl : LevelHolds slab.storage lvl (levelQueue b.slab.storage rs s px ++ [o]))
    (hrest : ∀ j, (slab.storage j).resting = (mem j).resting)
    (hoff : ∀ j, j ∉ levelQueue b.slab.storage rs s px ++ [o] → slab.storage j = mem j) :
    ({ b.setLevel s px lvl with slab := slab } : OrderBook).Linked (rs ++ [o]) := by
  have hside : ∀ j, (slab.storage j).side = (mem j).side := fun j => congrArg Resting.side (hrest j)
  have hprice : ∀ j, (slab.storage j).price = (mem j).price := fun j =>
    congrArg Resting.price (hrest j)
  have hqueue : ∀ s px, levelQueue slab.storage rs s px = levelQueue b.slab.storage rs s px :=
    fun s px => levelQueue_congr (fun j hj => by rw [hside, hmem j hj])
      fun j hj => by rw [hprice, hmem j hj]
  refine h.replaceLevel hb hs (fun j hj => ?_) ?_ fun s' px' hother => ?_
  · rw [hprice]
    rcases List.mem_append.mp hj with hj | hj
    · rw [hmem j hj]
      exact h.band j hj
    · rwa [List.mem_singleton.mp hj, hop]
  · have hself : levelQueue slab.storage [o] s px = [o] := by
      simp [levelQueue, hside, hprice, hos, hop]
    rw [levelQueue_append, hqueue, hself]
    exact hlvl
  · have hself : levelQueue slab.storage [o] s' px' = [] :=
      levelQueue_cons_other fun hc => hother ⟨hc.1.symm.trans ((hside o).trans hos),
        hc.2.symm.trans ((hprice o).trans hop)⟩
    rw [levelQueue_append, hself, List.append_nil, hqueue]
    refine ⟨rfl, fun j hj => ?_⟩
    obtain ⟨hjr, h1, h2⟩ := mem_levelQueue.mp hj
    rw [← hmem j hjr]
    refine hoff j fun hc => ?_
    rcases List.mem_append.mp hc with hc | hc
    · obtain ⟨-, h3, h4⟩ := mem_levelQueue.mp hc
      exact hother ⟨h1.symm.trans h3, h2.symm.trans h4⟩
    · exact ho (List.mem_singleton.mp hc ▸ hjr)

/-- The touch sees the level of the new node if it was empty. -/
private theorem Linked.enter (h : b.Linked rs) {side : Side} {price : Price}
    (hb : b.inBand price = true) (hroom : rs.length < b.slab.capacity) {b3 : OrderBook}
    (htouch : b3.Touched (b.occupied rs)) (hlive : b3.live side ≤ rs.length) :
    let b4 := if (b.levels side (b.idx price)).empty then b3.markLevelLive side price else b3
    (b4.Touched fun s p => b.occupied rs s p ∨ s = side ∧ p = price) ∧ b3.SameButTouch b4 := by
  cases hemp : (b.levels side (b.idx price)).empty with
  | true =>
    have hsized := h.slab.sized
    exact markLevelLive_spec htouch ((h.empty_iff hb).mp hemp) (by omega)
  | false =>
    have hocc : b.occupied rs side price := by
      by_contra hno
      rw [(h.empty_iff hb).mpr hno] at hemp
      cases hemp
    refine ⟨htouch.congr (fun _ => rfl) (fun _ => rfl) fun s p => or_iff_left_of_imp ?_,
      rfl, rfl, rfl, rfl, rfl, rfl⟩
    rintro ⟨rfl, rfl⟩
    exact hocc

/-- Rest inside the band with a slot to spare appends the residual, and puts it last in the
index queue of its id. -/
theorem rest_runs (h : b.Sound rs) {q : OrderId → List Nat} (hx : b.Queued q) {id : OrderId}
    {side : Side} {price : Price} {qty : Quantity} (hb : b.inBand price = true)
    (hroom : rs.length < b.slab.capacity) (hpos : 0 < qty) :
    ∃ b' o, b.rest id side price qty = some (b', true) ∧ b'.Sound (rs ++ [o]) ∧
      b'.index.Queues (Function.update q id (q id ++ [o])) ∧
      b'.index.idCapacity = b.index.idCapacity ∧ b.SameShape b' ∧
      (∀ j ∈ rs, (b'.slab.storage j).resting = (b.slab.storage j).resting) ∧
      (b'.slab.storage o).resting = ⟨id, side, price, qty⟩ := by
  obtain ⟨o, s1, s2, he1, he2, ho, hs2, hself, hnew, hc2⟩ :=
    SlabAllocator.allocate_store h.linked.slab hroom ⟨id, price, qty, side, none, none⟩
  have hother : ∀ j ∈ rs, s2.storage j = b.slab.storage j := fun j hj =>
    hnew j (ne_of_mem_of_not_mem hj ho)
  have hlvl := h.linked.level side price hb
  have hcin : ∀ j ∈ levelQueue b.slab.storage rs side price, j ∈ rs := fun j hj =>
    (mem_levelQueue.mp hj).1
  obtain ⟨s3, lvl3, he3, hs3, hc3, hlvl3, hrest3, hoff3⟩ := pushBackToLevel_spec (o := o) hs2
    (hlvl.congr fun j hj => hother j (hcin j hj))
    (List.nodup_append.mpr ⟨levelQueue_nodup h.linked.nodup, List.nodup_singleton o, fun x hx y hy =>
      by rw [List.mem_singleton.mp hy]; exact ne_of_mem_of_not_mem (hcin x hx) ho⟩)
    fun j hj => List.mem_append.mpr ((List.mem_append.mp hj).imp_left (hcin j))
  have hl3 := h.linked.append (by rw [hself]) (by rw [hself]) hs3 ho hb hother hlvl3 hrest3 hoff3
  -- what the slots hold now
  have hnode : (s3.storage o).resting = ⟨id, side, price, qty⟩ := by
    rw [hrest3, hself]
    rfl
  have hkeep : ∀ j ∈ rs, (s3.storage j).resting = (b.slab.storage j).resting := fun j hj => by
    rw [hrest3, hother j hj]
  obtain ⟨index, hix, hcap, hQ⟩ := IdIndex.insertId_spec id o hx.queues hx.roomy
  obtain ⟨b3, hb3⟩ : ∃ b3, ({ b.setLevel side price lvl3 with slab := s3 } : OrderBook) = b3 := ⟨_, rfl⟩
  obtain ⟨b4, hb4⟩ : ∃ b4, (if (b.levels side (b.idx price)).empty then b3.markLevelLive side price
    else b3) = b4 := ⟨_, rfl⟩
  obtain ⟨htouch4, hsame⟩ : (b4.Touched fun s p => b.occupied rs s p ∨ s = side ∧ p = price) ∧
      b3.SameButTouch b4 := by
    subst hb4
    refine h.linked.enter hb hroom ?_ ?_ <;> subst hb3
    · exact h.touched.congr (setLevel_live b side · price lvl3) (setLevel_best b side · price lvl3)
        fun _ _ => Iff.rfl
    · exact (setLevel_live b side side price lvl3).trans_le (h.touched.live_le side)
  have hslab : b4.slab = s3 := by rw [hsame.1, ← hb3]
  have hresting : ({ b4 with index := index } : OrderBook).resting (rs ++ [o]) =
      b.resting rs ++ [⟨id, side, price, qty⟩] := by
    simp only [resting, List.map_append, List.map_singleton, hslab, hnode]
    rw [List.map_congr_left hkeep]
  have hrun : b.rest id side price qty = some ({ b4 with index := index }, true) := by
    have hindex : b4.index = b.index := by
      rw [hsame.2.2.2.2.2, ← hb3]
      exact setLevel_index ..
    subst hb3 hb4
    rw [rest, if_neg (by simp [hb]), he1]
    simp only [he2, levelAt_of_inBand hb, he3, Option.bind_eq_bind, Option.bind_some]
    rw [hindex, hix]
    rfl
  have hshape : b.SameShape b4 := by
    refine SameShape.trans ?_ hsame.shape
    subst hb3
    exact ⟨setLevel_minPrice .., setLevel_maxPrice .., hc3.trans hc2⟩
  have hpos' : ∀ x ∈ b.resting rs ++ [⟨id, side, price, qty⟩], 0 < x.residual := by
    intro x hx
    rcases List.mem_append.mp hx with hx | hx
    · exact h.residual_pos x hx
    · rwa [List.mem_singleton.mp hx]
  refine ⟨_, o, hrun, ⟨?_, ?_, ?_⟩, hQ, hcap, ⟨hshape.1, hshape.2, hshape.3⟩,
    fun j hj => hslab ▸ hkeep j hj, hslab ▸ hnode⟩
  · rw [hb3] at hl3
    exact (hl3.of_sameButTouch hsame).withIndex index
  · exact qty_pos_of_residual_pos (by rw [hresting]; exact hpos')
  · refine htouch4.congr (fun s => by cases s <;> rfl) (fun s => by cases s <;> rfl) fun s p => ?_
    rw [occupied_iff, occupied_iff, hresting]
    simp only [List.mem_append, List.mem_singleton, or_and_right, exists_or, exists_eq_left]
    exact or_congr_right ⟨fun hc => ⟨hc.1.symm, hc.2.symm⟩, fun hc => ⟨hc.1.symm, hc.2.symm⟩⟩

theorem rest_spec (h : b.WellFormed rs) {id : OrderId} {side : Side} {price : Price}
    {qty : Quantity} (hb : b.inBand price = true) (hroom : rs.length < b.slab.capacity)
    (hpos : 0 < qty) :
    ∃ b' o, b.rest id side price qty = some (b', true) ∧ b'.WellFormed (rs ++ [o]) ∧
      b.SameShape b' ∧ b'.resting (rs ++ [o]) = b.resting rs ++ [⟨id, side, price, qty⟩] := by
  obtain ⟨b', o, he, hs, hQ, hcap, hshape, hkeep, hnode⟩ := rest_runs h.toSound h.indexed hb hroom hpos
  have hlen : (rs ++ [o]).length ≤ b'.slab.capacity := hs.linked.slab.length_le
  have hspare : b'.slab.capacity < b'.index.idCapacity := by
    rw [hcap, hshape.capacity]
    exact h.indexed.spare
  have hid : (b'.slab.storage o).id = id := congrArg Resting.id hnode
  have hqueues : b'.index.Queues (idQueue b'.slab.storage (rs ++ [o])) := by
    refine hQ.congr fun k => ?_
    have hold : idQueue b'.slab.storage rs k = idQueue b.slab.storage rs k :=
      idQueue_congr fun j hj => congrArg Resting.id (hkeep j hj)
    have hnew : idQueue b'.slab.storage [o] k = if k = id then [o] else [] := by
      by_cases hk : k = id <;> simp [idQueue, hid, hk, eq_comm]
    rw [show idQueue b'.slab.storage (rs ++ [o]) k = idQueue b'.slab.storage rs k ++
      idQueue b'.slab.storage [o] k from List.filter_append .., hold, hnew]
    split_ifs with hk
    · rw [hk, Function.update_self]
    · rw [Function.update_of_ne hk, List.append_nil]
  refine ⟨b', o, he, ⟨hs, hqueues, ?_, hspare⟩, hshape, ?_⟩
  · exact roomy_of_length_lt hqueues hs.linked.nodup (hlen.trans_lt hspare)
  · rw [resting, List.map_append, List.map_congr_left hkeep, List.map_singleton, hnode]
    rfl

/-- Outside the band, or with every slot live, the residual is dropped. -/
theorem rest_drops (h : b.Sound rs) {id : OrderId} {side : Side} {price : Price}
    {qty : Quantity} (hdrop : b.inBand price = false ∨ b.slab.capacity ≤ rs.length) :
    b.rest id side price qty = some (b, false) := by
  rw [rest]
  split_ifs with hb
  · have hfull := hdrop.resolve_left (by simpa using hb)
    rw [SlabAllocator.allocate_of_full h.linked.slab hfull]
    rfl
  · rfl

end Rest

/-- Without one node, at most the level of that node is left empty. -/
private theorem occupied_without {b b' : OrderBook} {l r : List Nat} {i : Nat} {s : Side}
    {px : Price} (hos : (b.slab.storage i).side = s) (hop : (b.slab.storage i).price = px)
    (hrest : b'.resting (l ++ r) = b.resting l ++ b.resting r) (s' : Side) (p : Price) :
    b'.occupied (l ++ r) s' p ∨ s' = s ∧ p = px ↔ b.occupied (l ++ i :: r) s' p := by
  rw [occupied_iff, occupied_iff, resting_split, hrest]
  simp only [List.mem_append, List.mem_cons]
  constructor
  · rintro (⟨o, ho, hc⟩ | ⟨rfl, rfl⟩)
    · exact ⟨o, ho.imp_right .inr, hc⟩
    · exact ⟨_, .inr (.inl rfl), hos, hop⟩
  · rintro ⟨o, ho | rfl | ho, h1, h2⟩
    · exact .inl ⟨o, .inl ho, h1, h2⟩
    · exact .inr ⟨h1.symm.trans hos, h2.symm.trans hop⟩
    · exact .inl ⟨o, .inr ho, h1, h2⟩

/-- Cancel unlinks and frees the oldest order of the id and reports what was left of it. -/
theorem cancel_present {b : OrderBook} {l r : List Nat} {i : Nat} (h : b.WellFormed (l ++ i :: r))
    (hfirst : ∀ o ∈ b.resting l, o.id ≠ (b.slab.storage i).id) :
    ∃ b', b.cancel (b.slab.storage i).id = some (b', some ⟨(b.slab.storage i).id,
        (b.slab.storage i).side, (b.slab.storage i).price, (b.slab.storage i).qty⟩) ∧
      b'.WellFormed (l ++ r) ∧ b.SameShape b' ∧ b'.resting (l ++ r) = b.resting l ++ b.resting r := by
  have hnone : ∀ j ∈ l, (b.slab.storage j).id ≠ (b.slab.storage i).id := fun j hj =>
    hfirst _ (List.mem_map_of_mem hj)
  have hhead : idQueue b.slab.storage (l ++ i :: r) (b.slab.storage i).id =
      i :: idQueue b.slab.storage r (b.slab.storage i).id := by
    rw [idQueue, List.filter_append, List.filter_eq_nil_iff.mpr fun j hj => by simpa using hnone j hj,
      List.nil_append, List.filter_cons_of_pos (by simp)]
    rfl
  obtain ⟨index, hix, hcap, hQ, hroom⟩ := h.indexed.erase i
  rw [hhead, List.head?_cons] at hix
  have hi : i ∈ l ++ i :: r := by simp
  have hni : i ∉ l ++ r := (List.nodup_cons.mp (List.nodup_middle.mp h.linked.nodup)).1
  obtain ⟨s, hos⟩ : ∃ s, (b.slab.storage i).side = s := ⟨_, rfl⟩
  obtain ⟨px, hop⟩ : ∃ px, (b.slab.storage i).price = px := ⟨_, rfl⟩
  have hb : b.inBand px = true := hop ▸ h.linked.band i hi
  have hlvl := h.linked.level s px hb
  have hd : (levelQueue b.slab.storage (l ++ i :: r) s px).Nodup := levelQueue_nodup h.linked.nodup
  have hcin : ∀ j ∈ levelQueue b.slab.storage (l ++ i :: r) s px, j ∈ l ++ i :: r := fun j hj =>
    (mem_levelQueue.mp hj).1
  rw [levelQueue_remove_self hos hop] at hlvl hd hcin
  obtain ⟨s1, lvl1, he1, hs1, hc1, hlvl1, hrest1, hoff1⟩ :=
    unlinkFromLevel_spec h.linked.slab hlvl hd hcin
  obtain ⟨s2, he2, hs2, hc2, hm2⟩ := SlabAllocator.deallocate_spec hs1
  have hl2 := h.linked.remove hos hop hs2 hlvl1 hrest1 hoff1 hm2
  have hbr : ∀ j ∈ l ++ r, (s2.storage j).resting = (b.slab.storage j).resting := fun j hj => by
    rw [hm2 j (ne_of_mem_of_not_mem hj hni), hrest1]
  -- the book between the unlinking and the release of the node, and the book after it
  obtain ⟨b1, hb1⟩ : ∃ b1, ({ b.setLevel s px lvl1 with slab := s1, index := index } : OrderBook) = b1 :=
    ⟨_, rfl⟩
  obtain ⟨b2, hb2⟩ : ∃ b2, ({ b.setLevel s px lvl1 with slab := s2 } : OrderBook) = b2 := ⟨_, rfl⟩
  rw [hb2] at hl2
  have hrest : b2.resting (l ++ r) = b.resting l ++ b.resting r := by
    rw [← hb2, resting, List.map_congr_left hbr, List.map_append]
    rfl
  have htouch : b1.Touched fun s' p => b2.occupied (l ++ r) s' p ∨ s' = s ∧ p = px := by
    subst hb1
    exact h.touched.congr (setLevel_live b s · px lvl1) (setLevel_best b s · px lvl1)
      (occupied_without hos hop hrest)
  have hlevels : ∀ p, b1.levels s (b1.idx p) = b2.levels s (b2.idx p) := by
    subst hb1 hb2
    exact fun p => rfl
  have hband : ∀ p, b1.inBand p = b2.inBand p := by
    subst hb1 hb2
    exact fun p => rfl
  have hsmall : b1.live s < 2 ^ 64 := by
    subst hb1
    calc _ = b.live s := setLevel_live b s s px lvl1
      _ ≤ (l ++ i :: r).length := h.touched.live_le s
      _ < 2 ^ 64 := h.linked.slab.length_le.trans_lt h.linked.slab.sized
  obtain ⟨b3, he3, ht3, hsame⟩ := repairLevel_spec htouch hsmall
    (by subst hb1; exact (setLevel_inBand b s px px lvl1).trans hb)
    (fun p hp => (hband p).trans (hl2.inBand_of_occupied hp))
    fun p hp => by rw [hlevels]; exact hl2.empty_iff ((hband p).symm.trans hp)
  have hlvl3 : b1.levels s (b1.idx px) = lvl1 := by
    subst hb1
    change (b.setLevel s px lvl1).levels s ((b.setLevel s px lvl1).idx px) = lvl1
    rw [setLevel_levels, setLevel_idx, if_pos ⟨rfl, rfl⟩]
  have hslab3 : b3.slab = s1 := by rw [hsame.1, ← hb1]
  have hrun : b.cancel (b.slab.storage i).id = some ({ b3 with slab := s2 },
      some ⟨(b.slab.storage i).id, s, px, (b.slab.storage i).qty⟩) := by
    have hcode : ({ ({ b with index := index } : OrderBook).setLevel s px lvl1 with slab := s1 } :
        OrderBook) = b1 := by
      rw [← hb1]
      cases s <;> rfl
    have hlvlAt : ({ b with index := index } : OrderBook).levelAt s px =
        some (b.levels s (b.idx px)) := levelAt_of_inBand hb
    rw [hlvl3] at he3
    simp only [cancel, hix, Option.bind_eq_bind, Option.bind_some,
      SlabAllocator.load_live h.linked.slab hi, hos, hop, hlvlAt, he1, hcode, he3, hslab3, he2]
    rfl
  have hsame2 : ({ b2 with index := index } : OrderBook).SameButTouch { b3 with slab := s2 } := by
    obtain ⟨-, h1, h2, h3, h4, h5⟩ := hsame
    subst hb1 hb2
    exact ⟨rfl, h1, h2, h3, h4, h5⟩
  have hrest3 : ({ b3 with slab := s2 } : OrderBook).resting (l ++ r) =
      b.resting l ++ b.resting r := by
    rw [← hrest, ← hb2]
    rfl
  have hshape : b.SameShape b2 := by
    subst hb2
    exact ⟨setLevel_minPrice .., setLevel_maxPrice .., hc2.trans hc1⟩
  have hshape3 : b.SameShape { b3 with slab := s2 } :=
    ⟨hsame2.2.1.trans hshape.1, hsame2.2.2.1.trans hshape.2, hc2.trans hc1⟩
  have hpos : ∀ o ∈ b.resting l ++ b.resting r, 0 < o.residual := fun o ho =>
    h.residual_pos o (b.resting_split l r i ▸
      ((List.sublist_cons_self _ _).append_left _).subset ho)
  rw [hos, hop]
  have hindex3 : ({ b3 with slab := s2 } : OrderBook).index = index := hsame2.2.2.2.2.2
  have hqueue3 : ∀ k, b.unqueue [i] (idQueue b.slab.storage (l ++ i :: r)) k =
      idQueue s2.storage (l ++ r) k := by
    intro k
    rw [idQueue_congr fun j hj => congrArg Resting.id (hbr j hj)]
    by_cases hk : (b.slab.storage i).id = k
    · subst hk
      have hskip : idQueue b.slab.storage (l ++ r) (b.slab.storage i).id =
          idQueue b.slab.storage r (b.slab.storage i).id := by
        rw [idQueue, List.filter_append,
          List.filter_eq_nil_iff.mpr fun j hj => by simpa using hnone j hj, List.nil_append]
        rfl
      rw [unqueue, hhead, hskip]
      simp
    · simp [unqueue, idQueue, hk]
  refine ⟨_, hrun, ⟨⟨(hl2.withIndex index).of_sameButTouch hsame2,
    qty_pos_of_residual_pos (by rw [hrest3]; exact hpos), ?_⟩, ?_⟩, hshape3, hrest3⟩
  rotate_left
  · exact h.indexed.withIndex (by rw [hindex3, hcap]) (hindex3 ▸ hQ.congr hqueue3) (hindex3 ▸ hroom)
      (hc2.trans hc1)
  · refine ht3.congr (fun s => by cases s <;> rfl) (fun s => by cases s <;> rfl) fun s' p => ?_
    rw [occupied_iff, occupied_iff, hrest3, hrest]

/-- Cancel of an id that is not resting changes nothing. -/
theorem cancel_absent {b : OrderBook} {rs : List Nat} {id : OrderId} (h : b.WellFormed rs)
    (habs : ∀ o ∈ b.resting rs, o.id ≠ id) : b.cancel id = some (b, none) := by
  have hnone : idQueue b.slab.storage rs id = [] := by
    refine List.filter_eq_nil_iff.mpr fun j hj => ?_
    have hid : (b.slab.storage j).id ≠ id := habs _ (List.mem_map_of_mem hj)
    simpa using hid
  rw [cancel, IdIndex.lookupAndEraseId_absent id h.indexed.queues hnone h.indexed.roomy]
  rfl

theorem addLimit_eq (b : OrderBook) (id : OrderId) (side : Side) (price : Price)
    (qty : Quantity) : b.addLimit id side price qty = (do
      let (b, remaining, fills) ← matchOpposite id side price b.passes b qty
      if remaining = 0 then pure (b, fills, true)
      else do
        let (b, ok) ← b.rest id side price remaining
        pure (b, fills, ok)) := by
  cases side <;> rfl

/-- The concrete book b represents the reference book R, its orders in the slots rs. -/
structure Represents (b : OrderBook) (R : RefBook) (rs : List Nat) : Prop where
  wellFormed : b.WellFormed rs
  orderCapacity : R.orderCapacity = b.slab.capacity
  minPrice : R.minPrice = b.minPrice
  maxPrice : R.maxPrice = b.maxPrice
  orders : R.orders = b.resting rs

/-- It does, and the ids of its orders are distinct. -/
structure Refines (b : OrderBook) (R : RefBook) (rs : List Nat) : Prop extends Represents b R rs where
  ids_nodup : R.ids.Nodup

namespace Represents
variable {b : OrderBook} {R : RefBook} {rs : List Nat}

theorem length (h : b.Represents R rs) : R.orders.length = rs.length := by
  rw [h.orders, resting, List.length_map]

theorem inBand_iff (h : b.Represents R rs) (px : Price) :
    b.inBand px = true ↔ R.minPrice ≤ px ∧ px ≤ R.maxPrice := by
  rw [OrderBook.inBand, h.minPrice, h.maxPrice, Bool.and_eq_true, decide_eq_true_eq,
    decide_eq_true_eq]

/-- When a taker is done, it sells out nobody else. -/
private theorem not_soldOut {b1 : OrderBook} {rs1 : List Nat} {side : Side} {price : Price}
    {id : OrderId} {rem : Quantity} (hs : b1.Sound rs1)
    (hstuck : takeOne id side price (b1.resting rs1) rem = none) (j : Nat) :
    ¬ b1.SoldOut side price rem j := by
  rintro ⟨hj, hc, hle⟩
  obtain ⟨hrs, hside⟩ := hs.linked.mem_makers.mp hj
  have hpos := hs.qty j hrs
  have hrem : 0 < rem := hpos.trans_le ((Nat.le_add_left _ _).trans hle)
  rw [takeOne, if_neg hrem.ne'] at hstuck
  split at hstuck
  · next hnone =>
    have hno := takeBest_eq_none_iff.mp hnone _ (List.mem_map_of_mem hrs)
    rw [Resting.crossedBy] at hno
    simp [Order.resting, hside, hc] at hno
  · cases hstuck

/-- The matching phase of AddLimit is the reference's, and leaves an exact index if of each
id the oldest orders are sold out first. -/
theorem matching (h : b.Represents R rs) (id : OrderId) (side : Side) (price : Price) (qty : Quantity) :
    ∃ b1 rs1 rem fs q, matchOpposite id side price b.passes b qty = some (b1, rem, fs) ∧
      matchAll id side price R.orders qty = (b1.resting rs1, rem, fs) ∧ b1.Sound rs1 ∧
      b1.Queued q ∧ b.SameShape b1 ∧
      (b.OldestFirst (.addLimit id side price qty) →
        b1.Represents { R with orders := b1.resting rs1 } rs1) := by
  have hlen : rs.length ≤ b.slab.capacity := h.wellFormed.linked.slab.length_le
  obtain ⟨b1, rs1, rem, fs, gone, he, hs, hx, hsh, hg, ht, hstuck⟩ := matchOpposite_spec id side price
    b.passes h.wellFormed.toSound h.wellFormed.indexed (Nat.succ_pos _)
    (.inr (Nat.lt_succ_of_le hlen) : qty = 0 ∨ rs.length < b.passes)
  rw [← h.orders] at ht
  refine ⟨b1, rs1, rem, fs, _, he, matchAll_of_takes ht hstuck, hs, hx, hsh, fun hold => ?_⟩
  have hgone : ∀ j, b.SoldOut side price qty j ↔ j ∈ gone := fun j =>
    (hg.soldOut j).trans (or_iff_left (not_soldOut hs hstuck j))
  have hn := h.wellFormed.linked.nodup
  have hfirst : ∀ k, (idQueue b.slab.storage rs k).Pairwise fun i j => j ∈ gone → i ∈ gone := by
    intro k
    refine pairwise_of_takeWhile (hn.filter _) fun j hj hjg i hi => ?_
    obtain ⟨-, rfl⟩ := mem_idQueue.mp hj
    have hsold := (hgone j).mpr hjg
    rw [← h.wellFormed.indexed.queues.slotsUnder] at hi
    exact (hgone i).mp (hold j (List.mem_filter.mpr ⟨hsold.1, decide_eq_true hsold⟩) i hi)
  exact ⟨⟨hs, hx.congr (hg.unqueue_eq hn hfirst)⟩, h.orderCapacity.trans hsh.capacity.symm,
    h.minPrice.trans hsh.minPrice.symm, h.maxPrice.trans hsh.maxPrice.symm, rfl⟩

theorem addLimit_run {b1 : OrderBook} {id : OrderId} {side : Side} {price : Price}
    {qty rem : Quantity} {fs : List Fill}
    (he : matchOpposite id side price b.passes b qty = some (b1, rem, fs)) :
    b.addLimit id side price qty = if rem = 0 then some (b1, fs, true)
      else (b1.rest id side price rem).map fun out => (out.1, fs, out.2) := by
  rw [addLimit_eq, he]
  simp only [Option.bind_eq_bind, Option.bind_some]
  split_ifs
  · rfl
  · rw [Option.map_eq_bind]
    rfl

/-- AddLimit is the reference's, as long as of each id the oldest orders are sold out first. -/
theorem addLimit (h : b.Represents R rs) {id : OrderId} {side : Side} {price : Price}
    {qty : Quantity} (hold : b.OldestFirst (.addLimit id side price qty)) :
    ∃ b' rs', b.addLimit id side price qty =
        some (b', (R.addLimit id side price qty).2.1, (R.addLimit id side price qty).2.2) ∧
      b'.Represents (R.addLimit id side price qty).1 rs' := by
  obtain ⟨b1, rs1, rem, fs, -, he, hall, -, -, -, h1⟩ := h.matching id side price qty
  have h1 := h1 hold
  rw [addLimit_run he, RefBook.addLimit, hall]
  simp only
  split_ifs with hz hroom
  · exact ⟨b1, rs1, rfl, h1⟩
  · -- the residual rests
    have hlt : rs1.length < b1.slab.capacity := by
      have := hroom.2
      rwa [h1.length, show R.orderCapacity = b1.slab.capacity from h1.orderCapacity] at this
    obtain ⟨b2, o, he2, hw2, hsh2, hr2⟩ := rest_spec h1.wellFormed ((h1.inBand_iff price).mpr hroom.1) hlt
      (Nat.pos_of_ne_zero hz)
    exact ⟨b2, rs1 ++ [o], by rw [he2]; rfl, hw2, h1.orderCapacity.trans hsh2.capacity.symm,
      h1.minPrice.trans hsh2.minPrice.symm, h1.maxPrice.trans hsh2.maxPrice.symm, hr2.symm⟩
  · -- the residual is dropped
    have hdrop : b1.inBand price = false ∨ b1.slab.capacity ≤ rs1.length := by
      by_contra hno
      rw [not_or, Bool.not_eq_false, not_le, h1.inBand_iff] at hno
      refine hroom ⟨hno.1, ?_⟩
      rw [h1.length, show R.orderCapacity = b1.slab.capacity from h1.orderCapacity]
      exact hno.2
    exact ⟨b1, rs1, by rw [rest_drops h1.wellFormed.toSound hdrop]; rfl, h1⟩

/-- Whatever is sold out, the call itself comes to an end. -/
theorem addLimit_isSome (h : b.Represents R rs) (id : OrderId) (side : Side) (price : Price)
    (qty : Quantity) : (b.addLimit id side price qty).isSome := by
  obtain ⟨b1, rs1, rem, fs, q, he, -, hs, hx, -, -⟩ := h.matching id side price qty
  rw [addLimit_run he]
  split_ifs with hz
  · rfl
  · by_cases hb : b1.inBand price = true ∧ rs1.length < b1.slab.capacity
    · obtain ⟨b2, o, he2, -⟩ := rest_runs hs hx hb.1 hb.2 (Nat.pos_of_ne_zero hz)
      rw [he2]
      rfl
    · have hdrop : b1.inBand price = false ∨ b1.slab.capacity ≤ rs1.length := by
        rwa [not_and_or, Bool.not_eq_true, not_lt] at hb
      rw [rest_drops hs hdrop]
      rfl

/-- Cancel takes the oldest order of the id, as the reference does. -/
theorem cancel (h : b.Represents R rs) (id : OrderId) :
    ∃ b' rs', b.cancel id = some (b', (R.cancelOldest id).2) ∧
      b'.Represents (R.cancelOldest id).1 rs' := by
  rcases R.cancelOldest_spec id with ⟨hno, hout⟩ | ⟨L, m, T, hsplit, hL, rfl, hout⟩ <;> rw [hout]
  · rw [h.orders] at hno
    exact ⟨b, rs, cancel_absent h.wellFormed hno, h⟩
  · rw [h.orders, resting] at hsplit
    obtain ⟨l, r', rfl, rfl, hr⟩ := List.map_eq_append_iff.mp hsplit
    obtain ⟨i, r, rfl, rfl, rfl⟩ := List.map_eq_cons_iff.mp hr
    obtain ⟨b', he, hw, hsh, hrest⟩ := cancel_present h.wellFormed hL
    exact ⟨b', l ++ r, he, hw, h.orderCapacity.trans hsh.capacity.symm,
      h.minPrice.trans hsh.minPrice.symm, h.maxPrice.trans hsh.maxPrice.symm, hrest.symm⟩

/-- One call where ids may repeat: the same answer, and again a book that represents the
reference. -/
theorem step (h : b.Represents R rs) {op : BookOp} (hold : b.OldestFirst op) :
    ∃ b' rs', b.step op = some (b', (R.stepOldest op).2) ∧ b'.Represents (R.stepOldest op).1 rs' := by
  cases op with
  | addLimit id side price qty =>
    obtain ⟨b', rs', he, hr⟩ := h.addLimit hold
    exact ⟨b', rs', by rw [OrderBook.step, he]; rfl, hr⟩
  | cancel id =>
    obtain ⟨b', rs', he, hr⟩ := h.cancel id
    exact ⟨b', rs', by rw [OrderBook.step, he]; rfl, hr⟩

/-- No call on such a book ever faults. -/
theorem step_isSome (h : b.Represents R rs) (op : BookOp) : (b.step op).isSome := by
  cases op with
  | addLimit id side price qty =>
    obtain ⟨out, he⟩ := Option.isSome_iff_exists.mp (h.addLimit_isSome id side price qty)
    rw [OrderBook.step, he]
    rfl
  | cancel id =>
    obtain ⟨b', rs', he, -⟩ := h.cancel id
    rw [OrderBook.step, he]
    rfl

end Represents

namespace Refines
variable {b : OrderBook} {R : RefBook} {rs : List Nat}

/-- With distinct ids there is no older order to leave behind. -/
theorem oldestFirst (h : b.Refines R rs) (op : BookOp) : b.OldestFirst op := by
  cases op with
  | cancel id => trivial
  | addLimit id side price qty =>
    intro j hj i hi
    have hrs := (h.wellFormed.linked.mem_makers.mp (List.mem_filter.mp hj).1).1
    rw [h.wellFormed.indexed.queues.slotsUnder] at hi
    have hmem := List.mem_takeWhile_imp hi
    obtain ⟨hirs, hid⟩ := mem_idQueue.mp ((List.takeWhile_sublist _).subset hi)
    have hn := h.ids_nodup
    rw [RefBook.ids, h.orders, resting, List.map_map] at hn
    obtain rfl := List.inj_on_of_nodup_map hn hirs hrs hid
    simp at hmem

/-- The matching phase of AddLimit is the reference's. -/
theorem matching (h : b.Refines R rs) (id : OrderId) (side : Side) (price : Price) (qty : Quantity) :
    ∃ b1 rs1 rem fs, matchOpposite id side price b.passes b qty = some (b1, rem, fs) ∧
      b1.Refines { R with orders := b1.resting rs1 } rs1 ∧
      matchAll id side price R.orders qty = (b1.resting rs1, rem, fs) := by
  obtain ⟨b1, rs1, rem, fs, -, he, hall, -, -, -, h1⟩ := h.toRepresents.matching id side price qty
  refine ⟨b1, rs1, rem, fs, he, ⟨h1 (h.oldestFirst _), ?_⟩, hall⟩
  have hids := (takes_matchAll id side price R.orders qty).1.ids_sublist
  rw [hall] at hids
  exact hids.nodup h.ids_nodup

/-- AddLimit is the reference's, unless it rests a duplicate id. -/
theorem addLimit (h : b.Refines R rs) {id : OrderId} {side : Side} {price : Price} {qty : Quantity}
    (hd : ¬ R.RestsDuplicate (.addLimit id side price qty)) :
    ∃ b' rs', b.addLimit id side price qty =
        some (b', (R.addLimit id side price qty).2.1, (R.addLimit id side price qty).2.2) ∧
      b'.Refines (R.addLimit id side price qty).1 rs' := by
  obtain ⟨b', rs', he, hr⟩ := h.toRepresents.addLimit (h.oldestFirst (.addLimit id side price qty))
  refine ⟨b', rs', he, hr, ?_⟩
  obtain ⟨orders, rem, fs, hall⟩ : ∃ orders rem fs,
      matchAll id side price R.orders qty = (orders, rem, fs) := ⟨_, _, _, rfl⟩
  have hids := (takes_matchAll id side price R.orders qty).1.ids_sublist
  rw [hall] at hids
  have hn : (orders.map Resting.id).Nodup := hids.nodup h.ids_nodup
  rw [RefBook.RestsDuplicate, RefBook.Rests, hall] at hd
  rw [RefBook.addLimit, hall]
  simp only
  split_ifs with hz hroom
  · exact hn
  · rw [RefBook.ids, List.map_append, List.map_singleton]
    refine List.nodup_append.mpr ⟨hn, List.nodup_singleton id, fun x hx y hy hxy => ?_⟩
    obtain rfl := List.mem_singleton.mp hy
    exact hd ⟨⟨hz, hroom⟩, hxy ▸ hx⟩
  · exact hn

/-- Cancel is the reference's. -/
theorem cancel (h : b.Refines R rs) (id : OrderId) :
    ∃ b' rs', b.cancel id = some (b', (R.cancel id).2) ∧ b'.Refines (R.cancel id).1 rs' := by
  obtain ⟨b', rs', he, hr⟩ := h.toRepresents.cancel id
  rw [RefBook.cancelOldest_eq h.ids_nodup] at he hr
  exact ⟨b', rs', he, hr, (R.cancel_ids_sublist id).nodup h.ids_nodup⟩

/-- One call: the same answer, and again a book that represents the reference. -/
theorem step (h : b.Refines R rs) {op : BookOp} (hd : ¬ R.RestsDuplicate op) :
    ∃ b' rs', b.step op = some (b', (R.step op).2) ∧ b'.Refines (R.step op).1 rs' := by
  cases op with
  | addLimit id side price qty =>
    obtain ⟨b', rs', he, hr⟩ := h.addLimit hd
    exact ⟨b', rs', by rw [OrderBook.step, he]; rfl, hr⟩
  | cancel id =>
    obtain ⟨b', rs', he, hr⟩ := h.cancel id
    exact ⟨b', rs', by rw [OrderBook.step, he]; rfl, hr⟩

/-- Any run, by induction over its calls. -/
theorem run {ops : List BookOp} (h : b.Refines R rs) (hd : R.DistinctRun ops) :
    ∃ b' rs', b.run ops = some (b', (R.run ops).2) ∧ b'.Refines (R.run ops).1 rs' := by
  induction ops generalizing b R rs with
  | nil => exact ⟨b, rs, rfl, h⟩
  | cons op ops ih =>
    obtain ⟨b1, rs1, he1, h1⟩ := h.step hd.1
    obtain ⟨b2, rs2, he2, h2⟩ := ih h1 hd.2
    refine ⟨b2, rs2, ?_, h2⟩
    rw [OrderBook.run, he1]
    simp only [Option.bind_eq_bind, Option.bind_some, he2]
    rfl

end Refines

/-- A new book is the empty reference book. -/
theorem new_refines (orderCapacity : Nat) (minPrice maxPrice : Price) (checked : Bool)
    (hcap : orderCapacity < 2 ^ 57) (hband : minPrice ≤ maxPrice) :
    ∃ b, OrderBook.new orderCapacity minPrice maxPrice checked = some b ∧
      b.Refines (RefBook.new orderCapacity minPrice maxPrice) [] := by
  have hsmall : max orderCapacity 1 * 2 % 2 ^ 64 = max orderCapacity 1 * 2 := by omega
  obtain ⟨k, hk1, hk63, hle, hk⟩ := roundUpPow2_spec (n := max orderCapacity 1 * 2) (by omega) (by omega)
  have hrun : OrderBook.new orderCapacity minPrice maxPrice checked = some
      { slab := .new (fun _ => ⟨0, 0, 0, .buy, none, none⟩) orderCapacity checked
        minPrice := minPrice
        maxPrice := maxPrice
        bidLevels := fun _ => {}
        askLevels := fun _ => {}
        bestBidPx := 0
        bestAskPx := 0
        liveBidLevels := 0
        liveAskLevels := 0
        index := ⟨2 ^ k, 2 ^ k - 1, Core.mixId, fun _ => {}⟩ } := by
    rw [OrderBook.new, hsmall, hk]
    simp [guard, hband]
  have hslab := SlabAllocator.new_capacity (fun _ => (⟨0, 0, 0, .buy, none, none⟩ : Order))
    orderCapacity checked
  refine ⟨_, hrun, ⟨⟨⟨⟨SlabAllocator.new_holds _ _ _ (by omega), by simp, ?_⟩, by simp, ?_⟩,
    ⟨⟨k, hk1, by omega, rfl, rfl⟩, Probe.Queues.empty.congr fun _ => rfl⟩,
    ⟨0, Nat.two_pow_pos k, rfl⟩, ?_⟩, hslab.symm, rfl, rfl, rfl⟩, List.nodup_nil⟩
  · intro s px _
    cases s <;> exact .nil
  · intro s
    refine ⟨∅, fun p => by simp [occupied, levelQueue], ?_, by simp⟩
    cases s <;> rfl
  · simp only [hslab]
    omega

end OrderBook
end ExecutionPlatform.Core
