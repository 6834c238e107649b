import ExecutionPlatform.Core.MatchingBook

/-! Everything a call does to the reference book: which orders its fills name, how much
they move, and what rests afterwards. -/
namespace ExecutionPlatform.Core

section Fills
variable {taker : OrderId} {side : Side} {limit : Price} {orders orders' : List Resting}
  {remaining remaining' : Quantity} {fs : List Fill}

/-- The quantity resting on one side. -/
def depth (side : Side) (orders : List Resting) : Quantity :=
  ((orders.filter fun o => o.side = side).map Resting.residual).sum

theorem depth_append (s : Side) (l r : List Resting) : depth s (l ++ r) = depth s l + depth s r := by
  rw [depth, depth, depth, List.filter_append, List.map_append, List.sum_append]

theorem depth_singleton (m : Resting) : depth m.side [m] = m.residual := by simp [depth]

theorem depth_leftover {m : Resting} {fill : Quantity} (h : fill ≤ m.residual) :
    fill + depth m.side (m.leftover fill) = m.residual := by
  rw [Resting.leftover]
  split_ifs with hz
  · simp only [depth, List.filter_nil, List.map_nil, List.sum_nil]
    lia
  · rw [depth_singleton { m with residual := m.residual - fill }]
    lia

/-- Every fill names the taker and a maker that rested on the other side within its limit. -/
theorem Takes.fills (h : Takes taker side limit orders remaining fs orders' remaining') :
    ∀ f ∈ fs, f.takerId = taker ∧ ∃ m ∈ orders, f.makerId = m.id ∧ f.price = m.price ∧
      m.side = side.opposite ∧ crosses side limit m.price = true := by
  induction h with
  | refl => simp
  | cons h _ ih =>
    obtain ⟨l, m, r, rfl, -, hm, -, -, -, -, rfl⟩ := takeOne_spec h
    simp only [Resting.crossedBy, Bool.and_eq_true, decide_eq_true_eq] at hm
    intro g hg
    rcases List.mem_cons.mp hg with rfl | hg
    · exact ⟨rfl, m, by simp, rfl, rfl, hm⟩
    · obtain ⟨htaker, x, hx, hid, hp, hs, hc⟩ := ih g hg
      obtain ⟨y, hy, hpart⟩ := takeOne_subset h x hx
      exact ⟨htaker, y, hy, hid.trans hpart.id, hp.trans hpart.price, hpart.side ▸ hs, hpart.price ▸ hc⟩

/-- Fills move quantity from the taker. -/
theorem Takes.filled (h : Takes taker side limit orders remaining fs orders' remaining') :
    (fs.map Fill.qty).sum + remaining' = remaining := by
  induction h with
  | refl => simp
  | cons h _ ih =>
    obtain ⟨l, m, r, -, -, -, -, -, -, rfl, rfl⟩ := takeOne_spec h
    rw [List.map_cons, List.sum_cons]
    lia

/-- Fills move quantity out of the other side of the book. -/
theorem Takes.depth (h : Takes taker side limit orders remaining fs orders' remaining') :
    (fs.map Fill.qty).sum + Core.depth side.opposite orders' = Core.depth side.opposite orders := by
  induction h with
  | refl => simp
  | @cons orders orders' _ remaining _ _ f fs h _ ih =>
    obtain ⟨l, m, r, rfl, -, hm, -, -, rfl, -, rfl⟩ := takeOne_spec h
    simp only [Resting.crossedBy, Bool.and_eq_true, decide_eq_true_eq] at hm
    have hleft := depth_leftover (Nat.min_le_right remaining m.residual)
    have hone := depth_singleton m
    rw [hm.1] at hleft hone
    rw [List.append_cons, depth_append, depth_append, hone]
    rw [depth_append, depth_append] at ih
    rw [List.map_cons, List.sum_cons]
    lia

/-- Every fill but the one that exhausts the taker takes an order out of the book. -/
theorem Takes.fills_length (h : Takes taker side limit orders remaining fs orders' remaining') :
    fs.length + orders'.length ≤ orders.length + if remaining' = 0 then 1 else 0 := by
  rcases h.length with hz | hle
  · rw [if_pos hz]
    induction h with
    | refl => exact (Nat.zero_add _).trans_le (Nat.le_succ _)
    | @cons orders orders' _ remaining remaining' _ f fs h hrest ih =>
      obtain ⟨l, m, r, rfl, -, -, -, -, rfl, rfl, -⟩ := takeOne_spec h
      have hleft : ∀ fill, (m.leftover fill).length ≤ 1 := by
        intro fill
        rw [Resting.leftover]
        split_ifs <;> simp
      have hrest' := ih hz
      rcases Nat.le_total remaining m.residual with hdone | hgone
      · -- the taker is done, so this fill is the last one
        have hone := hleft remaining
        rw [Nat.min_eq_left hdone, Nat.sub_self] at hrest
        cases hrest with
        | refl =>
          simp only [List.length_append, List.length_cons, List.length_nil]
          omega
        | cons h' _ => exact absurd (takeOne_pos h') (Nat.lt_irrefl 0)
      · have hnone : m.leftover (min remaining m.residual) = [] := by
          rw [Nat.min_eq_right hgone, Resting.leftover, if_pos (Nat.sub_self _)]
        rw [hnone] at hrest'
        simp only [List.length_append, List.length_cons, List.length_nil] at hrest' ⊢
        omega
  · omega

end Fills

namespace RefBook

/-- The constants of a book, which no call changes. -/
structure SameShape (R R' : RefBook) : Prop where
  orderCapacity : R'.orderCapacity = R.orderCapacity
  minPrice : R'.minPrice = R.minPrice
  maxPrice : R'.maxPrice = R.maxPrice

theorem SameShape.trans {R R' R'' : RefBook} (h : R.SameShape R') (h' : R'.SameShape R'') :
    R.SameShape R'' :=
  ⟨h'.orderCapacity.trans h.orderCapacity, h'.minPrice.trans h.minPrice, h'.maxPrice.trans h.maxPrice⟩

/-- Everything AddLimit does: fills until nothing crosses, and then the residual is gone,
rests, or is dropped. -/
theorem addLimit_spec (R : RefBook) (id : OrderId) (side : Side) (price : Price) (qty : Quantity) :
    ∃ orders rem fs, Takes id side price R.orders qty fs orders rem ∧
      takeOne id side price orders rem = none ∧
      (rem = 0 ∧ R.addLimit id side price qty = ({ R with orders := orders }, fs, true) ∨
        0 < rem ∧ (R.minPrice ≤ price ∧ price ≤ R.maxPrice) ∧ orders.length < R.orderCapacity ∧
          R.addLimit id side price qty =
            ({ R with orders := orders ++ [⟨id, side, price, rem⟩] }, fs, true) ∨
        0 < rem ∧ ¬ ((R.minPrice ≤ price ∧ price ≤ R.maxPrice) ∧ orders.length < R.orderCapacity) ∧
          R.addLimit id side price qty = ({ R with orders := orders }, fs, false)) := by
  obtain ⟨ht, hstuck⟩ := takes_matchAll id side price R.orders qty
  obtain ⟨⟨orders, rem, fs⟩, hall⟩ : ∃ w, matchAll id side price R.orders qty = w := ⟨_, rfl⟩
  rw [hall] at ht hstuck
  refine ⟨orders, rem, fs, ht, hstuck, ?_⟩
  rw [addLimit, hall]
  simp only
  split_ifs with hz hroom
  · exact .inl ⟨hz, rfl⟩
  · exact .inr (.inl ⟨Nat.pos_of_ne_zero hz, hroom.1, hroom.2, rfl⟩)
  · exact .inr (.inr ⟨Nat.pos_of_ne_zero hz, hroom, rfl⟩)

/-- What rests after AddLimit rested before, or is its own residual. -/
theorem addLimit_mem (R : RefBook) (id : OrderId) (side : Side) (price : Price) (qty : Quantity) :
    ∀ o ∈ (R.addLimit id side price qty).1.orders,
    (∃ m ∈ R.orders, o.PartOf m) ∨
      ((R.addLimit id side price qty).2.2 = true ∧ o.PartOf ⟨id, side, price, qty⟩ ∧
        ((R.addLimit id side price qty).2.1.map Fill.qty).sum < qty) := by
  intro o ho
  obtain ⟨orders, rem, fs, ht, -, h⟩ := R.addLimit_spec id side price qty
  rcases h with ⟨-, h⟩ | ⟨hpos, -, -, h⟩ | ⟨-, -, h⟩ <;> rw [h] at ho ⊢
  · exact .inl (ht.subset o ho)
  · rcases List.mem_append.mp ho with ho | ho
    · exact .inl (ht.subset o ho)
    · obtain rfl := List.mem_singleton.mp ho
      have hsum := ht.filled
      exact .inr ⟨rfl, ⟨rfl, rfl, rfl, by simp only; lia⟩, by simp only; lia⟩
  · exact .inl (ht.subset o ho)

theorem addLimit_fills (R : RefBook) (id : OrderId) (side : Side) (price : Price) (qty : Quantity) :
    ∀ f ∈ (R.addLimit id side price qty).2.1,
    f.takerId = id ∧ ∃ m ∈ R.orders, f.makerId = m.id ∧ f.price = m.price ∧
      m.side = side.opposite ∧ crosses side price m.price = true := by
  intro f hf
  obtain ⟨orders, rem, fs, ht, -, h⟩ := R.addLimit_spec id side price qty
  rcases h with ⟨-, h⟩ | ⟨-, -, -, h⟩ | ⟨-, -, h⟩ <;> rw [h] at hf <;> exact ht.fills f hf

/-- The fills of a call exceed neither its quantity nor the depth it meets. -/
theorem addLimit_filled (R : RefBook) (id : OrderId) (side : Side) (price : Price) (qty : Quantity) :
    ((R.addLimit id side price qty).2.1.map Fill.qty).sum ≤ min qty (depth side.opposite R.orders) := by
  obtain ⟨orders, rem, fs, ht, -, h⟩ := R.addLimit_spec id side price qty
  have hsum := ht.filled
  have hdepth := ht.depth
  rcases h with ⟨-, h⟩ | ⟨-, -, -, h⟩ | ⟨-, -, h⟩ <;> rw [h] <;> simp only <;> lia

theorem addLimit_ids_nodup {R : RefBook} {id : OrderId} (side : Side) (price : Price) (qty : Quantity)
    (hn : R.ids.Nodup) (hid : id ∉ R.ids) : (R.addLimit id side price qty).1.ids.Nodup := by
  obtain ⟨orders, rem, fs, ht, -, h⟩ := R.addLimit_spec id side price qty
  have hsub := ht.ids_sublist
  have hkept : (orders.map Resting.id).Nodup := hsub.nodup hn
  rcases h with ⟨-, h⟩ | ⟨-, -, -, h⟩ | ⟨-, -, h⟩ <;> rw [h, ids]
  · exact hkept
  · rw [List.map_append, List.nodup_append]
    refine ⟨hkept, List.nodup_singleton _, fun x hx y hy => ?_⟩
    obtain rfl := List.mem_singleton.mp hy
    rintro rfl
    exact hid (hsub.subset hx)
  · exact hkept

/-- A call inside the band that finds room is accepted. -/
theorem addLimit_accepted {R : RefBook} {price : Price} (hband : R.minPrice ≤ price ∧ price ≤ R.maxPrice)
    (hroom : R.orders.length < R.orderCapacity) (id : OrderId) (side : Side) (qty : Quantity) :
    (R.addLimit id side price qty).2.2 = true := by
  obtain ⟨orders, rem, fs, ht, -, h⟩ := R.addLimit_spec id side price qty
  have hle : orders.length ≤ R.orders.length := by
    have hids := ht.ids_sublist.length_le
    rwa [List.length_map, List.length_map] at hids
  rcases h with ⟨-, h⟩ | ⟨-, -, -, h⟩ | ⟨-, hno, h⟩
  · rw [h]
  · rw [h]
  · exact absurd ⟨hband, hle.trans_lt hroom⟩ hno

/-- What rests afterwards rested before, but for one order at most. -/
theorem addLimit_ids_sublist (R : RefBook) (id : OrderId) (side : Side) (price : Price) (qty : Quantity) :
    (R.addLimit id side price qty).1.ids.Sublist (R.ids ++ [id]) := by
  obtain ⟨orders, rem, fs, ht, -, h⟩ := R.addLimit_spec id side price qty
  have hsub : (orders.map Resting.id).Sublist R.ids := ht.ids_sublist
  rcases h with ⟨-, h⟩ | ⟨-, -, -, h⟩ | ⟨-, -, h⟩ <;> rw [h, ids]
  · exact hsub.trans (List.sublist_append_left ..)
  · rw [List.map_append]
    exact hsub.append (List.Sublist.refl _)
  · exact hsub.trans (List.sublist_append_left ..)

theorem addLimit_shape (R : RefBook) (id : OrderId) (side : Side) (price : Price) (qty : Quantity) :
    R.SameShape (R.addLimit id side price qty).1 := by
  obtain ⟨orders, rem, fs, -, -, h⟩ := R.addLimit_spec id side price qty
  rcases h with ⟨-, h⟩ | ⟨-, -, -, h⟩ | ⟨-, -, h⟩ <;> rw [h] <;> exact ⟨rfl, rfl, rfl⟩

theorem cancel_shape (R : RefBook) (id : OrderId) : R.SameShape (R.cancel id).1 := by
  rw [cancel]
  cases R.orders.find? (fun o => o.id = id) with
  | none => exact ⟨rfl, rfl, rfl⟩
  | some m => exact ⟨rfl, rfl, rfl⟩

/-- Cancel leaves every other order as it was. -/
theorem cancel_orders (R : RefBook) (id : OrderId) :
    (R.cancel id).1.orders = R.orders.filter fun o => o.id ≠ id := by
  rw [cancel]
  cases hf : R.orders.find? (fun o => o.id = id) with
  | some m => rfl
  | none =>
    symm
    refine List.filter_eq_self.mpr fun o ho => ?_
    simpa using List.find?_eq_none.mp hf o ho

/-- What an AddLimit emits and leaves resting is at most two more than rested before. -/
theorem addLimit_length (R : RefBook) (id : OrderId) (side : Side) (price : Price) (qty : Quantity) :
    (R.addLimit id side price qty).2.1.length +
      (if (R.addLimit id side price qty).2.2 = true ∧
          ((R.addLimit id side price qty).2.1.map Fill.qty).sum < qty then 1 else 0) +
      (R.addLimit id side price qty).1.orders.length ≤ R.orders.length + 2 := by
  obtain ⟨orders, rem, fs, ht, -, h⟩ := R.addLimit_spec id side price qty
  have hlen := ht.fills_length
  have hsum := ht.filled
  rcases h with ⟨hz, h⟩ | ⟨hpos, -, -, h⟩ | ⟨hpos, -, h⟩ <;> rw [h]
  · have hall : ¬ (fs.map Fill.qty).sum < qty := by lia
    rw [if_pos hz] at hlen
    simp only [hall, and_false, if_false]
    omega
  · rw [if_neg hpos.ne'] at hlen
    simp only [List.length_append, List.length_singleton]
    split_ifs <;> omega
  · rw [if_neg hpos.ne'] at hlen
    simp only [Bool.false_eq_true, false_and, if_false]
    omega

/-- A cancel that reports an order has taken it out. -/
theorem cancel_length (R : RefBook) (id : OrderId) :
    (if (R.cancel id).2.isSome then 1 else 0) + (R.cancel id).1.orders.length ≤ R.orders.length := by
  rw [cancel]
  cases hf : R.orders.find? (fun o => o.id = id) with
  | none => exact (Nat.zero_add _).le
  | some m =>
    have hlt : (R.orders.filter fun o => o.id ≠ id).length < R.orders.length := by
      refine List.length_filter_lt_length_iff_exists.mpr ⟨m, List.mem_of_find?_eq_some hf, ?_⟩
      simpa using List.find?_some hf
    change 1 + (R.orders.filter fun o => o.id ≠ id).length ≤ R.orders.length
    omega

/-- An order of this side and limit crosses no resting order with one of the ids. -/
def Spares (R : RefBook) (ids : List OrderId) (side : Side) (price : Price) : Prop :=
  ∀ o ∈ R.orders.filter fun o => decide (o.id ∈ ids), o.crossedBy side price = false

instance (R : RefBook) (ids : List OrderId) (side : Side) (price : Price) :
    Decidable (R.Spares ids side price) :=
  List.decidableBAll ..

theorem Spares.fills {R : RefBook} {ids : List OrderId} {side : Side} {price : Price}
    (h : R.Spares ids side price) (id : OrderId) (qty : Quantity) :
    ∀ f ∈ (R.addLimit id side price qty).2.1, f.makerId ∉ ids := by
  intro f hf hid
  obtain ⟨-, m, hm, hmaker, -, hside, hcross⟩ := R.addLimit_fills id side price qty f hf
  have hno := h m (List.mem_filter.mpr ⟨hm, decide_eq_true (hmaker ▸ hid)⟩)
  rw [Resting.crossedBy, hcross, decide_eq_true hside] at hno
  cases hno

/-- Every resting price lies in the band. -/
def InBand (R : RefBook) : Prop := ∀ o ∈ R.orders, R.minPrice ≤ o.price ∧ o.price ≤ R.maxPrice

theorem InBand.addLimit {R : RefBook} (h : R.InBand) (id : OrderId) (side : Side) (price : Price)
    (qty : Quantity) : (R.addLimit id side price qty).1.InBand := by
  obtain ⟨orders, rem, fs, ht, -, hadd⟩ := R.addLimit_spec id side price qty
  have hkept : ∀ o ∈ orders, R.minPrice ≤ o.price ∧ o.price ≤ R.maxPrice := fun o ho => by
    obtain ⟨m, hm, hpart⟩ := ht.subset o ho
    exact hpart.price ▸ h m hm
  rcases hadd with ⟨-, hadd⟩ | ⟨-, hband, -, hadd⟩ | ⟨-, -, hadd⟩ <;> rw [hadd]
  · exact hkept
  · intro o ho
    rcases List.mem_append.mp ho with ho | ho
    · exact hkept o ho
    · obtain rfl := List.mem_singleton.mp ho
      exact hband
  · exact hkept

theorem InBand.cancel {R : RefBook} (h : R.InBand) (id : OrderId) : (R.cancel id).1.InBand := by
  intro o ho
  rw [cancel_orders] at ho
  rw [(R.cancel_shape id).minPrice, (R.cancel_shape id).maxPrice]
  exact h o (List.mem_filter.mp ho).1

end RefBook

namespace OrderBook

/-- An order of this side and limit crosses no order with one of the ids on the ladder. -/
def Spares (b : OrderBook) (ids : List OrderId) (side : Side) (price : Price) : Prop :=
  ∀ px, ∀ o ∈ b.levelOrders side.opposite px, o.id ∈ ids → crosses side price px = false

theorem Represents.spares_iff {b : OrderBook} {R : RefBook} {rs : List Nat} (h : b.Represents R rs)
    (ids : List OrderId) (side : Side) (price : Price) :
    b.Spares ids side price ↔ R.Spares ids side price := by
  constructor
  · intro hb o ho
    obtain ⟨ho, hid⟩ := List.mem_filter.mp ho
    rw [Resting.crossedBy, Bool.and_eq_false_imp, decide_eq_true_eq]
    intro hside
    refine hb o.price o ?_ (of_decide_eq_true hid)
    rw [h.shows.levelOrders]
    exact List.mem_filter.mpr ⟨ho, by simp [hside]⟩
  · intro hR px o ho hid
    rw [h.shows.levelOrders] at ho
    obtain ⟨hmem, hside, rfl⟩ : o ∈ R.orders ∧ o.side = side.opposite ∧ o.price = px := by
      simpa [RefBook.queue] using ho
    have hno := hR o (List.mem_filter.mpr ⟨hmem, decide_eq_true hid⟩)
    rwa [Resting.crossedBy, decide_eq_true hside, Bool.true_and] at hno

end OrderBook
end ExecutionPlatform.Core
