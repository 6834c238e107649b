import ExecutionPlatform.Core.BookCommutation

/-! First come, first served: over a whole session no order trades while one that came before it
waits at the same price. -/
namespace ExecutionPlatform.Core

/-- The ids that were submitted, in order. -/
def submitted : List BookOp → List OrderId
  | [] => []
  | .addLimit id _ _ _ :: ops => id :: submitted ops
  | .cancel _ :: ops => submitted ops

/-- The ids of the session rank upwards from n, in the order they are submitted. -/
def Arrivals (rank : OrderId → Nat) : Nat → List BookOp → Prop
  | _, [] => True
  | n, .addLimit id _ _ _ :: ops => rank id = n ∧ Arrivals rank (n + 1) ops
  | n, .cancel _ :: ops => Arrivals rank n ops

/-- Where no id is submitted twice, the place of its submission ranks it. -/
theorem arrivals_idxOf {all seen : List OrderId} {ops : List BookOp} (hall : all = seen ++ submitted ops)
    (hnodup : all.Nodup) : Arrivals (fun id => all.idxOf id) seen.length ops := by
  induction ops generalizing seen with
  | nil => trivial
  | cons op ops ih =>
    cases op with
    | cancel id => exact ih hall
    | addLimit id side price qty =>
      have hseen : id ∉ seen := by
        rw [hall] at hnodup
        exact fun hin => (List.disjoint_of_nodup_append hnodup) hin List.mem_cons_self
      have hnext : all = (seen ++ [id]) ++ submitted ops := by
        rw [List.append_assoc]
        exact hall
      refine ⟨?_, ?_⟩
      · change all.idxOf id = seen.length
        have hhead : (id :: submitted ops).idxOf id = 0 := List.idxOf_cons_self
        rw [hall, List.idxOf_append_of_notMem hseen]
        exact congrArg (seen.length + ·) hhead
      · have h := ih hnext
        rwa [List.length_append] at h

/-- So far every level was served in order: what rests and what traded have ranks below n, and no
order that traded ranks above one that traded later or still rests there. -/
structure Served (rank : OrderId → Nat) (n : Nat) (orders : List Resting) (fs : List Fill) : Prop where
  queued : (orders.map fun o => rank o.id).Pairwise (· ≤ ·)
  resting : ∀ o ∈ orders, rank o.id < n
  makers : ∀ f ∈ fs, rank f.makerId < n
  ahead : ∀ f ∈ fs, ∀ o ∈ orders, o.side = f.takerSide.opposite → o.price = f.price →
    rank f.makerId ≤ rank o.id
  served : fs.Pairwise fun f g => f.takerSide = g.takerSide → f.price = g.price →
    rank f.makerId ≤ rank g.makerId

namespace Served
variable {rank : OrderId → Nat} {n : Nat} {orders orders' : List Resting} {past fs : List Fill}
  {taker : OrderId} {side : Side} {limit : Price} {remaining remaining' : Quantity} {f : Fill}

/-- Orders may leave. -/
theorem sublist (h : Served rank n orders past) (hsub : orders'.Sublist orders) :
    Served rank n orders' past where
  queued := h.queued.sublist (hsub.map _)
  resting o ho := h.resting o (hsub.subset ho)
  makers := h.makers
  ahead f hf o ho := h.ahead f hf o (hsub.subset ho)
  served := h.served

/-- A fill serves the first of its level. -/
theorem takeOne (h : Served rank n orders past)
    (hfill : takeOne taker side limit orders remaining = some (orders', remaining', f)) :
    Served rank n orders' (past ++ [f]) := by
  have hsubset := takeOne_subset hfill
  obtain ⟨l, m, r, rfl, -, hm, hfirst, -, rfl, -, rfl⟩ := takeOne_level hfill
  have hside : m.side = side.opposite := (reach_of_crossedBy hm).1
  have hids : ((l ++ m.leftover (min remaining m.residual) ++ r).map fun o => rank o.id).Sublist
      ((l ++ m :: r).map fun o => rank o.id) := by
    have hleft : ((m.leftover (min remaining m.residual)).map fun o => rank o.id).Sublist
        [rank m.id] := by
      rw [Resting.leftover]
      split_ifs
      · exact List.nil_sublist _
      · exact List.Sublist.refl _
    rw [List.append_assoc, List.map_append, List.map_append, List.map_append]
    exact (List.Sublist.refl _).append (hleft.append (List.Sublist.refl _))
  refine ⟨h.queued.sublist hids, fun o ho => ?_, fun g hg => ?_, fun g hg o ho hs hp => ?_, ?_⟩
  · obtain ⟨x, hx, hpart⟩ := hsubset o ho
    exact hpart.id ▸ h.resting x hx
  · rcases List.mem_append.mp hg with hg | hg
    · exact h.makers g hg
    · obtain rfl := List.mem_singleton.mp hg
      exact h.resting m (List.mem_append_right _ List.mem_cons_self)
  · rcases List.mem_append.mp hg with hg | hg
    · obtain ⟨x, hx, hpart⟩ := hsubset o ho
      rw [hpart.id]
      exact h.ahead g hg x hx (hpart.side ▸ hs) (hpart.price ▸ hp)
    · obtain rfl := List.mem_singleton.mp hg
      change rank m.id ≤ rank o.id
      rcases List.mem_append.mp ho with ho | ho
      · rcases List.mem_append.mp ho with ho | ho
        · -- nothing of the level stands before the maker
          have hlevel : o ∈ queueOf l m.side m.price := mem_queueOf.mpr ⟨ho, hs.trans hside.symm, hp⟩
          rw [hfirst] at hlevel
          cases hlevel
        · rw [Resting.leftover] at ho
          split_ifs at ho
          · cases ho
          · obtain rfl := List.mem_singleton.mp ho
            exact le_rfl
      · have hqueue := h.queued
        rw [List.map_append, List.map_cons, List.pairwise_append, List.pairwise_cons] at hqueue
        exact hqueue.2.1.1 _ (List.mem_map_of_mem ho)
  · refine List.pairwise_append.mpr ⟨h.served, List.pairwise_singleton _ _, fun g hg f hf hs hp => ?_⟩
    obtain rfl := List.mem_singleton.mp hf
    change g.takerSide = side at hs
    refine h.ahead g hg m (List.mem_append_right _ List.mem_cons_self) ?_ hp.symm
    rw [hs]
    exact hside

theorem takes (h : Served rank n orders past)
    (hfills : Takes taker side limit orders remaining fs orders' remaining') :
    Served rank n orders' (past ++ fs) := by
  induction hfills generalizing past with
  | refl => rwa [List.append_nil]
  | cons hfill _ ih =>
    have hrest := ih (h.takeOne hfill)
    rwa [List.append_assoc] at hrest

/-- The next to come goes last. -/
theorem arrive (h : Served rank n orders past) {o : Resting} (ho : rank o.id = n) :
    Served rank (n + 1) (orders ++ [o]) past := by
  refine ⟨?_, fun x hx => ?_, fun f hf => Nat.lt_succ_of_lt (h.makers f hf), fun f hf x hx hs hp => ?_,
    h.served⟩
  · rw [List.map_append]
    refine List.pairwise_append.mpr ⟨h.queued, List.pairwise_singleton _ _, fun a ha b hb => ?_⟩
    obtain ⟨x, hx, rfl⟩ := List.mem_map.mp ha
    obtain rfl := List.mem_singleton.mp hb
    change rank x.id ≤ rank o.id
    rw [ho]
    exact Nat.le_of_lt (h.resting x hx)
  · rcases List.mem_append.mp hx with hx | hx
    · exact Nat.lt_succ_of_lt (h.resting x hx)
    · obtain rfl := List.mem_singleton.mp hx
      exact ho ▸ Nat.lt_succ_self n
  · rcases List.mem_append.mp hx with hx | hx
    · exact h.ahead f hf x hx hs hp
    · obtain rfl := List.mem_singleton.mp hx
      exact ho ▸ Nat.le_of_lt (h.makers f hf)

theorem mono (h : Served rank n orders past) : Served rank (n + 1) orders past where
  queued := h.queued
  resting o ho := Nat.lt_succ_of_lt (h.resting o ho)
  makers f hf := Nat.lt_succ_of_lt (h.makers f hf)
  ahead := h.ahead
  served := h.served

variable {R : RefBook}

theorem addLimit (h : Served rank n R.orders past) {id : OrderId} (hid : rank id = n) (side : Side)
    (price : Price) (qty : Quantity) :
    Served rank (n + 1) (R.addLimit id side price qty).1.orders
      (past ++ (R.addLimit id side price qty).2.1) := by
  obtain ⟨orders, rem, fs, ht, -, hcases⟩ := R.addLimit_spec id side price qty
  have h' := h.takes ht
  rcases hcases with ⟨-, he⟩ | ⟨-, -, -, he⟩ | ⟨-, -, he⟩
  · rw [he]
    exact h'.mono
  · rw [he]
    exact h'.arrive hid
  · rw [he]
    exact h'.mono

theorem run {ops : List BookOp} (h : Served rank n R.orders past) (hops : Arrivals rank n ops) :
    ∃ n', Served rank n' (R.run ops).1.orders (past ++ (R.run ops).2.flatMap BookOut.fills) := by
  induction ops generalizing R n past with
  | nil =>
    refine ⟨n, ?_⟩
    change Served rank n R.orders (past ++ [])
    rwa [List.append_nil]
  | cons op ops ih =>
    cases op with
    | addLimit id side price qty =>
      obtain ⟨n', hn⟩ := ih (h.addLimit hops.1 side price qty) hops.2
      refine ⟨n', ?_⟩
      rwa [List.append_assoc] at hn
    | cancel id =>
      have hsub : ((R.cancel id).1.orders).Sublist R.orders := by
        rw [RefBook.cancel_orders]
        exact List.filter_sublist
      exact ih (h.sublist hsub) hops

theorem new (rank : OrderId → Nat) (orderCapacity : Nat) (minPrice maxPrice : Price) :
    Served rank 0 (RefBook.new orderCapacity minPrice maxPrice).orders [] where
  queued := List.Pairwise.nil
  resting := by simp [RefBook.new]
  makers := by simp
  ahead := by simp
  served := List.Pairwise.nil

/-- Ids that rank above everything so far are not resting. -/
theorem distinctRun {ops : List BookOp} (h : Served rank n R.orders past) (hops : Arrivals rank n ops) :
    R.DistinctRun ops := by
  induction ops generalizing R n past with
  | nil => trivial
  | cons op ops ih =>
    cases op with
    | addLimit id side price qty =>
      have hid : id ∉ R.ids := by
        intro hin
        obtain ⟨o, ho, rfl⟩ := List.mem_map.mp hin
        exact (h.resting o ho).ne hops.1
      exact ⟨RefBook.not_restsDuplicate hid side price qty,
        ih (h.addLimit hops.1 side price qty) hops.2⟩
    | cancel id =>
      have hsub : ((R.cancel id).1.orders).Sublist R.orders := by
        rw [RefBook.cancel_orders]
        exact List.filter_sublist
      exact ⟨fun hdup => hdup, ih (h.sublist hsub) hops⟩

end Served

/-- First come, first served. In a session that submits no id twice, orders of one side and price
trade in the order they were submitted, and whatever still rests there was submitted no earlier than
anything that traded there. -/
theorem first_come_first_served {orderCapacity : Nat} {minPrice maxPrice : Price} {ops : List BookOp}
    (checked : Bool) (hcap : orderCapacity < 2 ^ 57) (hband : minPrice ≤ maxPrice)
    (hids : (submitted ops).Nodup) :
    ∃ b b' outs, OrderBook.new orderCapacity minPrice maxPrice checked = some b ∧
      b.run ops = some (b', outs) ∧
      ((outs.flatMap BookOut.fills).Pairwise fun f g => f.takerSide = g.takerSide → f.price = g.price →
        (submitted ops).idxOf f.makerId ≤ (submitted ops).idxOf g.makerId) ∧
      ∀ f ∈ outs.flatMap BookOut.fills, ∀ o ∈ b'.levelOrders f.takerSide.opposite f.price,
        (submitted ops).idxOf f.makerId ≤ (submitted ops).idxOf o.id := by
  obtain ⟨b, hnew, href⟩ := OrderBook.new_refines orderCapacity minPrice maxPrice checked hcap hband
  have hstart := Served.new (fun id => (submitted ops).idxOf id) orderCapacity minPrice maxPrice
  have harrive := @arrivals_idxOf (submitted ops) [] ops rfl hids
  obtain ⟨b', rs', hrun, href'⟩ := href.run (hstart.distinctRun harrive)
  obtain ⟨n, hserved⟩ := hstart.run harrive
  refine ⟨b, b', _, hnew, hrun, hserved.served, fun f hf o ho => ?_⟩
  rw [href'.shows.levelOrders] at ho
  obtain ⟨hin, hside, hprice⟩ := mem_queueOf.mp ho
  exact hserved.ahead f hf o hin hside hprice

/-- Three offers at one price, the second withdrawn, and two buyers. -/
theorem first_come_first_served_three_offers :
    ∃ b b' outs, OrderBook.new 4 90 110 true = some b ∧
      b.run [.addLimit 7 .sell 101 2, .addLimit 5 .sell 101 3, .addLimit 6 .sell 101 4, .cancel 5,
        .addLimit 8 .buy 101 1, .addLimit 9 .buy 101 3] = some (b', outs) ∧
      (outs.flatMap BookOut.fills).Pairwise fun f g => f.takerSide = g.takerSide → f.price = g.price →
        [7, 5, 6, 8, 9].idxOf f.makerId ≤ [7, 5, 6, 8, 9].idxOf g.makerId := by
  have hids : (submitted [.addLimit 7 .sell 101 2, .addLimit 5 .sell 101 3, .addLimit 6 .sell 101 4,
      .cancel 5, .addLimit 8 .buy 101 1, .addLimit 9 .buy 101 3]).Nodup := by decide
  obtain ⟨b, b', outs, hnew, hrun, hfair, -⟩ :=
    first_come_first_served true (by decide : 4 < 2 ^ 57) (by decide : (90 : Price) ≤ 110) hids
  exact ⟨b, b', outs, hnew, hrun, hfair⟩

end ExecutionPlatform.Core
