import ExecutionPlatform.Core.BookLedger
import Mathlib.Algebra.Order.BigOperators.Group.List

/-! Quantity is neither made nor lost: whatever is submitted is filled, rests, is cancelled or
is dropped, and no order trades more than it asked for. -/
namespace ExecutionPlatform.Core

section Supply

/-- What rests under the given ids. -/
def supply (p : OrderId → Bool) (orders : List Resting) : Quantity :=
  ((orders.filter fun o => p o.id).map Resting.residual).sum

/-- What fills took from makers of the given ids. -/
def drawn (p : OrderId → Bool) (fills : List Fill) : Quantity :=
  ((fills.filter fun f => p f.makerId).map Fill.qty).sum

variable {p : OrderId → Bool} {taker : OrderId} {side : Side} {limit : Price}
  {orders orders' : List Resting} {remaining remaining' : Quantity} {fs : List Fill}

theorem supply_append (p : OrderId → Bool) (l r : List Resting) :
    supply p (l ++ r) = supply p l + supply p r := by
  rw [supply, supply, supply, List.filter_append, List.map_append, List.sum_append]

theorem supply_singleton (p : OrderId → Bool) (m : Resting) :
    supply p [m] = if p m.id then m.residual else 0 := by
  by_cases hp : p m.id = true <;> simp [supply, hp]

theorem supply_eq_zero (h : ∀ o ∈ orders, p o.id = false) : supply p orders = 0 := by
  have hnone : orders.filter (fun o => p o.id) = [] :=
    List.filter_eq_nil_iff.mpr fun o ho => by simp [h o ho]
  rw [supply, hnone]
  rfl

theorem drawn_cons (p : OrderId → Bool) (f : Fill) (fs : List Fill) :
    drawn p (f :: fs) = (if p f.makerId then f.qty else 0) + drawn p fs := by
  by_cases hp : p f.makerId = true <;> simp [drawn, hp]

/-- One fill leaves of its maker what it did not take. -/
theorem supply_leftover (p : OrderId → Bool) {m : Resting} {fill : Quantity} (h : fill ≤ m.residual) :
    (if p m.id then fill else 0) + supply p (m.leftover fill) = supply p [m] := by
  rw [Resting.leftover]
  split_ifs with hp hz hz
  · rw [supply_singleton, if_pos hp]
    change fill + 0 = m.residual
    lia
  · rw [supply_singleton, supply_singleton, if_pos hp, if_pos hp]
    simp only
    lia
  · rw [supply_singleton, if_neg hp]
    rfl
  · rw [supply_singleton, supply_singleton, if_neg hp, if_neg hp]

/-- Fills move quantity out of their makers. -/
theorem Takes.supply (h : Takes taker side limit orders remaining fs orders' remaining')
    (p : OrderId → Bool) : drawn p fs + Core.supply p orders' = Core.supply p orders := by
  induction h with
  | refl => exact Nat.zero_add _
  | @cons orders orders' _ remaining _ _ f fs h _ ih =>
    obtain ⟨l, m, r, rfl, -, -, -, -, rfl, -, rfl⟩ := takeOne_spec h
    have hleft := supply_leftover p (Nat.min_le_right remaining m.residual)
    rw [drawn_cons, List.append_cons, supply_append, supply_append]
    rw [supply_append, supply_append] at ih
    lia

/-- A fill of resting orders is never empty. -/
theorem Takes.fill_pos (h : Takes taker side limit orders remaining fs orders' remaining')
    (hpos : ∀ o ∈ orders, 0 < o.residual) : ∀ f ∈ fs, 1 ≤ f.qty := by
  induction h with
  | refl => simp
  | cons h _ ih =>
    have hrest := ih (takeOne_residual_pos hpos h)
    obtain ⟨l, m, r, rfl, hrem, -, -, -, -, -, rfl⟩ := takeOne_spec h
    have hm : 0 < m.residual := hpos m (by simp)
    intro f hf
    rcases List.mem_cons.mp hf with rfl | hf
    · exact Nat.le_min.mpr ⟨hrem, hm⟩
    · exact hrest f hf

end Supply

namespace BookOut

def fills : BookOut → List Fill
  | .added fills _ => fills
  | .cancelled _ => []

def filled (out : BookOut) : Quantity := (out.fills.map Fill.qty).sum

def cancelledQty : BookOut → Quantity
  | .added _ _ => 0
  | .cancelled report => (report.map OrderBook.CancelReport.qty).getD 0

/-- What the order of the given id traded in one call, as taker or as maker. -/
def tradedAs (id : OrderId) (out : BookOut) : Quantity :=
  ((out.fills.filter fun f => f.takerId = id ∨ f.makerId = id).map Fill.qty).sum

end BookOut

namespace BookOp

def submitted : BookOp → Quantity
  | .addLimit _ _ _ qty => qty
  | .cancel _ => 0

/-- The call submits an order under the id. -/
def Submits (id : OrderId) : BookOp → Prop
  | .addLimit id' _ _ _ => id' = id
  | .cancel _ => False

/-- The residual of an AddLimit that returned false. -/
def dropped : BookOp → BookOut → Quantity
  | .addLimit _ _ _ qty, .added fills false => qty - (fills.map Fill.qty).sum
  | _, _ => 0

end BookOp

namespace RefBook
variable {R : RefBook} {id : OrderId} {op : BookOp}

/-- Orders with distinct ids and something left of each. -/
structure Sound (R : RefBook) : Prop where
  nodup : R.ids.Nodup
  residual : ∀ o ∈ R.orders, 0 < o.residual

theorem Sound.step (h : R.Sound) (hop : R.Admissible op) : (R.step op).1.Sound := by
  cases op with
  | addLimit id side price qty =>
    obtain ⟨orders, rem, fs, ht, -, hcases⟩ := R.addLimit_spec id side price qty
    have hpos := ht.residual_pos h.residual
    refine ⟨addLimit_ids_nodup side price qty h.nodup hop.2, ?_⟩
    intro o ho
    change o ∈ (R.addLimit id side price qty).1.orders at ho
    rcases hcases with ⟨-, he⟩ | ⟨hrem, -, -, he⟩ | ⟨-, -, he⟩ <;> rw [he] at ho
    · exact hpos o ho
    · rcases List.mem_append.mp ho with ho | ho
      · exact hpos o ho
      · obtain rfl := List.mem_singleton.mp ho
        exact hrem
    · exact hpos o ho
  | cancel id =>
    have horders : (R.step (.cancel id)).1.orders = R.orders.filter fun o => o.id ≠ id :=
      R.cancel_orders id
    refine ⟨?_, fun o ho => ?_⟩
    · rw [ids, horders]
      exact (List.filter_sublist.map _).nodup h.nodup
    · rw [horders] at ho
      exact h.residual o (List.mem_filter.mp ho).1

/-- What a cancel reports is what leaves the book. -/
private theorem cancel_supply (h : R.Sound) (id : OrderId) :
    supply (fun _ => true) (R.cancel id).1.orders +
      ((R.cancel id).2.map OrderBook.CancelReport.qty).getD 0 =
        supply (fun _ => true) R.orders := by
  rw [cancel]
  cases hf : R.orders.find? (fun o => o.id = id) with
  | none => exact Nat.add_zero _
  | some m =>
    obtain ⟨hm, l, r, hsplit, -⟩ := List.find?_eq_some_iff_append.mp hf
    have hid : m.id = id := by simpa using hm
    have hn := h.nodup
    rw [ids, hsplit, List.map_append, List.map_cons, List.nodup_append, List.nodup_cons] at hn
    obtain ⟨-, ⟨hr, -⟩, hl⟩ := hn
    have hkeepl : l.filter (fun o => o.id ≠ id) = l := List.filter_eq_self.mpr fun o ho => by
      simpa [hid] using hl o.id (List.mem_map_of_mem ho) m.id List.mem_cons_self
    have hkeepr : r.filter (fun o => o.id ≠ id) = r := List.filter_eq_self.mpr fun o ho => by
      have hne : o.id ≠ m.id := fun he => hr (he ▸ List.mem_map_of_mem ho)
      simpa [hid] using hne
    have hgone : R.orders.filter (fun o => o.id ≠ id) = l ++ r := by
      rw [hsplit, List.filter_append, List.filter_cons_of_neg (by simpa using hid), hkeepl, hkeepr]
    simp only [Option.map_some, Option.getD_some, hgone]
    rw [hsplit, List.append_cons, supply_append, supply_append, supply_append, supply_singleton,
      if_pos rfl]
    lia

private theorem drawn_all (fs : List Fill) : drawn (fun _ => true) fs = (fs.map Fill.qty).sum := by
  rw [drawn, List.filter_eq_self.mpr fun _ _ => rfl]

/-- One call conserves quantity. -/
theorem step_conserves (h : R.Sound) (op : BookOp) :
    supply (fun _ => true) R.orders + op.submitted =
      2 * (R.step op).2.filled + supply (fun _ => true) (R.step op).1.orders +
        (R.step op).2.cancelledQty + op.dropped (R.step op).2 := by
  cases op with
  | addLimit id side price qty =>
    obtain ⟨orders, rem, fs, ht, -, hcases⟩ := R.addLimit_spec id side price qty
    have hmakers := ht.supply fun _ => true
    have htaker := ht.filled
    rw [drawn_all] at hmakers
    rw [step]
    rcases hcases with ⟨hz, he⟩ | ⟨-, -, -, he⟩ | ⟨-, -, he⟩ <;> rw [he]
    · simp only [BookOp.submitted, BookOut.filled, BookOut.fills, BookOut.cancelledQty, BookOp.dropped]
      lia
    · simp only [BookOp.submitted, BookOut.filled, BookOut.fills, BookOut.cancelledQty, BookOp.dropped,
        supply_append, supply_singleton, if_true]
      lia
    · simp only [BookOp.submitted, BookOut.filled, BookOut.fills, BookOut.cancelledQty, BookOp.dropped]
      lia
  | cancel id =>
    have hcancel := cancel_supply h id
    simp only [step, BookOp.submitted, BookOut.filled, BookOut.fills, BookOut.cancelledQty,
      BookOp.dropped, List.map_nil, List.sum_nil]
    lia

theorem run_conserves {ops : List BookOp} (h : R.Sound) (hops : R.AdmissibleRun ops) :
    supply (fun _ => true) R.orders + (ops.map BookOp.submitted).sum =
      2 * ((R.run ops).2.map BookOut.filled).sum + supply (fun _ => true) (R.run ops).1.orders +
        ((R.run ops).2.map BookOut.cancelledQty).sum +
        (List.zipWith BookOp.dropped ops (R.run ops).2).sum := by
  induction ops generalizing R with
  | nil => simp [run]
  | cons op ops ih =>
    have hone := step_conserves h op
    have hrest := ih (h.step hops.1) hops.2
    simp only [run, List.map_cons, List.sum_cons, List.zipWith_cons_cons]
    lia

/-- Every reported fill moves something. -/
theorem run_fill_pos {ops : List BookOp} (h : R.Sound) (hops : R.AdmissibleRun ops) :
    ∀ out ∈ (R.run ops).2, ∀ f ∈ out.fills, 1 ≤ f.qty := by
  induction ops generalizing R with
  | nil => simp [run]
  | cons op ops ih =>
    intro out hout
    rw [run] at hout
    rcases List.mem_cons.mp hout with rfl | hout
    · cases op with
      | addLimit id side price qty =>
        obtain ⟨orders, rem, fs, ht, -, hcases⟩ := R.addLimit_spec id side price qty
        have hfs : (R.addLimit id side price qty).2.1 = fs := by
          rcases hcases with ⟨-, he⟩ | ⟨-, -, -, he⟩ | ⟨-, -, he⟩ <;> rw [he]
        change ∀ f ∈ (R.addLimit id side price qty).2.1, 1 ≤ f.qty
        rw [hfs]
        exact ht.fill_pos h.residual
      | cancel id => exact fun f hf => absurd hf List.not_mem_nil
    · exact ih (h.step hops.1) hops.2 out hout

/-- A submission trades and rests no more than it asked for. -/
theorem submit_traded (side : Side) (price : Price) (qty : Quantity) (hid : id ∉ R.ids) :
    (R.step (.addLimit id side price qty)).2.tradedAs id +
      supply (fun x => x = id) (R.step (.addLimit id side price qty)).1.orders ≤ qty := by
  obtain ⟨orders, rem, fs, ht, -, hcases⟩ := R.addLimit_spec id side price qty
  have htaker := ht.filled
  have hall : fs.filter (fun f => f.takerId = id ∨ f.makerId = id) = fs :=
    List.filter_eq_self.mpr fun f hf => decide_eq_true (.inl (ht.fills f hf).1)
  have hnone : supply (fun x => x = id) orders = 0 := by
    refine supply_eq_zero fun o ho => decide_eq_false fun he => ?_
    obtain ⟨m, hm, hpart⟩ := ht.subset o ho
    exact hid (List.mem_map.mpr ⟨m, hm, hpart.id.symm.trans he⟩)
  rw [step]
  rcases hcases with ⟨-, he⟩ | ⟨-, -, -, he⟩ | ⟨-, -, he⟩ <;> rw [he] <;>
    simp only [BookOut.tradedAs, BookOut.fills, hall]
  · lia
  · rw [supply_append, hnone, supply_singleton]
    simp only [decide_true, if_true]
    lia
  · lia

/-- A call of others takes from an order no more than rests of it. -/
theorem other_traded (hop : ¬ op.Submits id) :
    (R.step op).2.tradedAs id + supply (fun x => x = id) (R.step op).1.orders ≤
      supply (fun x => x = id) R.orders := by
  cases op with
  | addLimit id' side price qty =>
    obtain ⟨orders, rem, fs, ht, -, hcases⟩ := R.addLimit_spec id' side price qty
    have hmakers := ht.supply fun x => decide (x = id)
    have hsame : fs.filter (fun f => f.takerId = id ∨ f.makerId = id) =
        fs.filter fun f => decide (f.makerId = id) := by
      refine List.filter_congr fun f hf => ?_
      have hne : f.takerId ≠ id := fun he => hop ((ht.fills f hf).1.symm.trans he)
      simp only [hne, false_or]
    rw [drawn] at hmakers
    rw [step]
    rcases hcases with ⟨-, he⟩ | ⟨-, -, -, he⟩ | ⟨-, -, he⟩ <;> rw [he] <;>
      simp only [BookOut.tradedAs, BookOut.fills, hsame]
    · exact hmakers.le
    · have hne : ¬ id' = id := hop
      rw [supply_append, supply_singleton]
      simp only [hne, decide_false, Bool.false_eq_true, if_false, Nat.add_zero]
      exact hmakers.le
    · exact hmakers.le
  | cancel id' =>
    have horders : (R.step (.cancel id')).1.orders = R.orders.filter fun o => o.id ≠ id' :=
      R.cancel_orders id'
    have hzero : (R.step (.cancel id')).2.tradedAs id = 0 := rfl
    rw [hzero, horders, Nat.zero_add, supply, supply]
    refine List.Sublist.sum_le_sum ?_ fun _ _ => Nat.zero_le _
    exact (List.filter_sublist.filter _).map _

theorem run_traded {ops : List BookOp} (hops : ∀ op ∈ ops, ¬ op.Submits id) :
    ((R.run ops).2.map (BookOut.tradedAs id)).sum + supply (fun x => x = id) (R.run ops).1.orders ≤
      supply (fun x => x = id) R.orders := by
  induction ops generalizing R with
  | nil => simp [run]
  | cons op ops ih =>
    have hone := other_traded (R := R) (hops op List.mem_cons_self)
    have hrest := ih (R := (R.step op).1) fun op' h' => hops op' (List.mem_cons_of_mem op h')
    simp only [run, List.map_cons, List.sum_cons]
    lia

theorem run_append (R : RefBook) (ops ops' : List BookOp) :
    R.run (ops ++ ops') =
      (((R.run ops).1.run ops').1, (R.run ops).2 ++ ((R.run ops).1.run ops').2) := by
  induction ops generalizing R with
  | nil => rfl
  | cons op ops ih => simp only [List.cons_append, run, ih]

theorem run_length (R : RefBook) (ops : List BookOp) : (R.run ops).2.length = ops.length := by
  induction ops generalizing R with
  | nil => rfl
  | cons op ops ih => rw [run, List.length_cons, ih, List.length_cons]

theorem AdmissibleRun.split {ops ops' : List BookOp} (h : R.AdmissibleRun (ops ++ ops')) :
    (R.run ops).1.AdmissibleRun ops' := by
  induction ops generalizing R with
  | nil => exact h
  | cons op ops ih => exact ih h.2

/-- From its submission on, and until its id is submitted again, an order trades at most
what it asked for. -/
theorem tradedAs_le {side : Side} {price : Price} {qty : Quantity} {pre mid rest : List BookOp}
    (hops : R.AdmissibleRun (pre ++ .addLimit id side price qty :: mid ++ rest))
    (hmid : ∀ op ∈ mid, ¬ op.Submits id) :
    ((((R.run (pre ++ .addLimit id side price qty :: mid ++ rest)).2.drop pre.length).take
      (mid.length + 1)).map (BookOut.tradedAs id)).sum ≤ qty := by
  rw [List.append_assoc] at hops ⊢
  have hid : id ∉ (R.run pre).1.ids := (hops.split).1.2
  have hone := submit_traded side price qty hid
  have hrest := run_traded (R := ((R.run pre).1.step (.addLimit id side price qty)).1) hmid
  have hlen := run_length (R.run pre).1 (.addLimit id side price qty :: mid)
  rw [List.length_cons] at hlen
  rw [run_append, ← run_length R pre, List.drop_left, run_append, ← hlen, List.take_left, run,
    List.map_cons, List.sum_cons]
  lia

end RefBook

namespace OrderBook

/-- The residuals of all orders on the levels of the band. -/
def restingQty (b : OrderBook) : Quantity :=
  ∑ d ∈ Finset.range (b.maxPrice + 1 - b.minPrice).toNat,
    (((b.levelOrders .buy (b.minPrice + d)).map Resting.residual).sum +
      ((b.levelOrders .sell (b.minPrice + d)).map Resting.residual).sum)

private theorem supply_eq_sum_levels {orders : List Resting} {lo : Price} {n : Nat}
    (h : ∀ o ∈ orders, ∃ d < n, o.price = lo + (d : Nat)) :
    supply (fun _ => true) orders = ∑ d ∈ Finset.range n,
      (((orders.filter fun o => o.side = .buy ∧ o.price = lo + (d : Nat)).map Resting.residual).sum +
        ((orders.filter fun o => o.side = .sell ∧ o.price = lo + (d : Nat)).map
          Resting.residual).sum) := by
  induction orders with
  | nil => simp [supply]
  | cons o orders ih =>
    obtain ⟨k, hk, hok⟩ := h o List.mem_cons_self
    have hcons : ∀ d : Nat,
        (((o :: orders).filter fun o => o.side = .buy ∧ o.price = lo + (d : Nat)).map
            Resting.residual).sum +
          (((o :: orders).filter fun o => o.side = .sell ∧ o.price = lo + (d : Nat)).map
            Resting.residual).sum = (if k = d then o.residual else 0) +
          (((orders.filter fun o => o.side = .buy ∧ o.price = lo + (d : Nat)).map
              Resting.residual).sum +
            ((orders.filter fun o => o.side = .sell ∧ o.price = lo + (d : Nat)).map
              Resting.residual).sum) := by
      intro d
      have hpx : o.price = lo + (d : Nat) ↔ k = d := by lia
      by_cases hd : k = d
      · have hp := hpx.mpr hd
        cases hs : o.side <;> simp [hp, hd, hs] <;> lia
      · have hp : ¬ o.price = lo + (d : Nat) := fun hp => hd (hpx.mp hp)
        simp [hp, hd]
    rw [Finset.sum_congr rfl fun d _ => hcons d, Finset.sum_add_distrib,
      ← ih fun o' ho => h o' (List.mem_cons_of_mem o ho), Finset.sum_ite_eq,
      if_pos (Finset.mem_range.mpr hk), ← List.singleton_append, supply_append, supply_singleton,
      if_pos rfl]

theorem Refines.restingQty {b : OrderBook} {R : RefBook} {rs : List Nat} (h : b.Refines R rs) :
    b.restingQty = supply (fun _ => true) R.orders := by
  have hband : ∀ o ∈ R.orders, ∃ d < (b.maxPrice + 1 - b.minPrice).toNat,
      o.price = b.minPrice + (d : Nat) := by
    intro o ho
    rw [h.orders] at ho
    obtain ⟨i, hi, rfl⟩ := List.mem_map.mp ho
    have hb := h.wellFormed.linked.band i hi
    rw [inBand, Bool.and_eq_true, decide_eq_true_eq, decide_eq_true_eq] at hb
    refine ⟨((b.slab.storage i).resting.price - b.minPrice).toNat, ?_, ?_⟩ <;>
      simp only [Order.resting] <;> lia
  rw [supply_eq_sum_levels hband, OrderBook.restingQty]
  exact Finset.sum_congr rfl fun d _ => by
    rw [h.shows.levelOrders, h.shows.levelOrders]
    rfl

/-- What the answers outs to a run of calls, and the book that the run leaves, account for. -/
structure Conserved (ops : List BookOp) (outs : List BookOut) (b : OrderBook) : Prop where
  total : (ops.map BookOp.submitted).sum = 2 * (outs.map BookOut.filled).sum + b.restingQty +
    (outs.map BookOut.cancelledQty).sum + (List.zipWith BookOp.dropped ops outs).sum
  fill_pos : ∀ out ∈ outs, ∀ f ∈ out.fills, 1 ≤ f.qty
  traded_le : ∀ pre id side price qty mid rest,
    ops = pre ++ .addLimit id side price qty :: mid ++ rest → (∀ op ∈ mid, ¬ op.Submits id) →
      (((outs.drop pre.length).take (mid.length + 1)).map (BookOut.tradedAs id)).sum ≤ qty

/-- Over any run from the empty book, what was submitted was traded, rests, was cancelled or
was dropped; no fill is empty; and no order trades more than it asked for. -/
theorem quantity_conserved {orderCapacity : Nat} {minPrice maxPrice : Price} {ops : List BookOp}
    (checked : Bool) (hcap : orderCapacity < 2 ^ 57) (hband : minPrice ≤ maxPrice)
    (hops : (RefBook.new orderCapacity minPrice maxPrice).AdmissibleRun ops) :
    ∃ b b' outs, OrderBook.new orderCapacity minPrice maxPrice checked = some b ∧
      b.run ops = some (b', outs) ∧ Conserved ops outs b' := by
  obtain ⟨b, hnew, h⟩ := new_refines orderCapacity minPrice maxPrice checked hcap hband
  obtain ⟨b', rs', hrun, h'⟩ := h.run hops.distinctRun
  have hsound : (RefBook.new orderCapacity minPrice maxPrice).Sound :=
    ⟨List.nodup_nil, fun o ho => absurd ho List.not_mem_nil⟩
  have hsum := RefBook.run_conserves hsound hops
  refine ⟨b, b', _, hnew, hrun, ?_, RefBook.run_fill_pos hsound hops, ?_⟩
  · rw [h'.restingQty, ← hsum]
    exact (Nat.zero_add _).symm
  · rintro pre id side price qty mid rest rfl hmid
    exact RefBook.tradedAs_le hops hmid

theorem quantity_conserved_dropped_residual :
    ∃ b b' outs, OrderBook.new 1 90 110 true = some b ∧
      b.run [.addLimit 1 .sell 101 5, .addLimit 2 .sell 102 3, .addLimit 3 .buy 101 2,
        .addLimit 4 .buy 111 9, .addLimit 3 .buy 95 6, .cancel 3] = some (b', outs) ∧
      Conserved [.addLimit 1 .sell 101 5, .addLimit 2 .sell 102 3, .addLimit 3 .buy 101 2,
        .addLimit 4 .buy 111 9, .addLimit 3 .buy 95 6, .cancel 3] outs b' :=
  quantity_conserved true (by decide) (by decide)
    ⟨by decide, by decide, by decide, by decide, by decide, by decide, trivial⟩

end OrderBook
end ExecutionPlatform.Core
