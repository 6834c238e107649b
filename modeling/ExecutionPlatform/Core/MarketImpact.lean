import ExecutionPlatform.Core.ShareMarket
import ExecutionPlatform.Core.BookCommutation
import ExecutionPlatform.Foundations.Streams

/-! What a taker pays: shares come best price first, and a larger order only adds to the end of
what a smaller one would have traded. -/
namespace ExecutionPlatform.Core

/-- A price as the taker sees it: what a buyer pays, and what a seller forgoes. -/
def signed (side : Side) (price : Price) : Int :=
  match side with
  | .buy => price
  | .sell => -price

theorem signed_le {side : Side} {p q : Price} (h : better side.opposite q p = false) :
    signed side p ≤ signed side q := by
  cases side <;> simp [better, Side.opposite, signed] at h ⊢ <;> lia

/-- What the fills cost the taker; a seller's proceeds count as negative. -/
def cost (side : Side) (fs : List Fill) : Int := (fs.map fun f => signed side f.price * f.qty).sum

/-- The price of every share in turn. -/
def sharePrices (side : Side) (fs : List Fill) : List Int :=
  (tradesOf (fun i => i) fs).map fun f => signed side f.price

section Fills
variable {taker : OrderId} {side : Side} {limit : Price} {orders orders' : List Resting}
  {qty rem : Quantity} {fs : List Fill}

theorem sharePrices_cons (f : Fill) (fs : List Fill) :
    sharePrices side (f :: fs) = List.replicate f.qty (signed side f.price) ++ sharePrices side fs := by
  rw [sharePrices, tradesOf_cons, List.map_append, Fill.shares, List.map_replicate]
  rfl

theorem length_sharePrices (side : Side) (fs : List Fill) :
    (sharePrices side fs).length = (fs.map Fill.qty).sum := by
  induction fs with
  | nil => rfl
  | cons f fs ih =>
    rw [sharePrices_cons, List.length_append, List.length_replicate, ih]
    rfl

theorem sum_sharePrices (side : Side) (fs : List Fill) : (sharePrices side fs).sum = cost side fs := by
  induction fs with
  | nil => rfl
  | cons f fs ih =>
    rw [sharePrices_cons, List.sum_append, ih, List.sum_replicate, nsmul_eq_mul, mul_comm]
    rfl

/-- The fills of a call go from the best price to the worst. -/
theorem Takes.sorted (h : Takes taker side limit orders qty fs orders' rem) :
    fs.Pairwise fun f g => better side.opposite g.price f.price = false := by
  induction h with
  | refl => exact List.Pairwise.nil
  | cons h hrest ih =>
    obtain ⟨l, m, r, rfl, -, -, -, hbest, rfl, -, rfl⟩ := takeOne_level h
    refine List.pairwise_cons.mpr ⟨fun g hg => ?_, ih⟩
    obtain ⟨-, x, hx, -, hprice, hside, -⟩ := hrest.fills g hg
    obtain ⟨y, hy, hpart⟩ := takeOne_subset h x hx
    rw [hprice, hpart.price]
    exact hbest y hy (hpart.side.symm.trans hside)

theorem sharePrices_sorted (h : fs.Pairwise fun f g => better side.opposite g.price f.price = false) :
    (sharePrices side fs).Pairwise (· ≤ ·) := by
  induction fs with
  | nil => exact List.Pairwise.nil
  | cons f fs ih =>
    obtain ⟨hf, hfs⟩ := List.pairwise_cons.mp h
    rw [sharePrices_cons]
    refine List.pairwise_append.mpr ⟨?_, ih hfs, fun x hx y hy => ?_⟩
    · exact List.pairwise_replicate_of_refl
    · obtain rfl := (List.mem_replicate.mp hx).2
      obtain ⟨g, hg, rfl⟩ := List.mem_map.mp hy
      obtain ⟨k, hk, hgk⟩ := List.mem_flatMap.mp hg
      obtain rfl := (List.mem_replicate.mp hgk).2
      exact signed_le (hf k hk)

end Fills

/-- A larger order meets the market share by share as the smaller one does, and then goes on. -/
theorem trades_prefix (taker : OrderId) (side : Side) (limit : Price) (orders : List Resting)
    {qty qty' : Quantity} (hle : qty ≤ qty') :
    tradesOf (fun i => i) (matchAll taker side limit orders qty).2.2 <+:
      tradesOf (fun i => i) (matchAll taker side limit orders qty').2.2 := by
  obtain ⟨more, rfl⟩ := Nat.exists_eq_add_of_le hle
  have hunit : ∀ x ∈ sharesOf (fun i => i) orders, x.residual = 1 := by
    intro x hx
    obtain ⟨o, -, -, rfl⟩ := mem_sharesOf.mp hx
    rfl
  obtain ⟨ht, -⟩ := takes_matchAll taker side limit orders qty
  have hsmall := (ht.shares.more hunit more).1
  obtain ⟨hrest, hstuck⟩ := takes_matchAll taker side limit
    (sharesOf (fun i => i) (matchAll taker side limit orders qty).1)
    ((matchAll taker side limit orders qty).2.1 + more)
  have hall := matchAll_of_takes (hsmall.trans hrest) hstuck
  have hlarge : matchAll taker side limit (sharesOf (fun i => i) orders) (qty + more) = _ :=
    matchAll_shares taker side limit orders (qty + more)
  exact ⟨_, congrArg (fun w => w.2.2) (hall.symm.trans hlarge)⟩

namespace RefBook

theorem addLimit_matchAll (R : RefBook) (id : OrderId) (side : Side) (price : Price) (qty : Quantity) :
    (R.addLimit id side price qty).2.1 = (matchAll id side price R.orders qty).2.2 := by
  rw [addLimit]
  simp only
  split_ifs <;> rfl

end RefBook

/-- Market impact on every book that calls can lead to: had the taker asked for more, it would have
traded the same shares first and further ones after them, no share better than the one before it,
so that its average price would have been no better. -/
theorem impact_monotone {orderCapacity : Nat} {minPrice maxPrice : Price} {ops : List BookOp}
    (checked : Bool) (hcap : orderCapacity < 2 ^ 57) (hband : minPrice ≤ maxPrice)
    (hops : (RefBook.new orderCapacity minPrice maxPrice).AdmissibleRun ops) {id : OrderId} (side : Side)
    (price : Price) {qty qty' : Quantity}
    (hid : id ∉ ((RefBook.new orderCapacity minPrice maxPrice).run ops).1.ids) (hle : qty ≤ qty') :
    ∃ b b' outs b₁ fills ok b₂ fills' ok', OrderBook.new orderCapacity minPrice maxPrice checked = some b ∧
      b.run ops = some (b', outs) ∧ b'.addLimit id side price qty = some (b₁, fills, ok) ∧
      b'.addLimit id side price qty' = some (b₂, fills', ok') ∧
      tradesOf (fun i => i) fills <+: tradesOf (fun i => i) fills' ∧
      (fills'.Pairwise fun f g => better side.opposite g.price f.price = false) ∧
      cost side fills * (fills'.map Fill.qty).sum ≤ cost side fills' * (fills.map Fill.qty).sum := by
  obtain ⟨b, hnew, href⟩ := OrderBook.new_refines orderCapacity minPrice maxPrice checked hcap hband
  obtain ⟨b', rs', hrun, href'⟩ := href.run hops.distinctRun
  obtain ⟨R, hR⟩ : ∃ R, ((RefBook.new orderCapacity minPrice maxPrice).run ops).1 = R := ⟨_, rfl⟩
  rw [hR] at hid href'
  obtain ⟨b₁, -, he, -⟩ := href'.addLimit (RefBook.not_restsDuplicate hid side price qty)
  obtain ⟨b₂, -, he', -⟩ := href'.addLimit (RefBook.not_restsDuplicate hid side price qty')
  have hprefix := trades_prefix id side price R.orders hle
  have hsorted := (takes_matchAll id side price R.orders qty').1.sorted
  rw [← R.addLimit_matchAll, ← R.addLimit_matchAll] at hprefix
  rw [← R.addLimit_matchAll] at hsorted
  refine ⟨b, b', _, b₁, _, _, b₂, _, _, hnew, hrun, he, he', hprefix, hsorted, ?_⟩
  have hmap : sharePrices side (R.addLimit id side price qty).2.1 <+:
      sharePrices side (R.addLimit id side price qty').2.1 := hprefix.map _
  obtain ⟨rest, hrest⟩ := hmap
  have hprices := sharePrices_sorted hsorted
  rw [← hrest] at hprices
  have haverage := Foundations.prefix_average (List.pairwise_append.mp hprices).2.2
  rwa [hrest, sum_sharePrices, sum_sharePrices, length_sharePrices, length_sharePrices] at haverage

/-- Two shares at 101 and three at 102, and a buyer of two or of four. -/
theorem impact_monotone_two_levels :
    ∃ b b' outs b₁ fills ok b₂ fills' ok', OrderBook.new 4 90 110 true = some b ∧
      b.run [.addLimit 1 .sell 102 3, .addLimit 2 .sell 101 2] = some (b', outs) ∧
      b'.addLimit 3 .buy 105 2 = some (b₁, fills, ok) ∧ b'.addLimit 3 .buy 105 4 = some (b₂, fills', ok') ∧
      tradesOf (fun i => i) fills <+: tradesOf (fun i => i) fills' ∧
      (fills'.Pairwise fun f g => better .sell g.price f.price = false) ∧
      cost .buy fills * (fills'.map Fill.qty).sum ≤ cost .buy fills' * (fills.map Fill.qty).sum := by
  have hops : (RefBook.new 4 90 110).AdmissibleRun [.addLimit 1 .sell 102 3, .addLimit 2 .sell 101 2] :=
    ⟨by decide, by decide, trivial⟩
  exact impact_monotone true (by decide) (by decide) hops .buy 105 (by decide) (by decide)

end ExecutionPlatform.Core
