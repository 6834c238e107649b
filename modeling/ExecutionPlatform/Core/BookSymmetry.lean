import ExecutionPlatform.Core.MatchingBook

/-! Buyers and sellers are treated alike: swapping the sides and negating the prices of
every call does the same to everything the book shows. -/
namespace ExecutionPlatform.Core

theorem Side.opposite_inj {s t : Side} : s.opposite = t.opposite ↔ s = t := by
  cases s <;> cases t <;> decide

def Resting.mirror (o : Resting) : Resting := { o with side := o.side.opposite, price := -o.price }

def Fill.mirror (f : Fill) : Fill := { f with takerSide := f.takerSide.opposite, price := -f.price }

def OrderBook.CancelReport.mirror (c : OrderBook.CancelReport) : OrderBook.CancelReport :=
  { c with side := c.side.opposite, price := -c.price }

def BookOp.mirror : BookOp → BookOp
  | .addLimit id side price qty => .addLimit id side.opposite (-price) qty
  | .cancel id => .cancel id

def BookOut.mirror : BookOut → BookOut
  | .added fills ok => .added (fills.map Fill.mirror) ok
  | .cancelled report => .cancelled (report.map OrderBook.CancelReport.mirror)

section Mirror
variable {side : Side} {limit px q : Price} {orders : List Resting}

theorem crosses_mirror : crosses side.opposite (-limit) (-px) = crosses side limit px := by
  cases side <;> simp [crosses, Side.opposite]

theorem better_mirror : better side.opposite (-px) (-q) = better side px q := by
  cases side <;> simp [better, Side.opposite]

theorem Resting.crossedBy_mirror (o : Resting) :
    o.mirror.crossedBy side.opposite (-limit) = o.crossedBy side limit := by
  rw [crossedBy, crossedBy]
  simp only [mirror, crosses_mirror, Side.opposite_inj]

theorem Resting.leftover_mirror (m : Resting) (fill : Quantity) :
    m.mirror.leftover fill = (m.leftover fill).map mirror := by
  by_cases hz : m.residual - fill = 0
  · rw [leftover, leftover, if_pos hz]
    exact if_pos hz
  · rw [leftover, leftover, if_neg hz]
    exact if_neg hz

theorem takeBest_mirror : takeBest side.opposite (-limit) (orders.map Resting.mirror) =
    (takeBest side limit orders).map fun w =>
      (w.1.map Resting.mirror, w.2.1.mirror, w.2.2.map Resting.mirror) := by
  induction orders with
  | nil => rfl
  | cons o orders ih =>
    rw [List.map_cons, takeBest, takeBest, ih]
    cases takeBest side limit orders with
    | none =>
      simp only [Option.map_none, o.crossedBy_mirror]
      split_ifs
      · rfl
      · rfl
    | some w =>
      obtain ⟨l, m, r⟩ := w
      have hbetter : better side.opposite.opposite m.mirror.price o.mirror.price =
          better side.opposite m.price o.price := better_mirror
      simp only [Option.map_some, o.crossedBy_mirror, hbetter]
      split_ifs
      · rfl
      · rfl

variable {taker : OrderId} {remaining : Quantity}

theorem takeOne_mirror :
    takeOne taker side.opposite (-limit) (orders.map Resting.mirror) remaining =
      (takeOne taker side limit orders remaining).map fun w =>
        (w.1.map Resting.mirror, w.2.1, w.2.2.mirror) := by
  rw [takeOne, takeOne, takeBest_mirror]
  split_ifs with hz
  · rfl
  · cases takeBest side limit orders with
    | none => rfl
    | some w =>
      obtain ⟨l, m, r⟩ := w
      have hres : m.mirror.residual = m.residual := rfl
      simp only [Option.map_some, hres, Resting.leftover_mirror, List.map_append]
      rfl

theorem matchLoop_mirror (fuel : Nat) :
    matchLoop taker side.opposite (-limit) fuel (orders.map Resting.mirror) remaining =
      ((matchLoop taker side limit fuel orders remaining).1.map Resting.mirror,
        (matchLoop taker side limit fuel orders remaining).2.1,
        (matchLoop taker side limit fuel orders remaining).2.2.map Fill.mirror) := by
  induction fuel generalizing orders remaining with
  | zero => rfl
  | succ fuel ih =>
    rw [matchLoop, matchLoop, takeOne_mirror]
    cases takeOne taker side limit orders remaining with
    | none => rfl
    | some w =>
      obtain ⟨orders', remaining', f⟩ := w
      simp only [Option.map_some, ih, List.map_cons]

theorem bestPrice_mirror : bestPrice side.opposite (orders.map Resting.mirror) =
    (bestPrice side orders).map fun p => -p := by
  induction orders with
  | nil => rfl
  | cons o orders ih =>
    have hside : o.mirror.side = side.opposite ↔ o.side = side := Side.opposite_inj
    rw [List.map_cons, bestPrice, bestPrice, ih]
    simp only [hside]
    split_ifs with hs
    · cases bestPrice side orders with
      | none => rfl
      | some p =>
        have hbetter : better side.opposite (-p) o.mirror.price = better side p o.price :=
          better_mirror
        simp only [Option.map_some, hbetter]
        split_ifs
        · rfl
        · rfl
    · rfl

end Mirror

namespace RefBook

def mirror (R : RefBook) : RefBook :=
  { R with minPrice := -R.maxPrice, maxPrice := -R.minPrice, orders := R.orders.map Resting.mirror }

theorem addLimit_mirror (R : RefBook) (id : OrderId) (side : Side) (price : Price) (qty : Quantity) :
    R.mirror.addLimit id side.opposite (-price) qty =
      ((R.addLimit id side price qty).1.mirror, (R.addLimit id side price qty).2.1.map Fill.mirror,
        (R.addLimit id side price qty).2.2) := by
  have hband : (-R.maxPrice ≤ -price ∧ -price ≤ -R.minPrice) ↔
      (R.minPrice ≤ price ∧ price ≤ R.maxPrice) := by
    rw [Int.neg_le_neg_iff, Int.neg_le_neg_iff]
    exact and_comm
  rw [addLimit, addLimit, matchAll, matchAll]
  simp only [mirror, List.length_map, matchLoop_mirror]
  obtain ⟨⟨orders, remaining, fills⟩, hall⟩ : ∃ w, matchLoop id side price (R.orders.length + 1)
    R.orders qty = w := ⟨_, rfl⟩
  simp only [hall, hband]
  split_ifs
  · rfl
  · simp [Resting.mirror]
  · rfl

theorem cancel_mirror (R : RefBook) (id : OrderId) :
    R.mirror.cancel id =
      ((R.cancel id).1.mirror, (R.cancel id).2.map OrderBook.CancelReport.mirror) := by
  have hfind : (R.orders.map Resting.mirror).find? (fun o => o.id = id) =
      (R.orders.find? fun o => o.id = id).map Resting.mirror := List.find?_map ..
  rw [cancel, cancel]
  simp only [mirror, hfind]
  cases R.orders.find? (fun o => o.id = id) with
  | none => rfl
  | some o =>
    simp only [Option.map_some, List.filter_map]
    rfl

theorem step_mirror (R : RefBook) (op : BookOp) :
    R.mirror.step op.mirror = ((R.step op).1.mirror, (R.step op).2.mirror) := by
  cases op with
  | addLimit id side price qty =>
    rw [BookOp.mirror, step, addLimit_mirror]
    rfl
  | cancel id =>
    rw [BookOp.mirror, step, cancel_mirror]
    rfl

theorem mirror_run (R : RefBook) (ops : List BookOp) :
    R.mirror.run (ops.map BookOp.mirror) =
      ((R.run ops).1.mirror, (R.run ops).2.map BookOut.mirror) := by
  induction ops generalizing R with
  | nil => rfl
  | cons op ops ih =>
    rw [List.map_cons, run, step_mirror]
    simp only [ih]
    rfl

theorem ids_mirror (R : RefBook) : R.mirror.ids = R.ids := by
  rw [ids, ids, mirror, List.map_map]
  rfl

/-- The mirror image of calls a client is meant to make is such a sequence too. -/
theorem AdmissibleRun.mirror {R : RefBook} {ops : List BookOp} (h : R.AdmissibleRun ops) :
    R.mirror.AdmissibleRun (ops.map BookOp.mirror) := by
  induction ops generalizing R with
  | nil => trivial
  | cons op ops ih =>
    obtain ⟨hop, hops⟩ := h
    refine ⟨?_, ?_⟩
    · cases op with
      | addLimit id side price qty => exact ⟨hop.1, R.ids_mirror ▸ hop.2⟩
      | cancel id => trivial
    · rw [step_mirror]
      exact ih hops

end RefBook

namespace OrderBook

/-- Buyers and sellers are treated alike: the mirrored calls on the mirrored band have the
mirrored results, and leave the mirrored touch. -/
theorem mirror_symmetry {orderCapacity : Nat} {minPrice maxPrice : Price} {ops : List BookOp}
    (checked : Bool) (hcap : orderCapacity < 2 ^ 57) (hband : minPrice ≤ maxPrice)
    (hops : (RefBook.new orderCapacity minPrice maxPrice).AdmissibleRun ops) :
    ∃ b c b' c' outs, OrderBook.new orderCapacity minPrice maxPrice checked = some b ∧
      OrderBook.new orderCapacity (-maxPrice) (-minPrice) checked = some c ∧
      b.run ops = some (b', outs) ∧
      c.run (ops.map BookOp.mirror) = some (c', outs.map BookOut.mirror) ∧
      c'.hasAsk = b'.hasBid ∧ c'.hasBid = b'.hasAsk ∧
      c'.bestAsk = -b'.bestBid ∧ c'.bestBid = -b'.bestAsk := by
  obtain ⟨b, hb, hr⟩ := new_refines _ _ _ checked hcap hband
  obtain ⟨c, hc, hr'⟩ := new_refines orderCapacity (-maxPrice) (-minPrice) checked hcap
    (Int.neg_le_neg hband)
  obtain ⟨b', rs, hrun, h⟩ := hr.run hops.distinctRun
  obtain ⟨c', rs', hrun', h'⟩ := hr'.run hops.mirror.distinctRun
  have hmirror := (RefBook.new orderCapacity minPrice maxPrice).mirror_run ops
  have hsame : (RefBook.new orderCapacity minPrice maxPrice).mirror =
      RefBook.new orderCapacity (-maxPrice) (-minPrice) := rfl
  rw [hsame] at hmirror
  rw [hmirror] at hrun' h'
  have hbest : ∀ s, bestPrice s.opposite ((RefBook.new orderCapacity minPrice maxPrice).run ops).1.mirror.orders =
      (bestPrice s ((RefBook.new orderCapacity minPrice maxPrice).run ops).1.orders).map fun p => -p :=
    fun s => bestPrice_mirror
  have hhas : ∀ s : Side, c'.has s.opposite = b'.has s := fun s => by
    rw [h'.has_eq, h.has_eq, hbest, Option.isSome_map]
  have hpx : ∀ s : Side, c'.bestOf s.opposite = -b'.bestOf s := fun s => by
    rw [h'.bestOf_eq, h.bestOf_eq, hbest]
    cases bestPrice s ((RefBook.new orderCapacity minPrice maxPrice).run ops).1.orders with
    | none => rfl
    | some p => rfl
  exact ⟨b, c, b', c', _, hb, hc, hrun, hrun', hhas .buy, hhas .sell, hpx .buy, hpx .sell⟩

theorem mirror_symmetry_partial_fill :
    ∃ b c b' c' outs, OrderBook.new 2 90 110 true = some b ∧
      OrderBook.new 2 (-110) (-90) true = some c ∧
      b.run [.addLimit 1 .sell 101 5, .addLimit 2 .buy 102 3, .cancel 1] = some (b', outs) ∧
      c.run [.addLimit 1 .buy (-101) 5, .addLimit 2 .sell (-102) 3, .cancel 1] =
        some (c', outs.map BookOut.mirror) ∧
      c'.hasAsk = b'.hasBid ∧ c'.hasBid = b'.hasAsk ∧
      c'.bestAsk = -b'.bestBid ∧ c'.bestBid = -b'.bestAsk :=
  mirror_symmetry true (by decide) (by decide) ⟨by decide, by decide, by decide, trivial⟩

end OrderBook
end ExecutionPlatform.Core
