import ExecutionPlatform.Core.BookRefinement
import Mathlib.Algebra.BigOperators.Group.Finset.Piecewise
import Mathlib.Algebra.BigOperators.Intervals
import Mathlib.Data.Int.ConditionallyCompleteOrder

/-! What the order book guarantees its clients: the answers and observers of the
reference book, a well-formed ladder in every reachable state, an index that points at
live orders, and a book that is never crossed. -/
namespace ExecutionPlatform.Core
open Foundations
namespace OrderBook

def has (b : OrderBook) : Side → Bool
  | .buy => b.hasBid
  | .sell => b.hasAsk

def bestOf (b : OrderBook) : Side → Price
  | .buy => b.bestBid
  | .sell => b.bestAsk

/-- The queue that a client reads from a level by following its links. -/
def levelOrders (b : OrderBook) (s : Side) (px : Price) : List Resting :=
  if b.inBand px then
    (follow (fun i => (b.slab.storage i).next) b.slab.capacity (b.levels s (b.idx px)).head).map
      fun i => (b.slab.storage i).resting
  else []

/-- Every observer of the concrete book answers as the reference book would. -/
structure Shows (b : OrderBook) (R : RefBook) : Prop where
  has : ∀ s, b.has s = true ↔ ∃ o ∈ R.orders, o.side = s
  best : ∀ s, b.has s = true → R.IsBest s (b.bestOf s)
  noBest : ∀ s, b.has s = false → b.bestOf s = 0
  levelQty : ∀ s px, b.levelQty s px = ((R.queue s px).map Resting.residual).sum % 2 ^ 64
  levelOrderCount : ∀ s px, b.levelOrderCount s px = (R.queue s px).length % 2 ^ 32
  openOrderCount : b.openOrderCount = R.orders.length
  levelOrders : ∀ s px, b.levelOrders s px = R.queue s px

theorem has_iff_live (b : OrderBook) (s : Side) : b.has s = true ↔ 0 < b.live s := by
  cases s <;> exact decide_eq_true_iff

theorem bestOf_eq (b : OrderBook) (s : Side) :
    b.bestOf s = if 0 < b.live s then b.best s else 0 := by
  cases s <;> rfl

namespace Represents
variable {b : OrderBook} {R : RefBook} {rs : List Nat}

theorem queue_eq (h : b.Represents R rs) (s : Side) (px : Price) :
    R.queue s px = (levelQueue b.slab.storage rs s px).map fun i => (b.slab.storage i).resting := by
  rw [RefBook.queue, h.orders, resting, List.filter_map, levelQueue]
  rfl

theorem queue_outside (h : b.Represents R rs) {s : Side} {px : Price} (hb : b.inBand px = false) :
    R.queue s px = [] := by
  rw [h.queue_eq, List.map_eq_nil_iff]
  by_contra hocc
  rw [h.wellFormed.linked.inBand_of_occupied hocc] at hb
  cases hb

theorem shows (h : b.Represents R rs) : b.Shows R := by
  have hlive : ∀ s, 0 < b.live s ↔ ∃ o ∈ R.orders, o.side = s := by
    intro s
    rw [h.wellFormed.touched.live_pos_iff, h.orders]
    constructor
    · rintro ⟨p, hp⟩
      obtain ⟨o, ho, hs, -⟩ := occupied_iff.mp hp
      exact ⟨o, ho, hs⟩
    · rintro ⟨o, ho, hs⟩
      exact ⟨o.price, occupied_iff.mpr ⟨o, ho, hs, rfl⟩⟩
  refine ⟨fun s => (has_iff_live b s).trans (hlive s), fun s hs => ?_, fun s hs => ?_, fun s px => ?_,
    fun s px => ?_, ?_, fun s px => ?_⟩
  · have hpos := (has_iff_live b s).mp hs
    obtain ⟨hocc, hbest⟩ := h.wellFormed.best_spec hpos
    rw [bestOf_eq, if_pos hpos]
    refine ⟨?_, ?_⟩ <;> rw [h.orders]
    · exact occupied_iff.mp hocc
    · exact hbest
  · rw [bestOf_eq, if_neg]
    rw [← has_iff_live, hs]
    exact Bool.false_ne_true
  · rw [OrderBook.levelQty]
    split_ifs with hb
    · rw [(h.wellFormed.linked.level s px hb).total, h.queue_eq, List.map_map]
      rfl
    · rw [h.queue_outside (by simpa using hb)]
      rfl
  · rw [OrderBook.levelOrderCount]
    split_ifs with hb
    · rw [(h.wellFormed.linked.level s px hb).count, h.queue_eq, List.length_map]
    · rw [h.queue_outside (by simpa using hb)]
      rfl
  · rw [OrderBook.openOrderCount, h.wellFormed.linked.slab.inUse, h.length]
  · rw [OrderBook.levelOrders]
    split_ifs with hb
    · have hlvl := h.wellFormed.linked.level s px hb
      have hlen : (levelQueue b.slab.storage rs s px).length ≤ b.slab.capacity :=
        (List.length_filter_le _ rs).trans h.wellFormed.linked.slab.length_le
      rw [hlvl.head, hlvl.links.follow_head hlen, h.queue_eq]
    · rw [h.queue_outside (by simpa using hb)]

end Represents

/-- The concrete book answers every sequence of calls as the reference book does, and
shows the same book afterwards. -/
theorem run_refines_reference {orderCapacity : Nat} {minPrice maxPrice : Price} {ops : List BookOp}
    (checked : Bool) (hcap : orderCapacity < 2 ^ 57) (hband : minPrice ≤ maxPrice)
    (hops : (RefBook.new orderCapacity minPrice maxPrice).AdmissibleRun ops) :
    ∃ b b', OrderBook.new orderCapacity minPrice maxPrice checked = some b ∧
      b.run ops = some (b', ((RefBook.new orderCapacity minPrice maxPrice).run ops).2) ∧
      b'.Shows ((RefBook.new orderCapacity minPrice maxPrice).run ops).1 := by
  obtain ⟨b, hnew, h⟩ := new_refines _ _ _ checked hcap hband
  obtain ⟨b', rs', hrun, h'⟩ := h.run hops.distinctRun
  exact ⟨b, b', hnew, hrun, h'.shows⟩

theorem run_refines_reference_partial_fill :
    ∃ b b', OrderBook.new 2 90 110 true = some b ∧
      b.run [.addLimit 1 .sell 101 5, .addLimit 2 .sell 100 3, .addLimit 3 .buy 101 4, .cancel 1] =
        some (b', [.added [] true, .added [] true,
          .added [⟨2, 3, 100, 3, .buy⟩, ⟨1, 3, 101, 1, .buy⟩] true,
          .cancelled (some ⟨1, .sell, 101, 4⟩)]) ∧
      b'.Shows ⟨2, 90, 110, []⟩ :=
  run_refines_reference true (by decide) (by decide)
    ⟨by decide, by decide, by decide, by decide, trivial⟩

/-- chain lists, level by level, the nodes that the book's own links and counters describe. -/
structure LadderOK (b : OrderBook) (chain : Side → Price → List Nat) : Prop where
  forward : ∀ s px, b.inBand px = true →
    Chained (fun i => (b.slab.storage i).next) (b.levels s (b.idx px)).head (chain s px)
  backward : ∀ s px, b.inBand px = true →
    Chained (fun i => (b.slab.storage i).prev) (b.levels s (b.idx px)).tail (chain s px).reverse
  acyclic : ∀ s px, (chain s px).Nodup
  disjoint : ∀ s px s' px' i, i ∈ chain s px → i ∈ chain s' px' → s = s' ∧ px = px'
  node : ∀ s px, ∀ i ∈ chain s px, b.slab.allocated i = true ∧ (b.slab.storage i).side = s ∧
    (b.slab.storage i).price = px ∧ 0 < (b.slab.storage i).qty
  orderCount : ∀ s px, b.inBand px = true →
    (b.levels s (b.idx px)).orderCount = (chain s px).length % 2 ^ 32
  totalQty : ∀ s px, b.inBand px = true →
    (b.levels s (b.idx px)).totalQty = ((chain s px).map fun i => (b.slab.storage i).qty).sum % 2 ^ 64
  liveLevels : ∀ s, b.live s =
    ((Finset.Icc b.minPrice b.maxPrice).filter fun px => chain s px ≠ []).card
  bestLevel : ∀ s, 0 < b.live s → b.inBand (b.best s) = true ∧ chain s (b.best s) ≠ [] ∧
    ∀ px, chain s px ≠ [] → better s px (b.best s) = false
  inUse : b.slab.inUse =
    ∑ px ∈ Finset.Icc b.minPrice b.maxPrice, ((chain .buy px).length + (chain .sell px).length)

/-- Every order is on exactly one level of the band. -/
private theorem length_eq_sum_levels {mem : Nat → Order} {rs : List Nat} {lo hi : Price}
    (h : ∀ i ∈ rs, (mem i).price ∈ Finset.Icc lo hi) :
    rs.length = ∑ px ∈ Finset.Icc lo hi,
      ((levelQueue mem rs .buy px).length + (levelQueue mem rs .sell px).length) := by
  induction rs with
  | nil => simp [levelQueue]
  | cons i rs ih =>
    have hcons : ∀ px, (levelQueue mem (i :: rs) .buy px).length +
        (levelQueue mem (i :: rs) .sell px).length = (if (mem i).price = px then 1 else 0) +
          ((levelQueue mem rs .buy px).length + (levelQueue mem rs .sell px).length) := by
      intro px
      by_cases hp : (mem i).price = px
      · cases hs : (mem i).side <;> simp [levelQueue, hp, hs] <;> omega
      · simp [levelQueue, hp]
    rw [Finset.sum_congr rfl fun px _ => hcons px, Finset.sum_add_distrib,
      ← ih fun j hj => h j (List.mem_cons_of_mem i hj), Finset.sum_ite_eq,
      if_pos (h i List.mem_cons_self), List.length_cons, Nat.add_comm]

theorem Represents.ladderOK {b : OrderBook} {R : RefBook} {rs : List Nat} (h : b.Represents R rs) :
    b.LadderOK (levelQueue b.slab.storage rs) := by
  have hl := h.wellFormed.linked
  have hband : ∀ px, b.inBand px = true ↔ px ∈ Finset.Icc b.minPrice b.maxPrice := by
    intro px
    rw [h.inBand_iff, Finset.mem_Icc, h.minPrice, h.maxPrice]
  refine ⟨fun s px hb => ?_, fun s px hb => ?_, fun s px => levelQueue_nodup hl.nodup, ?_, ?_,
    fun s px hb => (hl.level s px hb).count, fun s px hb => (hl.level s px hb).total, fun s => ?_,
    fun s hs => ?_, ?_⟩
  · rw [(hl.level s px hb).head]
    exact (hl.level s px hb).links.chained
  · rw [(hl.level s px hb).tail, ← List.head?_reverse]
    exact (hl.level s px hb).links.reverse.chained
  · intro s px s' px' i hi hi'
    obtain ⟨-, h1, h2⟩ := mem_levelQueue.mp hi
    obtain ⟨-, h3, h4⟩ := mem_levelQueue.mp hi'
    exact ⟨h1.symm.trans h3, h2.symm.trans h4⟩
  · intro s px i hi
    obtain ⟨hrs, hs, hp⟩ := mem_levelQueue.mp hi
    exact ⟨(hl.slab.allocated i).mpr hrs, hs, hp, h.wellFormed.qty i hrs⟩
  · obtain ⟨S, hS, hc, -⟩ := h.wellFormed.touched s
    rw [hc]
    congr 1
    ext px
    rw [Finset.mem_filter, hS, ← hband]
    exact ⟨fun ho => ⟨hl.inBand_of_occupied ho, ho⟩, fun ho => ho.2⟩
  · obtain ⟨h1, h2⟩ := h.wellFormed.touched.best_spec hs
    exact ⟨hl.inBand_of_occupied h1, h1, h2⟩
  · rw [hl.slab.inUse]
    exact length_eq_sum_levels fun i hi => (hband _).mp (hl.band i hi)

/-- An id that some node of the ladder carries. -/
def Carries (b : OrderBook) (id : OrderId) : Prop :=
  ∃ s px, id ∈ (b.levelOrders s px).map Resting.id

theorem Represents.carries_iff {b : OrderBook} {R : RefBook} {rs : List Nat}
    (h : b.Represents R rs) (id : OrderId) : b.Carries id ↔ id ∈ R.ids := by
  have hq := h.shows.levelOrders
  constructor
  · rintro ⟨s, px, hid⟩
    rw [hq] at hid
    obtain ⟨o, ho, rfl⟩ := List.mem_map.mp hid
    exact List.mem_map.mpr ⟨o, (List.mem_filter.mp ho).1, rfl⟩
  · intro hid
    obtain ⟨o, ho, rfl⟩ := List.mem_map.mp hid
    refine ⟨o.side, o.price, ?_⟩
    rw [hq]
    exact List.mem_map.mpr ⟨o, List.mem_filter.mpr ⟨ho, by simp⟩, rfl⟩

/-- The states that calls of the allowed kind lead to. -/
inductive Reachable (orderCapacity : Nat) (minPrice maxPrice : Price) (checked : Bool)
    (allowed : OrderBook → BookOp → Prop) : OrderBook → Prop
  | new {b : OrderBook} (h : OrderBook.new orderCapacity minPrice maxPrice checked = some b) :
      Reachable orderCapacity minPrice maxPrice checked allowed b
  | step {b b' : OrderBook} {op : BookOp} {out : BookOut}
      (hr : Reachable orderCapacity minPrice maxPrice checked allowed b) (ha : allowed b op)
      (h : b.step op = some (b', out)) :
      Reachable orderCapacity minPrice maxPrice checked allowed b'

/-- Every call of the sequence is of the allowed kind when its turn comes. -/
def AllowedRun (allowed : OrderBook → BookOp → Prop) : OrderBook → List BookOp → Prop
  | _, [] => True
  | b, op :: ops => allowed b op ∧ ∀ out ∈ b.step op, AllowedRun allowed out.1 ops

instance AllowedRun.decidable {allowed : OrderBook → BookOp → Prop}
    [∀ b op, Decidable (allowed b op)] :
    ∀ (b : OrderBook) (ops : List BookOp), Decidable (AllowedRun allowed b ops)
  | _, [] => .isTrue trivial
  | b, op :: ops =>
    have : DecidablePred fun out : OrderBook × BookOut => AllowedRun allowed out.1 ops :=
      fun out => AllowedRun.decidable out.1 ops
    inferInstanceAs (Decidable (allowed b op ∧ ∀ out ∈ b.step op, AllowedRun allowed out.1 ops))

/-- A positive quantity under an id that is not resting. -/
def FreshCall (b : OrderBook) : BookOp → Prop
  | .addLimit id _ _ qty => 0 < qty ∧ ¬ b.Carries id
  | .cancel _ => True

theorem Represents.freshCall_iff {b : OrderBook} {R : RefBook} {rs : List Nat}
    (h : b.Represents R rs) {op : BookOp} : b.FreshCall op ↔ R.Admissible op := by
  cases op with
  | addLimit id side price qty => exact and_congr_right fun _ => not_congr (h.carries_iff id)
  | cancel id => exact Iff.rfl

theorem Refines.allowedRun {ops : List BookOp} {b : OrderBook} {R : RefBook} {rs : List Nat}
    (h : b.Refines R rs) (hops : R.AdmissibleRun ops) : AllowedRun FreshCall b ops := by
  induction ops generalizing b R rs with
  | nil => trivial
  | cons op ops ih =>
    obtain ⟨b', rs', he, h'⟩ := h.step hops.1.not_restsDuplicate
    refine ⟨h.freshCall_iff.mpr hops.1, fun out hout => ?_⟩
    obtain rfl := Option.some.inj (he.symm.trans hout)
    exact ih h' hops.2

namespace Reachable
variable {orderCapacity : Nat} {minPrice maxPrice : Price} {checked : Bool}
  {allowed : OrderBook → BookOp → Prop} {b b' : OrderBook} {ops : List BookOp} {outs : List BookOut}

theorem run (h : Reachable orderCapacity minPrice maxPrice checked allowed b)
    (hops : AllowedRun allowed b ops) (hrun : b.run ops = some (b', outs)) :
    Reachable orderCapacity minPrice maxPrice checked allowed b' := by
  induction ops generalizing b outs with
  | nil =>
    cases hrun
    exact h
  | cons op ops ih =>
    obtain ⟨⟨b1, out⟩, he, hrun⟩ := Option.bind_eq_some_iff.mp hrun
    obtain ⟨⟨b2, outs2⟩, hrest, hrun⟩ := Option.bind_eq_some_iff.mp hrun
    cases hrun
    exact ih (h.step hops.1 he) (hops.2 _ he) hrest

/-- Whatever a new book has and an allowed call preserves, every reachable state has. -/
private theorem invariant {I : OrderBook → Prop} (hcap : orderCapacity < 2 ^ 57)
    (hnew : ∀ b, b.Refines (RefBook.new orderCapacity minPrice maxPrice) [] → I b)
    (hstep : ∀ b op, I b → allowed b op → ∃ b' out, b.step op = some (b', out) ∧ I b')
    (h : Reachable orderCapacity minPrice maxPrice checked allowed b) : I b := by
  induction h with
  | @new b h =>
    have hband : minPrice ≤ maxPrice := by
      by_contra hno
      rw [OrderBook.new] at h
      simp [guard, hno] at h
    obtain ⟨b', he, hr⟩ := new_refines _ _ _ checked hcap hband
    obtain rfl : b' = b := Option.some.inj (he.symm.trans h)
    exact hnew b' hr
  | @step b _ op _ hr ha h ih =>
    obtain ⟨b', out, he, hI⟩ := hstep b op ih ha
    cases he.symm.trans h
    exact hI

/-- Under fresh ids every reachable state represents a reference book with distinct ids. -/
theorem refines (hcap : orderCapacity < 2 ^ 57)
    (h : Reachable orderCapacity minPrice maxPrice checked FreshCall b) : ∃ R rs, b.Refines R rs := by
  refine invariant (I := fun b => ∃ R rs, b.Refines R rs) hcap (fun b h => ⟨_, _, h⟩) ?_ h
  rintro b op ⟨R, rs, hR⟩ hop
  obtain ⟨b', rs', he, hR'⟩ := hR.step (hR.freshCall_iff.mp hop).not_restsDuplicate
  exact ⟨b', _, he, _, _, hR'⟩

/-- As long as the oldest order of an id is sold out first, every reachable state
represents a reference book, which has whatever every call of the reference preserves. -/
theorem represents {P : RefBook → Prop} (hcap : orderCapacity < 2 ^ 57)
    (hnew : P (RefBook.new orderCapacity minPrice maxPrice))
    (hstep : ∀ R op, P R → P (R.stepOldest op).1)
    (h : Reachable orderCapacity minPrice maxPrice checked OldestFirst b) :
    ∃ R rs, b.Represents R rs ∧ P R := by
  refine invariant (I := fun b => ∃ R rs, b.Represents R rs ∧ P R) hcap
    (fun b h => ⟨_, _, h.toRepresents, hnew⟩) ?_ h
  rintro b op ⟨R, rs, hR, hP⟩ hop
  obtain ⟨b', rs', he, hR'⟩ := hR.step hop
  exact ⟨b', _, he, _, _, hR', hstep R op hP⟩

end Reachable

/-- The ladder is well formed in every reachable state, and the next call never faults:
its scan stays inside the vector, its loops end, and on a checked slab it touches no
node that was returned. -/
theorem reachable_ladder {orderCapacity : Nat} {minPrice maxPrice : Price} {checked : Bool}
    {b : OrderBook} (hcap : orderCapacity < 2 ^ 57)
    (h : Reachable orderCapacity minPrice maxPrice checked FreshCall b) :
    (∃ chain, b.LadderOK chain) ∧ ∀ op, b.FreshCall op → (b.step op).isSome := by
  obtain ⟨R, rs, hR⟩ := h.refines hcap
  exact ⟨⟨_, hR.ladderOK⟩, fun op _ => hR.step_isSome op⟩

/-- A cancel in the middle of a queue, a taker that fills its head, empties the touch and
goes on to the next level, and a cancel that empties a side. -/
theorem reachable_ladder_cancel_and_fill :
    ∃ b b' outs, OrderBook.new 8 90 110 true = some b ∧
      b.run [.addLimit 1 .buy 100 5, .addLimit 2 .buy 100 4, .addLimit 3 .buy 100 3,
        .addLimit 4 .buy 99 6, .addLimit 5 .sell 103 2, .cancel 2, .addLimit 6 .sell 99 10,
        .cancel 5, .addLimit 7 .buy 98 1] = some (b', outs) ∧
      b'.levelOrders .buy 100 = [] ∧ b'.levelOrders .buy 99 = [⟨4, .buy, 99, 4⟩] ∧
      (∃ chain, b'.LadderOK chain) ∧ ∀ op, b'.FreshCall op → (b'.step op).isSome := by
  obtain ⟨b, hnew, h⟩ := new_refines 8 90 110 true (by decide) (by decide)
  have hops : (RefBook.new 8 90 110).AdmissibleRun [.addLimit 1 .buy 100 5, .addLimit 2 .buy 100 4,
      .addLimit 3 .buy 100 3, .addLimit 4 .buy 99 6, .addLimit 5 .sell 103 2, .cancel 2,
      .addLimit 6 .sell 99 10, .cancel 5, .addLimit 7 .buy 98 1] :=
    ⟨by decide, by decide, by decide, by decide, by decide, by decide, by decide, by decide,
      by decide, trivial⟩
  obtain ⟨b', rs', hrun, h'⟩ := h.run hops.distinctRun
  have hreach := (Reachable.new hnew).run (h.allowedRun hops) hrun
  refine ⟨b, b', _, hnew, hrun, ?_, ?_, reachable_ladder (by decide) hreach⟩
  · rw [h'.shows.levelOrders]
    decide
  · rw [h'.shows.levelOrders]
    decide

/-- The nodes that the levels of the ladder link. -/
def linkedNodes (b : OrderBook) : List Nat :=
  (List.range b.ladderSize).flatMap fun k => [Side.buy, Side.sell].flatMap fun s =>
    follow (fun i => (b.slab.storage i).next) b.slab.capacity (b.levels s k).head

/-- Every occupied index entry points at a linked node that carries the entry's id. -/
def IndexSafe (b : OrderBook) : Prop :=
  ∀ slot < b.index.idCapacity, ∀ o ∈ (b.index.idIndex slot).ptr,
    o ∈ b.linkedNodes ∧ (b.slab.storage o).id = (b.index.idIndex slot).id

instance (b : OrderBook) : Decidable b.IndexSafe := by
  unfold IndexSafe
  infer_instance

/-- What a Cancel that answered report and left b' has done: it took the first order with
that id out of one level and left every other order, or no order had the id. -/
def Cancels (b : OrderBook) (id : OrderId) (b' : OrderBook) : Option CancelReport → Prop
  | some rep => rep.id = id ∧ ∃ l r,
      b.levelOrders rep.side rep.price = l ++ ⟨rep.id, rep.side, rep.price, rep.qty⟩ :: r ∧
      (∀ o ∈ l, o.id ≠ id) ∧ ∀ s px, b'.levelOrders s px =
        if s = rep.side ∧ px = rep.price then l ++ r else b.levelOrders s px
  | none => ¬ b.Carries id ∧ ∀ s px, b'.levelOrders s px = b.levelOrders s px

namespace Represents
variable {b : OrderBook} {R : RefBook} {rs : List Nat}

theorem mem_linkedNodes (h : b.Represents R rs) {i : Nat} (hi : i ∈ rs) : i ∈ b.linkedNodes := by
  have hb := h.wellFormed.linked.band i hi
  have hlvl := h.wellFormed.linked.level (b.slab.storage i).side _ hb
  have hlen : (levelQueue b.slab.storage rs (b.slab.storage i).side
      (b.slab.storage i).price).length ≤ b.slab.capacity :=
    (List.length_filter_le _ rs).trans h.wellFormed.linked.slab.length_le
  have hmem : i ∈ levelQueue b.slab.storage rs (b.slab.storage i).side (b.slab.storage i).price :=
    mem_levelQueue.mpr ⟨hi, rfl, rfl⟩
  rw [← hlvl.links.follow_head hlen, ← hlvl.head] at hmem
  refine List.mem_flatMap.mpr ⟨b.idx (b.slab.storage i).price, ?_, List.mem_flatMap.mpr
    ⟨(b.slab.storage i).side, ?_, hmem⟩⟩
  · simp only [inBand, Bool.and_eq_true, decide_eq_true_eq] at hb
    simp only [List.mem_range, idx, ladderSize]
    lia
  · cases (b.slab.storage i).side <;> simp

theorem indexSafe (h : b.Represents R rs) : b.IndexSafe := by
  intro slot hslot o ho
  have hentry : b.index.table slot = some ((b.index.idIndex slot).id, o) := by
    rw [IdIndex.table, Option.mem_def.mp ho]
    rfl
  have hq := h.wellFormed.indexed.queues
  have hmem := (Probe.mem_along (hq.sized.home_lt _)).mpr ⟨slot, hslot, hentry⟩
  rw [hq.probe.along] at hmem
  obtain ⟨hrs, hid⟩ := mem_idQueue.mp hmem
  exact ⟨h.mem_linkedNodes hrs, hid⟩

theorem cancels (h : b.Represents R rs) {id : OrderId} {b' : OrderBook}
    {report : Option CancelReport} (he : b.cancel id = some (b', report)) :
    b.Cancels id b' report := by
  obtain ⟨b2, rs2, he2, h2⟩ := h.cancel id
  cases he2.symm.trans he
  have hview := h.shows.levelOrders
  have hview2 := h2.shows.levelOrders
  rcases R.cancelOldest_spec id with ⟨hno, hout⟩ | ⟨L, m, T, hsplit, hL, rfl, hout⟩ <;>
    rw [hout] at hview2 ⊢
  · refine ⟨fun hc => ?_, fun s px => (hview2 s px).trans (hview s px).symm⟩
    obtain ⟨o, ho, hid⟩ := List.mem_map.mp ((h.carries_iff _).mp hc)
    exact hno o ho hid
  · -- every level but the order's own shows the same
    have hlevel : ∀ s px, b.levelOrders s px =
        L.filter (fun o => o.side = s ∧ o.price = px) ++
          ((if m.side = s ∧ m.price = px then [m] else []) ++
            T.filter fun o => o.side = s ∧ o.price = px) := fun s px => by
      rw [hview, RefBook.queue, hsplit, List.filter_append, List.filter_cons]
      by_cases hm : m.side = s ∧ m.price = px <;> simp [hm]
    have hlevel2 : ∀ s px, b'.levelOrders s px =
        L.filter (fun o => o.side = s ∧ o.price = px) ++
          T.filter fun o => o.side = s ∧ o.price = px := fun s px => by
      rw [hview2, RefBook.queue, List.filter_append]
    refine ⟨rfl, L.filter fun o => o.side = m.side ∧ o.price = m.price,
      T.filter fun o => o.side = m.side ∧ o.price = m.price, ?_,
      fun o ho => hL o (List.mem_filter.mp ho).1, fun s px => ?_⟩
    · rw [hlevel, if_pos ⟨rfl, rfl⟩]
      rfl
    · by_cases hsp : s = m.side ∧ px = m.price
      · obtain ⟨rfl, rfl⟩ := hsp
        rw [hlevel2, if_pos ⟨rfl, rfl⟩]
      · have hno : ¬ (m.side = s ∧ m.price = px) := fun hc => hsp ⟨hc.1.symm, hc.2.symm⟩
        rw [hlevel2, if_neg hsp, hlevel, if_neg hno, List.nil_append]

end Represents

/-- As long as every call sells out the oldest order of an id first, the index points at
live orders, no call faults, and Cancel takes a live order with its own id. -/
theorem reachable_indexSafe {orderCapacity : Nat} {minPrice maxPrice : Price} {checked : Bool}
    {b : OrderBook} (hcap : orderCapacity < 2 ^ 57)
    (h : Reachable orderCapacity minPrice maxPrice checked OldestFirst b) :
    b.IndexSafe ∧ (∀ op, (b.step op).isSome) ∧
      ∀ id b' report, b.cancel id = some (b', report) → b.Cancels id b' report := by
  obtain ⟨R, rs, hR, -⟩ := h.represents (P := fun _ => True) hcap trivial fun _ _ _ => trivial
  exact ⟨hR.indexSafe, hR.step_isSome, fun id b' report he => hR.cancels he⟩

/-- Four orders rest under id 1, three of them on one level; a taker sells out the oldest
two, and a Cancel takes the next. -/
theorem reachable_indexSafe_reused_id :
    ∃ b b' outs, OrderBook.new 8 90 110 true = some b ∧
      b.run [.addLimit 1 .buy 100 5, .addLimit 1 .buy 100 4, .addLimit 1 .buy 100 3,
        .addLimit 1 .buy 99 6, .addLimit 2 .sell 100 10, .cancel 1, .addLimit 1 .sell 101 2] =
        some (b', outs) ∧
      b'.levelOrders .buy 99 = [⟨1, .buy, 99, 6⟩] ∧ b'.levelOrders .sell 101 = [⟨1, .sell, 101, 2⟩] ∧
      b'.IndexSafe ∧ (∀ op, (b'.step op).isSome) ∧
      ∀ id b'' report, b'.cancel id = some (b'', report) → b'.Cancels id b'' report := by
  have h : ((OrderBook.new 8 90 110 true).bind fun b => b.run
      [.addLimit 1 .buy 100 5, .addLimit 1 .buy 100 4, .addLimit 1 .buy 100 3,
        .addLimit 1 .buy 99 6, .addLimit 2 .sell 100 10, .cancel 1, .addLimit 1 .sell 101 2]).map
        (fun out => (out.1.levelOrders .buy 99, out.1.levelOrders .sell 101)) =
          some ([⟨1, .buy, 99, 6⟩], [⟨1, .sell, 101, 2⟩]) := by decide +kernel
  have hold : ∀ b ∈ OrderBook.new 8 90 110 true, AllowedRun OldestFirst b
      [.addLimit 1 .buy 100 5, .addLimit 1 .buy 100 4, .addLimit 1 .buy 100 3,
        .addLimit 1 .buy 99 6, .addLimit 2 .sell 100 10, .cancel 1, .addLimit 1 .sell 101 2] := by
    decide +kernel
  obtain ⟨⟨b', outs⟩, hbind, hview⟩ := Option.map_eq_some_iff.mp h
  obtain ⟨b, hnew, hrun⟩ := Option.bind_eq_some_iff.mp hbind
  obtain ⟨hbid, hask⟩ := Prod.mk.inj hview
  exact ⟨b, b', outs, hnew, hrun, hbid, hask,
    reachable_indexSafe (by decide) ((Reachable.new hnew).run (hold b hnew) hrun)⟩

/-- A second resting order under id 1 takes the first one's index entry with it when it
is filled, and leaves an entry that points at its own freed slot. -/
theorem indexSafe_fails_on_duplicate_id :
    ∃ b b' outs, OrderBook.new 8 90 110 true = some b ∧
      b.run [.addLimit 1 .buy 99 5, .addLimit 1 .buy 100 5, .addLimit 2 .sell 100 5] =
        some (b', outs) ∧ ¬ b'.IndexSafe := by
  have h : ((OrderBook.new 8 90 110 true).bind fun b => b.run
      [.addLimit 1 .buy 99 5, .addLimit 1 .buy 100 5, .addLimit 2 .sell 100 5]).map
        (fun out => decide out.1.IndexSafe) = some false := by decide +kernel
  obtain ⟨⟨b', outs⟩, hbind, hdec⟩ := Option.map_eq_some_iff.mp h
  obtain ⟨b, hnew, hrun⟩ := Option.bind_eq_some_iff.mp hbind
  exact ⟨b, b', outs, hnew, hrun, of_decide_eq_false hdec⟩

end OrderBook
end ExecutionPlatform.Core
