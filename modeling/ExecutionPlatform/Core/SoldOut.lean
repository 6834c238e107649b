import ExecutionPlatform.Core.BookInvariant
import Mathlib.Data.List.TakeWhile

/-! Which makers a taker sells out, read off the book it meets, and what their leaving does
to the id index: LookupAndEraseId takes the oldest slot of an id, whichever of its orders
has left. -/
namespace ExecutionPlatform.Core
open Foundations

section Prefix
variable {α : Type} {L : List α} {P : α → Prop}

/-- Dropping as many elements as have P drops those, if they come first. -/
theorem drop_countP_eq_filter [DecidablePred P] (h : L.Pairwise fun x y => P y → P x) :
    L.drop (L.countP fun x => decide (P x)) = L.filter fun x => decide (¬ P x) := by
  induction L with
  | nil => rfl
  | cons x L ih =>
    obtain ⟨hx, hL⟩ := List.pairwise_cons.mp h
    by_cases hP : P x
    · have hcount : (x :: L).countP (fun x => decide (P x)) = L.countP (fun x => decide (P x)) + 1 :=
        List.countP_cons_of_pos (decide_eq_true hP)
      rw [hcount, List.drop_succ_cons, ih hL, List.filter_cons_of_neg (by simpa using hP)]
    · have hnone : ∀ y ∈ x :: L, ¬ P y := by
        intro y hy hPy
        rcases List.mem_cons.mp hy with rfl | hy
        · exact hP hPy
        · exact hP (hx y hy hPy)
      rw [List.countP_eq_zero.mpr fun y hy => by simpa using hnone y hy, List.drop_zero,
        List.filter_eq_self.mpr fun y hy => decide_eq_true (hnone y hy)]

theorem takeWhile_ne_cons [DecidableEq α] {x y : α} (h : x ≠ y) :
    (x :: L).takeWhile (fun z => decide (z ≠ y)) = x :: L.takeWhile fun z => decide (z ≠ y) :=
  List.takeWhile_cons_of_pos (decide_eq_true h)

theorem takeWhile_ne_self [DecidableEq α] (x : α) :
    (x :: L).takeWhile (fun z => decide (z ≠ x)) = [] :=
  List.takeWhile_cons_of_neg (by simp)

/-- Before each element with P there are only such. -/
theorem pairwise_of_takeWhile [DecidableEq α] (hn : L.Nodup)
    (h : ∀ y ∈ L, P y → ∀ x ∈ L.takeWhile (fun x => decide (x ≠ y)), P x) :
    L.Pairwise fun x y => P y → P x := by
  induction L with
  | nil => exact .nil
  | cons x L ih =>
    obtain ⟨hx, hL⟩ := List.nodup_cons.mp hn
    have hne : ∀ y ∈ L, x ≠ y := fun y hy => (ne_of_mem_of_not_mem hy hx).symm
    refine List.pairwise_cons.mpr ⟨fun y hy hP => ?_, ih hL fun y hy hP z hz => ?_⟩
    · refine h y (List.mem_cons_of_mem x hy) hP x ?_
      rw [takeWhile_ne_cons (hne y hy)]
      exact List.mem_cons_self
    · refine h y (List.mem_cons_of_mem x hy) hP z ?_
      rw [takeWhile_ne_cons (hne y hy)]
      exact List.mem_cons_of_mem x hz

end Prefix

/-- The slots that the index holds under an id, in the order in which a lookup meets them. -/
def IdIndex.slotsUnder (t : IdIndex) (id : OrderId) : List Nat :=
  (List.range t.idCapacity).filterMap fun d =>
    let e := t.idIndex ((t.home id + d) &&& t.idMask)
    if e.id = id then e.ptr else none

theorem IdIndex.Queues.slotsUnder {t : IdIndex} {q : OrderId → List Nat} (h : t.Queues q)
    (id : OrderId) : t.slotsUnder id = q id := by
  rw [← h.probe.along id]
  refine List.filterMap_congr fun d hd => ?_
  have hslot : (t.home id + d) &&& t.idMask = Probe.ahead t.idCapacity (t.home id) d := by
    have hd := List.mem_range.mp hd
    have hh := h.sized.home_lt id
    obtain ⟨k, -, -, hc, hm⟩ := h.sized
    rw [hc] at hd hh ⊢
    rw [hm, Nat.and_two_pow_sub_one_eq_mod, Probe.ahead_eq_mod hh hd.le]
  rw [hslot, Probe.reading, IdIndex.table]
  cases he : (t.idIndex (Probe.ahead t.idCapacity (t.home id) d)).ptr <;> simp [he]

namespace OrderBook

/-- The prices of the ladder, the best one first. -/
def ladder (b : OrderBook) : Side → List Price
  | .buy => (List.range b.ladderSize).map fun k : Nat => b.maxPrice - (k : Int)
  | .sell => (List.range b.ladderSize).map fun k : Nat => b.minPrice + (k : Int)

/-- The nodes of one side in price-time priority. -/
def makers (b : OrderBook) (side : Side) : List Nat :=
  (b.ladder side).flatMap fun px =>
    follow (fun i => (b.slab.storage i).next) b.slab.capacity (b.levels side (b.idx px)).head

/-- What a taker must buy or sell to fill node i and everything that has priority over it. -/
def depthTo (b : OrderBook) (side : Side) (i : Nat) : Quantity :=
  (((b.makers side).takeWhile fun j => decide (j ≠ i)).map fun j => (b.slab.storage j).qty).sum +
    (b.slab.storage i).qty

/-- A taker of this side, limit and quantity fills node i to zero. -/
def SoldOut (b : OrderBook) (taker : Side) (limit : Price) (qty : Quantity) (i : Nat) : Prop :=
  i ∈ b.makers taker.opposite ∧ crosses taker limit (b.slab.storage i).price = true ∧
    b.depthTo taker.opposite i ≤ qty

instance (b : OrderBook) (taker : Side) (limit : Price) (qty : Quantity) (i : Nat) :
    Decidable (b.SoldOut taker limit qty i) := by
  unfold SoldOut
  infer_instance

/-- Of the orders under one id a call sells out the oldest first. -/
def OldestFirst (b : OrderBook) : BookOp → Prop
  | .addLimit _ side price qty =>
    ∀ j ∈ (b.makers side.opposite).filter fun j => decide (b.SoldOut side price qty j),
      ∀ i ∈ (b.index.slotsUnder (b.slab.storage j).id).takeWhile fun i => decide (i ≠ j),
        b.SoldOut side price qty i
  | .cancel _ => True

instance (b : OrderBook) : (op : BookOp) → Decidable (b.OldestFirst op)
  | .addLimit .. => @List.decidableBAll _ _ (fun _ => List.decidableBAll ..) _
  | .cancel _ => instDecidableTrue

section Ladder
variable {b b' : OrderBook} {s : Side} {px : Price}

theorem mem_ladder : px ∈ b.ladder s ↔ b.inBand px = true := by
  cases s <;> simp only [ladder, List.mem_map, List.mem_range, ladderSize, inBand, Bool.and_eq_true,
    decide_eq_true_eq]
  · constructor
    · rintro ⟨k, hk, rfl⟩
      lia
    · exact fun h => ⟨(b.maxPrice - px).toNat, by lia, by lia⟩
  · constructor
    · rintro ⟨k, hk, rfl⟩
      lia
    · exact fun h => ⟨(px - b.minPrice).toNat, by lia, by lia⟩

theorem ladder_sorted (b : OrderBook) (s : Side) :
    (b.ladder s).Pairwise fun p q => better s p q = true := by
  cases s <;> rw [ladder, List.pairwise_map] <;> refine List.pairwise_lt_range.imp fun hlt => ?_ <;>
    simp only [better, decide_eq_true_eq] <;> lia

theorem ladder_congr (h1 : b'.minPrice = b.minPrice) (h2 : b'.maxPrice = b.maxPrice) (s : Side) :
    b'.ladder s = b.ladder s := by
  cases s <;> simp only [ladder, ladderSize, h1, h2]

/-- The ladder before and after one of its prices. -/
theorem exists_ladder_split (h : b.inBand px = true) (s : Side) : ∃ above below,
    b.ladder s = above ++ px :: below ∧ (∀ p ∈ above, better s p px = true) ∧
      ∀ p ∈ below, better s px p = true := by
  obtain ⟨above, below, he⟩ := List.append_of_mem (mem_ladder (s := s).mpr h)
  have hsorted := b.ladder_sorted s
  rw [he] at hsorted
  obtain ⟨-, hbelow, habove⟩ := List.pairwise_append.mp hsorted
  exact ⟨above, below, he, fun p hp => habove p hp px List.mem_cons_self,
    (List.pairwise_cons.mp hbelow).1⟩

theorem Linked.makers {rs : List Nat} (h : b.Linked rs) (s : Side) :
    b.makers s = (b.ladder s).flatMap (levelQueue b.slab.storage rs s) := by
  refine List.flatMap_congr fun px hpx => ?_
  have hlvl := h.level s px (mem_ladder.mp hpx)
  rw [hlvl.head]
  exact hlvl.links.follow_head ((List.length_filter_le _ rs).trans h.slab.length_le)

theorem Linked.mem_makers {rs : List Nat} (h : b.Linked rs) {i : Nat} :
    i ∈ b.makers s ↔ i ∈ rs ∧ (b.slab.storage i).side = s := by
  rw [h.makers, List.mem_flatMap]
  constructor
  · rintro ⟨px, -, hi⟩
    obtain ⟨hrs, hs, -⟩ := mem_levelQueue.mp hi
    exact ⟨hrs, hs⟩
  · rintro ⟨hrs, hs⟩
    exact ⟨_, mem_ladder.mpr (h.band i hrs), mem_levelQueue.mpr ⟨hrs, hs, rfl⟩⟩

/-- The head of the best level comes first; the others come after it whether it has left or not. -/
theorem Linked.makers_head {rs c : List Nat} {i : Nat} (h : b.Linked rs)
    (hq : levelQueue b.slab.storage rs s px = i :: c)
    (hbest : ∀ p, b.occupied rs s p → better s p px = false) :
    ∃ T, b.makers s = i :: T ∧ i ∉ T ∧ (∀ j ∈ T, j ∈ rs) ∧
      ∀ b' : OrderBook, ∀ rs', b'.Linked rs' → b'.minPrice = b.minPrice → b'.maxPrice = b.maxPrice →
        (∀ p, p ≠ px → levelQueue b'.slab.storage rs' s p = levelQueue b.slab.storage rs s p) →
        (levelQueue b'.slab.storage rs' s px = i :: c → b'.makers s = i :: T) ∧
        (levelQueue b'.slab.storage rs' s px = c → b'.makers s = T) := by
  obtain ⟨hi, hside, hprice⟩ := mem_levelQueue.mp (hq ▸ List.mem_cons_self :
    i ∈ levelQueue b.slab.storage rs s px)
  obtain ⟨above, below, hsplit, habove, hbelow⟩ := exists_ladder_split (hprice ▸ h.band i hi) s
  have hne : ∀ p ∈ above ++ below, p ≠ px := by
    rintro p hp rfl
    rcases List.mem_append.mp hp with hp | hp
    · exact Bool.false_ne_true ((better_irrefl s p).symm.trans (habove p hp))
    · exact Bool.false_ne_true ((better_irrefl s p).symm.trans (hbelow p hp))
  have hempty : above.flatMap (levelQueue b.slab.storage rs s) = [] := by
    rw [List.flatMap_eq_nil_iff]
    intro p hp
    by_contra hocc
    have hbad := hbest p hocc
    rw [habove p hp] at hbad
    cases hbad
  have hnodup : i ∉ c := by
    have hd : (levelQueue b.slab.storage rs s px).Nodup := levelQueue_nodup h.nodup
    rw [hq] at hd
    exact (List.nodup_cons.mp hd).1
  have hall : ∀ (b' : OrderBook) rs', b'.Linked rs' → b'.minPrice = b.minPrice →
      b'.maxPrice = b.maxPrice →
      (∀ p, p ≠ px → levelQueue b'.slab.storage rs' s p = levelQueue b.slab.storage rs s p) →
      b'.makers s = levelQueue b'.slab.storage rs' s px ++
        below.flatMap (levelQueue b.slab.storage rs s) := by
    intro b' rs' hl' hmin hmax hother
    have hsame : ∀ l : List Price, (∀ p ∈ l, p ∈ above ++ below) →
        l.flatMap (levelQueue b'.slab.storage rs' s) = l.flatMap (levelQueue b.slab.storage rs s) :=
      fun l hl => List.flatMap_congr fun p hp => hother p (hne p (hl p hp))
    rw [hl'.makers, ladder_congr hmin hmax, hsplit, List.flatMap_append, List.flatMap_cons,
      hsame above fun p hp => List.mem_append_left _ hp,
      hsame below fun p hp => List.mem_append_right _ hp, hempty, List.nil_append]
  refine ⟨c ++ below.flatMap (levelQueue b.slab.storage rs s), ?_, ?_, ?_,
    fun b' rs' hl' hmin hmax hother => ⟨fun hq' => ?_, fun hq' => ?_⟩⟩
  · rw [hall b rs h rfl rfl fun _ _ => rfl, hq]
    rfl
  · intro hmem
    rcases List.mem_append.mp hmem with hmem | hmem
    · exact hnodup hmem
    · obtain ⟨p, hp, hmem⟩ := List.mem_flatMap.mp hmem
      obtain ⟨-, -, hprice'⟩ := mem_levelQueue.mp hmem
      exact hne p (List.mem_append_right _ hp) (hprice'.symm.trans hprice)
  · intro j hj
    rcases List.mem_append.mp hj with hj | hj
    · exact (mem_levelQueue.mp (hq ▸ List.mem_cons_of_mem i hj :
        j ∈ levelQueue b.slab.storage rs s px)).1
    · obtain ⟨p, -, hj⟩ := List.mem_flatMap.mp hj
      exact (mem_levelQueue.mp hj).1
  · rw [hall b' rs' hl' hmin hmax hother, hq']
    rfl
  · rw [hall b' rs' hl' hmin hmax hother, hq']

end Ladder

section Fill
variable {b b' : OrderBook} {taker : Side} {limit : Price} {qty : Quantity} {i j : Nat} {T : List Nat}

/-- Once the first maker has been filled to zero, the taker sells out whom it would have. -/
theorem soldOut_pop (h : b.makers taker.opposite = i :: T) (hi : i ∉ T)
    (h' : b'.makers taker.opposite = T)
    (hsame : ∀ j ∈ T, (b'.slab.storage j).resting = (b.slab.storage j).resting)
    (hc : crosses taker limit (b.slab.storage i).price = true) (hle : (b.slab.storage i).qty ≤ qty) :
    b.SoldOut taker limit qty j ↔
      j = i ∨ b'.SoldOut taker limit (qty - (b.slab.storage i).qty) j := by
  have hqty : ∀ j ∈ T, (b'.slab.storage j).qty = (b.slab.storage j).qty := fun j hj =>
    congrArg Resting.residual (hsame j hj)
  rw [SoldOut, SoldOut, depthTo, depthTo, h, h']
  by_cases hj : j = i
  · subst hj
    rw [takeWhile_ne_self]
    simpa [hc] using hle
  · by_cases hT : j ∈ T
    · have hprice : (b'.slab.storage j).price = (b.slab.storage j).price :=
        congrArg Resting.price (hsame j hT)
      have hmap : ((T.takeWhile fun k => decide (k ≠ j)).map fun k => (b'.slab.storage k).qty) =
          (T.takeWhile fun k => decide (k ≠ j)).map fun k => (b.slab.storage k).qty :=
        List.map_congr_left fun k hk => hqty k ((List.takeWhile_sublist _).subset hk)
      rw [takeWhile_ne_cons (Ne.symm hj), List.map_cons, List.sum_cons, hprice, hqty j hT, hmap]
      simp only [List.mem_cons, hj, hT, false_or, or_true, true_and]
      rw [Nat.le_sub_iff_add_le' hle, Nat.add_assoc]
    · simp [hj, hT]

/-- A taker whose first maker is not filled to zero sells nobody out. -/
theorem not_soldOut_of_lt (h : b.makers taker.opposite = i :: T)
    (hlt : qty < (b.slab.storage i).qty) : ¬ b.SoldOut taker limit qty j := by
  rintro ⟨-, -, hle⟩
  rw [depthTo, h] at hle
  by_cases hj : j = i
  · subst hj
    exact absurd ((Nat.le_add_left _ _).trans hle) (Nat.not_le_of_lt hlt)
  · rw [takeWhile_ne_cons (Ne.symm hj), List.map_cons, List.sum_cons, Nat.add_assoc] at hle
    exact absurd ((Nat.le_add_right _ _).trans hle) (Nat.not_le_of_lt hlt)

end Fill

/-- What the index holds once the slots `gone` of b have left, each taking the oldest slot
of its id along. -/
def unqueue (b : OrderBook) (gone : List Nat) (q : OrderId → List Nat) (id : OrderId) : List Nat :=
  (q id).drop (gone.countP fun i => decide ((b.slab.storage i).id = id))

/-- A taker's fills have taken the slots `gone` out of the book: these are the makers that it
sells out, together with those that what is left of it still would. -/
structure Leaves (taker : Side) (limit : Price) (b : OrderBook) (rs : List Nat) (qty : Quantity)
    (gone : List Nat) (b' : OrderBook) (rs' : List Nat) (qty' : Quantity) : Prop where
  rest : rs' = rs.filter fun j => decide (j ∉ gone)
  mem : ∀ i ∈ gone, i ∈ rs
  nodup : gone.Nodup
  id : ∀ j ∈ rs', (b'.slab.storage j).id = (b.slab.storage j).id
  soldOut : ∀ j, b.SoldOut taker limit qty j ↔ j ∈ gone ∨ b'.SoldOut taker limit qty' j

namespace Leaves
variable {taker : Side} {limit : Price} {b b' b'' : OrderBook} {rs rs' rs'' gone gone' : List Nat}
  {qty qty' qty'' : Quantity} {q : OrderId → List Nat}

theorem refl (b : OrderBook) (rs : List Nat) (qty : Quantity) :
    Leaves taker limit b rs qty [] b rs qty where
  rest := (List.filter_eq_self.mpr fun j _ => decide_eq_true List.not_mem_nil).symm
  mem := fun i hi => absurd hi List.not_mem_nil
  nodup := .nil
  id := fun _ _ => rfl
  soldOut := fun j => by simp

/-- The cached touch plays no part. -/
theorem of_sameButTouch (h : Leaves taker limit b rs qty gone b' rs' qty') (hs : b'.SameButTouch b'') :
    Leaves taker limit b rs qty gone b'' rs' qty' := by
  obtain ⟨h1, h2, h3, h4, h5, -⟩ := hs
  obtain ⟨⟩ := b''
  obtain ⟨⟩ := b'
  subst h1 h2 h3 h4 h5
  refine ⟨h.rest, h.mem, h.nodup, h.id, fun j => (h.soldOut j).trans ?_⟩
  cases taker <;> exact Iff.rfl

theorem mem_rest (h : Leaves taker limit b rs qty gone b' rs' qty') {j : Nat} :
    j ∈ rs' ↔ j ∈ rs ∧ j ∉ gone := by
  rw [h.rest, List.mem_filter, decide_eq_true_eq]

theorem trans (h : Leaves taker limit b rs qty gone b' rs' qty')
    (h' : Leaves taker limit b' rs' qty' gone' b'' rs'' qty'') :
    Leaves taker limit b rs qty (gone ++ gone') b'' rs'' qty'' where
  rest := by
    rw [h'.rest, h.rest, List.filter_filter]
    refine List.filter_congr fun j _ => ?_
    simp [Bool.and_comm]
  mem := fun i hi => by
    rcases List.mem_append.mp hi with hi | hi
    · exact h.mem i hi
    · exact (h.mem_rest.mp (h'.mem i hi)).1
  nodup := by
    refine List.nodup_append.mpr ⟨h.nodup, h'.nodup, fun x hx y hy he => ?_⟩
    exact (h.mem_rest.mp (h'.mem y hy)).2 (he ▸ hx)
  id := fun j hj => (h'.id j hj).trans (h.id j (h'.mem_rest.mp hj).1)
  soldOut := fun j => by rw [h.soldOut, h'.soldOut, List.mem_append, or_assoc]

theorem unqueue_trans (h : Leaves taker limit b rs qty gone b' rs' qty')
    (h' : Leaves taker limit b' rs' qty' gone' b'' rs'' qty'') (k : OrderId) :
    b'.unqueue gone' (b.unqueue gone q) k = b.unqueue (gone ++ gone') q k := by
  have hcount : gone'.countP (fun i => decide ((b'.slab.storage i).id = k)) =
      gone'.countP fun i => decide ((b.slab.storage i).id = k) :=
    List.countP_congr fun i hi => by rw [h.id i (h'.mem i hi)]
  rw [unqueue, unqueue, unqueue, List.drop_drop, hcount, List.countP_append]

/-- The index is exact again if among the orders of each id the oldest ones left. -/
theorem unqueue_eq (h : Leaves taker limit b rs qty gone b' rs' qty') (hn : rs.Nodup)
    (hfirst : ∀ k, (idQueue b.slab.storage rs k).Pairwise fun i j => j ∈ gone → i ∈ gone)
    (k : OrderId) :
    b.unqueue gone (idQueue b.slab.storage rs) k = idQueue b'.slab.storage rs' k := by
  have hperm : (gone.filter fun i => decide ((b.slab.storage i).id = k)).Perm
      ((idQueue b.slab.storage rs k).filter fun i => decide (i ∈ gone)) := by
    refine (List.perm_ext_iff_of_nodup (h.nodup.filter _)
      (List.Nodup.filter _ (hn.filter _))).mpr fun i => ?_
    simp only [List.mem_filter, decide_eq_true_eq]
    exact ⟨fun hg => ⟨⟨h.mem i hg.1, hg.2⟩, hg.1⟩, fun hg => ⟨hg.2, hg.1.2⟩⟩
  have hcount : gone.countP (fun i => decide ((b.slab.storage i).id = k)) =
      (idQueue b.slab.storage rs k).countP fun i => decide (i ∈ gone) := by
    rw [List.countP_eq_length_filter, List.countP_eq_length_filter, hperm.length_eq]
  rw [unqueue, hcount, drop_countP_eq_filter (hfirst k), idQueue_congr h.id, h.rest, idQueue, idQueue,
    List.filter_filter, List.filter_filter]
  exact List.filter_congr fun i _ => Bool.and_comm ..

end Leaves

end OrderBook
end ExecutionPlatform.Core
