import ExecutionPlatform.Core.ShareMarket
import ExecutionPlatform.Core.BookCommutation

/-! Parent orders sent in slices: as long as every residual finds room, the market cannot tell them
from orders sent whole. -/
namespace ExecutionPlatform.Core

/-- The ids under which each parent order may be sent. -/
structure Slicing where
  pieces : OrderId → List OrderId
  owner : OrderId → OrderId
  mem_pieces : ∀ parent slice, slice ∈ pieces parent ↔ owner slice = parent

/-- What the owner of a parent order asks for. -/
inductive ParentOp where
  | order (id : OrderId) (side : Side) (price : Price) (slices : List (OrderId × Quantity))
  | cancel (id : OrderId)

namespace ParentOp

def whole : ParentOp → BookOp
  | .order id side price slices => .addLimit id side price (slices.map Prod.snd).sum
  | .cancel id => .cancel id

def sliced (c : Slicing) : ParentOp → List BookOp
  | .order _ side price slices => slices.map fun s => .addLimit s.1 side price s.2
  | .cancel id => (c.pieces id).map .cancel

/-- Each slice is sent under an id of its parent. -/
def Owned (c : Slicing) : ParentOp → Prop
  | .order id _ _ slices => ∀ s ∈ slices, c.owner s.1 = id
  | .cancel _ => True

instance (c : Slicing) (p : ParentOp) : Decidable (p.Owned c) := by
  cases p <;> unfold Owned <;> infer_instance

end ParentOp

/-- The shares that change hands in a call, in their order. -/
def BookOut.trades (owner : OrderId → OrderId) (out : BookOut) : List Fill := tradesOf owner out.fills

namespace RefBook
variable {R S : RefBook} {owner : OrderId → OrderId} {ops ops' : List BookOp}

/-- An AddLimit starts with a free slot. -/
def HasRoom (R : RefBook) : BookOp → Prop
  | .addLimit _ _ _ _ => R.orders.length < R.orderCapacity
  | .cancel _ => True

instance (R : RefBook) : (op : BookOp) → Decidable (R.HasRoom op)
  | .addLimit _ _ _ _ => Nat.decLt R.orders.length R.orderCapacity
  | .cancel _ => .isTrue trivial

def Roomy : RefBook → List BookOp → Prop
  | _, [] => True
  | R, op :: ops => R.HasRoom op ∧ (R.step op).1.Roomy ops

theorem Roomy.append (h : R.Roomy (ops ++ ops')) : R.Roomy ops ∧ (R.run ops).1.Roomy ops' := by
  induction ops generalizing R with
  | nil => exact ⟨trivial, h⟩
  | cons op ops ih =>
    obtain ⟨hops, hrest⟩ := ih h.2
    exact ⟨⟨h.1, hops⟩, hrest⟩

theorem AdmissibleRun.left (h : R.AdmissibleRun (ops ++ ops')) : R.AdmissibleRun ops := by
  induction ops generalizing R with
  | nil => trivial
  | cons op ops ih => exact ⟨h.1, ih h.2⟩

theorem Sound.run (h : R.Sound) (hops : R.AdmissibleRun ops) : (R.run ops).1.Sound := by
  induction ops generalizing R with
  | nil => exact h
  | cons op ops ih => exact ih (h.step hops.1) hops.2

theorem run_shape (R : RefBook) (ops : List BookOp) : R.SameShape (R.run ops).1 := by
  induction ops generalizing R with
  | nil => exact ⟨rfl, rfl, rfl⟩
  | cons op ops ih => exact (R.step_shape op).trans (ih _)

/-- The slices of an order meet the market as the whole order does. -/
theorem run_slices {parent : OrderId} {side : Side} {price : Price} {slices : List (OrderId × Quantity)}
    (howned : ∀ s ∈ slices, owner s.1 = parent)
    (hroom : R.Roomy (slices.map fun s => .addLimit s.1 side price s.2)) :
    ((R.run (slices.map fun s => .addLimit s.1 side price s.2)).1.market owner,
      (R.run (slices.map fun s => .addLimit s.1 side price s.2)).2.flatMap (BookOut.trades owner)) =
      (R.market owner).add parent side price (slices.map Prod.snd).sum := by
  induction slices generalizing R with
  | nil => exact (ShareMarket.add_zero _ parent side price).symm
  | cons s slices ih =>
    obtain ⟨id, q⟩ := s
    have hid : owner id = parent := howned (id, q) List.mem_cons_self
    have hone := market_addLimit owner hroom.1 id side price q
    have hrest := ih (fun s hs => howned s (List.mem_cons_of_mem _ hs)) hroom.2
    rw [hid] at hone
    rw [List.map_cons, List.map_cons, List.sum_cons, ShareMarket.add_add, ← hone]
    have hmarket := congrArg Prod.fst hrest
    have hfills := congrArg Prod.snd hrest
    refine Prod.ext hmarket ?_
    exact congrArg (tradesOf owner (R.addLimit id side price q).2.1 ++ ·) hfills

theorem run_cancels (owner : OrderId → OrderId) (ids : List OrderId) (R : RefBook) :
    (R.run (ids.map .cancel)).1.orders = R.orders.filter (fun o => o.id ∉ ids) ∧
      (R.run (ids.map .cancel)).2.flatMap (BookOut.trades owner) = [] := by
  induction ids generalizing R with
  | nil => simp [run]
  | cons id ids ih =>
    obtain ⟨horders, hnone⟩ := ih (R.cancel id).1
    refine ⟨?_, hnone⟩
    change ((R.cancel id).1.run (ids.map .cancel)).1.orders = _
    rw [horders, cancel_orders, List.filter_filter]
    apply List.filter_congr
    intro o _
    simp [Bool.and_comm]

/-- Cancelling every piece of a parent takes its shares out of the market. -/
theorem market_run_cancels (owner : OrderId → OrderId) (parent : OrderId) {ids : List OrderId}
    (hids : ∀ slice, slice ∈ ids ↔ owner slice = parent) (R : RefBook) :
    (R.run (ids.map .cancel)).1.market owner = (R.market owner).cancel parent := by
  have hshape := R.run_shape (ids.map .cancel)
  refine ShareMarket.ext hshape.minPrice hshape.maxPrice ?_
  change sharesOf owner (R.run (ids.map .cancel)).1.orders = _
  rw [(run_cancels owner ids R).1]
  refine sharesOf_filter (fun i => i ≠ parent) (fun i => i ∉ ids) fun o _ => ?_
  rw [decide_eq_decide, ne_eq, not_iff_not, hids]

/-- A book of whole orders has no more of them than a book of slices. -/
theorem length_le_of_market (hR : R.Sound) (h : R.market (fun i => i) = S.market owner) :
    R.orders.length ≤ S.orders.length := by
  have hsub : R.ids ⊆ S.orders.map fun o => owner o.id := by
    intro i hi
    obtain ⟨o, ho, rfl⟩ := List.mem_map.mp hi
    have hshare : (⟨o.id, o.side, o.price, 1⟩ : Resting) ∈ (R.market (fun i => i)).shares :=
      mem_sharesOf.mpr ⟨o, ho, (hR.residual o ho).ne', rfl⟩
    rw [h] at hshare
    obtain ⟨o', ho', -, heq⟩ := mem_sharesOf.mp hshare
    exact List.mem_map.mpr ⟨o', ho', (congrArg Resting.id heq).symm⟩
  have hle := (hR.nodup.subperm hsub).length_le
  rwa [ids, List.length_map, List.length_map] at hle

/-- One parent order, whole in one book and sliced in the other. -/
theorem step_sliced {c : Slicing} {p : ParentOp} (hR : R.Sound) (hcap : R.orderCapacity = S.orderCapacity)
    (h : R.market (fun i => i) = S.market c.owner) (howned : p.Owned c) (hwhole : R.Admissible p.whole)
    (hroom : S.Roomy (p.sliced c)) :
    (R.step p.whole).1.market (fun i => i) = (S.run (p.sliced c)).1.market c.owner ∧
      (R.step p.whole).2.trades (fun i => i) = (S.run (p.sliced c)).2.flatMap (BookOut.trades c.owner) := by
  cases p with
  | order id side price slices =>
    have hfirst : S.orders.length < S.orderCapacity := by
      cases slices with
      | nil => exact absurd hwhole.1 (Nat.lt_irrefl 0)
      | cons s slices => exact hroom.1
    have hroom' : R.orders.length < R.orderCapacity :=
      hcap ▸ (length_le_of_market hR h).trans_lt hfirst
    have hadd := market_addLimit (fun i => i) hroom' id side price (slices.map Prod.snd).sum
    rw [h, ← run_slices howned hroom] at hadd
    exact ⟨congrArg Prod.fst hadd, congrArg Prod.snd hadd⟩
  | cancel id =>
    have hone : ∀ slice, slice ∈ [id] ↔ slice = id := fun slice => List.mem_singleton
    have hwhole := market_run_cancels (fun i => i) id hone R
    have hpieces := market_run_cancels c.owner id (c.mem_pieces id) S
    refine ⟨hwhole.trans (h ▸ hpieces.symm), ?_⟩
    exact ((run_cancels c.owner (c.pieces id) S).2).symm

/-- A whole session. -/
theorem run_sliced {c : Slicing} {ps : List ParentOp} (hR : R.Sound) (hcap : R.orderCapacity = S.orderCapacity)
    (h : R.market (fun i => i) = S.market c.owner) (howned : ∀ p ∈ ps, p.Owned c)
    (hwhole : R.AdmissibleRun (ps.map ParentOp.whole)) (hroom : S.Roomy (ps.flatMap (ParentOp.sliced c))) :
    (R.run (ps.map ParentOp.whole)).1.market (fun i => i) =
        (S.run (ps.flatMap (ParentOp.sliced c))).1.market c.owner ∧
      (R.run (ps.map ParentOp.whole)).2.flatMap (BookOut.trades fun i => i) =
        (S.run (ps.flatMap (ParentOp.sliced c))).2.flatMap (BookOut.trades c.owner) := by
  induction ps generalizing R S with
  | nil => exact ⟨h, rfl⟩
  | cons p ps ih =>
    rw [List.flatMap_cons] at hroom
    obtain ⟨hfirst, hrest⟩ := hroom.append
    obtain ⟨hmarket, htrades⟩ := step_sliced hR hcap h (howned p List.mem_cons_self) hwhole.1 hfirst
    have hshape := R.run_shape [p.whole]
    have hcap' : (R.step p.whole).1.orderCapacity = (S.run (p.sliced c)).1.orderCapacity :=
      hshape.orderCapacity.trans (hcap.trans (S.run_shape _).orderCapacity.symm)
    obtain ⟨hmarket', htrades'⟩ := ih (hR.step hwhole.1) hcap' hmarket
      (fun p hp => howned p (List.mem_cons_of_mem _ hp)) hwhole.2 hrest
    rw [List.flatMap_cons, run_append, List.flatMap_append, ← htrades, ← htrades']
    exact ⟨hmarket', rfl⟩

end RefBook

/-- Books over one market show the same prices and quantities. -/
theorem OrderBook.Shows.alike {b b' : OrderBook} {R S : RefBook} {owner : OrderId → OrderId}
    (hR : R.Sound) (hS : S.Sound) (h : R.market (fun i => i) = S.market owner) (hb : b.Shows R)
    (hb' : b'.Shows S) :
    (∀ s px, b.levelQty s px = b'.levelQty s px) ∧
      ∀ s, b.has s = b'.has s ∧ b.bestOf s = b'.bestOf s := by
  have hmem : ∀ P : Side → Price → Prop,
      (∃ o ∈ R.orders, P o.side o.price) ↔ ∃ o ∈ S.orders, P o.side o.price := by
    intro P
    rw [hR.mem_market fun i => i, h, ← hS.mem_market owner]
  have hhas : ∀ s, b.has s = b'.has s := by
    intro s
    rw [Bool.eq_iff_iff, hb.has, hb'.has]
    exact hmem fun side _ => side = s
  refine ⟨fun s px => ?_, fun s => ⟨hhas s, ?_⟩⟩
  · have hlevel := RefBook.sum_residual_level (fun i => i) R.orders s px
    have hlevel' := RefBook.sum_residual_level owner S.orders s px
    have hshares : sharesOf (fun i => i) R.orders = sharesOf owner S.orders :=
      congrArg ShareMarket.shares h
    rw [hb.levelQty, hb'.levelQty, RefBook.queue, RefBook.queue, hlevel, hlevel', hshares]
  · cases hone : b.has s with
    | false =>
      have hother := (hhas s).symm.trans hone
      rw [hb.noBest s hone, hb'.noBest s hother]
    | true =>
      obtain ⟨hin, hbest⟩ := hb.best s hone
      obtain ⟨hin', hbest'⟩ := hb'.best s ((hhas s).symm.trans hone)
      obtain ⟨o, ho, hs, hp⟩ := (hmem fun side px => side = s ∧ px = b.bestOf s).mp hin
      obtain ⟨o', ho', hs', hp'⟩ := (hmem fun side px => side = s ∧ px = b'.bestOf s).mpr hin'
      have hnot : better s (b.bestOf s) (b'.bestOf s) = false := hp ▸ hbest' o ho hs
      have hnot' : better s (b'.bestOf s) (b.bestOf s) = false := hp' ▸ hbest o' ho' hs'
      exact eq_of_not_better hnot hnot'

/-- The first order goes out in two slices, under its own id and under 11. -/
def twoSlices : Slicing where
  pieces id := if id = 1 then [1, 11] else if id = 11 then [] else [id]
  owner slice := if slice = 11 then 1 else slice
  mem_pieces := by
    intro parent slice
    split_ifs <;> grind

end ExecutionPlatform.Core
