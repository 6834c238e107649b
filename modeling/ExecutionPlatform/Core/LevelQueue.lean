import ExecutionPlatform.Core.ReferenceBook

/-! One price level: a doubly-linked FIFO of slab nodes with cached totals, and the
three edits the book makes to it. -/
namespace ExecutionPlatform.Core
open Foundations

/-- What an order says, apart from its links. -/
def Order.resting (o : Order) : Resting := ⟨o.id, o.side, o.price, o.qty⟩

/-- lvl is the FIFO of the nodes c, its totals kept in machine words. -/
structure LevelHolds (mem : Nat → Order) (lvl : LevelFIFO) (c : List Nat) : Prop where
  head : lvl.head = c.head?
  tail : lvl.tail = c.getLast?
  links : Threaded (fun i => (mem i).prev) (fun i => (mem i).next) c
  total : lvl.totalQty = (c.map fun i => (mem i).qty).sum % 2 ^ 64
  count : lvl.orderCount = c.length % 2 ^ 32

namespace LevelHolds
variable {mem mem' : Nat → Order} {lvl : LevelFIFO} {c : List Nat}

theorem nil : LevelHolds mem {} [] := ⟨rfl, rfl, .nil, rfl, rfl⟩

/-- A level reads its own nodes only. -/
theorem congr (h : LevelHolds mem lvl c) (hm : ∀ j ∈ c, mem' j = mem j) : LevelHolds mem' lvl c := by
  refine ⟨h.head, h.tail, h.links.congr (fun j hj => by rw [hm j hj]) (fun j hj => by rw [hm j hj]),
    ?_, h.count⟩
  have hmap : c.map (fun i => (mem' i).qty) = c.map (fun i => (mem i).qty) :=
    List.map_congr_left fun j hj => by rw [hm j hj]
  rw [h.total, hmap]

theorem empty_iff (h : LevelHolds mem lvl c) : lvl.empty = true ↔ c = [] := by
  rw [LevelFIFO.empty, h.head]
  cases c <;> simp

end LevelHolds

private theorem qty_eq_of_resting {a b : Order} (h : a.resting = b.resting) : a.qty = b.qty :=
  congrArg Resting.residual h

/-- The level after the link into its head or tail, if that is where the link starts. -/
def LevelFIFO.headFrom (lvl : LevelFIFO) (p q : Ptr) : LevelFIFO :=
  if p = none then { lvl with head := q } else lvl

def LevelFIFO.tailFrom (lvl : LevelFIFO) (q p : Ptr) : LevelFIFO :=
  if q = none then { lvl with tail := p } else lvl

section Fields
variable (lvl : LevelFIFO) (p q : Ptr)

@[simp] theorem headFrom_head : (lvl.headFrom p q).head = if p = none then q else lvl.head := by
  unfold LevelFIFO.headFrom; split_ifs <;> rfl
@[simp] theorem headFrom_tail : (lvl.headFrom p q).tail = lvl.tail := by
  unfold LevelFIFO.headFrom; split_ifs <;> rfl
@[simp] theorem headFrom_totalQty : (lvl.headFrom p q).totalQty = lvl.totalQty := by
  unfold LevelFIFO.headFrom; split_ifs <;> rfl
@[simp] theorem headFrom_orderCount : (lvl.headFrom p q).orderCount = lvl.orderCount := by
  unfold LevelFIFO.headFrom; split_ifs <;> rfl
@[simp] theorem tailFrom_head : (lvl.tailFrom q p).head = lvl.head := by
  unfold LevelFIFO.tailFrom; split_ifs <;> rfl
@[simp] theorem tailFrom_tail : (lvl.tailFrom q p).tail = if q = none then p else lvl.tail := by
  unfold LevelFIFO.tailFrom; split_ifs <;> rfl
@[simp] theorem tailFrom_totalQty : (lvl.tailFrom q p).totalQty = lvl.totalQty := by
  unfold LevelFIFO.tailFrom; split_ifs <;> rfl
@[simp] theorem tailFrom_orderCount : (lvl.tailFrom q p).orderCount = lvl.orderCount := by
  unfold LevelFIFO.tailFrom; split_ifs <;> rfl

end Fields

section Edits
variable {slab : SlabAllocator Order} {live : List Nat} (lvl : LevelFIFO) (p q : Ptr)

private theorem update_ite (mem : Nat → Order) (i j : Nat) (n : Order → Order) :
    Function.update mem i (n (mem i)) j = if some i = some j then n (mem j) else mem j := by
  by_cases hij : i = j
  · subst hij
    simp
  · simp [hij, Function.update_of_ne (Ne.symm hij)]

theorem linkForward_spec (h : slab.Holds live) (hp : ∀ i ∈ p, i ∈ live) :
    ∃ slab', OrderBook.linkForward slab lvl p q = some (slab', lvl.headFrom p q) ∧
      slab'.Holds live ∧ slab'.capacity = slab.capacity ∧
      ∀ j, slab'.storage j = if p = some j then { slab.storage j with next := q }
        else slab.storage j := by
  cases p with
  | none => exact ⟨slab, rfl, h, rfl, fun j => rfl⟩
  | some i =>
    have hi := hp i rfl
    refine ⟨_, ?_, h.update hi { slab.storage i with next := q }, rfl, fun j => ?_⟩
    · rw [OrderBook.linkForward, SlabAllocator.load_live h hi]
      simp only [Option.bind_eq_bind, Option.bind_some, SlabAllocator.store_live h hi]
      rfl
    · exact update_ite slab.storage i j (fun n => { n with next := q })

theorem linkBackward_spec (h : slab.Holds live) (hq : ∀ i ∈ q, i ∈ live) :
    ∃ slab', OrderBook.linkBackward slab lvl q p = some (slab', lvl.tailFrom q p) ∧
      slab'.Holds live ∧ slab'.capacity = slab.capacity ∧
      ∀ j, slab'.storage j = if q = some j then { slab.storage j with prev := p }
        else slab.storage j := by
  cases q with
  | none => exact ⟨slab, rfl, h, rfl, fun j => rfl⟩
  | some i =>
    have hi := hq i rfl
    refine ⟨_, ?_, h.update hi { slab.storage i with prev := p }, rfl, fun j => ?_⟩
    · rw [OrderBook.linkBackward, SlabAllocator.load_live h hi]
      simp only [Option.bind_eq_bind, Option.bind_some, SlabAllocator.store_live h hi]
      rfl
    · exact update_ite slab.storage i j (fun n => { n with prev := p })

end Edits

/-- Removing a node: its neighbours are joined and the cached totals drop its share. -/
theorem LevelHolds.remove {mem mem' : Nat → Order} {lvl lvl' : LevelFIFO} {l r : List Nat} {o : Nat}
    (h : LevelHolds mem lvl (l ++ o :: r)) (hd : (l ++ o :: r).Nodup)
    (hrest : ∀ j ∈ l ++ r, (mem' j).resting = (mem j).resting)
    (hprev : ∀ j ∈ l ++ r, (mem' j).prev = if r.head? = some j then l.getLast? else (mem j).prev)
    (hnext : ∀ j ∈ l ++ r, (mem' j).next = if l.getLast? = some j then r.head? else (mem j).next)
    (hhead : lvl'.head = (l ++ r).head?) (htail : lvl'.tail = (l ++ r).getLast?)
    (htotal : lvl'.totalQty = subWord 64 lvl.totalQty (mem o).qty)
    (hcount : lvl'.orderCount = subWord 32 lvl.orderCount 1) : LevelHolds mem' lvl' (l ++ r) := by
  refine ⟨hhead, htail, h.links.unlink hd hprev hnext, ?_, ?_⟩
  · have hmap : (l ++ r).map (fun i => (mem' i).qty) = (l ++ r).map (fun i => (mem i).qty) :=
      List.map_congr_left fun j hj => qty_eq_of_resting (hrest j hj)
    have hsum : ((l ++ o :: r).map fun i => (mem i).qty).sum =
        ((l ++ r).map fun i => (mem i).qty).sum + (mem o).qty := by
      simp only [List.map_append, List.map_cons, List.sum_append, List.sum_cons]
      exact Nat.add_left_comm .. |>.trans (Nat.add_comm ..)
    rw [htotal, h.total, hmap, hsum, subWord_mod]
  · have hlen : (l ++ o :: r).length = (l ++ r).length + 1 := by
      simp only [List.length_append, List.length_cons]
      omega
    rw [hcount, h.count, hlen, subWord_mod]

/-- UnlinkFromLevel takes one node out of the middle, the head or the tail of its level. -/
theorem unlinkFromLevel_spec {slab : SlabAllocator Order} {live : List Nat} {lvl : LevelFIFO}
    {l r : List Nat} {o : Nat} (hs : slab.Holds live) (h : LevelHolds slab.storage lvl (l ++ o :: r))
    (hd : (l ++ o :: r).Nodup) (hlive : ∀ j ∈ l ++ o :: r, j ∈ live) :
    ∃ slab' lvl', OrderBook.unlinkFromLevel slab lvl o = some (slab', lvl') ∧
      slab'.Holds live ∧ slab'.capacity = slab.capacity ∧ LevelHolds slab'.storage lvl' (l ++ r) ∧
      (∀ j, (slab'.storage j).resting = (slab.storage j).resting) ∧
      (∀ j, j ∉ l ++ r → slab'.storage j = slab.storage j) := by
  have ho := hlive o (by simp)
  obtain ⟨hprev, hnext⟩ := h.links l o r rfl
  have hol : ¬ l.getLast? = some o := fun hc =>
    (List.nodup_append.mp hd).2.2 o (List.mem_of_getLast? hc) o List.mem_cons_self rfl
  have hor : ¬ r.head? = some o := fun hc =>
    (List.nodup_cons.mp (List.nodup_append.mp hd).2.1).1 (List.mem_of_head? hc)
  obtain ⟨s1, he1, hs1, hc1, hm1⟩ := linkForward_spec lvl l.getLast? r.head? hs
    (fun i hi => hlive i (by simp [List.mem_of_getLast? hi]))
  obtain ⟨s2, he2, hs2, hc2, hm2⟩ := linkBackward_spec (lvl.headFrom l.getLast? r.head?)
    l.getLast? r.head? hs1
    (fun i hi => hlive i (by simp [List.mem_of_head? hi]))
  have ho1 : s1.storage o = slab.storage o := by rw [hm1, if_neg hol]
  have ho2 : s2.storage o = slab.storage o := by rw [hm2, if_neg hor, ho1]
  have hrest : ∀ j, (s2.storage j).resting = (slab.storage j).resting := by
    intro j
    rw [hm2, hm1]
    split_ifs <;> rfl
  have hrun : OrderBook.unlinkFromLevel slab lvl o = some (s2,
      { (lvl.headFrom l.getLast? r.head?).tailFrom r.head? l.getLast? with
        totalQty := subWord 64 lvl.totalQty (slab.storage o).qty
        orderCount := subWord 32 lvl.orderCount 1 }) := by
    simp only at hprev hnext
    simp only [OrderBook.unlinkFromLevel, SlabAllocator.load_live hs ho, Option.bind_eq_bind,
      Option.bind_some, hprev, hnext, he1, SlabAllocator.load_live hs1 ho, ho1, he2,
      SlabAllocator.load_live hs2 ho, ho2, tailFrom_totalQty, headFrom_totalQty,
      tailFrom_orderCount, headFrom_orderCount]
    rfl
  refine ⟨s2, _, hrun, hs2, hc2.trans hc1, ?_, hrest, ?_⟩
  · refine h.remove hd (fun j _ => hrest j) (fun j _ => ?_) (fun j _ => ?_) ?_ ?_ ?_ ?_
    · rw [hm2, hm1]
      split_ifs <;> rfl
    · rw [hm2, hm1]
      split_ifs <;> rfl
    · have := h.head
      cases l <;> simp_all
    · have := h.tail
      rcases List.eq_nil_or_concat' r with rfl | ⟨r', x, rfl⟩
      · simp
      · have hne : ¬ (r' ++ [x]).head? = none := by cases r' <;> simp
        rw [← List.cons_append, ← List.append_assoc, List.getLast?_concat] at this
        rw [← List.append_assoc, List.getLast?_concat]
        simpa [hne] using this
    · rfl
    · rfl
  · intro j hj
    rw [hm2, hm1, if_neg, if_neg]
    · exact fun hc => hj (List.mem_append_left _ (List.mem_of_getLast? hc))
    · exact fun hc => hj (List.mem_append_right _ (List.mem_of_head? hc))

/-- PushBackToLevel appends a node that is not yet on the level. -/
theorem pushBackToLevel_spec {slab : SlabAllocator Order} {live : List Nat} {lvl : LevelFIFO}
    {c : List Nat} {o : Nat} (hs : slab.Holds live) (h : LevelHolds slab.storage lvl c)
    (hd : (c ++ [o]).Nodup) (hlive : ∀ j ∈ c ++ [o], j ∈ live) :
    ∃ slab' lvl', OrderBook.pushBackToLevel slab lvl o = some (slab', lvl') ∧
      slab'.Holds live ∧ slab'.capacity = slab.capacity ∧ LevelHolds slab'.storage lvl' (c ++ [o]) ∧
      (∀ j, (slab'.storage j).resting = (slab.storage j).resting) ∧
      (∀ j, j ∉ c ++ [o] → slab'.storage j = slab.storage j) := by
  have ho := hlive o (by simp)
  have hoc : o ∉ c := fun hm => (List.nodup_append.mp hd).2.2 o hm o (by simp) rfl
  have hot : ¬ c.getLast? = some o := fun hc => hoc (List.mem_of_getLast? hc)
  have hs0 := hs.update ho { slab.storage o with prev := lvl.tail, next := none }
  obtain ⟨s1, he1, hs1, hc1, hm1⟩ := linkForward_spec lvl lvl.tail (some o) hs0
    (fun i hi => hlive i (by simp [List.mem_of_getLast? (h.tail ▸ hi)]))
  have hm : ∀ j, s1.storage j = if c.getLast? = some j then { slab.storage j with next := some o }
      else if j = o then { slab.storage o with prev := c.getLast?, next := none }
      else slab.storage j := by
    intro j
    rw [hm1, h.tail]
    simp only [Function.update_apply]
    by_cases h1 : c.getLast? = some j
    · have hjo : j ≠ o := by rintro rfl; exact hot h1
      simp [h1, hjo]
    · simp [h1]
  have hrest : ∀ j, (s1.storage j).resting = (slab.storage j).resting := by
    intro j
    rw [hm]
    split_ifs with h1 h2
    · rfl
    · rw [h2]; rfl
    · rfl
  have ho1 : s1.storage o = { slab.storage o with prev := c.getLast?, next := none } := by
    rw [hm, if_neg hot, if_pos rfl]
  have hrun : OrderBook.pushBackToLevel slab lvl o = some (s1,
      { lvl.headFrom lvl.tail (some o) with
        tail := some o
        totalQty := addWord 64 lvl.totalQty (s1.storage o).qty
        orderCount := addWord 32 lvl.orderCount 1 }) := by
    simp only [OrderBook.pushBackToLevel, SlabAllocator.load_live hs ho,
      SlabAllocator.store_live hs ho, Option.bind_eq_bind, Option.bind_some, he1,
      SlabAllocator.load_live hs1 ho, headFrom_totalQty, headFrom_orderCount]
    rfl
  refine ⟨s1, _, hrun, hs1, hc1, ⟨?_, ?_, ?_, ?_, ?_⟩, hrest, ?_⟩
  · have := h.head
    have ht := h.tail
    cases c <;> simp_all
  · simp
  · refine h.links.push_back hd (by rw [ho1]) (by rw [ho1]) (fun j hj => ?_) (fun j hj => ?_)
    · have hjo : j ≠ o := ne_of_mem_of_not_mem hj hoc
      rw [hm]
      split_ifs <;> rfl
    · have hjo : j ≠ o := ne_of_mem_of_not_mem hj hoc
      rw [hm]
      split_ifs <;> rfl
  · have hmap : (c ++ [o]).map (fun i => (s1.storage i).qty) =
        (c ++ [o]).map (fun i => (slab.storage i).qty) :=
      List.map_congr_left fun j _ => qty_eq_of_resting (hrest j)
    rw [hmap, h.total, addWord_mod, qty_eq_of_resting (hrest o)]
    simp
  · rw [h.count, addWord_mod]
    simp
  · intro j hj
    simp only [List.mem_append, List.mem_singleton, not_or] at hj
    rw [hm, if_neg (fun hc => hj.1 (List.mem_of_getLast? hc)), if_neg hj.2]

end ExecutionPlatform.Core
