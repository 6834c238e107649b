import ExecutionPlatform.Core.SlabAllocator
import ExecutionPlatform.Foundations.ProbeTable
import Mathlib.Tactic.Common

/-! The limit order book as the code computes it: slab nodes, threaded price levels,
a direct-indexed ladder with cached touch, and the id index. A step returns none where
the code would leave a vector, follow a null pointer, loop for ever, or (on a checked
slab) touch a freed node. -/
namespace ExecutionPlatform.Core
open Foundations

abbrev OrderId := Nat
abbrev Price := Int
abbrev Quantity := Nat

inductive Side where
  | buy
  | sell
  deriving DecidableEq, Repr

def Side.opposite : Side → Side
  | .buy => .sell
  | .sell => .buy

structure Fill where
  makerId : OrderId
  takerId : OrderId
  price : Price
  qty : Quantity
  takerSide : Side
  deriving DecidableEq, Repr

structure Order where
  id : OrderId
  price : Price
  qty : Quantity
  side : Side
  prev : Ptr
  next : Ptr
  deriving DecidableEq, Repr

/-- The word that represents a pointer: slots have distinct non-zero addresses. -/
def encodePtr : Ptr → Nat
  | none => 0
  | some i => i + 1

def decodePtr : Nat → Ptr
  | 0 => none
  | a + 1 => some a

/-- The free-list link overlays an order's first word, its id. -/
instance : SlotStorage Order where
  link o := decodePtr o.id
  setLink o p := { o with id := encodePtr p }
  link_setLink _ p := by cases p <;> rfl

structure LevelFIFO where
  head : Ptr := none
  tail : Ptr := none
  totalQty : Quantity := 0
  orderCount : Nat := 0
  deriving DecidableEq, Repr

def LevelFIFO.empty (lvl : LevelFIFO) : Bool := lvl.head.isNone

structure IdEntry where
  id : OrderId := 0
  ptr : Ptr := none
  deriving DecidableEq, Repr

/-- The id index: `mixId` is the hash the table was built with. -/
structure IdIndex where
  idCapacity : Nat
  idMask : Nat
  mixId : OrderId → Nat
  idIndex : Nat → IdEntry

/-- splitmix64 finaliser. -/
def mixId (id : OrderId) : Nat :=
  let x := addWord 64 id 0x9E3779B97F4A7C15
  let x := ((x ^^^ (x >>> 30)) * 0xBF58476D1CE4E5B9) % 2 ^ 64
  let x := ((x ^^^ (x >>> 27)) * 0x94D049BB133111EB) % 2 ^ 64
  x ^^^ (x >>> 31)

def roundUpPow2Loop (n : Nat) : Nat → Nat → Option Nat
  | 0, _ => none
  | fuel + 1, p => if p < n then roundUpPow2Loop n fuel ((p <<< 1) % 2 ^ 64) else some p

/-- The least power of two at or above n; the loop diverges once p has been shifted out. -/
def roundUpPow2 (n : Nat) : Option Nat := roundUpPow2Loop n 65 1

namespace IdIndex

def set (t : IdIndex) (slot : Nat) (e : IdEntry) : IdIndex :=
  { t with idIndex := Function.update t.idIndex slot e }

def home (t : IdIndex) (id : OrderId) : Nat := t.mixId id &&& t.idMask

def nextSlot (t : IdIndex) (slot : Nat) : Nat := (slot + 1) &&& t.idMask

def probeEmpty (t : IdIndex) : Nat → Nat → Option Nat
  | 0, _ => none
  | fuel + 1, slot =>
    if (t.idIndex slot).ptr = none then some slot else t.probeEmpty fuel (t.nextSlot slot)

/-- InsertId; without an empty slot the probe cycles for ever. -/
def insertId (t : IdIndex) (id : OrderId) (o : Nat) : Option IdIndex := do
  let slot ← t.probeEmpty t.idCapacity (t.home id)
  pure (t.set slot ⟨id, some o⟩)

/-- The inner loop of LookupAndEraseId; without an empty slot it cycles for ever. -/
def backShift (t : IdIndex) : Nat → Nat → Nat → Option IdIndex
  | 0, _, _ => none
  | fuel + 1, hole, next =>
    let e := t.idIndex next
    if e.ptr = none then some (t.set hole {})
    else if subWord 64 next hole &&& t.idMask ≤ subWord 64 next (t.home e.id) &&& t.idMask then
      (t.set hole e).backShift fuel next (t.nextSlot next)
    else t.backShift fuel hole (t.nextSlot next)

def probeId (t : IdIndex) (id : OrderId) : Nat → Nat → Option (Ptr × IdIndex)
  | 0, _ => some (none, t)
  | probes + 1, slot =>
    let e := t.idIndex slot
    if e.ptr = none then some (none, t)
    else if e.id = id then do
      let t' ← t.backShift t.idCapacity slot (t.nextSlot slot)
      pure (e.ptr, t')
    else t.probeId id probes (t.nextSlot slot)

def lookupAndEraseId (t : IdIndex) (id : OrderId) : Option (Ptr × IdIndex) :=
  t.probeId id t.idCapacity (t.home id)

end IdIndex

structure OrderBook where
  slab : SlabAllocator Order
  minPrice : Price
  maxPrice : Price
  bidLevels : Nat → LevelFIFO
  askLevels : Nat → LevelFIFO
  bestBidPx : Price
  bestAskPx : Price
  liveBidLevels : Nat
  liveAskLevels : Nat
  index : IdIndex

namespace OrderBook

def defaultMinPrice : Price := 0
def defaultMaxPrice : Price := 16383

/-- The constructor, which asserts a non-empty band. The slab's initial bytes are never
read: Rest writes every field. -/
def new (orderCapacity : Nat) (minPrice maxPrice : Price) (checked : Bool) : Option OrderBook := do
  let idCapacity ← roundUpPow2 (max orderCapacity 1 * 2 % 2 ^ 64)
  guard (minPrice ≤ maxPrice)
  pure { slab := .new (fun _ => ⟨0, 0, 0, .buy, none, none⟩) orderCapacity checked
         minPrice := minPrice
         maxPrice := maxPrice
         bidLevels := fun _ => {}
         askLevels := fun _ => {}
         bestBidPx := 0
         bestAskPx := 0
         liveBidLevels := 0
         liveAskLevels := 0
         index := ⟨idCapacity, idCapacity - 1, Core.mixId, fun _ => {}⟩ }

/-- Both ladder vectors have this many elements. -/
def ladderSize (b : OrderBook) : Nat := (b.maxPrice - b.minPrice + 1).toNat

def inBand (b : OrderBook) (px : Price) : Bool := b.minPrice ≤ px && px ≤ b.maxPrice

def idx (b : OrderBook) (px : Price) : Nat := (px - b.minPrice).toNat

def levels (b : OrderBook) : Side → Nat → LevelFIFO
  | .buy => b.bidLevels
  | .sell => b.askLevels

/-- LevelAt, a fault outside the vector: an index is valid exactly when its price is in band. -/
def levelAt (b : OrderBook) (side : Side) (px : Price) : Option LevelFIFO :=
  if b.inBand px then some (b.levels side (b.idx px)) else none

def setLevel (b : OrderBook) (side : Side) (px : Price) (lvl : LevelFIFO) : OrderBook :=
  match side with
  | .buy => { b with bidLevels := Function.update b.bidLevels (b.idx px) lvl }
  | .sell => { b with askLevels := Function.update b.askLevels (b.idx px) lvl }

def hasBid (b : OrderBook) : Bool := 0 < b.liveBidLevels
def hasAsk (b : OrderBook) : Bool := 0 < b.liveAskLevels
def bestBid (b : OrderBook) : Price := if 0 < b.liveBidLevels then b.bestBidPx else 0
def bestAsk (b : OrderBook) : Price := if 0 < b.liveAskLevels then b.bestAskPx else 0
def levelQty (b : OrderBook) (side : Side) (px : Price) : Quantity :=
  if b.inBand px then (b.levels side (b.idx px)).totalQty else 0
def levelOrderCount (b : OrderBook) (side : Side) (px : Price) : Nat :=
  if b.inBand px then (b.levels side (b.idx px)).orderCount else 0
def openOrderCount (b : OrderBook) : Nat := b.slab.inUse

/-- A level turned non-empty. -/
def markLevelLive (b : OrderBook) (side : Side) (px : Price) : OrderBook :=
  match side with
  | .buy =>
    { b with bestBidPx := if b.liveBidLevels = 0 ∨ b.bestBidPx < px then px else b.bestBidPx
             liveBidLevels := addWord 64 b.liveBidLevels 1 }
  | .sell =>
    { b with bestAskPx := if b.liveAskLevels = 0 ∨ px < b.bestAskPx then px else b.bestAskPx
             liveAskLevels := addWord 64 b.liveAskLevels 1 }

/-- The do-while scan for the next non-empty level; leaving the vector is a fault. -/
def scanLevels (b : OrderBook) (side : Side) (dir : Price) : Nat → Price → Option Price
  | 0, _ => none
  | fuel + 1, p => do
    let lvl ← b.levelAt side (p + dir)
    if lvl.empty then b.scanLevels side dir fuel (p + dir) else pure (p + dir)

/-- A level turned empty: recount, and repair the touch if the level carried it. -/
def markLevelEmptied (b : OrderBook) (side : Side) (px : Price) : Option OrderBook :=
  match side with
  | .buy =>
    let b := { b with liveBidLevels := subWord 64 b.liveBidLevels 1 }
    if 0 < b.liveBidLevels ∧ px = b.bestBidPx then do
      let p ← b.scanLevels .buy (-1) b.ladderSize px
      pure { b with bestBidPx := p }
    else pure b
  | .sell =>
    let b := { b with liveAskLevels := subWord 64 b.liveAskLevels 1 }
    if 0 < b.liveAskLevels ∧ px = b.bestAskPx then do
      let p ← b.scanLevels .sell 1 b.ladderSize px
      pure { b with bestAskPx := p }
    else pure b

/-- `p->next = q`, or `lvl.head = q` when p is null. -/
def linkForward (slab : SlabAllocator Order) (lvl : LevelFIFO) (p q : Ptr) :
    Option (SlabAllocator Order × LevelFIFO) :=
  match p with
  | some i => do
    let n ← slab.load i
    let slab ← slab.store i { n with next := q }
    pure (slab, lvl)
  | none => pure (slab, { lvl with head := q })

/-- `q->prev = p`, or `lvl.tail = p` when q is null. -/
def linkBackward (slab : SlabAllocator Order) (lvl : LevelFIFO) (q p : Ptr) :
    Option (SlabAllocator Order × LevelFIFO) :=
  match q with
  | some i => do
    let n ← slab.load i
    let slab ← slab.store i { n with prev := p }
    pure (slab, lvl)
  | none => pure (slab, { lvl with tail := p })

/-- Every `o->` in the source is a fresh read of the node. -/
def unlinkFromLevel (slab : SlabAllocator Order) (lvl : LevelFIFO) (o : Nat) :
    Option (SlabAllocator Order × LevelFIFO) := do
  let n ← slab.load o
  let (slab, lvl) ← linkForward slab lvl n.prev n.next
  let n ← slab.load o
  let (slab, lvl) ← linkBackward slab lvl n.next n.prev
  let n ← slab.load o
  pure (slab, { lvl with totalQty := subWord 64 lvl.totalQty n.qty
                         orderCount := subWord 32 lvl.orderCount 1 })

def pushBackToLevel (slab : SlabAllocator Order) (lvl : LevelFIFO) (o : Nat) :
    Option (SlabAllocator Order × LevelFIFO) := do
  let n ← slab.load o
  let slab ← slab.store o { n with prev := lvl.tail, next := none }
  let (slab, lvl) ← linkForward slab lvl lvl.tail (some o)
  let n ← slab.load o
  pure (slab, { lvl with tail := some o
                         totalQty := addWord 64 lvl.totalQty n.qty
                         orderCount := addWord 32 lvl.orderCount 1 })

/-- The tail of ConsumeLevel's loop body: a maker filled to zero leaves its level,
the id index and the slab. -/
def popMaker (b : OrderBook) (side : Side) (px : Price) (maker : Nat) : Option OrderBook := do
  let m ← b.slab.load maker
  let lvl ← b.levelAt side px
  let lvl := { lvl with head := m.next }
  let (slab, lvl) ← linkBackward b.slab lvl lvl.head none
  let lvl := { lvl with orderCount := subWord 32 lvl.orderCount 1 }
  let b := { b.setLevel side px lvl with slab := slab }
  let m ← b.slab.load maker
  let (_, index) ← b.index.lookupAndEraseId m.id
  let slab ← b.slab.deallocate maker
  pure { b with index := index, slab := slab }

/-- One pass of ConsumeLevel's loop against the head of the level. -/
def fillMaker (b : OrderBook) (takerId : OrderId) (takerSide : Side) (makerPrice : Price)
    (maker : Nat) (remaining : Quantity) : Option (OrderBook × Quantity × Fill) := do
  let m ← b.slab.load maker
  let fill := min remaining m.qty
  let report : Fill := ⟨m.id, takerId, makerPrice, fill, takerSide⟩
  let slab ← b.slab.store maker { m with qty := m.qty - fill }
  let lvl ← b.levelAt takerSide.opposite makerPrice
  let lvl := { lvl with totalQty := subWord 64 lvl.totalQty fill }
  let b := { b.setLevel takerSide.opposite makerPrice lvl with slab := slab }
  if m.qty - fill = 0 then do
    let b ← b.popMaker takerSide.opposite makerPrice maker
    pure (b, remaining - fill, report)
  else pure (b, remaining - fill, report)

/-- Drain the head of a level until the level or the taker is exhausted. -/
def consumeLevel (takerId : OrderId) (takerSide : Side) (makerPrice : Price) :
    Nat → OrderBook → Quantity → Option (OrderBook × Quantity × List Fill)
  | 0, _, _ => none
  | fuel + 1, b, remaining => do
    let lvl ← b.levelAt takerSide.opposite makerPrice
    match lvl.head with
    | none => pure (b, remaining, [])
    | some maker =>
      if remaining = 0 then pure (b, remaining, [])
      else do
        let (b, remaining, report) ← b.fillMaker takerId takerSide makerPrice maker remaining
        let (b, remaining, reports) ← consumeLevel takerId takerSide makerPrice fuel b remaining
        pure (b, remaining, report :: reports)

/-- Every pass empties a level or ends the loop, so `capacity + 1` passes are enough
for both nested loops. -/
def passes (b : OrderBook) : Nat := b.slab.capacity + 1

def matchBuy (takerId : OrderId) (takerPrice : Price) :
    Nat → OrderBook → Quantity → Option (OrderBook × Quantity × List Fill)
  | 0, _, _ => none
  | fuel + 1, b, remaining =>
    if 0 < remaining ∧ 0 < b.liveAskLevels then
      let px := b.bestAskPx
      if takerPrice < px then pure (b, remaining, [])
      else do
        let (b, remaining, reports) ← consumeLevel takerId .buy px b.passes b remaining
        let lvl ← b.levelAt .sell px
        let b ← (if lvl.empty then b.markLevelEmptied .sell px else pure b)
        let (b, remaining, rest) ← matchBuy takerId takerPrice fuel b remaining
        pure (b, remaining, reports ++ rest)
    else pure (b, remaining, [])

def matchSell (takerId : OrderId) (takerPrice : Price) :
    Nat → OrderBook → Quantity → Option (OrderBook × Quantity × List Fill)
  | 0, _, _ => none
  | fuel + 1, b, remaining =>
    if 0 < remaining ∧ 0 < b.liveBidLevels then
      let px := b.bestBidPx
      if px < takerPrice then pure (b, remaining, [])
      else do
        let (b, remaining, reports) ← consumeLevel takerId .sell px b.passes b remaining
        let lvl ← b.levelAt .buy px
        let b ← (if lvl.empty then b.markLevelEmptied .buy px else pure b)
        let (b, remaining, rest) ← matchSell takerId takerPrice fuel b remaining
        pure (b, remaining, reports ++ rest)
    else pure (b, remaining, [])

/-- Rest the residual, or drop it outside the band or on an exhausted slab. -/
def rest (b : OrderBook) (id : OrderId) (side : Side) (price : Price) (qty : Quantity) :
    Option (OrderBook × Bool) :=
  if ¬ b.inBand price then pure (b, false)
  else match b.slab.allocate with
    | (none, _) => pure (b, false)
    | (some o, slab) => do
      let slab ← slab.store o ⟨id, price, qty, side, none, none⟩
      let lvl ← b.levelAt side price
      let wasEmpty := lvl.empty
      let (slab, lvl) ← pushBackToLevel slab lvl o
      let b := { b.setLevel side price lvl with slab := slab }
      let b := if wasEmpty then b.markLevelLive side price else b
      let index ← b.index.insertId id o
      pure ({ b with index := index }, true)

/-- AddLimit with the fills it reports, in order, and its return value. -/
def addLimit (b : OrderBook) (id : OrderId) (side : Side) (price : Price) (qty : Quantity) :
    Option (OrderBook × List Fill × Bool) := do
  let (b, remaining, fills) ← match side with
    | .buy => matchBuy id price b.passes b qty
    | .sell => matchSell id price b.passes b qty
  if remaining = 0 then pure (b, fills, true)
  else do
    let (b, ok) ← b.rest id side price remaining
    pure (b, fills, ok)

/-- What on_cancel is told about the order that is about to be destroyed. -/
structure CancelReport where
  id : OrderId
  side : Side
  price : Price
  qty : Quantity
  deriving DecidableEq, Repr

/-- Cancel with the report it makes; no report is the return value false. -/
def cancel (b : OrderBook) (id : OrderId) : Option (OrderBook × Option CancelReport) := do
  let (p, index) ← b.index.lookupAndEraseId id
  let b := { b with index := index }
  match p with
  | none => pure (b, none)
  | some o => do
    let n ← b.slab.load o
    let report : CancelReport := ⟨n.id, n.side, n.price, n.qty⟩
    let lvl ← b.levelAt n.side n.price
    let (slab, lvl) ← unlinkFromLevel b.slab lvl o
    let b := { b.setLevel n.side n.price lvl with slab := slab }
    let b ← (if lvl.empty then b.markLevelEmptied n.side n.price else pure b)
    let slab ← b.slab.deallocate o
    pure ({ b with slab := slab }, some report)

end OrderBook

inductive BookOp where
  | addLimit (id : OrderId) (side : Side) (price : Price) (qty : Quantity)
  | cancel (id : OrderId)
  deriving DecidableEq, Repr

/-- What a call shows its caller: the fills and the return value, or the cancel report. -/
inductive BookOut where
  | added (fills : List Fill) (ok : Bool)
  | cancelled (report : Option OrderBook.CancelReport)
  deriving DecidableEq, Repr

namespace OrderBook

def step (b : OrderBook) : BookOp → Option (OrderBook × BookOut)
  | .addLimit id side price qty => do
    let (b, fills, ok) ← b.addLimit id side price qty
    pure (b, .added fills ok)
  | .cancel id => do
    let (b, report) ← b.cancel id
    pure (b, .cancelled report)

def run : OrderBook → List BookOp → Option (OrderBook × List BookOut)
  | b, [] => some (b, [])
  | b, op :: ops => do
    let (b, out) ← b.step op
    let (b, outs) ← b.run ops
    pure (b, out :: outs)

end OrderBook
end ExecutionPlatform.Core
