import ExecutionPlatform.Core.OrderBook
import Mathlib.Data.List.Basic

/-! The price-time-priority book a trader reasons with: one sequence of resting orders
in arrival order. Nothing here is translated from the source; it says what the
order book is for. -/
namespace ExecutionPlatform.Core

/-- A resting price that a taker's limit reaches. -/
def crosses (taker : Side) (limit px : Price) : Bool :=
  match taker with
  | .buy => px ≤ limit
  | .sell => limit ≤ px

/-- Price priority among resting orders of one side. -/
def better (side : Side) (p q : Price) : Bool :=
  match side with
  | .buy => q < p
  | .sell => p < q

theorem better_irrefl (side : Side) (p : Price) : better side p p = false := by
  cases side <;> simp [better]

theorem better_asymm {side : Side} {p q : Price} (h : better side p q = true) :
    better side q p = false := by
  cases side <;> simp [better] at h ⊢ <;> lia

theorem eq_of_not_better {side : Side} {p q : Price} (h : better side p q = false)
    (h' : better side q p = false) : p = q := by
  cases side <;> simp [better] at h h' <;> lia

theorem better_of_not_better_of_better {side : Side} {p q r : Price}
    (h : better side q p = false) (h' : better side q r = true) : better side p r = true := by
  cases side <;> simp [better] at h h' ⊢ <;> lia

/-- A price that beats a crossing price crosses too. -/
theorem crosses_of_better {taker : Side} {limit p q : Price} (h : crosses taker limit q = true)
    (hb : better taker.opposite q p = false) : crosses taker limit p = true := by
  cases taker <;> simp [crosses, better, Side.opposite] at h hb ⊢ <;> lia

structure Resting where
  id : OrderId
  side : Side
  price : Price
  residual : Quantity
  deriving DecidableEq, Repr

/-- What fills may leave of an order. -/
structure Resting.PartOf (o m : Resting) : Prop where
  id : o.id = m.id
  side : o.side = m.side
  price : o.price = m.price
  residual : o.residual ≤ m.residual

theorem Resting.PartOf.refl (o : Resting) : o.PartOf o := ⟨rfl, rfl, rfl, le_rfl⟩

theorem Resting.PartOf.trans {o m n : Resting} (h : o.PartOf m) (h' : m.PartOf n) : o.PartOf n :=
  ⟨h.id.trans h'.id, h.side.trans h'.side, h.price.trans h'.price, h.residual.trans h'.residual⟩

def Resting.crossedBy (o : Resting) (taker : Side) (limit : Price) : Bool :=
  decide (o.side = taker.opposite) && crosses taker limit o.price

/-- Split the sequence at the best-priced, then earliest, order the taker crosses. -/
def takeBest (taker : Side) (limit : Price) :
    List Resting → Option (List Resting × Resting × List Resting)
  | [] => none
  | o :: os =>
    match takeBest taker limit os with
    | none => if o.crossedBy taker limit then some ([], o, os) else none
    | some (l, m, r) =>
      if o.crossedBy taker limit && !better taker.opposite m.price o.price then some ([], o, os)
      else some (o :: l, m, r)

theorem takeBest_eq_none_iff {taker : Side} {limit : Price} {os : List Resting} :
    takeBest taker limit os = none ↔ ∀ o ∈ os, o.crossedBy taker limit = false := by
  induction os with
  | nil => simp [takeBest]
  | cons o os ih =>
    rw [takeBest]
    cases hb : takeBest taker limit os with
    | none =>
      have := ih.mp hb
      by_cases hc : o.crossedBy taker limit = true <;> simp_all
    | some w =>
      obtain ⟨l, m, r⟩ := w
      have hex : ¬ ∀ o ∈ os, o.crossedBy taker limit = false := fun h => by
        rw [ih.mpr h] at hb
        cases hb
      constructor
      · intro h
        dsimp only at h
        split_ifs at h
      · intro h
        exact absurd (fun x hx => h x (List.mem_cons_of_mem _ hx)) hex

/-- takeBest finds the one crossing order that beats every earlier crossing order and
is not beaten by a later one. -/
theorem takeBest_eq_some {taker : Side} {limit : Price} {l r : List Resting} {m : Resting}
    (hm : m.crossedBy taker limit = true)
    (hl : ∀ o ∈ l, o.crossedBy taker limit = true → better taker.opposite m.price o.price = true)
    (hr : ∀ o ∈ r, o.crossedBy taker limit = true → better taker.opposite o.price m.price = false) :
    takeBest taker limit (l ++ m :: r) = some (l, m, r) := by
  induction l with
  | nil =>
    rw [List.nil_append, takeBest]
    cases hb : takeBest taker limit r with
    | none => simp [hm]
    | some w =>
      obtain ⟨l', m', r'⟩ := w
      have hmem : m' ∈ r ∧ m'.crossedBy taker limit = true := by
        clear hm hl hr
        induction r generalizing l' m' r' with
        | nil => simp [takeBest] at hb
        | cons o os ih =>
          rw [takeBest] at hb
          cases hb' : takeBest taker limit os with
          | none =>
            rw [hb'] at hb
            dsimp only at hb
            split_ifs at hb with hc
            cases hb
            exact ⟨List.mem_cons_self, hc⟩
          | some w' =>
            obtain ⟨l'', m'', r''⟩ := w'
            rw [hb'] at hb
            dsimp only at hb
            split_ifs at hb with hc
            · cases hb
              exact ⟨List.mem_cons_self, by simp_all⟩
            · cases hb
              obtain ⟨h1, h2⟩ := ih _ _ _ hb'
              exact ⟨List.mem_cons_of_mem _ h1, h2⟩
      simp [hm, hr m' hmem.1 hmem.2]
  | cons o l ih =>
    rw [List.cons_append, takeBest,
      ih (fun x hx => hl x (List.mem_cons_of_mem _ hx))]
    have ho := hl o List.mem_cons_self
    by_cases hc : o.crossedBy taker limit = true
    · simp [ho hc]
    · simp [hc]

theorem takeBest_spec {taker : Side} {limit : Price} {os l r : List Resting} {m : Resting}
    (h : takeBest taker limit os = some (l, m, r)) :
    os = l ++ m :: r ∧ m.crossedBy taker limit = true ∧
      (∀ o ∈ l, o.crossedBy taker limit = true → better taker.opposite m.price o.price = true) ∧
      (∀ o ∈ r, o.crossedBy taker limit = true → better taker.opposite o.price m.price = false) := by
  induction os generalizing l m r with
  | nil => simp [takeBest] at h
  | cons o os ih =>
    rw [takeBest] at h
    cases hb : takeBest taker limit os with
    | none =>
      rw [hb] at h
      dsimp only at h
      split_ifs at h with hc
      cases h
      have hno := takeBest_eq_none_iff.mp hb
      exact ⟨rfl, hc, by simp, fun x hx hxc => by simp [hno x hx] at hxc⟩
    | some w =>
      obtain ⟨l', m', r'⟩ := w
      obtain ⟨rfl, hm', hl', hr'⟩ := ih hb
      rw [hb] at h
      dsimp only at h
      split_ifs at h with hc
      · cases h
        simp only [Bool.and_eq_true, Bool.not_eq_true'] at hc
        refine ⟨rfl, hc.1, by simp, fun x hx hxc => ?_⟩
        -- o is no worse than m', which no order of the tail beats
        have hx' : better taker.opposite x.price m'.price = false := by
          simp only [List.mem_append, List.mem_cons] at hx
          rcases hx with hx | rfl | hx
          · exact better_asymm (hl' x hx hxc)
          · exact better_irrefl _ _
          · exact hr' x hx hxc
        by_contra hbad
        have hbad : better taker.opposite x.price o.price = true := by simpa using hbad
        have := better_of_not_better_of_better hx' hbad
        rw [hc.2] at this
        cases this
      · cases h
        refine ⟨rfl, hm', fun x hx hxc => ?_, hr'⟩
        rcases List.mem_cons.mp hx with rfl | hx
        · simpa [hxc] using hc
        · exact hl' x hx hxc

/-- What a fill leaves of a maker: nothing at zero. -/
def Resting.leftover (m : Resting) (fill : Quantity) : List Resting :=
  if m.residual - fill = 0 then [] else [{ m with residual := m.residual - fill }]

/-- One fill of the matching loop; none when nothing crosses or the taker is done. -/
def takeOne (taker : OrderId) (side : Side) (limit : Price) (orders : List Resting)
    (remaining : Quantity) : Option (List Resting × Quantity × Fill) :=
  if remaining = 0 then none
  else match takeBest side limit orders with
    | none => none
    | some (l, m, r) =>
      let fill := min remaining m.residual
      some (l ++ m.leftover fill ++ r, remaining - fill, ⟨m.id, taker, m.price, fill, side⟩)

def matchLoop (taker : OrderId) (side : Side) (limit : Price) :
    Nat → List Resting → Quantity → List Resting × Quantity × List Fill
  | 0, orders, remaining => (orders, remaining, [])
  | fuel + 1, orders, remaining =>
    match takeOne taker side limit orders remaining with
    | none => (orders, remaining, [])
    | some (orders', remaining', f) =>
      let (orders'', remaining'', fs) := matchLoop taker side limit fuel orders' remaining'
      (orders'', remaining'', f :: fs)

/-- Match to the end: every fill but the last removes an order, so length + 1 passes suffice. -/
def matchAll (taker : OrderId) (side : Side) (limit : Price) (orders : List Resting)
    (remaining : Quantity) : List Resting × Quantity × List Fill :=
  matchLoop taker side limit (orders.length + 1) orders remaining

/-- A run of fills, one after the other. -/
inductive Takes (taker : OrderId) (side : Side) (limit : Price) :
    List Resting → Quantity → List Fill → List Resting → Quantity → Prop
  | refl (orders : List Resting) (remaining : Quantity) :
      Takes taker side limit orders remaining [] orders remaining
  | cons {orders orders' orders'' : List Resting} {remaining remaining' remaining'' : Quantity}
      {f : Fill} {fs : List Fill}
      (h : takeOne taker side limit orders remaining = some (orders', remaining', f))
      (rest : Takes taker side limit orders' remaining' fs orders'' remaining'') :
      Takes taker side limit orders remaining (f :: fs) orders'' remaining''

section Matching
variable {taker : OrderId} {side : Side} {limit : Price} {orders orders' orders'' : List Resting}
  {remaining remaining' remaining'' : Quantity} {f : Fill} {fs fs' : List Fill}

theorem Takes.trans (h : Takes taker side limit orders remaining fs orders' remaining')
    (h' : Takes taker side limit orders' remaining' fs' orders'' remaining'') :
    Takes taker side limit orders remaining (fs ++ fs') orders'' remaining'' := by
  induction h with
  | refl => exact h'
  | cons h _ ih => exact .cons h (ih h')

/-- Everything one fill does. -/
theorem takeOne_spec
    (h : takeOne taker side limit orders remaining = some (orders', remaining', f)) :
    ∃ l m r, orders = l ++ m :: r ∧ 0 < remaining ∧ m.crossedBy side limit = true ∧
      (∀ o ∈ l, o.crossedBy side limit = true → better side.opposite m.price o.price = true) ∧
      (∀ o ∈ r, o.crossedBy side limit = true → better side.opposite o.price m.price = false) ∧
      orders' = l ++ m.leftover (min remaining m.residual) ++ r ∧
      remaining' = remaining - min remaining m.residual ∧
      f = ⟨m.id, taker, m.price, min remaining m.residual, side⟩ := by
  rw [takeOne] at h
  split_ifs at h with hr
  cases hb : takeBest side limit orders with
  | none => simp [hb] at h
  | some w =>
    obtain ⟨l, m, r⟩ := w
    obtain ⟨he, hm, hl, hr'⟩ := takeBest_spec hb
    simp only [hb, Option.some.injEq, Prod.mk.injEq] at h
    exact ⟨l, m, r, he, Nat.pos_of_ne_zero hr, hm, hl, hr', h.1.symm, h.2.1.symm, h.2.2.symm⟩

theorem takeOne_pos (h : takeOne taker side limit orders remaining = some (orders', remaining', f)) :
    0 < remaining := by
  obtain ⟨l, m, r, -, hpos, -⟩ := takeOne_spec h
  exact hpos

theorem takeOne_eq_none (h : remaining = 0 ∨ ∀ o ∈ orders, o.crossedBy side limit = false) :
    takeOne taker side limit orders remaining = none := by
  rw [takeOne]
  split_ifs with hr
  · rfl
  · rw [takeBest_eq_none_iff.mpr (h.resolve_left hr)]

/-- The first order on the best level is the next maker, if the taker reaches it. -/
theorem takeOne_eq_some {l r : List Resting} {m : Resting} (hpos : 0 < remaining)
    (hm : m.crossedBy side limit = true)
    (hbest : ∀ o ∈ l ++ r, o.side = side.opposite → better side.opposite o.price m.price = false)
    (hfirst : ∀ o ∈ l, ¬ (o.side = side.opposite ∧ o.price = m.price)) :
    takeOne taker side limit (l ++ m :: r) remaining =
      some (l ++ m.leftover (min remaining m.residual) ++ r, remaining - min remaining m.residual,
        ⟨m.id, taker, m.price, min remaining m.residual, side⟩) := by
  have hside : ∀ o : Resting, o.crossedBy side limit = true → o.side = side.opposite := by
    intro o ho
    simp only [Resting.crossedBy, Bool.and_eq_true, decide_eq_true_eq] at ho
    exact ho.1
  have hb : takeBest side limit (l ++ m :: r) = some (l, m, r) := by
    refine takeBest_eq_some hm (fun o ho hc => ?_) fun o ho hc =>
      hbest o (List.mem_append_right l ho) (hside o hc)
    by_contra hbad
    have hp := eq_of_not_better (hbest o (List.mem_append_left r ho) (hside o hc))
      (by simpa using hbad)
    exact hfirst o ho ⟨hside o hc, hp⟩
  rw [takeOne, if_neg (Nat.ne_of_gt hpos), hb]

/-- A fill that does not exhaust the taker removes its maker. -/
private theorem takeOne_shrinks
    (h : takeOne taker side limit orders remaining = some (orders', remaining', f)) :
    remaining' = 0 ∨ orders'.length < orders.length := by
  obtain ⟨l, m, r, rfl, -, -, -, -, rfl, rfl, -⟩ := takeOne_spec h
  rcases Nat.le_total remaining m.residual with hle | hle
  · left
    simp [Nat.min_eq_left hle]
  · right
    simp [Resting.leftover, Nat.min_eq_right hle]

theorem Takes.eq_of_nil (h : Takes taker side limit orders remaining [] orders' remaining') :
    orders' = orders := by
  cases h
  rfl

/-- Unless the taker is exhausted, every fill of a run removed an order. -/
theorem Takes.length (h : Takes taker side limit orders remaining fs orders' remaining') :
    remaining' = 0 ∨ orders'.length + fs.length ≤ orders.length := by
  induction h with
  | refl => exact .inr le_rfl
  | cons h hrest ih =>
    rcases ih with hz | hle
    · exact .inl hz
    · rcases takeOne_shrinks h with hz | hlt
      · subst hz
        cases hrest with
        | refl => exact .inl rfl
        | cons h' _ => exact absurd (takeOne_pos h') (Nat.lt_irrefl 0)
      · right
        rw [List.length_cons]
        lia

theorem takeOne_residual_pos (hpos : ∀ o ∈ orders, 0 < o.residual)
    (h : takeOne taker side limit orders remaining = some (orders', remaining', f)) :
    ∀ o ∈ orders', 0 < o.residual := by
  obtain ⟨l, m, r, rfl, -, -, -, -, rfl, -, -⟩ := takeOne_spec h
  intro o ho
  simp only [List.mem_append] at ho
  rcases ho with (ho | ho) | ho
  · exact hpos o (List.mem_append_left _ ho)
  · rw [Resting.leftover] at ho
    split_ifs at ho with hz
    · cases ho
    · obtain rfl := List.mem_singleton.mp ho
      exact Nat.pos_of_ne_zero hz
  · exact hpos o (List.mem_append_right _ (List.mem_cons_of_mem _ ho))

theorem takeOne_subset (h : takeOne taker side limit orders remaining = some (orders', remaining', f)) :
    ∀ o ∈ orders', ∃ m ∈ orders, o.PartOf m := by
  obtain ⟨l, m, r, rfl, -, -, -, -, rfl, -, -⟩ := takeOne_spec h
  intro o ho
  simp only [List.mem_append] at ho
  rcases ho with (ho | ho) | ho
  · exact ⟨o, List.mem_append_left _ ho, .refl o⟩
  · rw [Resting.leftover] at ho
    split_ifs at ho
    · cases ho
    · obtain rfl := List.mem_singleton.mp ho
      exact ⟨m, by simp, rfl, rfl, rfl, Nat.sub_le ..⟩
  · exact ⟨o, List.mem_append_right _ (List.mem_cons_of_mem _ ho), .refl o⟩

/-- Fills lower residuals only: whatever still rests, rested before. -/
theorem Takes.subset (h : Takes taker side limit orders remaining fs orders' remaining') :
    ∀ o ∈ orders', ∃ m ∈ orders, o.PartOf m := by
  induction h with
  | refl => exact fun o ho => ⟨o, ho, .refl o⟩
  | cons h _ ih =>
    intro o ho
    obtain ⟨m, hm, h1⟩ := ih o ho
    obtain ⟨m', hm', h2⟩ := takeOne_subset h m hm
    exact ⟨m', hm', h1.trans h2⟩

/-- Fills only take ids away. -/
theorem Takes.ids_sublist (h : Takes taker side limit orders remaining fs orders' remaining') :
    (orders'.map Resting.id).Sublist (orders.map Resting.id) := by
  induction h with
  | refl => exact List.Sublist.refl _
  | cons h _ ih =>
    obtain ⟨l, m, r, rfl, -, -, -, -, rfl, -, -⟩ := takeOne_spec h
    refine ih.trans ?_
    rw [List.append_cons, List.map_append, List.map_append, List.map_append, List.map_append]
    refine ((List.Sublist.refl _).append ?_).append (List.Sublist.refl _)
    rw [Resting.leftover]
    split_ifs
    · exact List.nil_sublist _
    · exact List.Sublist.refl _

theorem Takes.residual_pos (h : Takes taker side limit orders remaining fs orders' remaining')
    (hpos : ∀ o ∈ orders, 0 < o.residual) : ∀ o ∈ orders', 0 < o.residual := by
  induction h with
  | refl => exact hpos
  | cons h _ ih => exact ih (takeOne_residual_pos hpos h)

private theorem matchLoop_of_takes
    (h : Takes taker side limit orders remaining fs orders' remaining')
    (hstuck : takeOne taker side limit orders' remaining' = none) {fuel : Nat}
    (hf : remaining = 0 ∨ orders.length < fuel) :
    matchLoop taker side limit fuel orders remaining = (orders', remaining', fs) := by
  induction h generalizing fuel with
  | refl orders remaining => cases fuel <;> simp [matchLoop, hstuck]
  | cons h _ ih =>
    have hpos := takeOne_pos h
    obtain ⟨fuel, rfl⟩ : ∃ k, fuel = k + 1 := ⟨fuel - 1, by lia⟩
    rw [matchLoop, h]
    dsimp only
    rw [ih hstuck]
    rcases takeOne_shrinks h with hz | hlt
    · exact .inl hz
    · exact .inr (by lia)

/-- A run of fills that cannot be extended is the whole match. -/
theorem matchAll_of_takes (h : Takes taker side limit orders remaining fs orders' remaining')
    (hstuck : takeOne taker side limit orders' remaining' = none) :
    matchAll taker side limit orders remaining = (orders', remaining', fs) :=
  matchLoop_of_takes h hstuck (.inr (Nat.lt_succ_self _))

private theorem takes_matchLoop (fuel : Nat) (orders : List Resting) (remaining : Quantity)
    (hf : remaining = 0 ∨ orders.length < fuel) :
    let out := matchLoop taker side limit fuel orders remaining
    Takes taker side limit orders remaining out.2.2 out.1 out.2.1 ∧
      takeOne taker side limit out.1 out.2.1 = none := by
  induction fuel generalizing orders remaining with
  | zero =>
    have hz : remaining = 0 := by lia
    exact ⟨.refl _ _, takeOne_eq_none (.inl hz)⟩
  | succ fuel ih =>
    rw [matchLoop]
    cases h : takeOne taker side limit orders remaining with
    | none => exact ⟨.refl _ _, h⟩
    | some w =>
      obtain ⟨orders', remaining', f⟩ := w
      have hf' : remaining' = 0 ∨ orders'.length < fuel := by
        have hpos := takeOne_pos h
        rcases takeOne_shrinks h with hz | hlt
        · exact .inl hz
        · exact .inr (by lia)
      obtain ⟨ht, hs⟩ := ih orders' remaining' hf'
      exact ⟨.cons h ht, hs⟩

/-- The whole match is a run of fills that cannot be extended. -/
theorem takes_matchAll (taker : OrderId) (side : Side) (limit : Price) (orders : List Resting)
    (remaining : Quantity) :
    let out := matchAll taker side limit orders remaining
    Takes taker side limit orders remaining out.2.2 out.1 out.2.1 ∧
      takeOne taker side limit out.1 out.2.1 = none :=
  takes_matchLoop _ orders remaining (.inr (Nat.lt_succ_self _))

end Matching

structure RefBook where
  orderCapacity : Nat
  minPrice : Price
  maxPrice : Price
  orders : List Resting
  deriving DecidableEq, Repr

namespace RefBook

def new (orderCapacity : Nat) (minPrice maxPrice : Price) : RefBook :=
  ⟨orderCapacity, minPrice, maxPrice, []⟩

def addLimit (R : RefBook) (id : OrderId) (side : Side) (price : Price) (qty : Quantity) :
    RefBook × List Fill × Bool :=
  let (orders, remaining, fills) := matchAll id side price R.orders qty
  if remaining = 0 then ({ R with orders := orders }, fills, true)
  else if (R.minPrice ≤ price ∧ price ≤ R.maxPrice) ∧ orders.length < R.orderCapacity then
    ({ R with orders := orders ++ [⟨id, side, price, remaining⟩] }, fills, true)
  else ({ R with orders := orders }, fills, false)

def cancel (R : RefBook) (id : OrderId) : RefBook × Option OrderBook.CancelReport :=
  match R.orders.find? (fun o => o.id = id) with
  | none => (R, none)
  | some o => ({ R with orders := R.orders.filter (fun o => o.id ≠ id) },
      some ⟨o.id, o.side, o.price, o.residual⟩)

/-- Cancel where ids may repeat: it takes the oldest order of its id. -/
def cancelOldest (R : RefBook) (id : OrderId) : RefBook × Option OrderBook.CancelReport :=
  match R.orders.find? (fun o => o.id = id) with
  | none => (R, none)
  | some o => ({ R with orders := R.orders.eraseP (fun o => o.id = id) },
      some ⟨o.id, o.side, o.price, o.residual⟩)

def step (R : RefBook) : BookOp → RefBook × BookOut
  | .addLimit id side price qty =>
    let (R, fills, ok) := R.addLimit id side price qty
    (R, .added fills ok)
  | .cancel id =>
    let (R, report) := R.cancel id
    (R, .cancelled report)

/-- One call where ids may repeat. -/
def stepOldest (R : RefBook) : BookOp → RefBook × BookOut
  | .addLimit id side price qty => R.step (.addLimit id side price qty)
  | .cancel id =>
    let (R, report) := R.cancelOldest id
    (R, .cancelled report)

def run : RefBook → List BookOp → RefBook × List BookOut
  | R, [] => (R, [])
  | R, op :: ops =>
    let (R, out) := R.step op
    let (R, outs) := R.run ops
    (R, out :: outs)

def ids (R : RefBook) : List OrderId := R.orders.map Resting.id

/-- The queue of one price level, in time priority. -/
def queue (R : RefBook) (side : Side) (px : Price) : List Resting :=
  R.orders.filter (fun o => o.side = side ∧ o.price = px)

/-- p is the price of the best resting order of the side. -/
def IsBest (R : RefBook) (side : Side) (p : Price) : Prop :=
  (∃ o ∈ R.orders, o.side = side ∧ o.price = p) ∧
    ∀ o ∈ R.orders, o.side = side → better side o.price p = false

/-- The calls a client is meant to make: a positive quantity under an id that is not resting. -/
def Admissible (R : RefBook) : BookOp → Prop
  | .addLimit id _ _ qty => 0 < qty ∧ id ∉ R.ids
  | .cancel _ => True

instance (R : RefBook) (op : BookOp) : Decidable (R.Admissible op) := by
  cases op <;> unfold Admissible <;> infer_instance

def AdmissibleRun : RefBook → List BookOp → Prop
  | _, [] => True
  | R, op :: ops => R.Admissible op ∧ (R.step op).1.AdmissibleRun ops

/-- AddLimit has a residual and a place to rest it. -/
def Rests (R : RefBook) (id : OrderId) (side : Side) (price : Price) (qty : Quantity) : Prop :=
  let (orders, remaining, _) := matchAll id side price R.orders qty
  remaining ≠ 0 ∧ (R.minPrice ≤ price ∧ price ≤ R.maxPrice) ∧ orders.length < R.orderCapacity

/-- The call rests a residual under an id that is resting at that moment. -/
def RestsDuplicate (R : RefBook) : BookOp → Prop
  | .addLimit id side price qty => R.Rests id side price qty ∧
      id ∈ (matchAll id side price R.orders qty).1.map Resting.id
  | .cancel _ => False

instance (R : RefBook) (op : BookOp) : Decidable (R.RestsDuplicate op) := by
  cases op <;> unfold RestsDuplicate <;> try unfold Rests
  all_goals infer_instance

/-- No call of the sequence rests a residual under an id that is resting at that moment. -/
def DistinctRun : RefBook → List BookOp → Prop
  | _, [] => True
  | R, op :: ops => ¬ R.RestsDuplicate op ∧ (R.step op).1.DistinctRun ops

theorem cancel_ids_sublist (R : RefBook) (id : OrderId) : (R.cancel id).1.ids.Sublist R.ids := by
  rw [cancel]
  cases R.orders.find? fun o => o.id = id with
  | none => exact List.Sublist.refl _
  | some m => exact List.filter_sublist.map Resting.id

/-- Either no order has the id, or its oldest one is taken out and reported. -/
theorem cancelOldest_spec (R : RefBook) (id : OrderId) :
    (∀ o ∈ R.orders, o.id ≠ id) ∧ R.cancelOldest id = (R, none) ∨
    ∃ l m r, R.orders = l ++ m :: r ∧ (∀ o ∈ l, o.id ≠ id) ∧ m.id = id ∧
      R.cancelOldest id =
        ({ R with orders := l ++ r }, some ⟨m.id, m.side, m.price, m.residual⟩) := by
  rw [cancelOldest]
  cases hf : R.orders.find? fun o => o.id = id with
  | none => exact .inl ⟨fun o ho => by simpa using List.find?_eq_none.mp hf o ho, rfl⟩
  | some m =>
    obtain ⟨hid, l, r, hsplit, hl⟩ := List.find?_eq_some_iff_append.mp hf
    have hl : ∀ o ∈ l, o.id ≠ id := fun o ho => by simpa using hl o ho
    refine .inr ⟨l, m, r, hsplit, hl, by simpa using hid, ?_⟩
    simp only
    rw [hsplit, List.eraseP_append_right _ fun o ho => by simpa using hl o ho,
      List.eraseP_cons_of_pos (by simpa using hid)]

/-- With distinct ids the oldest order of an id is the only one. -/
theorem cancelOldest_eq {R : RefBook} {id : OrderId} (hn : R.ids.Nodup) :
    R.cancelOldest id = R.cancel id := by
  rw [cancel]
  rcases R.cancelOldest_spec id with ⟨hno, he⟩ | ⟨l, m, r, hsplit, hl, rfl, he⟩
  · rw [he, List.find?_eq_none.mpr fun o ho => by simpa using hno o ho]
  · rw [ids, hsplit, List.map_append, List.map_cons] at hn
    have hno := (List.nodup_cons.mp (List.nodup_middle.mp hn)).1
    rw [← List.map_append] at hno
    have hkeep : (l ++ r).filter (fun o => decide (o.id ≠ m.id)) = l ++ r :=
      List.filter_eq_self.mpr fun o ho => decide_eq_true fun hc => hno (List.mem_map.mpr ⟨o, ho, hc⟩)
    rw [he, hsplit, List.find?_append, List.find?_eq_none.mpr fun o ho => by simpa using hl o ho,
      Option.none_or, List.find?_cons_of_pos (by simp)]
    simp only
    rw [List.filter_append, List.filter_cons_of_neg (by simp), ← List.filter_append, hkeep]

theorem not_restsDuplicate {R : RefBook} {id : OrderId} (hid : id ∉ R.ids) (side : Side)
    (price : Price) (qty : Quantity) : ¬ R.RestsDuplicate (.addLimit id side price qty) := by
  rintro ⟨-, hd⟩
  obtain ⟨o, ho, rfl⟩ := List.mem_map.mp hd
  obtain ⟨m, hm, he, -⟩ := (takes_matchAll o.id side price R.orders qty).1.subset o ho
  exact hid (List.mem_map.mpr ⟨m, hm, he.symm⟩)

theorem Admissible.not_restsDuplicate {R : RefBook} {op : BookOp} (h : R.Admissible op) :
    ¬ R.RestsDuplicate op := by
  cases op with
  | cancel id => exact fun hd => hd
  | addLimit id side price qty => exact RefBook.not_restsDuplicate h.2 side price qty

theorem AdmissibleRun.distinctRun {R : RefBook} {ops : List BookOp} (h : R.AdmissibleRun ops) :
    R.DistinctRun ops := by
  induction ops generalizing R with
  | nil => trivial
  | cons op ops ih => exact ⟨h.1.not_restsDuplicate, ih h.2⟩

end RefBook
end ExecutionPlatform.Core
