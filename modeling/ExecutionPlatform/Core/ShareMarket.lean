import ExecutionPlatform.Core.BookConservation

/-! The market share by share: what is left of a book when it is forgotten how the shares of one
owner were bundled into orders. Nothing here is translated from the source. -/
namespace ExecutionPlatform.Core

/-- The shares of an order, in the name of its owner. -/
def Resting.shares (owner : OrderId → OrderId) (o : Resting) : List Resting :=
  List.replicate o.residual ⟨owner o.id, o.side, o.price, 1⟩

def sharesOf (owner : OrderId → OrderId) (orders : List Resting) : List Resting :=
  orders.flatMap (Resting.shares owner)

/-- A fill share by share, between owners. -/
def Fill.shares (owner : OrderId → OrderId) (f : Fill) : List Fill :=
  List.replicate f.qty ⟨owner f.makerId, owner f.takerId, f.price, 1, f.takerSide⟩

def tradesOf (owner : OrderId → OrderId) (fs : List Fill) : List Fill :=
  fs.flatMap (Fill.shares owner)

section Shares
variable {owner : OrderId → OrderId} {taker : OrderId} {side : Side} {limit : Price}
  {orders orders' us us' : List Resting} {remaining remaining' : Quantity} {fs : List Fill}

theorem mem_shares {o x : Resting} :
    x ∈ o.shares owner ↔ o.residual ≠ 0 ∧ x = ⟨owner o.id, o.side, o.price, 1⟩ :=
  List.mem_replicate

theorem mem_sharesOf {x : Resting} : x ∈ sharesOf owner orders ↔
    ∃ o ∈ orders, o.residual ≠ 0 ∧ x = ⟨owner o.id, o.side, o.price, 1⟩ := by
  simp only [sharesOf, List.mem_flatMap, mem_shares]

theorem sharesOf_append (l r : List Resting) :
    sharesOf owner (l ++ r) = sharesOf owner l ++ sharesOf owner r := List.flatMap_append

theorem sharesOf_cons (m : Resting) (r : List Resting) :
    sharesOf owner (m :: r) = m.shares owner ++ sharesOf owner r := List.flatMap_cons

theorem tradesOf_cons (f : Fill) (fs : List Fill) :
    tradesOf owner (f :: fs) = f.shares owner ++ tradesOf owner fs := List.flatMap_cons

/-- A share is crossed where its order is. -/
theorem sharesOf_crossed {P : Resting → Prop} (h : ∀ o ∈ orders, o.crossedBy side limit = true →
    ∀ id q, P ⟨id, o.side, o.price, q⟩) :
    ∀ x ∈ sharesOf owner orders, x.crossedBy side limit = true → P x := by
  intro x hx hc
  obtain ⟨o, ho, -, rfl⟩ := mem_sharesOf.mp hx
  exact h o ho hc _ _

/-- The next maker's first shares go to the taker one by one. -/
theorem takes_replicate {l r : List Resting} {m : Resting} (hone : m.residual = 1)
    (hm : m.crossedBy side limit = true)
    (hl : ∀ o ∈ l, o.crossedBy side limit = true → better side.opposite m.price o.price = true)
    (hr : ∀ o ∈ r, o.crossedBy side limit = true → better side.opposite o.price m.price = false)
    {k n : Nat} {q : Quantity} (hk : k ≤ n) (hq : k ≤ q) :
    Takes taker side limit (l ++ List.replicate n m ++ r) q
      (List.replicate k ⟨m.id, taker, m.price, 1, side⟩)
      (l ++ List.replicate (n - k) m ++ r) (q - k) := by
  induction k generalizing n q with
  | zero => exact .refl _ _
  | succ k ih =>
    obtain ⟨n, rfl⟩ := Nat.exists_eq_add_of_le' (Nat.le_trans (Nat.le_add_left 1 k) hk)
    have hpos : 0 < q := (Nat.succ_pos k).trans_le hq
    have hbest : takeBest side limit (l ++ m :: (List.replicate n m ++ r)) =
        some (l, m, List.replicate n m ++ r) := by
      refine takeBest_eq_some hm hl fun o ho hc => ?_
      rcases List.mem_append.mp ho with ho | ho
      · rw [(List.mem_replicate.mp ho).2]
        exact better_irrefl _ _
      · exact hr o ho hc
    have hfill : min q m.residual = 1 := by
      rw [hone]
      exact Nat.min_eq_right hpos
    have hgone : m.leftover 1 = [] := by
      rw [Resting.leftover, hone]
      exact if_pos rfl
    have htake : takeOne taker side limit (l ++ List.replicate (n + 1) m ++ r) q =
        some (l ++ List.replicate n m ++ r, q - 1, ⟨m.id, taker, m.price, 1, side⟩) := by
      rw [List.replicate_succ, List.append_assoc, List.cons_append, takeOne, if_neg hpos.ne', hbest]
      simp only [hfill, hgone, List.append_nil, List.append_assoc]
    have hrest := ih (q := q - 1) (Nat.le_of_succ_le_succ hk) (by omega)
    rw [Nat.sub_sub, Nat.add_comm 1 k] at hrest
    rw [List.replicate_succ, Nat.add_sub_add_right]
    exact .cons htake hrest

theorem shares_leftover (m : Resting) {k : Quantity} :
    sharesOf owner (m.leftover k) = List.replicate (m.residual - k) ⟨owner m.id, m.side, m.price, 1⟩ := by
  rw [Resting.leftover]
  split_ifs with hz
  · rw [hz]
    rfl
  · simp [sharesOf, Resting.shares]

/-- Every run of fills is a run of single-share fills. -/
theorem Takes.shares (h : Takes taker side limit orders remaining fs orders' remaining') :
    Takes (owner taker) side limit (sharesOf owner orders) remaining (tradesOf owner fs)
      (sharesOf owner orders') remaining' := by
  induction h with
  | refl => exact .refl _ _
  | @cons orders orders' _ remaining _ _ f fs h _ ih =>
    obtain ⟨l, m, r, rfl, -, hm, hl, hr, rfl, rfl, rfl⟩ := takeOne_spec h
    rw [tradesOf_cons]
    refine Takes.trans ?_ ih
    rw [sharesOf_append, sharesOf_cons, sharesOf_append, sharesOf_append, shares_leftover,
      ← List.append_assoc]
    exact takes_replicate (m := ⟨owner m.id, m.side, m.price, 1⟩) rfl hm (sharesOf_crossed fun o ho hc _ _ => hl o ho hc)
      (sharesOf_crossed fun o ho hc _ _ => hr o ho hc) (Nat.min_le_right ..) (Nat.min_le_left ..)

theorem takeOne_shares_none (h : takeOne taker side limit orders remaining = none) :
    takeOne (owner taker) side limit (sharesOf owner orders) remaining = none := by
  rw [takeOne] at h
  split_ifs at h with hz
  · exact takeOne_eq_none (.inl hz)
  · refine takeOne_eq_none (.inr fun x hx => ?_)
    have hnone : takeBest side limit orders = none := by
      cases hb : takeBest side limit orders with
      | none => rfl
      | some w => simp [hb] at h
    obtain ⟨o, ho, -, rfl⟩ := mem_sharesOf.mp hx
    exact takeBest_eq_none_iff.mp hnone o ho

theorem matchAll_shares (taker : OrderId) (side : Side) (limit : Price) (orders : List Resting)
    (qty : Quantity) :
    matchAll (owner taker) side limit (sharesOf owner orders) qty =
      let (orders', rem, fs) := matchAll taker side limit orders qty
      (sharesOf owner orders', rem, tradesOf owner fs) := by
  obtain ⟨ht, hstuck⟩ := takes_matchAll taker side limit orders qty
  exact matchAll_of_takes ht.shares (takeOne_shares_none hstuck)

/-- A larger order takes the same single shares first. -/
theorem Takes.more (h : Takes taker side limit us remaining fs us' remaining')
    (hunit : ∀ x ∈ us, x.residual = 1) (more : Quantity) :
    Takes taker side limit us (remaining + more) fs us' (remaining' + more) ∧
      ∀ x ∈ us', x.residual = 1 := by
  induction h with
  | refl => exact ⟨.refl _ _, hunit⟩
  | @cons us us' _ remaining _ _ f fs h _ ih =>
    obtain ⟨l, m, r, rfl, hpos, hm, hl, hr, rfl, rfl, rfl⟩ := takeOne_spec h
    have hone : m.residual = 1 := hunit m (by simp)
    have hfill : ∀ q, 0 < q → min q m.residual = 1 := by
      intro q hq
      rw [hone]
      exact Nat.min_eq_right hq
    have hgone : m.leftover 1 = [] := by
      rw [Resting.leftover, hone]
      exact if_pos rfl
    rw [hfill remaining hpos] at ih ⊢
    rw [hgone] at ih
    obtain ⟨hrest, hunit'⟩ := ih fun x hx => hunit x (by
      simp only [List.append_nil, List.mem_append, List.mem_cons] at hx ⊢
      exact hx.imp_right .inr)
    refine ⟨.cons ?_ hrest, hunit'⟩
    have hmore : 0 < remaining + more := Nat.add_pos_left hpos more
    rw [takeOne, if_neg hmore.ne', takeBest_eq_some hm hl hr]
    simp only [hfill _ hmore, hgone, Nat.sub_add_comm hpos]

end Shares

/-- Single shares in time priority, and the band of prices at which a share may rest. -/
@[ext] structure ShareMarket where
  minPrice : Price
  maxPrice : Price
  shares : List Resting
  unit : ∀ x ∈ shares, x.residual = 1

namespace ShareMarket
variable {M : ShareMarket} {id : OrderId} {side : Side} {price : Price} {q q' : Quantity}

/-- Where a residual goes: to the end of the queue, or out of the market. -/
def rest (M : ShareMarket) (id : OrderId) (side : Side) (price : Price) (q : Quantity) : List Resting :=
  if M.minPrice ≤ price ∧ price ≤ M.maxPrice then List.replicate q ⟨id, side, price, 1⟩ else []

theorem rest_zero : M.rest id side price 0 = [] := by
  rw [rest]
  split_ifs <;> rfl

theorem rest_add : M.rest id side price (q + q') = M.rest id side price q ++ M.rest id side price q' := by
  rw [rest, rest, rest]
  split_ifs
  · exact List.replicate_add ..
  · rfl

theorem mem_rest {x : Resting} (h : x ∈ M.rest id side price q) : x = ⟨id, side, price, 1⟩ := by
  rw [rest] at h
  split_ifs at h
  · exact (List.mem_replicate.mp h).2
  · cases h

theorem unit_matchAll (M : ShareMarket) (id : OrderId) (side : Side) (price : Price) (q : Quantity) :
    ∀ x ∈ (matchAll id side price M.shares q).1, x.residual = 1 :=
  ((takes_matchAll id side price M.shares q).1.more M.unit 0).2

/-- An order of q shares meets the market. -/
def add (M : ShareMarket) (id : OrderId) (side : Side) (price : Price) (q : Quantity) :
    ShareMarket × List Fill :=
  ({ M with
      shares := (matchAll id side price M.shares q).1 ++
        M.rest id side price (matchAll id side price M.shares q).2.1
      unit := by
        intro x hx
        rcases List.mem_append.mp hx with hx | hx
        · exact M.unit_matchAll id side price q x hx
        · rw [mem_rest hx] },
    (matchAll id side price M.shares q).2.2)

/-- An owner takes out all the shares that are left. -/
def cancel (M : ShareMarket) (id : OrderId) : ShareMarket :=
  { M with
    shares := M.shares.filter fun x => x.id ≠ id
    unit := fun x hx => M.unit x (List.mem_filter.mp hx).1 }

theorem add_eq {us : List Resting} {rem : Quantity} {fs : List Fill}
    (ht : Takes id side price M.shares q fs us rem) (hstuck : takeOne id side price us rem = none) :
    (M.add id side price q).1.shares = us ++ M.rest id side price rem ∧
      (M.add id side price q).2 = fs := by
  have hall := matchAll_of_takes ht hstuck
  rw [add]
  simp only [hall, and_self]

theorem add_zero (M : ShareMarket) (id : OrderId) (side : Side) (price : Price) :
    M.add id side price 0 = (M, []) := by
  have hstuck : takeOne id side price M.shares 0 = none := takeOne_eq_none (.inl rfl)
  obtain ⟨hshares, hfills⟩ := add_eq (.refl M.shares 0) hstuck
  rw [rest_zero, List.append_nil] at hshares
  exact Prod.ext (ShareMarket.ext rfl rfl hshares) hfills

/-- Two orders of one owner at one price, with nothing between them, are one order. -/
theorem add_add (M : ShareMarket) (id : OrderId) (side : Side) (price : Price) (q q' : Quantity) :
    M.add id side price (q + q') =
      (((M.add id side price q).1.add id side price q').1,
        (M.add id side price q).2 ++ ((M.add id side price q).1.add id side price q').2) := by
  obtain ⟨ht, hstuck⟩ := takes_matchAll id side price M.shares q
  obtain ⟨⟨us, rem, fs⟩, hall⟩ : ∃ w, matchAll id side price M.shares q = w := ⟨_, rfl⟩
  rw [hall] at ht hstuck
  obtain ⟨hshares, hfills⟩ := add_eq ht hstuck
  have htmore := (ht.more M.unit q').1
  obtain ⟨M', hM'⟩ : ∃ M', (M.add id side price q).1 = M' := ⟨_, rfl⟩
  have hrest : ∀ k, M'.rest id side price k = M.rest id side price k := by
    intro k
    rw [← hM']
    rfl
  rw [hM'] at hshares ⊢
  rw [hfills]
  rcases Nat.eq_zero_or_pos rem with rfl | hpos
  · -- the first order is filled: the second goes on where it stopped
    rw [rest_zero, List.append_nil] at hshares
    obtain ⟨ht', hstuck'⟩ := takes_matchAll id side price M'.shares q'
    obtain ⟨hshares', hfills'⟩ := add_eq ht' hstuck'
    rw [Nat.zero_add, ← hshares] at htmore
    have hboth := htmore.trans ht'
    obtain ⟨hall, hallfills⟩ := add_eq hboth hstuck'
    refine Prod.ext (ShareMarket.ext ?_ ?_ ?_) ?_
    · rw [← hM']
      rfl
    · rw [← hM']
      rfl
    · rw [hall, hshares', hrest]
    · rw [hallfills, hfills']
  · -- nothing is left to cross, and the first order does not cross the second
    have hnone : ∀ x ∈ us, x.crossedBy side price = false := by
      rw [takeOne, if_neg hpos.ne'] at hstuck
      cases hb : takeBest side price us with
      | none => exact takeBest_eq_none_iff.mp hb
      | some w => simp [hb] at hstuck
    have hnone' : ∀ x ∈ M'.shares, x.crossedBy side price = false := by
      intro x hx
      rw [hshares] at hx
      rcases List.mem_append.mp hx with hx | hx
      · exact hnone x hx
      · rw [mem_rest hx, Resting.crossedBy]
        cases side <;> rfl
    have hstuck' : takeOne id side price M'.shares q' = none := takeOne_eq_none (.inr hnone')
    obtain ⟨hshares', hfills'⟩ := add_eq (.refl M'.shares q') hstuck'
    obtain ⟨hall, hallfills⟩ := add_eq htmore (takeOne_eq_none (.inr hnone))
    refine Prod.ext (ShareMarket.ext ?_ ?_ ?_) ?_
    · rw [← hM']
      rfl
    · rw [← hM']
      rfl
    · rw [hall, hshares', hshares, hrest, rest_add, List.append_assoc]
    · rw [hallfills, hfills', List.append_nil]

end ShareMarket

namespace RefBook
variable {R : RefBook} {owner : OrderId → OrderId} {id : OrderId} {side : Side} {price : Price}
  {qty : Quantity}

def market (R : RefBook) (owner : OrderId → OrderId) : ShareMarket where
  minPrice := R.minPrice
  maxPrice := R.maxPrice
  shares := sharesOf owner R.orders
  unit := by
    intro x hx
    obtain ⟨o, -, -, rfl⟩ := mem_sharesOf.mp hx
    rfl

/-- With room for its residual, AddLimit is what the market makes of the order. -/
theorem market_addLimit (owner : OrderId → OrderId) (hroom : R.orders.length < R.orderCapacity) (id : OrderId) (side : Side)
    (price : Price) (qty : Quantity) :
    (((R.addLimit id side price qty).1.market owner), tradesOf owner (R.addLimit id side price qty).2.1) =
      (R.market owner).add (owner id) side price qty := by
  obtain ⟨orders, rem, fs, ht, hstuck, h⟩ := R.addLimit_spec id side price qty
  have hlen : orders.length < R.orderCapacity :=
    (by simpa using ht.ids_sublist.length_le : orders.length ≤ R.orders.length).trans_lt hroom
  obtain ⟨hshares, hfills⟩ := ShareMarket.add_eq (M := R.market owner) ht.shares (takeOne_shares_none hstuck)
  have hshape := R.addLimit_shape id side price qty
  refine Prod.ext (ShareMarket.ext hshape.minPrice hshape.maxPrice ?_) ?_
  · rw [hshares, ShareMarket.rest]
    change sharesOf owner (R.addLimit id side price qty).1.orders = sharesOf owner orders ++
      if R.minPrice ≤ price ∧ price ≤ R.maxPrice then _ else _
    rcases h with ⟨rfl, h⟩ | ⟨hpos, hband, -, h⟩ | ⟨hpos, hno, h⟩ <;> rw [h]
    · split_ifs <;> exact (List.append_nil _).symm
    · rw [if_pos hband, sharesOf_append]
      exact congrArg _ (List.append_nil _)
    · rw [if_neg fun hband => hno ⟨hband, hlen⟩]
      exact (List.append_nil _).symm
  · rw [hfills]
    rcases h with ⟨-, h⟩ | ⟨-, -, -, h⟩ | ⟨-, -, h⟩ <;> rw [h]

theorem sharesOf_filter (p : OrderId → Bool) (q : OrderId → Bool) {orders : List Resting}
    (h : ∀ o ∈ orders, p (owner o.id) = q o.id) :
    sharesOf owner (orders.filter fun o => q o.id) =
      (sharesOf owner orders).filter fun x => p x.id := by
  induction orders with
  | nil => rfl
  | cons o orders ih =>
    have hrest := ih fun o' ho => h o' (List.mem_cons_of_mem o ho)
    have hone : ∀ x ∈ o.shares owner, p x.id = q o.id := by
      intro x hx
      rw [(mem_shares.mp hx).2]
      exact h o List.mem_cons_self
    rw [sharesOf_cons, List.filter_append, ← hrest, List.filter_cons]
    split_ifs with hq
    · have hall : (o.shares owner).filter (fun x => p x.id) = o.shares owner :=
        List.filter_eq_self.mpr fun x hx => (hone x hx).trans hq
      rw [sharesOf_cons, hall]
    · have hnone : (o.shares owner).filter (fun x => p x.id) = [] :=
        List.filter_eq_nil_iff.mpr fun x hx => by rwa [hone x hx]
      rw [hnone, List.nil_append]

/-- The quantity at a level is its number of shares. -/
theorem sum_residual_level (owner : OrderId → OrderId) (orders : List Resting) (s : Side) (px : Price) :
    ((orders.filter fun o => o.side = s ∧ o.price = px).map Resting.residual).sum =
      (sharesOf owner orders).countP fun x => x.side = s ∧ x.price = px := by
  induction orders with
  | nil => rfl
  | cons o orders ih =>
    rw [sharesOf_cons, List.countP_append, ← ih, Resting.shares, List.countP_replicate, List.filter_cons]
    split_ifs with hlevel
    · rfl
    · exact (Nat.zero_add _).symm

theorem Sound.mem_market (h : R.Sound) (owner : OrderId → OrderId) {P : Side → Price → Prop} :
    (∃ o ∈ R.orders, P o.side o.price) ↔ ∃ x ∈ (R.market owner).shares, P x.side x.price := by
  constructor
  · rintro ⟨o, ho, hp⟩
    exact ⟨_, mem_sharesOf.mpr ⟨o, ho, (h.residual o ho).ne', rfl⟩, hp⟩
  · rintro ⟨x, hx, hp⟩
    obtain ⟨o, ho, -, rfl⟩ := mem_sharesOf.mp hx
    exact ⟨o, ho, hp⟩

end RefBook
end ExecutionPlatform.Core
