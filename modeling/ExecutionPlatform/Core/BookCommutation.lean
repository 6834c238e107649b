import ExecutionPlatform.Core.BookConservation

/-! A book is its level queues, and a call only looks at some of them: calls that keep out of each
other's way may be made in either order. -/
namespace ExecutionPlatform.Core

/-- The queue of one price level in a sequence of resting orders. -/
def queueOf (orders : List Resting) (side : Side) (px : Price) : List Resting :=
  orders.filter fun o => o.side = side ∧ o.price = px

@[simp] theorem mem_queueOf {orders : List Resting} {s : Side} {p : Price} {o : Resting} :
    o ∈ queueOf orders s p ↔ o ∈ orders ∧ o.side = s ∧ o.price = p := by
  rw [queueOf, List.mem_filter, decide_eq_true_eq]

theorem queueOf_append (l r : List Resting) (s : Side) (p : Price) :
    queueOf (l ++ r) s p = queueOf l s p ++ queueOf r s p := List.filter_append ..

theorem queueOf_eq_nil {orders : List Resting} {s : Side} {p : Price}
    (h : ∀ o ∈ orders, ¬ (o.side = s ∧ o.price = p)) : queueOf orders s p = [] :=
  List.filter_eq_nil_iff.mpr fun o ho => by simpa using h o ho

/-- The levels that a taker's limit reaches. -/
def Reach (taker : Side) (limit : Price) (s : Side) (p : Price) : Prop :=
  s = taker.opposite ∧ crosses taker limit p = true

theorem reach_of_crossedBy {o : Resting} {side : Side} {limit : Price}
    (h : o.crossedBy side limit = true) : Reach side limit o.side o.price := by
  simpa [Resting.crossedBy, Reach] using h

/-- Two sequences of orders have the same queue on these levels. -/
def AgreeOn (P : Side → Price → Prop) (orders orders' : List Resting) : Prop :=
  ∀ s p, P s p → queueOf orders s p = queueOf orders' s p

section Fills
variable {P : Side → Price → Prop} {taker : OrderId} {side : Side} {limit : Price}
  {orders orders' orders₁ : List Resting} {remaining remaining₁ : Quantity} {f : Fill} {fs : List Fill}

theorem AgreeOn.symm (h : AgreeOn P orders orders') : AgreeOn P orders' orders :=
  fun s p hp => (h s p hp).symm

theorem AgreeOn.mem_iff (h : AgreeOn P orders orders') {o : Resting} (ho : P o.side o.price) :
    o ∈ orders ↔ o ∈ orders' := by
  have hq := h o.side o.price ho
  constructor
  · intro hin
    exact (mem_queueOf.mp (hq ▸ mem_queueOf.mpr ⟨hin, rfl, rfl⟩)).1
  · intro hin
    exact (mem_queueOf.mp (hq ▸ mem_queueOf.mpr ⟨hin, rfl, rfl⟩)).1

/-- What a fill leaves of an order stays on its level. -/
theorem queueOf_leftover (m : Resting) (fill : Quantity) (s : Side) (p : Price) :
    queueOf (m.leftover fill) s p = if m.side = s ∧ m.price = p then m.leftover fill else [] := by
  rw [Resting.leftover]
  split_ifs with hz hlevel hlevel <;> simp_all [queueOf]

/-- The level of the next maker: nothing stands before it there. -/
theorem takeOne_level
    (h : takeOne taker side limit orders remaining = some (orders₁, remaining₁, f)) :
    ∃ l m r, orders = l ++ m :: r ∧ 0 < remaining ∧ m.crossedBy side limit = true ∧
      queueOf l m.side m.price = [] ∧
      (∀ o ∈ orders, o.side = side.opposite → better side.opposite o.price m.price = false) ∧
      orders₁ = l ++ m.leftover (min remaining m.residual) ++ r ∧
      remaining₁ = remaining - min remaining m.residual ∧
      f = ⟨m.id, taker, m.price, min remaining m.residual, side⟩ := by
  obtain ⟨l, m, r, rfl, hpos, hm, hl, hr, rfl, rfl, rfl⟩ := takeOne_spec h
  obtain ⟨hside, hcross⟩ := reach_of_crossedBy hm
  refine ⟨l, m, r, rfl, hpos, hm, queueOf_eq_nil ?_, ?_, rfl, rfl, rfl⟩
  · rintro o ho ⟨hs, hp⟩
    have hc : o.crossedBy side limit = true := by
      rw [Resting.crossedBy, hs, hp, hside, hcross]
      simp
    have hbad := hl o ho hc
    rw [hp, better_irrefl] at hbad
    cases hbad
  · intro o ho hs
    by_contra hbad
    have hb : better side.opposite o.price m.price = true := by simpa using hbad
    have hc : o.crossedBy side limit = true := by
      rw [Resting.crossedBy, hs, crosses_of_better hcross (better_asymm hb)]
      simp
    rcases List.mem_append.mp ho with ho | ho
    · rw [better_asymm (hl o ho hc)] at hb
      cases hb
    · rcases List.mem_cons.mp ho with rfl | ho
      · rw [better_irrefl] at hb
        cases hb
      · rw [hr o ho hc] at hb
        cases hb

/-- A fill changes the queue of its maker, which the taker reaches, and no other. -/
theorem takeOne_frame
    (h : takeOne taker side limit orders remaining = some (orders₁, remaining₁, f)) {s : Side} {p : Price}
    (hout : ¬ (Reach side limit s p ∧ queueOf orders s p ≠ [])) :
    queueOf orders₁ s p = queueOf orders s p := by
  obtain ⟨l, m, r, rfl, -, hm, -, -, rfl, -, -⟩ := takeOne_level h
  have hother : ¬ (m.side = s ∧ m.price = p) := by
    rintro ⟨rfl, rfl⟩
    exact hout ⟨reach_of_crossedBy hm, List.ne_nil_of_mem (mem_queueOf.mpr ⟨by simp, rfl, rfl⟩)⟩
  rw [queueOf_append, queueOf_append, queueOf_leftover, if_neg hother, List.append_nil, queueOf_append]
  congr 1
  exact (List.filter_cons_of_neg (by simpa using hother)).symm

/-- A fill is decided by the queues that the taker reaches. -/
theorem takeOne_local (hP : ∀ s p, Reach side limit s p → P s p) (hagree : AgreeOn P orders orders')
    (h : takeOne taker side limit orders remaining = some (orders₁, remaining₁, f)) :
    ∃ orders₁', takeOne taker side limit orders' remaining = some (orders₁', remaining₁, f) ∧
      AgreeOn P orders₁ orders₁' := by
  obtain ⟨l, m, r, rfl, hpos, hm, hfirst, hbest, rfl, rfl, rfl⟩ := takeOne_level h
  obtain ⟨hside, hcross⟩ := reach_of_crossedBy hm
  have hreach := hP _ _ (reach_of_crossedBy hm)
  have hqueue : queueOf orders' m.side m.price = m :: queueOf r m.side m.price := by
    rw [← hagree _ _ hreach, queueOf_append, hfirst, List.nil_append, queueOf]
    exact List.filter_cons_of_pos (by simp)
  obtain ⟨l', r', rfl, hl', -, hr'⟩ := List.filter_eq_cons_iff.mp hqueue
  have hbest' : ∀ o ∈ l' ++ r', o.side = side.opposite →
      better side.opposite o.price m.price = false := by
    intro o ho hs
    by_contra hbad
    have hb : better side.opposite o.price m.price = true := by simpa using hbad
    have hlevel : P o.side o.price := hP _ _ ⟨hs, crosses_of_better hcross (better_asymm hb)⟩
    have hin : o ∈ l' ++ m :: r' := by
      rcases List.mem_append.mp ho with ho | ho
      · exact List.mem_append_left _ ho
      · exact List.mem_append_right _ (List.mem_cons_of_mem m ho)
    rw [hbest o ((hagree.mem_iff hlevel).mpr hin) hs] at hb
    cases hb
  refine ⟨_, takeOne_eq_some hpos hm hbest' fun o ho hlevel => hl' o ho ?_, fun s p hp => ?_⟩
  · rw [decide_eq_true_eq, hside]
    exact hlevel
  · simp only [queueOf_append, queueOf_leftover]
    split_ifs with hlevel
    · obtain ⟨rfl, rfl⟩ := hlevel
      have hfirst' : queueOf l' m.side m.price = [] :=
        queueOf_eq_nil fun o ho => by simpa using hl' o ho
      have hrest : queueOf r' m.side m.price = queueOf r m.side m.price := hr'
      rw [hfirst, hfirst', hrest]
    · have hold := hagree s p hp
      rw [queueOf_append, queueOf_append, queueOf, queueOf, queueOf, queueOf,
        List.filter_cons_of_neg (by simpa using hlevel),
        List.filter_cons_of_neg (by simpa using hlevel)] at hold
      rw [List.append_nil, List.append_nil]
      exact hold

theorem takeOne_stuck (hP : ∀ s p, Reach side limit s p → P s p) (hagree : AgreeOn P orders orders')
    (h : takeOne taker side limit orders remaining = none) :
    takeOne taker side limit orders' remaining = none := by
  cases h' : takeOne taker side limit orders' remaining with
  | none => rfl
  | some w =>
    obtain ⟨orders₁, remaining₁, f⟩ := w
    obtain ⟨_, hsome, -⟩ := takeOne_local hP hagree.symm h'
    rw [h] at hsome
    cases hsome

theorem Takes.local_on (hP : ∀ s p, Reach side limit s p → P s p)
    (h : Takes taker side limit orders remaining fs orders₁ remaining₁) (hagree : AgreeOn P orders orders') :
    ∃ orders₁', Takes taker side limit orders' remaining fs orders₁' remaining₁ ∧
      AgreeOn P orders₁ orders₁' := by
  induction h generalizing orders' with
  | refl => exact ⟨orders', .refl _ _, hagree⟩
  | cons h _ ih =>
    obtain ⟨_, h', hagree'⟩ := takeOne_local hP hagree h
    obtain ⟨orders₁', hrest, hagree₁⟩ := ih hagree'
    exact ⟨orders₁', .cons h' hrest, hagree₁⟩

theorem Takes.frame (h : Takes taker side limit orders remaining fs orders₁ remaining₁) {s : Side}
    {p : Price} (hout : ¬ (Reach side limit s p ∧ queueOf orders s p ≠ [])) :
    queueOf orders₁ s p = queueOf orders s p := by
  induction h with
  | refl => rfl
  | cons h _ ih =>
    have hone := takeOne_frame h hout
    rw [← hone] at hout ⊢
    exact ih hout

end Fills

namespace RefBook

/-- The levels that a call looks at without being on them. -/
def Reads : BookOp → Side → Price → Prop
  | .addLimit _ side price _ => Reach side price
  | .cancel _ => fun _ _ => False

/-- The levels that a call may change: its own, and those it takes from. -/
def Writes (R : RefBook) : BookOp → Side → Price → Prop
  | .addLimit _ side price _ => fun s p =>
    (s = side ∧ p = price) ∨ (Reach side price s p ∧ R.queue s p ≠ [])
  | .cancel id => fun s p => ∃ o ∈ R.orders, o.id = id ∧ o.side = s ∧ o.price = p

variable {R S : RefBook} {P : Side → Price → Prop} {op a b : BookOp} {s : Side} {p : Price}

theorem queue_cancel (R : RefBook) (id : OrderId) (s : Side) (p : Price) :
    (R.cancel id).1.queue s p = (R.queue s p).filter fun o => o.id ≠ id := by
  rw [queue, cancel_orders, queue, List.filter_filter, List.filter_filter]
  exact List.filter_congr fun o _ => Bool.and_comm ..

theorem step_frame (R : RefBook) (hout : ¬ R.Writes op s p) :
    (R.step op).1.queue s p = R.queue s p := by
  cases op with
  | addLimit id side price qty =>
    obtain ⟨hown, htaken⟩ := not_or.mp hout
    obtain ⟨orders, rem, fs, ht, -, h⟩ := R.addLimit_spec id side price qty
    have hframe := ht.frame htaken
    have hnone : queueOf [(⟨id, side, price, rem⟩ : Resting)] s p = [] :=
      queueOf_eq_nil fun o ho hlevel => by
        obtain rfl := List.mem_singleton.mp ho
        exact hown ⟨hlevel.1.symm, hlevel.2.symm⟩
    rw [step]
    rcases h with ⟨-, h⟩ | ⟨-, -, -, h⟩ | ⟨-, -, h⟩ <;> rw [h]
    · exact hframe
    · exact (queueOf_append ..).trans (by rw [hnone, List.append_nil]; exact hframe)
    · exact hframe
  | cancel id =>
    change (R.cancel id).1.queue s p = _
    rw [queue_cancel]
    refine List.filter_eq_self.mpr fun o ho => ?_
    obtain ⟨hin, hside, hprice⟩ := mem_queueOf.mp ho
    rw [decide_eq_true_eq]
    exact fun hid => hout ⟨o, hin, hid, hside, hprice⟩

/-- Whether a residual finds room does not depend on which of the two books it comes to. -/
def SameRoom (P : Side → Price → Prop) (R S : RefBook) : Prop :=
  ∀ l l' : List Resting, l.length ≤ R.orders.length → l'.length ≤ S.orders.length → AgreeOn P l l' →
    (l.length < R.orderCapacity ↔ l'.length < R.orderCapacity)

theorem addLimit_local (id : OrderId) {side : Side} {price : Price} (qty : Quantity)
    (hP : ∀ s p, Reach side price s p → P s p) (hshape : R.SameShape S)
    (hagree : AgreeOn P R.orders S.orders) (hroom : SameRoom P R S) :
    (S.addLimit id side price qty).2 = (R.addLimit id side price qty).2 ∧
      AgreeOn P (R.addLimit id side price qty).1.orders (S.addLimit id side price qty).1.orders := by
  obtain ⟨orders, rem, fs, ht, hstuck, h⟩ := R.addLimit_spec id side price qty
  obtain ⟨orders', ht', hagree'⟩ := ht.local_on hP hagree
  have hstuck' := takeOne_stuck hP hagree' hstuck
  have hlen : orders.length ≤ R.orders.length := by simpa using ht.ids_sublist.length_le
  have hlen' : orders'.length ≤ S.orders.length := by simpa using ht'.ids_sublist.length_le
  have hsame := hroom orders orders' hlen hlen' hagree'
  have hS : S.addLimit id side price qty = if rem = 0 then ({ S with orders := orders' }, fs, true)
      else if (R.minPrice ≤ price ∧ price ≤ R.maxPrice) ∧ orders.length < R.orderCapacity then
        ({ S with orders := orders' ++ [⟨id, side, price, rem⟩] }, fs, true)
      else ({ S with orders := orders' }, fs, false) := by
    simp only [addLimit, matchAll_of_takes ht' hstuck', hshape.minPrice, hshape.maxPrice,
      hshape.orderCapacity, hsame]
  rcases h with ⟨hz, h⟩ | ⟨hpos, hband, hfree, h⟩ | ⟨hpos, hfull, h⟩
  · rw [hS, if_pos hz, h]
    exact ⟨rfl, hagree'⟩
  · rw [hS, if_neg hpos.ne', if_pos ⟨hband, hfree⟩, h]
    refine ⟨rfl, fun s p hp => ?_⟩
    rw [queueOf_append, queueOf_append, hagree' s p hp]
  · rw [hS, if_neg hpos.ne', if_neg hfull, h]
    exact ⟨rfl, hagree'⟩

/-- What a cancel reports, where ids are distinct. -/
theorem cancel_report (hn : R.ids.Nodup) {o : Resting} (ho : o ∈ R.orders) :
    (R.cancel o.id).2 = some ⟨o.id, o.side, o.price, o.residual⟩ := by
  obtain ⟨m, hm⟩ : ∃ m, R.orders.find? (fun x => x.id = o.id) = some m := by
    rw [← Option.isSome_iff_exists, List.find?_isSome]
    exact ⟨o, ho, by simp⟩
  have hid : m.id = o.id := by simpa using List.find?_some hm
  obtain rfl := List.inj_on_of_nodup_map hn (List.mem_of_find?_eq_some hm) ho hid
  rw [cancel, hm]

theorem cancel_absent {id : OrderId} (h : id ∉ R.ids) : (R.cancel id).2 = none := by
  have hfind : R.orders.find? (fun x => x.id = id) = none :=
    List.find?_eq_none.mpr fun o ho hid => h (List.mem_map.mpr ⟨o, ho, by simpa using hid⟩)
  rw [cancel, hfind]

theorem mem_ids {id : OrderId} : id ∈ R.ids ↔ ∃ o ∈ R.orders, o.id = id := List.mem_map

end RefBook

/-- The id that a call is about. -/
def BookOp.orderId : BookOp → OrderId
  | .addLimit id _ _ _ => id
  | .cancel id => id

namespace RefBook
variable {R S : RefBook} {P : Side → Price → Prop} {op a b : BookOp} {s : Side} {p : Price}

/-- A call answers alike in two books that agree on what it reads and writes, and they agree there
afterwards. -/
theorem step_local (hP : ∀ s p, Reads op s p ∨ R.Writes op s p → P s p) (hshape : R.SameShape S)
    (hR : R.ids.Nodup) (hS : S.ids.Nodup) (hagree : AgreeOn P R.orders S.orders)
    (hroom : SameRoom P R S) (hid : op.orderId ∈ S.ids → op.orderId ∈ R.ids) :
    (S.step op).2 = (R.step op).2 ∧ AgreeOn P (R.step op).1.orders (S.step op).1.orders ∧
      ∀ s p, ¬ R.Writes op s p → (S.step op).1.queue s p = S.queue s p := by
  cases op with
  | addLimit id side price qty =>
    have hreach : ∀ s p, Reach side price s p → P s p := fun s p h => hP s p (.inl h)
    obtain ⟨hout, hafter⟩ := addLimit_local id qty hreach hshape hagree hroom
    refine ⟨?_, hafter, fun s p hw => step_frame S fun hw' => hw ?_⟩
    · change BookOut.added (S.addLimit id side price qty).2.1 (S.addLimit id side price qty).2.2 = _
      rw [hout]
      rfl
    · refine hw'.imp_right fun ⟨hr, hne⟩ => ⟨hr, ?_⟩
      have heq : R.queue s p = S.queue s p := hagree s p (hreach s p hr)
      rwa [heq]
  | cancel id =>
    have hqueues : AgreeOn P (R.cancel id).1.orders (S.cancel id).1.orders := by
      intro s p hp
      have hR := queue_cancel R id s p
      have hS := queue_cancel S id s p
      have heq : R.queue s p = S.queue s p := hagree s p hp
      rw [heq] at hR
      exact hR.trans hS.symm
    by_cases hin : id ∈ R.ids
    · obtain ⟨o, ho, rfl⟩ := mem_ids.mp hin
      have hlevel : P o.side o.price := hP _ _ (.inr ⟨o, ho, rfl, rfl, rfl⟩)
      have ho' := (hagree.mem_iff hlevel).mp ho
      refine ⟨?_, hqueues, fun s p hw => step_frame S ?_⟩
      · change BookOut.cancelled (S.cancel o.id).2 = .cancelled (R.cancel o.id).2
        rw [cancel_report hS ho', cancel_report hR ho]
      · rintro ⟨o', hin', hid', rfl, rfl⟩
        obtain rfl := List.inj_on_of_nodup_map hS hin' ho' hid'
        exact hw ⟨o', ho, rfl, rfl, rfl⟩
    · have hin' : id ∉ S.ids := fun h => hin (hid h)
      refine ⟨?_, hqueues, fun s p _ => step_frame S ?_⟩
      · change BookOut.cancelled (S.cancel id).2 = .cancelled (R.cancel id).2
        rw [cancel_absent hin, cancel_absent hin']
      · rintro ⟨o, ho, hid', -⟩
        exact hin' (mem_ids.mpr ⟨o, ho, hid'⟩)

theorem step_shape (R : RefBook) (op : BookOp) : R.SameShape (R.step op).1 := by
  cases op with
  | addLimit id side price qty => exact R.addLimit_shape id side price qty
  | cancel id => exact R.cancel_shape id

theorem step_ids_nodup (hn : R.ids.Nodup) (hop : R.Admissible op) : (R.step op).1.ids.Nodup := by
  cases op with
  | addLimit id side price qty => exact addLimit_ids_nodup side price qty hn hop.2
  | cancel id =>
    change ((R.cancel id).1.orders.map Resting.id).Nodup
    rw [cancel_orders]
    exact (List.filter_sublist.map Resting.id).nodup hn

theorem step_ids_sublist (R : RefBook) (op : BookOp) :
    (R.step op).1.ids.Sublist (R.ids ++ [op.orderId]) := by
  cases op with
  | addLimit id side price qty => exact R.addLimit_ids_sublist id side price qty
  | cancel id =>
    change ((R.cancel id).1.orders.map Resting.id).Sublist _
    rw [cancel_orders]
    exact (List.filter_sublist.map Resting.id).trans (List.sublist_append_left ..)

/-- Two books with the same queues on every level. -/
structure Alike (R S : RefBook) : Prop where
  shape : R.SameShape S
  queues : AgreeOn (fun _ _ => True) R.orders S.orders

theorem perm_of_agreeOn {l l' : List Resting} (h : AgreeOn (fun _ _ => True) l l') : l.Perm l' := by
  rw [List.perm_iff_count]
  intro o
  have hcount : ∀ os : List Resting, os.count o = (queueOf os o.side o.price).count o := fun os =>
    (List.count_filter (by simp)).symm
  rw [hcount l, hcount l', h o.side o.price trivial]

theorem Alike.ids (h : R.Alike S) : R.ids.Perm S.ids := (perm_of_agreeOn h.queues).map Resting.id

theorem Alike.admissible (h : R.Alike S) (hop : R.Admissible op) : S.Admissible op := by
  cases op with
  | addLimit id side price qty => exact ⟨hop.1, fun hin => hop.2 (h.ids.mem_iff.mpr hin)⟩
  | cancel id => trivial

theorem Alike.step (h : R.Alike S) (hn : R.ids.Nodup) (op : BookOp) :
    (S.step op).2 = (R.step op).2 ∧ (R.step op).1.Alike (S.step op).1 := by
  have hroom : SameRoom (fun _ _ => True) R S := fun l l' _ _ hll' => by
    rw [(perm_of_agreeOn hll').length_eq]
  obtain ⟨hout, hqueues, -⟩ := step_local (fun _ _ _ => trivial) h.shape hn
    (h.ids.nodup_iff.mp hn) h.queues hroom h.ids.mem_iff.mpr
  have hR := R.step_shape op
  have hS := S.step_shape op
  refine ⟨hout, ⟨?_, ?_, ?_⟩, hqueues⟩
  · rw [hS.orderCapacity, h.shape.orderCapacity, hR.orderCapacity]
  · rw [hS.minPrice, h.shape.minPrice, hR.minPrice]
  · rw [hS.maxPrice, h.shape.maxPrice, hR.maxPrice]

/-- Books that are alike stay alike under every sequence of calls, and answer alike. -/
theorem Alike.run {ops : List BookOp} (h : R.Alike S) (hn : R.ids.Nodup) (hops : R.AdmissibleRun ops) :
    S.AdmissibleRun ops ∧ (S.run ops).2 = (R.run ops).2 ∧ (R.run ops).1.Alike (S.run ops).1 := by
  induction ops generalizing R S with
  | nil => exact ⟨trivial, rfl, h⟩
  | cons op ops ih =>
    obtain ⟨hout, hstep⟩ := h.step hn op
    obtain ⟨hadm, hrun, hafter⟩ := ih hstep (step_ids_nodup hn hops.1) hops.2
    refine ⟨⟨h.admissible hops.1, hadm⟩, ?_, hafter⟩
    change (S.step op).2 :: ((S.step op).1.run ops).2 = (R.step op).2 :: ((R.step op).1.run ops).2
    rw [hout, hrun]

/-- Two calls about different orders, neither of which changes a level that the other looks at, and
room for both. -/
structure Independent (R : RefBook) (a b : BookOp) : Prop where
  ids : a.orderId ≠ b.orderId
  apart : ∀ s p, R.Writes a s p → ¬ R.Writes b s p
  unread : ∀ s p, R.Writes a s p → ¬ Reads b s p
  unread' : ∀ s p, R.Writes b s p → ¬ Reads a s p
  room : R.orders.length + 2 ≤ R.orderCapacity

theorem Independent.symm (h : R.Independent a b) : R.Independent b a :=
  ⟨h.ids.symm, fun s p hb ha => h.apart s p ha hb, h.unread', h.unread, h.room⟩

/-- The second of two independent calls does what it would have done first. -/
theorem Independent.second (h : R.Independent a b) (hn : R.ids.Nodup) (ha : R.Admissible a) :
    ((R.step a).1.step b).2 = (R.step b).2 ∧
      (∀ s p, Reads b s p ∨ R.Writes b s p →
        ((R.step a).1.step b).1.queue s p = (R.step b).1.queue s p) ∧
      ∀ s p, ¬ R.Writes b s p → ((R.step a).1.step b).1.queue s p = (R.step a).1.queue s p := by
  have hsub := R.step_ids_sublist a
  have hlen : (R.step a).1.orders.length ≤ R.orders.length + 1 := by
    simpa [RefBook.ids] using hsub.length_le
  have hagree : AgreeOn (fun s p => Reads b s p ∨ R.Writes b s p) R.orders (R.step a).1.orders := by
    intro s p hp
    refine (step_frame R fun hw => ?_).symm
    exact hp.elim (h.unread s p hw) (h.apart s p hw)
  have hroom : SameRoom (fun s p => Reads b s p ∨ R.Writes b s p) R (R.step a).1 := by
    intro l l' hl hl' _
    have := h.room
    exact iff_of_true (by omega) (by omega)
  have hid : b.orderId ∈ (R.step a).1.ids → b.orderId ∈ R.ids := by
    intro hin
    rcases List.mem_append.mp (hsub.mem hin) with hin | hin
    · exact hin
    · exact absurd (List.mem_singleton.mp hin).symm h.ids
  obtain ⟨hout, hqueues, hframe⟩ := step_local (fun _ _ hp => hp) (R.step_shape a) hn
    (step_ids_nodup hn ha) hagree hroom hid
  exact ⟨hout, fun s p hp => (hqueues s p hp).symm, hframe⟩

/-- Independent calls answer alike in either order, and leave books that are alike. -/
theorem Independent.commute (h : R.Independent a b) (hn : R.ids.Nodup) (ha : R.Admissible a)
    (hb : R.Admissible b) :
    ((R.step a).1.step b).2 = (R.step b).2 ∧ ((R.step b).1.step a).2 = (R.step a).2 ∧
      ((R.step a).1.step b).1.Alike ((R.step b).1.step a).1 := by
  obtain ⟨houtb, hqueueb, hframeb⟩ := h.second hn ha
  obtain ⟨houta, hqueuea, hframea⟩ := h.symm.second hn hb
  have hab := (R.step_shape a).trans ((R.step a).1.step_shape b)
  have hba := (R.step_shape b).trans ((R.step b).1.step_shape a)
  refine ⟨houtb, houta, ⟨?_, ?_, ?_⟩, fun s p _ => ?_⟩
  · exact hba.orderCapacity.trans hab.orderCapacity.symm
  · exact hba.minPrice.trans hab.minPrice.symm
  · exact hba.maxPrice.trans hab.maxPrice.symm
  · change ((R.step a).1.step b).1.queue s p = ((R.step b).1.step a).1.queue s p
    by_cases hwa : R.Writes a s p
    · rw [hframeb s p (h.apart s p hwa), hqueuea s p (.inr hwa)]
    · by_cases hwb : R.Writes b s p
      · rw [hqueueb s p (.inr hwb), hframea s p hwa]
      · rw [hframeb s p hwb, step_frame R hwa, hframea s p hwa, step_frame R hwb]

/-- A sequence of calls, up to swaps of independent neighbours. -/
inductive Reordering : RefBook → List BookOp → List BookOp → Prop
  | refl (R : RefBook) (ops : List BookOp) : Reordering R ops ops
  | cons {R : RefBook} {op : BookOp} {ops ops' : List BookOp} (h : Reordering (R.step op).1 ops ops') :
      Reordering R (op :: ops) (op :: ops')
  | swap {R : RefBook} {a b : BookOp} (ops : List BookOp) (h : R.Independent a b) (hb : R.Admissible b) :
      Reordering R (a :: b :: ops) (b :: a :: ops)
  | trans {R : RefBook} {ops ops' ops'' : List BookOp} (h : Reordering R ops ops')
      (h' : Reordering R ops' ops'') : Reordering R ops ops''

theorem Alike.refl (R : RefBook) : R.Alike R := ⟨⟨rfl, rfl, rfl⟩, fun _ _ _ => rfl⟩

theorem Alike.trans {T : RefBook} (h : R.Alike S) (h' : S.Alike T) : R.Alike T :=
  ⟨h.shape.trans h'.shape, fun s p hp => (h.queues s p hp).trans (h'.queues s p hp)⟩

/-- The first call is still one a client may make after the second. -/
theorem Independent.admissible (h : R.Independent a b) (ha : R.Admissible a) :
    (R.step b).1.Admissible a := by
  cases a with
  | cancel id => trivial
  | addLimit id side price qty =>
    refine ⟨ha.1, fun hin => ?_⟩
    rcases List.mem_append.mp ((R.step_ids_sublist b).mem hin) with hin | hin
    · exact ha.2 hin
    · exact h.ids (List.mem_singleton.mp hin)

/-- Every call of a reordered sequence gets the answer it got before. -/
theorem Reordering.run {ops ops' : List BookOp} (h : Reordering R ops ops') (hn : R.ids.Nodup)
    (hops : R.AdmissibleRun ops) :
    R.AdmissibleRun ops' ∧ (ops.zip (R.run ops).2).Perm (ops'.zip (R.run ops').2) ∧
      (R.run ops).1.Alike (R.run ops').1 := by
  induction h with
  | refl R ops => exact ⟨hops, .refl _, .refl _⟩
  | cons h ih =>
    obtain ⟨hadm, hperm, halike⟩ := ih (step_ids_nodup hn hops.1) hops.2
    exact ⟨⟨hops.1, hadm⟩, hperm.cons _, halike⟩
  | @swap R a b ops h hb =>
    obtain ⟨ha, hb', hrest⟩ := hops
    obtain ⟨houtb, houta, halike⟩ := h.commute hn ha hb
    obtain ⟨hadm, hrun, hafter⟩ := halike.run (step_ids_nodup (step_ids_nodup hn ha) hb') hrest
    refine ⟨⟨hb, h.admissible ha, hadm⟩, ?_, hafter⟩
    change ((a, (R.step a).2) :: (b, ((R.step a).1.step b).2) ::
        ops.zip (((R.step a).1.step b).1.run ops).2).Perm
      ((b, (R.step b).2) :: (a, ((R.step b).1.step a).2) ::
        ops.zip (((R.step b).1.step a).1.run ops).2)
    rw [houta, houtb, hrun]
    exact .swap _ _ _
  | trans _ _ ih ih' =>
    obtain ⟨hadm, hperm, halike⟩ := ih hn hops
    obtain ⟨hadm', hperm', halike'⟩ := ih' hn hadm
    exact ⟨hadm', hperm.trans hperm', halike.trans halike'⟩

end RefBook

/-- A book that shows one of two alike books shows the other. -/
theorem OrderBook.Shows.congr {book : OrderBook} {R S : RefBook} (h : book.Shows S) (ha : R.Alike S) :
    book.Shows R := by
  have hperm := RefBook.perm_of_agreeOn ha.queues
  have hqueue : ∀ s px, R.queue s px = S.queue s px := fun s px => ha.queues s px trivial
  refine ⟨fun s => ?_, fun s hs => ?_, h.noBest, fun s px => ?_, fun s px => ?_, ?_, fun s px => ?_⟩
  · rw [h.has]
    simp only [hperm.mem_iff]
  · obtain ⟨hex, hbest⟩ := h.best s hs
    refine ⟨?_, fun o ho => hbest o (hperm.mem_iff.mp ho)⟩
    simpa only [hperm.mem_iff] using hex
  · rw [h.levelQty, hqueue]
  · rw [h.levelOrderCount, hqueue]
  · rw [h.openOrderCount, hperm.length_eq]
  · rw [h.levelOrders, hqueue]

end ExecutionPlatform.Core
