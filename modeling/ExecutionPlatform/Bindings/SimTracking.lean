import ExecutionPlatform.Bindings.SimEnv
import ExecutionPlatform.Core.BookLedger
import Mathlib.Algebra.Order.BigOperators.Group.List

/-! What the environment knows about the orders it left resting. On the reference book
every function of a step has a result, and these are the facts that it keeps. -/
namespace ExecutionPlatform.Bindings
open ExecutionPlatform.Core External Exec Foundations
namespace SimEnv
variable {Ring Clock F : Type} {env : SimEnv RefBook Ring Clock F}

abbrev orders (env : SimEnv RefBook Ring Clock F) : List Resting := env.publisher.book.orders

/-- The book that the environment was built with. -/
def startBook : RefBook := .new kBookCapacity OrderBook.defaultMinPrice OrderBook.defaultMaxPrice

/-- Every resting order is tracked: its id was given out once and is on the list that a
reset cancels; a synthetic order still waits in the churn queue, which holds at most twelve
orders of each earlier step and k of the present one; the others are sells. -/
structure Tracked (k : Nat) (env : SimEnv RefBook Ring Clock F) : Prop where
  shape : startBook.SameShape env.publisher.book
  nodup : env.publisher.book.ids.Nodup
  fresh : ∀ o ∈ env.orders, o.id < env.nextId
  covered : ∀ o ∈ env.orders, o.id ∈ env.restingIds
  kept : ∀ o ∈ env.orders, o.id ∈ env.bgIds.drop env.bgHead ∧ o.residual ≤ 49 ∨
    o.side = .sell ∧ o.id ∉ env.bgIds
  issued : ∀ id ∈ env.bgIds, id < env.nextId
  queued : env.bgIds.length = env.bgBirth.length
  head : env.bgHead ≤ env.bgIds.length
  sorted : env.bgBirth.Pairwise (· ≤ ·)
  born : ∀ birth ∈ env.bgBirth, birth ≤ env.stepIdx
  recent : ∀ j ≤ env.stepIdx,
    (env.bgBirth.drop env.bgHead).countP (j ≤ ·) ≤ 12 * (env.stepIdx - j) + k

/-- Nothing in the churn queue has outlived its time. -/
def Young (env : SimEnv RefBook Ring Clock F) : Prop :=
  ∀ birth ∈ env.bgBirth.drop env.bgHead, env.stepIdx < birth + kLiquidityLifetimeSteps

theorem Tracked.bid {k : Nat} (h : env.Tracked k) : ∀ o ∈ env.orders, o.side = .buy →
    o.id ∈ env.bgIds.drop env.bgHead ∧ o.residual ≤ 49 := by
  intro o ho hs
  rcases h.kept o ho with hk | ⟨hsell, -⟩
  · exact hk
  · rw [hs] at hsell
    cases hsell

/-- Taking orders out of the book, and out of the list only those that are gone. -/
theorem Tracked.withdraw {k : Nat} (h : env.Tracked k) {p : TelemetryPublisher RefBook Ring Clock}
    {restingIds : List OrderId} {bgHead : Nat} (hshape : env.publisher.book.SameShape p.book)
    (hsub : p.book.orders.Sublist env.orders) (hids : ∀ o ∈ p.book.orders, o.id ∈ restingIds)
    (hhead : env.bgHead ≤ bgHead) (hlen : bgHead ≤ env.bgIds.length)
    (hkept : ∀ o ∈ p.book.orders, o.id ∈ env.bgIds.drop env.bgHead → o.id ∈ env.bgIds.drop bgHead) :
    Tracked k { env with publisher := p, restingIds := restingIds, bgHead := bgHead } where
  shape := h.shape.trans hshape
  nodup := (hsub.map Resting.id).nodup h.nodup
  fresh o ho := h.fresh o (hsub.subset ho)
  covered := hids
  kept o ho := (h.kept o (hsub.subset ho)).imp_left fun hk => ⟨hkept o ho hk.1, hk.2⟩
  issued := h.issued
  queued := h.queued
  head := hlen
  sorted := h.sorted
  born := h.born
  recent j hj := by
    refine le_trans (List.Sublist.countP_le ?_) (h.recent j hj)
    exact List.drop_sublist_drop_left _ hhead

theorem publisher_cancel_orders {p p' : TelemetryPublisher RefBook Ring Clock} {id : OrderId}
    (h : p'.book = (p.book.cancel id).1) : p'.book.orders = p.book.orders.filter fun o => o.id ≠ id := by
  rw [h, RefBook.cancel_orders]

/-- A synthetic order that may rest joins both lists. -/
private theorem Tracked.enlist {k : Nat} (h : env.Tracked k) (hy : env.Young) {book : RefBook}
    (out : Outlet Ring Clock) {o' : Resting} (hshape : env.publisher.book.SameShape book)
    (hn : book.ids.Nodup) (hold : ∀ o ∈ book.orders, (∃ m ∈ env.orders, o.PartOf m) ∨ o.PartOf o')
    (hid : o'.id < env.nextId) (hnew : o'.id ∉ env.publisher.book.ids) (hqty : o'.residual ≤ 49) :
    Tracked (k + 1) { env with publisher := ⟨book, out⟩
                               restingIds := env.restingIds ++ [o'.id]
                               bgIds := env.bgIds ++ [o'.id]
                               bgBirth := env.bgBirth ++ [env.stepIdx] } ∧
      Young { env with publisher := ⟨book, out⟩
                       restingIds := env.restingIds ++ [o'.id]
                       bgIds := env.bgIds ++ [o'.id]
                       bgBirth := env.bgBirth ++ [env.stepIdx] } := by
  have hhead : env.bgHead ≤ env.bgBirth.length := h.queued ▸ h.head
  have hdrop : (env.bgBirth ++ [env.stepIdx]).drop env.bgHead =
      env.bgBirth.drop env.bgHead ++ [env.stepIdx] := List.drop_append_of_le_length hhead
  constructor
  · refine ⟨h.shape.trans hshape, hn, fun o ho => ?_, fun o ho => ?_, fun o ho => ?_, fun id hi => ?_,
      ?_, ?_, ?_, fun birth hb => ?_, fun j hj => ?_⟩
    · rcases hold o ho with ⟨m, hm, hpart⟩ | hpart
      · exact hpart.id ▸ h.fresh m hm
      · exact hpart.id ▸ hid
    · rcases hold o ho with ⟨m, hm, hpart⟩ | hpart
      · exact hpart.id ▸ List.mem_append_left _ (h.covered m hm)
      · exact hpart.id ▸ List.mem_append_right _ (List.mem_singleton_self _)
    · simp only [List.drop_append_of_le_length h.head, List.mem_append, List.mem_singleton]
      rcases hold o ho with ⟨m, hm, hpart⟩ | hpart
      · rw [hpart.id, hpart.side]
        refine (h.kept m hm).imp (fun hk => ⟨.inl hk.1, hpart.residual.trans hk.2⟩) fun hk => ⟨hk.1, ?_⟩
        rintro (hin | heq)
        · exact hk.2 hin
        · exact hnew (heq ▸ List.mem_map_of_mem hm)
      · exact .inl ⟨.inr hpart.id, hpart.residual.trans hqty⟩
    · rcases List.mem_append.mp hi with hi | hi
      · exact h.issued id hi
      · exact List.mem_singleton.mp hi ▸ hid
    · simp [h.queued]
    · simp only [List.length_append]
      exact Nat.le_add_right_of_le h.head
    · refine List.pairwise_append.mpr ⟨h.sorted, List.pairwise_singleton _ _, fun b hb b' hb' => ?_⟩
      obtain rfl := List.mem_singleton.mp hb'
      exact h.born b hb
    · rcases List.mem_append.mp hb with hb | hb
      · exact h.born birth hb
      · exact (List.mem_singleton.mp hb).le
    · have hone := List.countP_le_length (p := fun b => decide (j ≤ b)) (l := [env.stepIdx])
      have hrec := h.recent j hj
      simp only [hdrop, List.countP_append]
      rw [List.length_singleton] at hone
      omega
  · intro birth hb
    simp only [hdrop, List.mem_append, List.mem_singleton] at hb
    rcases hb with hb | rfl
    · exact hy birth hb
    · exact Nat.lt_add_of_pos_right (by decide)

/-- A synthetic order that rests nothing changes neither list. -/
private theorem Tracked.passBy {k : Nat} (h : env.Tracked k) {book : RefBook} (out : Outlet Ring Clock)
    (hshape : env.publisher.book.SameShape book) (hn : book.ids.Nodup)
    (hold : ∀ o ∈ book.orders, ∃ m ∈ env.orders, o.PartOf m) :
    Tracked (k + 1) { env with publisher := ⟨book, out⟩ } := by
  refine ⟨h.shape.trans hshape, hn, fun o ho => ?_, fun o ho => ?_, fun o ho => ?_, h.issued, h.queued,
    h.head, h.sorted, h.born, fun j hj => Nat.le_succ_of_le (h.recent j hj)⟩
  all_goals obtain ⟨m, hm, hpart⟩ := hold o ho
  · exact hpart.id ▸ h.fresh m hm
  · exact hpart.id ▸ h.covered m hm
  · rw [hpart.id, hpart.side]
    exact (h.kept m hm).imp_left fun hk => ⟨hk.1, hpart.residual.trans hk.2⟩

/-- Synthetic orders expire, so their queue is bounded. -/
theorem Tracked.queue_le {k : Nat} (h : env.Tracked k) (age : Nat)
    (hy : ∀ birth ∈ env.bgBirth.drop env.bgHead, env.stepIdx ≤ birth + age) :
    (env.bgIds.drop env.bgHead).length ≤ 12 * age + k := by
  have hyoung : (env.bgBirth.drop env.bgHead).countP (env.stepIdx - age ≤ ·) =
      (env.bgBirth.drop env.bgHead).length := by
    refine List.countP_eq_length.mpr fun birth hb => ?_
    exact decide_eq_true (Nat.sub_le_of_le_add (hy birth hb))
  have hrecent := h.recent (env.stepIdx - age) (Nat.sub_le ..)
  have hage : 12 * (env.stepIdx - (env.stepIdx - age)) ≤ 12 * age :=
    Nat.mul_le_mul_left 12 (by omega)
  rw [hyoung] at hrecent
  rw [List.length_drop, h.queued, ← List.length_drop]
  omega

/-- Resting orders that wait in the queue are no more than it. -/
theorem Tracked.length_le {k : Nat} (h : env.Tracked k) {os : List Resting} (hsub : os.Sublist env.orders)
    (hqueue : ∀ o ∈ os, o.id ∈ env.bgIds.drop env.bgHead) :
    os.length ≤ (env.bgIds.drop env.bgHead).length := by
  have hn : (os.map Resting.id).Nodup := (hsub.map Resting.id).nodup h.nodup
  have hids : os.map Resting.id ⊆ env.bgIds.drop env.bgHead := fun x hx => by
    obtain ⟨o, ho, rfl⟩ := List.mem_map.mp hx
    exact hqueue o ho
  rw [← List.length_map Resting.id]
  exact (List.subperm_of_subset hn hids).length_le

/-- So the depth that a sell order can meet is bounded. -/
theorem Tracked.depth_le {k : Nat} (h : env.Tracked k) (age : Nat)
    (hy : ∀ birth ∈ env.bgBirth.drop env.bgHead, env.stepIdx ≤ birth + age) :
    depth .buy env.orders ≤ (12 * age + k) * 49 := by
  obtain ⟨bids, hbids⟩ : ∃ bids, env.orders.filter (fun o => o.side = .buy) = bids := ⟨_, rfl⟩
  have hmem : ∀ o ∈ bids, o.id ∈ env.bgIds.drop env.bgHead ∧ o.residual ≤ 49 := fun o ho => by
    rw [← hbids, List.mem_filter] at ho
    exact h.bid o ho.1 (by simpa using ho.2)
  have hlen : bids.length ≤ 12 * age + k :=
    (h.length_le (hbids ▸ List.filter_sublist) fun o ho => (hmem o ho).1).trans (h.queue_le age hy)
  have hsum : (bids.map Resting.residual).sum ≤ (bids.map Resting.residual).length • 49 := by
    refine List.sum_le_card_nsmul _ _ fun x hx => ?_
    obtain ⟨o, ho, rfl⟩ := List.mem_map.mp hx
    exact (hmem o ho).2
  rw [depth, hbids]
  rw [List.length_map, Nat.nsmul_eq_mul] at hsum
  exact hsum.trans (Nat.mul_le_mul_right 49 hlen)

variable [EventRing Ring] [ClockFn Clock]

theorem publisher_cancel (p : TelemetryPublisher RefBook Ring Clock) (id : OrderId) :
    ∃ p' ok, p.cancel id = some (p', ok) ∧ p'.book = (p.book.cancel id).1 := by
  cases h : (p.book.cancel id).2 with
  | none =>
    refine ⟨⟨(p.book.cancel id).1, p.out⟩, false, ?_, rfl⟩
    simp [TelemetryPublisher.cancel, MatchingBook.cancel, h]
  | some r =>
    refine ⟨⟨(p.book.cancel id).1, p.out.emit fun seq ts => .cancel seq ts r.id r.side r.price r.qty⟩,
      true, ?_, rfl⟩
    simp [TelemetryPublisher.cancel, MatchingBook.cancel, h]

theorem publisher_addLimit (p : TelemetryPublisher RefBook Ring Clock) (id : OrderId) (side : Side)
    (px : Price) (qty : Quantity) : ∃ out, p.addLimit id side px qty =
      some (⟨(p.book.addLimit id side px qty).1, out⟩, (p.book.addLimit id side px qty).2) := by
  obtain ⟨⟨book, fills, ok⟩, hadd⟩ : ∃ w, p.book.addLimit id side px qty = w := ⟨_, rfl⟩
  refine ⟨p.out.report id side px qty fills ok, ?_⟩
  simp only [TelemetryPublisher.addLimit, MatchingBook.addLimit, hadd, Option.bind_eq_bind,
    Option.bind_some]
  rfl

/-- The churn loop ends, and leaves nothing in the queue that is too old. -/
theorem Tracked.expire {k fuel : Nat} (h : env.Tracked k) (hf : env.bgIds.length - env.bgHead < fuel) :
    ∃ p head, expireLiquidity fuel env = some { env with publisher := p, bgHead := head } ∧
      Tracked k { env with publisher := p, bgHead := head } ∧
      Young { env with publisher := p, bgHead := head } ∧ p.book.orders.Sublist env.orders := by
  induction fuel generalizing env with
  | zero => exact absurd hf (Nat.not_lt_zero _)
  | succ fuel ih =>
    rw [expireLiquidity]
    split_ifs with hlt
    · have hlt' : env.bgHead < env.bgBirth.length := h.queued ▸ hlt
      have hb := List.getElem?_eq_getElem hlt'
      have hdrop := List.drop_eq_getElem_cons hlt'
      simp only [hb, Option.bind_eq_bind, Option.bind_some]
      split_ifs with hold
      · -- the head of the queue is too old
        obtain ⟨p, ok, hc, hp⟩ := publisher_cancel env.publisher env.bgIds[env.bgHead]
        have horders := publisher_cancel_orders hp
        have hsub : p.book.orders.Sublist env.orders := by
          rw [horders]
          exact List.filter_sublist
        have h1 : Tracked k { env with publisher := p, bgHead := env.bgHead + 1 } :=
          h.withdraw (hp ▸ RefBook.cancel_shape ..) hsub (fun o ho => h.covered o (hsub.subset ho))
              (Nat.le_succ _) hlt fun o ho hid => by
            rw [horders, List.mem_filter] at ho
            rw [List.drop_eq_getElem_cons hlt] at hid
            rcases List.mem_cons.mp hid with hid | hid
            · exact absurd hid (by simpa using ho.2)
            · exact hid
        obtain ⟨p', head, he, h2, hy, hsub'⟩ := ih h1 (by simp only; omega)
        refine ⟨p', head, ?_, h2, hy, hsub'.trans hsub⟩
        simp only [List.getElem?_eq_getElem hlt, Option.bind_some, hc]
        exact he
      · -- the head of the queue is young, and so is the rest
        refine ⟨env.publisher, env.bgHead, rfl, h, fun birth hbirth => ?_, List.Sublist.refl _⟩
        have hs := h.sorted.sublist (List.drop_sublist env.bgHead env.bgBirth)
        rw [hdrop] at hs
        change birth ∈ env.bgBirth.drop env.bgHead at hbirth
        rw [hdrop] at hbirth
        rcases List.mem_cons.mp hbirth with rfl | hbirth
        · exact Nat.not_le.mp hold
        · have := (List.pairwise_cons.mp hs).1 birth hbirth
          exact (Nat.not_le.mp hold).trans_le (Nat.add_le_add_right this _)
    · refine ⟨env.publisher, env.bgHead, rfl, h, fun birth hbirth => ?_, List.Sublist.refl _⟩
      change birth ∈ env.bgBirth.drop env.bgHead at hbirth
      rw [List.drop_eq_nil_of_le (h.queued ▸ Nat.not_lt.mp hlt)] at hbirth
      cases hbirth

/-- The eviction guard takes at most one order out of the book. -/
theorem Tracked.evict {k : Nat} (h : env.Tracked k) :
    ∃ p restingIds, env.evict = some { env with publisher := p, restingIds := restingIds } ∧
      Tracked k { env with publisher := p, restingIds := restingIds } ∧
      p.book.orders.Sublist env.orders := by
  rw [SimEnv.evict]
  split_ifs with hfull
  · cases hlast : env.restingIds.getLast? with
    | none => exact ⟨env.publisher, env.restingIds, rfl, h, List.Sublist.refl _⟩
    | some victim =>
      obtain ⟨p, ok, hc, hp⟩ := publisher_cancel env.publisher victim
      have horders := publisher_cancel_orders hp
      have hsub : p.book.orders.Sublist env.orders := by
        rw [horders]
        exact List.filter_sublist
      refine ⟨p, env.restingIds.dropLast, ?_,
        h.withdraw (hp ▸ RefBook.cancel_shape ..) hsub (fun o ho => ?_) le_rfl h.head fun o _ hid => hid,
        hsub⟩
      · simp only [hc, Option.bind_eq_bind, Option.bind_some]
        rfl
      · have hmem := h.covered o (hsub.subset ho)
        rw [← List.dropLast_append_getLast? victim hlast, List.mem_append, List.mem_singleton] at hmem
        rw [horders, List.mem_filter] at ho
        exact hmem.resolve_right (by simpa using ho.2)
  · exact ⟨env.publisher, env.restingIds, rfl, h, List.Sublist.refl _⟩

/-- The fields that the orders of other traders leave alone. -/
structure SameAccount (s s' : EnvState F) : Prop where
  parentQty : s'.parentQty = s.parentQty
  horizonSteps : s'.horizonSteps = s.horizonSteps
  arrivalMid : s'.arrivalMid = s.arrivalMid
  remaining : s'.remaining = s.remaining
  qtyFilled : s'.qtyFilled = s.qtyFilled
  cashFromFills : s'.cashFromFills = s.cashFromFills
  stepIdx : s'.stepIdx = s.stepIdx
  done : s'.done = s.done

theorem SameAccount.refl (s : EnvState F) : SameAccount s s := ⟨rfl, rfl, rfl, rfl, rfl, rfl, rfl, rfl⟩

theorem SameAccount.trans {s s' s'' : EnvState F} (h : SameAccount s s') (h' : SameAccount s' s'') :
    SameAccount s s'' :=
  ⟨h'.parentQty.trans h.parentQty, h'.horizonSteps.trans h.horizonSteps,
    h'.arrivalMid.trans h.arrivalMid, h'.remaining.trans h.remaining, h'.qtyFilled.trans h.qtyFilled,
    h'.cashFromFills.trans h.cashFromFills, h'.stepIdx.trans h.stepIdx, h'.done.trans h.done⟩

theorem drawOrder_qty (arrivalMid : Price) (rng : Xorshift64) :
    10 ≤ (drawOrder arrivalMid rng).1.2.2 ∧ (drawOrder arrivalMid rng).1.2.2 ≤ 49 := by
  have hlt : ∀ r : BitVec 64, (r % 40).toNat < 40 := fun r => by
    rw [BitVec.toNat_umod]
    exact Nat.mod_lt _ (by decide)
  have := hlt rng.next.2.next.2.next.1
  exact ⟨Nat.le_add_right .., by simp only [drawOrder]; lia⟩

/-- A fill of a submitted order against an order that rested on the other side within its
limit. -/
structure Meets (f : Fill) (s : Submission) (m : Resting) : Prop where
  taker : f.takerId = s.id
  maker : f.makerId = m.id
  price : f.price = m.price
  side : m.side = s.side.opposite
  crosses : crosses s.side s.price m.price = true

theorem Meets.of_partOf {f : Fill} {s : Submission} {o m : Resting} (h : Meets f s o)
    (hpart : o.PartOf m) : Meets f s m :=
  ⟨h.taker, h.maker.trans hpart.id, h.price.trans hpart.price, hpart.side ▸ h.side,
    hpart.price ▸ h.crosses⟩

/-- What one synthetic order does. -/
structure OrderEffect (env env' : SimEnv RefBook Ring Clock F) (s : Submission) (fills : List Fill) :
    Prop where
  account : SameAccount env.toEnvState env'.toEnvState
  draw : s.draw = (drawOrder env.arrivalMid env.rng).1
  rng : env'.rng = (drawOrder env.arrivalMid env.rng).2
  id : s.id = env.nextId
  nextId : env'.nextId = env.nextId + 1
  bgIds : env'.bgIds = env.bgIds ++ ([s].filter (·.accepted)).map Submission.id
  bgBirth : env'.bgBirth = env.bgBirth ++ ([s].filter (·.accepted)).map fun _ => env.stepIdx
  bgHead : env'.bgHead = env.bgHead
  orders : ∀ o ∈ env'.orders, (∃ m ∈ env.orders, o.PartOf m) ∨
    s.accepted = true ∧ o.PartOf s.order
  fills : ∀ f ∈ fills, ∃ m ∈ env.orders, Meets f s m

/-- One pass of the background-flow loop. -/
theorem Tracked.backgroundOrder {k : Nat} (h : env.Tracked k) (hy : env.Young) :
    ∃ env' s fills, env.backgroundOrder = some (env', s, fills) ∧ env'.Tracked (k + 1) ∧
      env'.Young ∧ OrderEffect env env' s fills := by
  have hqty := (drawOrder_qty env.arrivalMid env.rng).2
  rw [SimEnv.backgroundOrder]
  obtain ⟨⟨⟨side, px, qty⟩, rng⟩, hd⟩ : ∃ w, drawOrder env.arrivalMid env.rng = w := ⟨_, rfl⟩
  rw [hd] at hqty ⊢
  simp only at hqty ⊢
  have h1 : Tracked k { env with rng := rng, nextId := env.nextId + 1 } :=
    { h with
      fresh := fun o ho => Nat.lt_succ_of_lt (h.fresh o ho)
      issued := fun id hi => Nat.lt_succ_of_lt (h.issued id hi) }
  obtain ⟨p, restingIds, he, h2, hsub⟩ := h1.evict
  have hfresh : env.nextId ∉ p.book.ids := fun hid => by
    obtain ⟨o, ho, hid⟩ := List.mem_map.mp hid
    exact absurd (hid ▸ h.fresh o (hsub.subset ho)) (Nat.lt_irrefl _)
  obtain ⟨⟨book, fills, ok⟩, hadd⟩ : ∃ w, p.book.addLimit env.nextId side px qty = w := ⟨_, rfl⟩
  have hmem := p.book.addLimit_mem env.nextId side px qty
  have hfills := p.book.addLimit_fills env.nextId side px qty
  have hnodup := RefBook.addLimit_ids_nodup side px qty h2.nodup hfresh
  have hshape := p.book.addLimit_shape env.nextId side px qty
  rw [hadd] at hmem hfills hnodup hshape
  obtain ⟨out, hrun⟩ := publisher_addLimit p env.nextId side px qty
  rw [hadd] at hrun
  simp only [he, hrun, Option.bind_eq_bind, Option.bind_some]
  have hmeets : ∀ f ∈ fills, ∃ m ∈ env.orders, Meets f ⟨env.nextId, side, px, qty, ok⟩ m := by
    intro f hf
    obtain ⟨ht, m, hm, hid, hp, hs, hc⟩ := hfills f hf
    exact ⟨m, hsub.subset hm, ht, hid, hp, hs, hc⟩
  have hdraw : Submission.draw ⟨env.nextId, side, px, qty, ok⟩ =
      (drawOrder env.arrivalMid env.rng).1 := by rw [hd]; rfl
  have hrng : rng = (drawOrder env.arrivalMid env.rng).2 := by rw [hd]
  cases ok with
  | true =>
    obtain ⟨h3, hy3⟩ := h2.enlist hy out hshape hnodup (fun o ho => (hmem o ho).imp_right fun hn => hn.2.1)
      (Nat.lt_succ_self env.nextId) hfresh hqty
    refine ⟨_, _, fills, rfl, h3, hy3, ⟨rfl, rfl, rfl, rfl, rfl, rfl, rfl, rfl⟩, hdraw, hrng, rfl, rfl,
      rfl, rfl, rfl, fun o ho => ?_, hmeets⟩
    rcases hmem o ho with ⟨m, hm, hpart⟩ | ⟨-, hpart, -⟩
    · exact .inl ⟨m, hsub.subset hm, hpart⟩
    · exact .inr ⟨rfl, hpart⟩
  | false =>
    have hold : ∀ o ∈ book.orders, ∃ m ∈ p.book.orders, o.PartOf m := fun o ho =>
      (hmem o ho).resolve_right fun hn => Bool.false_ne_true hn.1
    have h3 := h2.passBy out hshape hnodup hold
    refine ⟨_, _, fills, rfl, h3, hy, ⟨rfl, rfl, rfl, rfl, rfl, rfl, rfl, rfl⟩, hdraw, hrng, rfl, rfl,
      (List.append_nil _).symm, (List.append_nil _).symm, rfl, fun o ho => ?_, hmeets⟩
    obtain ⟨m, hm, hpart⟩ := hold o ho
    exact .inl ⟨m, hsub.subset hm, hpart⟩

/-- The generator after one synthetic order. -/
def afterDraw (rng : Xorshift64) : Xorshift64 := rng.next.2.next.2.next.2

/-- The orders that the next k passes of the background-flow loop will send. -/
def flowDraws (arrivalMid : Price) : Nat → Xorshift64 → List (Side × Price × Quantity)
  | 0, _ => []
  | k + 1, rng => (drawOrder arrivalMid rng).1 :: flowDraws arrivalMid k (afterDraw rng)

theorem flowDraws_drawn {arrivalMid : Price} {k : Nat} {rng : Xorshift64}
    {draw : Side × Price × Quantity} (h : draw ∈ flowDraws arrivalMid k rng) :
    ∃ rng, draw = (drawOrder arrivalMid rng).1 := by
  induction k generalizing rng with
  | zero => cases h
  | succ k ih =>
    rcases List.mem_cons.mp h with rfl | h
    · exact ⟨rng, rfl⟩
    · exact ih h

/-- What k synthetic orders do: they take the next ids, the accepted ones join the churn
queue, and each of their fills meets an order of the flow itself or one that rested before. -/
structure FlowEffect (k : Nat) (env env' : SimEnv RefBook Ring Clock F) (flow : List Submission)
    (fills : List Fill) : Prop where
  account : SameAccount env.toEnvState env'.toEnvState
  draws : flow.map Submission.draw = flowDraws env.arrivalMid k env.rng
  rng : env'.rng = afterDraw^[k] env.rng
  ids : flow.map Submission.id = List.range' env.nextId k
  nextId : env'.nextId = env.nextId + k
  bgIds : env'.bgIds = env.bgIds ++ (flow.filter (·.accepted)).map Submission.id
  bgBirth : env'.bgBirth = env.bgBirth ++ (flow.filter (·.accepted)).map fun _ => env.stepIdx
  bgHead : env'.bgHead = env.bgHead
  orders : ∀ o ∈ env'.orders, (∃ m ∈ env.orders, o.PartOf m) ∨
    ∃ s ∈ flow, s.accepted = true ∧ o.PartOf s.order
  fills : ∀ f ∈ fills, ∃ s ∈ flow, (∃ m ∈ env.orders, Meets f s m) ∨ ∃ s' ∈ flow, Meets f s s'.order

theorem Tracked.backgroundFlow {j : Nat} (k : Nat) (h : env.Tracked j) (hy : env.Young) :
    ∃ env' flow fills, env.backgroundFlow k = some (env', flow, fills) ∧ env'.Tracked (j + k) ∧
      env'.Young ∧ FlowEffect k env env' flow fills := by
  induction k generalizing env j with
  | zero =>
    exact ⟨env, [], [], rfl, h, hy, .refl _, rfl, rfl, rfl, rfl, (List.append_nil _).symm,
      (List.append_nil _).symm, rfl, fun o ho => .inl ⟨o, ho, .refl o⟩, by simp⟩
  | succ k ih =>
    obtain ⟨env1, s1, fills1, he1, h1, hy1, hone⟩ := h.backgroundOrder hy
    obtain ⟨env2, flow, fills2, he2, h2, hy2, hrest⟩ := ih h1 hy1
    have hrng : env1.rng = afterDraw env.rng := hone.rng
    refine ⟨env2, s1 :: flow, fills1 ++ fills2, ?_, ?_, hy2, hone.account.trans hrest.account, ?_, ?_,
      ?_, ?_, ?_, ?_, hrest.bgHead.trans hone.bgHead, fun o ho => ?_, fun f hf => ?_⟩
    · rw [SimEnv.backgroundFlow, he1]
      simp only [Option.bind_eq_bind, Option.bind_some, he2]
      rfl
    · rw [Nat.add_comm k 1, ← Nat.add_assoc]
      exact h2
    · rw [List.map_cons, hone.draw, hrest.draws, hone.account.arrivalMid, hrng]
      rfl
    · rw [hrest.rng, hrng]
      rfl
    · rw [List.map_cons, hone.id, hrest.ids, hone.nextId]
      rfl
    · rw [hrest.nextId, hone.nextId, Nat.add_right_comm, Nat.add_assoc]
    · rw [hrest.bgIds, hone.bgIds, List.append_assoc, ← List.map_append, ← List.filter_append]
      rfl
    · rw [hrest.bgBirth, hone.bgBirth, hone.account.stepIdx, List.append_assoc, ← List.map_append,
        ← List.filter_append]
      rfl
    · rcases hrest.orders o ho with ⟨m, hm, hpart⟩ | ⟨s, hs, hacc, hpart⟩
      · rcases hone.orders m hm with ⟨m', hm', hpart'⟩ | ⟨hacc, hpart'⟩
        · exact .inl ⟨m', hm', hpart.trans hpart'⟩
        · exact .inr ⟨s1, List.mem_cons_self, hacc, hpart.trans hpart'⟩
      · exact .inr ⟨s, List.mem_cons_of_mem _ hs, hacc, hpart⟩
    · rcases List.mem_append.mp hf with hf | hf
      · obtain ⟨m, hm, hmeets⟩ := hone.fills f hf
        exact ⟨s1, List.mem_cons_self, .inl ⟨m, hm, hmeets⟩⟩
      · obtain ⟨s, hs, hmaker⟩ := hrest.fills f hf
        refine ⟨s, List.mem_cons_of_mem _ hs, ?_⟩
        rcases hmaker with ⟨m, hm, hmeets⟩ | ⟨s', hs', hmeets⟩
        · rcases hone.orders m hm with ⟨m', hm', hpart⟩ | ⟨-, hpart⟩
          · exact .inl ⟨m', hm', hmeets.of_partOf hpart⟩
          · exact .inr ⟨s1, List.mem_cons_self, hmeets.of_partOf hpart⟩
        · exact .inr ⟨s', List.mem_cons_of_mem _ hs', hmeets⟩

end SimEnv
end ExecutionPlatform.Bindings
