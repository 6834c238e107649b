import ExecutionPlatform.Bindings.SimTracking

/-! What a whole step and a reset do to an environment on the reference book. -/
namespace ExecutionPlatform.Bindings
open ExecutionPlatform.Core External Exec Foundations
namespace SimEnv
variable {Ring Clock F D : Type} {env env' : SimEnv RefBook Ring Clock F}

/-- The next step begins with everything one step older. -/
theorem Tracked.tick (h : env.Tracked 12) : Tracked 0 { env with stepIdx := env.stepIdx + 1 } :=
  { h with
    born := fun birth hb => Nat.le_succ_of_le (h.born birth hb)
    recent := fun j hj => by
      change (env.bgBirth.drop env.bgHead).countP (j ≤ ·) ≤ 12 * (env.stepIdx + 1 - j) + 0
      rcases Nat.lt_succ_iff_lt_or_eq.mp (Nat.lt_succ_of_le hj) with hlt | heq
      · have := h.recent j (Nat.le_of_lt_succ hlt)
        have : j ≤ env.stepIdx := Nat.le_of_lt_succ hlt
        omega
      · have hzero : (env.bgBirth.drop env.bgHead).countP (j ≤ ·) = 0 := by
          refine List.countP_eq_zero.mpr fun birth hb hc => ?_
          have h1 := h.born birth (List.mem_of_mem_drop hb)
          have h2 : j ≤ birth := by simpa using hc
          change j = env.stepIdx + 1 at heq
          omega
        omega }

/-- Closing out only sets the flag. -/
theorem maybeCloseOut_eq (s : EnvState F) : s.maybeCloseOut =
    { s with done := s.done || decide (s.remaining = 0 ∨ s.horizonSteps ≤ s.stepIdx) } := by
  rw [EnvState.maybeCloseOut]
  split_ifs with h
  · simp [h]
  · simp [h]

theorem Tracked.closeOut {k : Nat} (h : env.Tracked k) :
    Tracked k { env with toEnvState := env.maybeCloseOut } := by
  rw [maybeCloseOut_eq]
  exact { h with }

/-- The environment after ResetInternal, with the publisher it has by then. -/
def cleared (env : SimEnv RefBook Ring Clock F) (p : TelemetryPublisher RefBook Ring Clock) :
    SimEnv RefBook Ring Clock F :=
  { env with publisher := p
             restingIds := []
             bgIds := []
             bgBirth := []
             bgHead := 0
             remaining := env.parentQty
             stepIdx := 0
             qtyFilled := 0
             cashFromFills := 0
             done := false
             nextId := 1 }

theorem cleared_tracked {p : TelemetryPublisher RefBook Ring Clock}
    (hshape : startBook.SameShape p.book) (hp : p.book.orders = []) : (env.cleared p).Tracked 0 := by
  have hno : ∀ o, o ∉ (env.cleared p).orders := fun o ho => by
    rw [show (env.cleared p).orders = [] from hp] at ho
    cases ho
  refine ⟨hshape, ?_, fun o ho => absurd ho (hno o), fun o ho => absurd ho (hno o),
    fun o ho => absurd ho (hno o), fun _ hi => (List.not_mem_nil hi).elim, rfl, le_rfl,
    List.Pairwise.nil, fun _ hb => (List.not_mem_nil hb).elim, fun _ _ => Nat.zero_le _⟩
  rw [RefBook.ids, show (env.cleared p).publisher.book.orders = [] from hp]
  exact List.nodup_nil

section Reset
variable [EventRing Ring] [ClockFn Clock]

theorem cancelAll_spec (ids : List OrderId) (p : TelemetryPublisher RefBook Ring Clock) :
    ∃ p', cancelAll ids p = some p' ∧ p.book.SameShape p'.book ∧
      p'.book.orders = p.book.orders.filter fun o => o.id ∉ ids := by
  induction ids generalizing p with
  | nil => exact ⟨p, rfl, ⟨rfl, rfl, rfl⟩, (List.filter_eq_self.mpr fun o _ => by simp).symm⟩
  | cons id ids ih =>
    obtain ⟨p1, ok, he1, hp⟩ := publisher_cancel p id
    obtain ⟨p2, he2, hshape, horders⟩ := ih p1
    refine ⟨p2, ?_, (hp ▸ RefBook.cancel_shape ..  : p.book.SameShape p1.book).trans hshape, ?_⟩
    · rw [cancelAll, he1]
      exact he2
    · rw [horders, publisher_cancel_orders hp, List.filter_filter]
      refine List.filter_congr fun o _ => ?_
      simp [Bool.and_comm]

/-- Every order is tracked, so ResetInternal empties the book. -/
theorem Tracked.resetInternal {k : Nat} (h : env.Tracked k) :
    ∃ p, env.resetInternal = some (env.cleared p) ∧ startBook.SameShape p.book ∧
      p.book.orders = [] := by
  obtain ⟨p, he, hshape, horders⟩ := cancelAll_spec env.restingIds env.publisher
  refine ⟨p, ?_, h.shape.trans hshape, ?_⟩
  · rw [SimEnv.resetInternal, he]
    rfl
  · rw [horders, List.filter_eq_nil_iff]
    intro o ho hc
    exact absurd (h.covered o ho) (by simpa using hc)

end Reset

/-- The child's residual, if it rests, is tracked like every other order. -/
private theorem Tracked.enlistChild {k : Nat} (h : env.Tracked k) {px : Price} {qty : Quantity}
    {book : RefBook} {fills : List Fill} {ok : Bool} (out : Outlet Ring Clock) (fusedSeq : Nat)
    (hadd : env.publisher.book.addLimit env.nextId .sell px qty = (book, fills, ok)) :
    Tracked k { env with
      nextId := env.nextId + 1
      publisher := ⟨book, out⟩
      fusedSeq := fusedSeq
      restingIds := if ok ∧ (fills.map Fill.qty).sum < qty then env.restingIds ++ [env.nextId]
        else env.restingIds } := by
  have hmem := env.publisher.book.addLimit_mem env.nextId .sell px qty
  have hfresh : env.nextId ∉ env.publisher.book.ids := fun hid => by
    obtain ⟨o, ho, hid⟩ := List.mem_map.mp hid
    exact absurd (hid ▸ h.fresh o ho) (Nat.lt_irrefl _)
  have hnodup := RefBook.addLimit_ids_nodup .sell px qty h.nodup hfresh
  have hshape := env.publisher.book.addLimit_shape env.nextId .sell px qty
  rw [hadd] at hmem hnodup hshape
  refine ⟨h.shape.trans hshape, hnodup, fun o ho => ?_, fun o ho => ?_, fun o ho => ?_,
    fun id hi => Nat.lt_succ_of_lt (h.issued id hi), h.queued, h.head, h.sorted, h.born, h.recent⟩
  all_goals rcases hmem o ho with ⟨m, hm, hpart⟩ | ⟨hok, hpart, hlt⟩
  · exact Nat.lt_succ_of_lt (hpart.id ▸ h.fresh m hm)
  · exact Nat.lt_succ_of_le hpart.id.le
  · have hcov := hpart.id ▸ h.covered m hm
    simp only
    split_ifs
    · exact List.mem_append_left _ hcov
    · exact hcov
  · simp only
    rw [if_pos ⟨hok, hlt⟩]
    exact hpart.id ▸ List.mem_append_right _ (List.mem_singleton_self _)
  · rw [hpart.id, hpart.side]
    exact (h.kept m hm).imp_left fun hk => ⟨hk.1, hpart.residual.trans hk.2⟩
  · refine .inr ⟨hpart.side, fun hi => ?_⟩
    exact absurd (hpart.id ▸ h.issued o.id hi) (Nat.lt_irrefl _)

variable [MachineFloat F] [MachineFloat D]

theorem Tracked.writeState {k : Nat} (h : env.Tracked k) (cast : Casts F D) :
    (env.writeState cast).Tracked k := { h with }

/-- The account after a child order has been filled for the given quantity and cash. -/
def accounted (s : EnvState F) (filled : Quantity) (childCash : Int) : EnvState F :=
  { s with qtyFilled := s.qtyFilled + filled
           cashFromFills := s.cashFromFills + childCash
           remaining := s.remaining - filled
           stepIdx := s.stepIdx + 1 }

theorem settle_eq (cast : Casts F D) (s : EnvState F) (filled : Quantity) (childCash : Int) :
    let s' := (accounted s filled childCash).maybeCloseOut
    let base := s.fillReward cast filled childCash - kPhi * s'.invFrac * s'.invFrac
    s.settle cast filled childCash = (s',
      if s'.done ∧ 0 < s'.remaining then base + cast.narrow s'.quadPenalty else base,
      decide (s'.done ∧ 0 < s'.remaining)) := by
  have hrem : (if s.remaining ≤ filled then 0 else s.remaining - filled) = s.remaining - filled := by
    split_ifs with h
    · exact (Nat.sub_eq_zero_of_le h).symm
    · rfl
  have hinv : (accounted s filled childCash).maybeCloseOut.invFrac =
      (accounted s filled childCash).invFrac := by
    rw [maybeCloseOut_eq]
    rfl
  intro s' base
  have hbase : base = s.fillReward cast filled childCash -
      kPhi * (accounted s filled childCash).invFrac * (accounted s filled childCash).invFrac := by
    simp only [base, s', hinv]
  rw [hbase, EnvState.settle]
  simp only [hrem]
  change (if s'.done ∧ 0 < s'.remaining then _ else _) = _
  split_ifs with hc
  · rw [decide_eq_true hc]
    rfl
  · rw [decide_eq_false hc]
    rfl

/-- A child is priced like an order of the book, or one tick beside the mid. -/
theorem childPx_cases (env : SimEnv RefBook Ring Clock F) (aggression : F) :
    (∃ o ∈ env.orders, env.childPx aggression = o.price) ∨
      env.childPx aggression = env.arrivalMid - 1 ∨ env.childPx aggression = env.arrivalMid + 1 := by
  have hbest : ∀ side, (bestPrice side env.orders).isSome = true →
      ∃ o ∈ env.orders, (bestPrice side env.orders).getD 0 = o.price := by
    intro side hsome
    obtain ⟨p, hp⟩ := Option.isSome_iff_exists.mp hsome
    obtain ⟨⟨o, ho, -, hop⟩, -⟩ := bestPrice_spec hp
    rw [hp]
    exact ⟨o, ho, hop.symm⟩
  rw [childPx]
  split_ifs with haggressive hbid hask
  · exact .inl (hbest .buy hbid)
  · exact .inr (.inl rfl)
  · exact .inl (hbest .sell hask)
  · exact .inr (.inr rfl)

/-- Everything the child order's branch does. -/
structure ChildEffect (cast : Casts F D) (aggression : F) (env env' : SimEnv RefBook Ring Clock F)
    (s : Submission) (flow : List Submission) (bgFills fills : List Fill) (report : StepReport F) :
    Prop where
  parentQty : env'.parentQty = env.parentQty
  horizonSteps : env'.horizonSteps = env.horizonSteps
  arrivalMid : env'.arrivalMid = env.arrivalMid
  rng : env'.rng = env.rng
  nextId : env'.nextId = env.nextId + 1
  bgIds : env'.bgIds = env.bgIds
  bgBirth : env'.bgBirth = env.bgBirth
  bgHead : env'.bgHead = env.bgHead
  qtyFilled : env'.qtyFilled = env.qtyFilled + (fills.map Fill.qty).sum
  cashFromFills : env'.cashFromFills =
    env.cashFromFills + (fills.map fun f => f.price * (f.qty : Int)).sum
  remaining : env'.remaining = env.remaining - (fills.map Fill.qty).sum
  stepIdx : env'.stepIdx = env.stepIdx + 1
  done : env'.done = (env.done || decide (env'.remaining = 0 ∨ env'.horizonSteps ≤ env'.stepIdx))
  id : s.id = env.nextId
  side : s.side = .sell
  price : s.price = env.childPx aggression
  child : report.child = some s
  flow : report.flow = flow
  reported : report.fills = bgFills ++ fills
  charged : report.charged = true ↔ env'.done = true ∧ 0 < env'.remaining
  reward : report.reward =
    let base := env.fillReward cast (fills.map Fill.qty).sum
      (fills.map fun f => f.price * (f.qty : Int)).sum - kPhi * env'.invFrac * env'.invFrac
    if report.charged then base + cast.narrow env'.quadPenalty else base
  filled_le : (fills.map Fill.qty).sum ≤ min s.qty (depth .buy env.orders)
  fills : ∀ f ∈ fills, ∃ m ∈ env.orders, Meets f s m
  orders : ∀ o ∈ env'.orders, (∃ m ∈ env.orders, o.PartOf m) ∨ o.PartOf s.order

variable [EventRing Ring] [ClockFn Clock]

theorem Tracked.childStep (h : env.Tracked 12) (cast : Casts F D) (aggression : F) (qty : Quantity)
    (flow : List Submission) (bgFills : List Fill) :
    ∃ env' s fills report, env.childStep cast aggression qty flow bgFills = some (env', report) ∧
      env'.Tracked 0 ∧ s.qty = qty ∧ ChildEffect cast aggression env env' s flow bgFills fills report := by
  obtain ⟨px, hpx⟩ : ∃ px, env.childPx aggression = px := ⟨_, rfl⟩
  obtain ⟨⟨book, fills, ok⟩, hadd⟩ : ∃ w, env.publisher.book.addLimit env.nextId .sell px qty = w :=
    ⟨_, rfl⟩
  obtain ⟨out, hout⟩ : ∃ out, { env.publisher.out with seq := env.fusedSeq }.report env.nextId .sell
    px qty fills ok = out := ⟨_, rfl⟩
  have hmem := env.publisher.book.addLimit_mem env.nextId .sell px qty
  have hfills := env.publisher.book.addLimit_fills env.nextId .sell px qty
  have hfilled := RefBook.addLimit_filled env.publisher.book env.nextId .sell px qty
  rw [hadd] at hmem hfills hfilled
  have h1 := h.enlistChild { out with seq := env.publisher.out.seq } out.seq hadd
  obtain ⟨s1, hs1⟩ : ∃ s1 : EnvState F, { env.toEnvState with
      nextId := env.nextId + 1
      restingIds := if ok ∧ (fills.map Fill.qty).sum < qty then env.restingIds ++ [env.nextId]
        else env.restingIds } = s1 := ⟨_, rfl⟩
  rw [hs1] at h1
  have hsettle := settle_eq cast s1 (fills.map Fill.qty).sum
    (fills.map fun f => f.price * (f.qty : Int)).sum
  obtain ⟨s2, hs2⟩ : ∃ s2, (accounted s1 (fills.map Fill.qty).sum
    (fills.map fun f => f.price * (f.qty : Int)).sum).maybeCloseOut = s2 := ⟨_, rfl⟩
  simp only [hs2] at hsettle
  obtain ⟨base, hbase⟩ : ∃ base, s1.fillReward cast (fills.map Fill.qty).sum
    (fills.map fun f => f.price * (f.qty : Int)).sum - kPhi * s2.invFrac * s2.invFrac = base :=
      ⟨_, rfl⟩
  rw [hbase] at hsettle
  have hrun : env.childStep cast aggression qty flow bgFills =
      some (⟨s2, ⟨book, { out with seq := env.publisher.out.seq }⟩, out.seq⟩,
        ⟨if s2.done ∧ 0 < s2.remaining then base + cast.narrow s2.quadPenalty else base, flow,
          bgFills ++ fills, some ⟨env.nextId, .sell, px, qty, ok⟩,
          decide (s2.done ∧ 0 < s2.remaining)⟩) := by
    simp only [SimEnv.childStep, submitChild, MatchingBook.addLimit, hpx, hadd, hout,
      Option.bind_eq_bind, Option.bind_some, Option.pure_def, hs1, hsettle]
  refine ⟨_, ⟨env.nextId, .sell, px, qty, ok⟩, fills, _, hrun, ?_, rfl, ?_⟩
  · have hacc : Tracked 0 (⟨accounted s1 (fills.map Fill.qty).sum (fills.map fun f => f.price * (f.qty : Int)).sum,
        ⟨book, { out with seq := env.publisher.out.seq }⟩, out.seq⟩ : SimEnv RefBook Ring Clock F) :=
      { h1.tick with }
    rw [← hs2]
    exact hacc.closeOut
  · clear hrun hsettle h1
    rw [maybeCloseOut_eq] at hs2
    subst hbase hs2 hs1
    refine ⟨rfl, rfl, rfl, rfl, rfl, rfl, rfl, rfl, rfl, rfl, rfl, rfl, rfl, rfl, rfl, hpx.symm, rfl, rfl,
      rfl, decide_eq_true_iff, ?_, hfilled, fun f hf => ?_, fun o ho => ?_⟩
    · simp only [decide_eq_true_eq]
      rfl
    · obtain ⟨ht, m, hm, hid, hp, hs, hc⟩ := hfills f hf
      exact ⟨m, hm, ht, hid, hp, hs, hc⟩
    · rcases hmem o ho with hold | ⟨-, hpart, -⟩
      · exact .inl hold
      · exact .inr hpart

/-- What StepImpl does in an episode that is not over: the churn, the flow, and then nothing
or a child order. -/
structure StepEffect (cast : Casts F D) (sizeFrac aggression : F) (env env' : SimEnv RefBook Ring Clock F)
    (report : StepReport F) (start mid : SimEnv RefBook Ring Clock F) (bgFills : List Fill) : Prop where
  expired : expireLiquidity (env.bgIds.length + 1) env = some start
  flowed : start.backgroundFlow 12 = some (mid, report.flow, bgFills)
  churn : start = { env with publisher := start.publisher, bgHead := start.bgHead }
  kept : start.orders.Sublist env.orders
  tracked_start : start.Tracked 0
  young_start : start.Young
  flow : FlowEffect 12 start mid report.flow bgFills
  tracked_mid : mid.Tracked 12
  young_mid : mid.Young
  branch : mid.childQty cast sizeFrac = 0 ∧ (env', report) = mid.idleStep report.flow bgFills ∨
    0 < mid.childQty cast sizeFrac ∧ ∃ s fills, s.qty = mid.childQty cast sizeFrac ∧
      ChildEffect cast aggression mid env' s report.flow bgFills fills report

theorem Tracked.stepImpl (h : env.Tracked 0) (hd : env.done = false) (cast : Casts F D)
    (sizeFrac aggression : F) :
    ∃ env' report, env.stepImpl cast sizeFrac aggression = some (env', report) ∧ env'.Tracked 0 ∧
      ∃ start mid bgFills, StepEffect cast sizeFrac aggression env env' report start mid bgFills := by
  have hfuel : env.bgIds.length - env.bgHead < env.bgIds.length + 1 :=
    Nat.lt_succ_of_le (Nat.sub_le ..)
  obtain ⟨p, head, he1, h1, hy1, hsub⟩ := h.expire hfuel
  obtain ⟨mid, flow, bgFills, he2, h2, hy2, hflow⟩ := h1.backgroundFlow 12 hy1
  have hstart : env.stepImpl cast sizeFrac aggression =
      if mid.childQty cast sizeFrac = 0 then some (mid.idleStep flow bgFills)
      else mid.childStep cast aggression (mid.childQty cast sizeFrac) flow bgFills := by
    rw [SimEnv.stepImpl, hd, he1]
    simp only [Option.bind_eq_bind, Option.bind_some, he2]
    rfl
  rw [hstart]
  split_ifs with hz
  · refine ⟨_, _, rfl, Tracked.closeOut h2.tick, _, mid, bgFills, ⟨he1, he2, rfl, hsub, h1, hy1, hflow, h2,
      hy2, .inl ⟨hz, rfl⟩⟩⟩
  · obtain ⟨env', s, fills, report, he3, h3, hqty, hchild⟩ := h2.childStep cast aggression
      (mid.childQty cast sizeFrac) flow bgFills
    obtain rfl := hchild.flow
    exact ⟨env', report, he3, h3, _, mid, bgFills, ⟨he1, he2, rfl, hsub, h1, hy1, hflow, h2, hy2,
      .inr ⟨Nat.pos_of_ne_zero hz, s, fills, hqty, hchild⟩⟩⟩

/-- A finished episode stands still. -/
theorem stepImpl_done {B : Type} [MatchingBook B] {env : SimEnv B Ring Clock F} (hd : env.done = true)
    (cast : Casts F D) (sizeFrac aggression : F) :
    env.stepImpl cast sizeFrac aggression = some (env, ⟨((0 : Nat) : F), [], [], none, false⟩) := by
  rw [SimEnv.stepImpl, if_pos hd]

end SimEnv
end ExecutionPlatform.Bindings
