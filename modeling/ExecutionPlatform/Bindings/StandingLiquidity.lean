import ExecutionPlatform.Bindings.EpisodeLedger

/-! How much synthetic liquidity can rest at once, and for how long. -/
namespace ExecutionPlatform.Bindings
open ExecutionPlatform.Core External Exec Foundations Episode SimEnv

/-- The order is one of the synthetic orders of the record. -/
def synthetic (flow : List (Nat × Submission)) (o : Resting) : Bool :=
  decide (o.id ∈ flow.map fun x => x.2.id)

/-- The book shows what is left of the record's orders and nothing else: at most so many
synthetic ones, and no other bids. -/
def Standing {Ring Clock F : Type} (env : SimEnv OrderBook Ring Clock F)
    (flow : List (Nat × Submission)) (children : List Submission) (limit : Nat) : Prop :=
  ∃ R, env.publisher.book.Shows R ∧
    (∀ o ∈ R.orders, (∃ x ∈ flow, o.PartOf x.2.order) ∨ ∃ c ∈ children, o.PartOf c.order) ∧
    (∀ x ∈ flow, ∀ c ∈ children, x.2.id ≠ c.id) ∧
    (R.orders.filter (synthetic flow)).length ≤ limit ∧
    (∀ o ∈ R.orders, o.side = .buy → synthetic flow o = true) ∧ depth .buy R.orders ≤ 36 * 49

section Reference
variable {F D : Type} {k : Nat} {env : SimEnv RefBook Unit Unit F} {flow : List (Nat × Submission)}
  {children : List Submission}

/-- A resting synthetic order still waits in the churn queue. -/
theorem Ledger.waits (h : Ledger k env flow children) (hT : env.Tracked k) {o : Resting}
    (ho : o ∈ env.orders) (hs : synthetic flow o = true) : o.id ∈ env.bgIds.drop env.bgHead := by
  obtain ⟨x, hx, hid⟩ := List.mem_map.mp (of_decide_eq_true hs)
  rcases h.orders o ho with ⟨x', hx', hacc, hpart⟩ | ⟨c, hc, hpart⟩
  · have hin : o.id ∈ env.bgIds := by
      rw [h.bgIds]
      exact List.mem_map.mpr ⟨x', List.mem_filter.mpr ⟨hx', hacc⟩, hpart.id.symm⟩
    rcases hT.kept o ho with hk | ⟨-, hout⟩
    · exact hk.1
    · exact absurd hin hout
  · exact absurd (hid.trans hpart.id) (h.apart x hx c hc)

/-- What is left of a synthetic order, or of a child order. -/
theorem Ledger.origin (h : Ledger k env flow children) {o : Resting} (ho : o ∈ env.orders) :
    (∃ x ∈ flow, o.PartOf x.2.order) ∨ ∃ c ∈ children, o.PartOf c.order :=
  (h.orders o ho).imp_left fun ⟨x, hx, _, hpart⟩ => ⟨x, hx, hpart⟩

theorem Ledger.bid_synthetic (h : Ledger k env flow children) {o : Resting} (ho : o ∈ env.orders)
    (hs : o.side = .buy) : synthetic flow o = true := by
  rcases h.orders o ho with ⟨x, hx, -, hpart⟩ | ⟨c, hc, hpart⟩
  · exact decide_eq_true (List.mem_map.mpr ⟨x, hx, hpart.id.symm⟩)
  · have hsell := hpart.side.trans (h.sells c hc)
    rw [hs] at hsell
    cases hsell

/-- What waits in the queue was born when the record says. -/
theorem Ledger.birth (h : Ledger k env flow children) {id : OrderId}
    (hq : id ∈ env.bgIds.drop env.bgHead) {x : Nat × Submission} (hx : x ∈ flow) (hid : x.2.id = id) :
    x.1 ∈ env.bgBirth.drop env.bgHead := by
  rw [h.bgIds, ← List.map_drop] at hq
  obtain ⟨y, hy, hid'⟩ := List.mem_map.mp hq
  have hmem : y ∈ flow := (List.mem_filter.mp (List.mem_of_mem_drop hy)).1
  obtain rfl : x = y := List.inj_on_of_nodup_map h.nodup hx hmem (hid.trans hid'.symm)
  rw [h.bgBirth, ← List.map_drop]
  exact List.mem_map_of_mem hy

/-- The bounds of a reference environment whose queue is young enough. -/
theorem Ledger.bounded (h : Ledger k env flow children) (hT : env.Tracked k) (age : Nat)
    (hy : ∀ birth ∈ env.bgBirth.drop env.bgHead, env.stepIdx ≤ birth + age)
    (hk : 12 * age + k ≤ 36) {Ring Clock : Type} {e : SimEnv OrderBook Ring Clock F}
    (hm : e.Mirrors env) : Standing e flow children (12 * age + k) := by
  obtain ⟨rs, hr⟩ := hm.book
  refine ⟨env.publisher.book, hr.shows, fun o ho => h.origin ho, h.apart, ?_,
    fun o ho hs => h.bid_synthetic ho hs, ?_⟩
  · refine (hT.length_le List.filter_sublist fun o ho => ?_).trans (hT.queue_le age hy)
    obtain ⟨hmem, hs⟩ := List.mem_filter.mp ho
    exact h.waits hT hmem hs
  · exact (hT.depth_le age hy).trans (Nat.mul_le_mul_right 49 hk)

variable [MachineFloat F] [MachineFloat D] {cast : Casts F D}

/-- Between steps nothing in the queue is older than three. -/
theorem reachable_seasoned {parentQty horizonSteps : Nat} {arrivalMid : Price}
    {ok : Episode RefBook Unit Unit F → Call F → Prop} {EP : Episode RefBook Unit Unit F}
    (h : (refEpisodes cast parentQty horizonSteps arrivalMid).ReachableVia ok EP) :
    ∀ birth ∈ EP.env.bgBirth.drop EP.env.bgHead, EP.env.stepIdx ≤ birth + 3 := by
  refine (ref_invariant (I := fun EP => ∀ birth ∈ EP.env.bgBirth.drop EP.env.bgHead,
    EP.env.stepIdx ≤ birth + 3) ?_ (fun EP hI => hI) ?_ h).1
  · intro seed E hopen _ birth hb
    change birth ∈ E.bgBirth.drop E.bgHead at hb
    rw [hopen.bgBirth, List.drop_nil] at hb
    cases hb
  · intro EP E' report start mid bgFills x y rest _ _ _ _ _ heffect _ birth hb
    have hmid : birth ∈ mid.bgBirth.drop mid.bgHead ∧ E'.stepIdx = mid.stepIdx + 1 := by
      change birth ∈ E'.bgBirth.drop E'.bgHead at hb
      rcases heffect.branch with ⟨-, hidle⟩ | ⟨-, s, fills, -, hchild⟩
      · obtain ⟨rfl, -⟩ := Prod.mk.inj hidle
        rw [maybeCloseOut_eq] at hb ⊢
        exact ⟨hb, rfl⟩
      · rw [hchild.bgBirth, hchild.bgHead] at hb
        exact ⟨hb, hchild.stepIdx⟩
    have hyoung := heffect.young_mid birth hmid.1
    change E'.stepIdx ≤ birth + 3
    rw [kLiquidityLifetimeSteps] at hyoung
    exact hmid.2 ▸ hyoung

end Reference

/-- Standing liquidity is bounded: at every step boundary, after every churn and after every
flow. Whatever rests is left of an order of the present episode; and what the churn leaves is
left of a child order or was sent in the last two steps. -/
theorem standing_liquidity {Ring Clock F D : Type} [EventRing Ring] [ClockFn Clock] [MachineFloat F]
    [MachineFloat D] {cast : Casts F D} {parentQty horizonSteps : Nat} {arrivalMid : Price}
    {checked : Bool} {ep : Episode OrderBook Ring Clock F}
    (h : (episodes cast parentQty horizonSteps arrivalMid checked).Reachable ep) :
    Standing ep.env ep.flow ep.children 36 ∧
    (ep.env.done = false → ∃ churned mid new fills,
      expireLiquidity (ep.env.bgIds.length + 1) ep.env = some churned ∧
      SimEnv.backgroundFlow 12 churned = some (mid, new, fills) ∧
      Standing churned ep.flow ep.children 24 ∧
      (∀ side px, ∀ o ∈ churned.publisher.book.levelOrders side px,
        (∃ x ∈ ep.flow, o.PartOf x.2.order ∧
          (x.1 + 2 = ep.env.stepIdx ∨ x.1 + 1 = ep.env.stepIdx)) ∨
        ∃ c ∈ ep.children, o.PartOf c.order) ∧
      (∀ side px, ∀ o ∈ churned.publisher.book.levelOrders side px, ∀ x ∈ ep.flow, x.2.id = o.id →
        x.1 + 2 = ep.env.stepIdx ∨ x.1 + 1 = ep.env.stepIdx) ∧
      Standing mid (ep.flow ++ new.map fun s => (ep.env.stepIdx, s)) ep.children 36) := by
  obtain ⟨EP, hreach, hf, hT⟩ := reachable_follows (P := fun _ _ => True) (fun _ _ _ => trivial) h
  have hL := reachable_ledger hreach
  have hseason := reachable_seasoned hreach
  have hm := hf.env
  have hidx : ep.env.stepIdx = EP.env.stepIdx := congrArg EnvState.stepIdx hm.state
  have hbg : ep.env.bgIds = EP.env.bgIds := congrArg EnvState.bgIds hm.state
  rw [hf.flow, hf.children]
  refine ⟨hL.bounded hT 3 hseason le_rfl hm, fun _ => ?_⟩
  have hfuel : EP.env.bgIds.length - EP.env.bgHead < EP.env.bgIds.length + 1 :=
    Nat.lt_succ_of_le (Nat.sub_le ..)
  obtain ⟨p, head, hE1, hT1, hy1, hsub⟩ := hT.expire hfuel
  obtain ⟨e1, he1, hm1⟩ := hm.expire hE1
  obtain ⟨E2, new, fills, hE2, hT2, hy2, hflow⟩ := hT1.backgroundFlow 12 hy1
  obtain ⟨e2, he2, hm2⟩ := hm1.backgroundFlow 12 hT1 hy1 hE2
  have hL1 : Ledger 0 { EP.env with publisher := p, bgHead := head } EP.flow EP.children :=
    hL.churned rfl hsub
  have hL2 := hL1.flowed le_rfl hflow
  have hbirth : ∀ o ∈ p.book.orders, ∀ x ∈ EP.flow, x.2.id = o.id →
      x.1 + 2 = ep.env.stepIdx ∨ x.1 + 1 = ep.env.stepIdx := by
    intro o ho x hx hid
    have hwait := hL1.waits hT1 ho (decide_eq_true (List.mem_map.mpr ⟨x, hx, hid⟩))
    have hyoung := hy1 x.1 (hL1.birth hwait hx hid)
    have hborn := hL.born x hx
    have hpast : x.1 ≠ EP.env.stepIdx := by
      have hzero := List.countP_eq_zero.mp (Nat.le_zero.mp hL.present) x hx
      simpa using hzero
    change EP.env.stepIdx < x.1 + 3 at hyoung
    rw [hidx]
    omega
  have hrests : ∀ side px, ∀ o ∈ e1.publisher.book.levelOrders side px, o ∈ p.book.orders := by
    intro side px o ho
    obtain ⟨rs, hr⟩ := hm1.book
    rw [hr.shows.levelOrders] at ho
    exact (List.mem_filter.mp ho).1
  refine ⟨e1, e2, new, fills, hbg ▸ he1, he2, ?_, ?_, ?_, ?_⟩
  · exact hL1.bounded hT1 2 (fun birth hb => Nat.le_of_lt_succ (hy1 birth hb)) (by decide) hm1
  · intro side px o ho
    have hmem := hrests side px o ho
    refine (hL1.origin hmem).imp_left fun ⟨x, hx, hpart⟩ => ?_
    exact ⟨x, hx, hpart, hbirth o hmem x hx hpart.id.symm⟩
  · exact fun side px o ho => hbirth o (hrests side px o ho)
  · rw [hidx]
    exact hL2.bounded hT2 2 (fun birth hb => Nat.le_of_lt_succ (hy2 birth hb)) le_rfl hm2

/-- After two steps the third one's churn leaves at most 24 synthetic orders. -/
theorem standing_liquidity_third_step :
    ∃ (ep : Episode OrderBook Unit Unit ℚ) (churned : SimEnv OrderBook Unit Unit ℚ),
      ep.env.stepIdx = 2 ∧ expireLiquidity (ep.env.bgIds.length + 1) ep.env = some churned ∧
      Standing ep.env ep.flow ep.children 36 ∧ Standing churned ep.flow ep.children 24 := by
  obtain ⟨ep, EP, hreach, hrun, hf⟩ := exists_run exactCasts () () 1000 32 100 true 2
    [.step [(1 : ℚ), 1], .step [0, 0]] (P := fun _ => True) fun _ _ => trivial
  have hval : (refRun exactCasts 1000 32 100 2 [.step [(1 : ℚ), 1], .step [0, 0]]).map
      (fun EP => (EP.env.stepIdx, EP.env.done)) = some (2, false) := by decide +kernel
  rw [hrun] at hval
  obtain ⟨hidx, hd⟩ := Prod.mk.inj (Option.some.inj hval)
  rw [← congrArg EnvState.stepIdx hf.env.state] at hidx
  rw [← congrArg EnvState.done hf.env.state] at hd
  obtain ⟨hnow, hstep⟩ := standing_liquidity hreach
  obtain ⟨churned, -, -, -, hchurned, -, hbound, -⟩ := hstep hd
  exact ⟨ep, churned, hidx, hchurned, hnow, hbound⟩

end ExecutionPlatform.Bindings
