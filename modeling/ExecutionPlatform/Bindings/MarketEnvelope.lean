import ExecutionPlatform.Bindings.EpisodeLedger
import Mathlib.Tactic.Linarith
import Mathlib.Tactic.Positivity

/-! Who trades with whom, and at what prices: every fill is between a child order and a
synthetic bid below the mid, so no sale earns more than the arrival price. -/
namespace ExecutionPlatform.Bindings
open ExecutionPlatform.Core External Exec Foundations Episode SimEnv

/-- Synthetic bids are drawn just below the mid and synthetic asks just above it. -/
theorem drawOrder_price (arrivalMid : Price) (rng : Xorshift64) :
    ((drawOrder arrivalMid rng).1.1 = .buy → arrivalMid - 5 ≤ (drawOrder arrivalMid rng).1.2.1 ∧
      (drawOrder arrivalMid rng).1.2.1 ≤ arrivalMid - 1) ∧
    ((drawOrder arrivalMid rng).1.1 = .sell → arrivalMid + 1 ≤ (drawOrder arrivalMid rng).1.2.1) := by
  have hlt : (rng.next.2.next.1 % 5).toNat < 5 := by
    rw [BitVec.toNat_umod]
    exact Nat.mod_lt _ (by decide)
  simp only [drawOrder]
  split_ifs
  · exact ⟨fun _ => by simp only; lia, fun hs => by cases hs⟩
  · exact ⟨fun hs => by (cases hs), fun _ => by simp only; lia⟩

/-- A trade of a child order with a synthetic bid, inside the bids' band. -/
def Exchange (arrivalMid : Price) (flow : List (Nat × Submission)) (children : List Submission)
    (f : Fill) : Prop :=
  ∃ x ∈ flow, ∃ c ∈ children, x.2.side = .buy ∧ c.side = .sell ∧
    (f.takerId = c.id ∧ f.makerId = x.2.id ∨ f.takerId = x.2.id ∧ f.makerId = c.id) ∧
    arrivalMid - 5 ≤ f.price ∧ f.price ≤ arrivalMid - 1

theorem Exchange.mono {arrivalMid : Price} {flow flow' : List (Nat × Submission)}
    {children children' : List Submission} {f : Fill} (h : Exchange arrivalMid flow children f)
    (hflow : flow ⊆ flow') (hchildren : children ⊆ children') :
    Exchange arrivalMid flow' children' f := by
  obtain ⟨x, hx, c, hc, h⟩ := h
  exact ⟨x, hflow hx, c, hchildren hc, h⟩

section Trades
variable {F D : Type} {k : Nat} {env start mid : SimEnv RefBook Unit Unit F}
  {flow : List (Nat × Submission)} {children : List Submission}

theorem Ledger.bid_price (h : Ledger k env flow children) {x : Nat × Submission} (hx : x ∈ flow)
    (hs : x.2.side = .buy) : env.arrivalMid - 5 ≤ x.2.price ∧ x.2.price ≤ env.arrivalMid - 1 := by
  obtain ⟨rng, hdraw⟩ := h.drawn x hx
  have hprice := (drawOrder_price env.arrivalMid rng).1
  rw [← hdraw] at hprice
  exact hprice hs

theorem Ledger.ask_price (h : Ledger k env flow children) {x : Nat × Submission} (hx : x ∈ flow)
    (hs : x.2.side = .sell) : env.arrivalMid + 1 ≤ x.2.price := by
  obtain ⟨rng, hdraw⟩ := h.drawn x hx
  have hprice := (drawOrder_price env.arrivalMid rng).2
  rw [← hdraw] at hprice
  exact hprice hs

/-- Synthetic orders do not trade with each other. -/
theorem Ledger.no_synthetic_trade (h : Ledger k env flow children) {x y : Nat × Submission}
    (hx : x ∈ flow) (hy : y ∈ flow) {f : Fill} {o : Resting} (hpart : o.PartOf y.2.order) :
    ¬ Meets f x.2 o := by
  intro hmeets
  have hside : y.2.side = x.2.side.opposite := hpart.side.symm.trans hmeets.side
  have hcross := hmeets.crosses
  rw [hpart.price] at hcross
  cases hs : x.2.side with
  | buy =>
    rw [hs] at hside hcross
    have h1 := h.bid_price hx hs
    have h2 := h.ask_price hy hside
    have h3 : y.2.price ≤ x.2.price := of_decide_eq_true hcross
    lia
  | sell =>
    rw [hs] at hside hcross
    have h1 := h.ask_price hx hs
    have h2 := h.bid_price hy hside
    have h3 : x.2.price ≤ y.2.price := of_decide_eq_true hcross
    lia

/-- What the flow trades, it trades with children. -/
theorem Ledger.flow_exchange {new : List Submission} {fills : List Fill}
    (hstart : Ledger 0 start flow children)
    (hmid : Ledger k mid (flow ++ new.map fun s => (start.stepIdx, s)) children)
    (hfloor : ∀ c ∈ children, start.arrivalMid - 5 ≤ c.price)
    (hflow : FlowEffect k start mid new fills) {f : Fill} (hf : f ∈ fills) :
    Exchange start.arrivalMid (flow ++ new.map fun s => (start.stepIdx, s)) children f := by
  obtain ⟨s, hs, hmaker⟩ := hflow.fills f hf
  have hx : (start.stepIdx, s) ∈ flow ++ new.map fun s => (start.stepIdx, s) :=
    List.mem_append_right _ (List.mem_map_of_mem hs)
  rcases hmaker with ⟨m, hm, hmeets⟩ | ⟨s', hs', hmeets⟩
  · rcases hstart.orders m hm with ⟨y, hy, -, hpart⟩ | ⟨c, hc, hpart⟩
    · exact absurd hmeets (hmid.no_synthetic_trade hx (List.mem_append_left _ hy) hpart)
    · -- a resting child ask within the limit of a synthetic bid
      have hsell : s.side.opposite = .sell :=
        hmeets.side.symm.trans (hpart.side.trans (hstart.sells c hc))
      have hbuy : s.side = .buy := by
        cases hside : s.side with
        | buy => rfl
        | sell =>
          rw [hside] at hsell
          cases hsell
      have hlimit := (hmid.bid_price hx hbuy).2
      have hcross := hmeets.crosses
      rw [hbuy] at hcross
      have hle : m.price ≤ s.price := of_decide_eq_true hcross
      have hlow := hfloor c hc
      rw [hflow.account.arrivalMid] at hlimit
      refine ⟨_, hx, c, hc, hbuy, hstart.sells c hc, .inr ⟨hmeets.taker, hmeets.maker.trans hpart.id⟩,
        ?_, ?_⟩
      · rw [hmeets.price, hpart.price]
        exact hlow
      · rw [hmeets.price]
        exact hle.trans hlimit
  · have hy : (start.stepIdx, s') ∈ flow ++ new.map fun s => (start.stepIdx, s) :=
      List.mem_append_right _ (List.mem_map_of_mem hs')
    exact absurd hmeets (hmid.no_synthetic_trade hx hy (.refl _))

variable [MachineFloat F] [MachineFloat D] {cast : Casts F D}

/-- A child order is never priced below the lowest synthetic bid. -/
theorem Ledger.childPx_floor (h : Ledger k mid flow children)
    (hfloor : ∀ c ∈ children, mid.arrivalMid - 5 ≤ c.price) (aggression : F) :
    mid.arrivalMid - 5 ≤ mid.childPx aggression := by
  rcases mid.childPx_cases aggression with ⟨o, ho, hpx⟩ | hpx | hpx
  · rw [hpx]
    rcases h.orders o ho with ⟨x, hx, -, hpart⟩ | ⟨c, hc, hpart⟩
    · rw [hpart.price]
      change mid.arrivalMid - 5 ≤ x.2.price
      cases hside : x.2.side with
      | buy => exact (h.bid_price hx hside).1
      | sell =>
        have := h.ask_price hx hside
        lia
    · rw [hpart.price]
      exact hfloor c hc
  · lia
  · lia

/-- A child sells to resting synthetic bids. -/
theorem Ledger.child_exchange {aggression : F} {s : Submission} {new : List Submission}
    {bgFills fills : List Fill} {report : StepReport F} (h : Ledger k mid flow children)
    (hchild : ChildEffect cast aggression mid env s new bgFills fills report) {f : Fill}
    (hf : f ∈ fills) : Exchange mid.arrivalMid flow (children ++ [s]) f := by
  obtain ⟨m, hm, hmeets⟩ := hchild.fills f hf
  have hbuy : m.side = .buy := by
    rw [hmeets.side, hchild.side]
    rfl
  rcases h.orders m hm with ⟨x, hx, -, hpart⟩ | ⟨c, hc, hpart⟩
  · have hside : x.2.side = .buy := hpart.side.symm.trans hbuy
    have hprice : f.price = x.2.price := hmeets.price.trans hpart.price
    refine ⟨x, hx, s, List.mem_append_right _ (List.mem_singleton_self s), hside, hchild.side,
      .inl ⟨hmeets.taker, hmeets.maker.trans hpart.id⟩, ?_⟩
    rw [hprice]
    exact h.bid_price hx hside
  · have hsell : m.side = .sell := hpart.side.trans (h.sells c hc)
    rw [hbuy] at hsell
    cases hsell

end Trades

theorem sum_cash_le {fills : List Fill} {p : Price} (h : ∀ f ∈ fills, f.price ≤ p) :
    (fills.map fun f => f.price * (f.qty : Int)).sum ≤ p * ((fills.map Fill.qty).sum : Nat) := by
  induction fills with
  | nil => simp
  | cons f fills ih =>
    have hone : f.price * (f.qty : Int) ≤ p * f.qty :=
      mul_le_mul_of_nonneg_right (h f List.mem_cons_self) (Int.natCast_nonneg _)
    have hrest := ih fun g hg => h g (List.mem_cons_of_mem f hg)
    rw [List.map_cons, List.sum_cons, List.map_cons, List.sum_cons, Nat.cast_add, mul_add]
    exact add_le_add hone hrest

/-- The same account, for exact arithmetic. -/
def EnvState.exact {F : Type} (s : EnvState F) : EnvState ℚ := { s with stateBuf := [] }

private theorem holding_nonneg (s : EnvState ℚ) : 0 ≤ kPhi * s.invFrac * s.invFrac := by
  change (0 : ℚ) ≤ ((1 : Nat) : ℚ) * (s.remaining / s.parentQty) * (s.remaining / s.parentQty)
  positivity

private theorem quadPenalty_nonpos (s : EnvState ℚ) : (s.quadPenalty : ℚ) ≤ 0 := by
  have hkappa : (0 : ℚ) ≤ kKappa := Nat.cast_nonneg 1000
  rw [s.quadPenalty_eq]
  exact neg_nonpos.mpr (mul_nonneg hkappa (sq_nonneg _))

/-- Sales below the mid cost something against it. -/
theorem fillReward_nonpos (s : EnvState ℚ) {filled : Quantity} {cash : Int}
    (h : cash ≤ (s.arrivalMid - 1) * (filled : Int)) : s.fillReward exactCasts filled cash ≤ 0 := by
  rw [EnvState.fillReward]
  obtain ⟨s0, hs0⟩ : ∃ s0 : Int, (if 0 < s.arrivalMid then s.arrivalMid else 1) = s0 := ⟨_, rfl⟩
  rw [hs0]
  have hpos : 0 < s0 ∧ s.arrivalMid ≤ s0 := by
    rw [← hs0]
    split_ifs <;> lia
  have hle : cash - filled * s0 ≤ 0 := by
    have : (s.arrivalMid - 1) * (filled : Int) ≤ s0 * filled :=
      mul_le_mul_of_nonneg_right (by lia) (Int.natCast_nonneg _)
    linarith
  have hle' : ((cash : ℚ) - (filled : ℚ) * (s0 : ℚ)) ≤ 0 := by exact_mod_cast hle
  have hs0' : (0 : ℚ) < s0 := by exact_mod_cast hpos.1
  split_ifs with hf
  · change ((cash : ℚ) - (filled : ℚ) * (s0 : ℚ)) / s0 * ((10000 : Nat) : ℚ) / (s.parentQty : ℚ) ≤ 0
    refine div_nonpos_of_nonpos_of_nonneg ?_ (Nat.cast_nonneg _)
    exact mul_nonpos_of_nonpos_of_nonneg (div_nonpos_of_nonpos_of_nonneg hle' hs0'.le) (Nat.cast_nonneg _)
  · exact le_rfl

/-- In exact arithmetic no step that sells below the mid earns anything. -/
theorem stepReward_nonpos (s s' : EnvState ℚ) (sent charged : Bool)
    (h : s'.cashFromFills - s.cashFromFills ≤
      (s.arrivalMid - 1) * ((s'.qtyFilled - s.qtyFilled : Nat) : Int)) :
    stepReward exactCasts s s' sent charged ≤ 0 := by
  have hhold := holding_nonneg s
  have hhold' := holding_nonneg s'
  have hfill := fillReward_nonpos s h
  have hquad := quadPenalty_nonpos s'
  have hbase : s.fillReward exactCasts (s'.qtyFilled - s.qtyFilled)
      (s'.cashFromFills - s.cashFromFills) - kPhi * s'.invFrac * s'.invFrac ≤ 0 :=
    sub_nonpos.mpr (hfill.trans hhold')
  have hidle : -kPhi * s.invFrac * s.invFrac ≤ 0 := by
    have heq : -kPhi * s.invFrac * s.invFrac = -(kPhi * s.invFrac * s.invFrac) := by
      change -((1 : Nat) : ℚ) * (s.remaining / s.parentQty) * (s.remaining / s.parentQty) =
        -(((1 : Nat) : ℚ) * (s.remaining / s.parentQty) * (s.remaining / s.parentQty))
      ring
    rw [heq]
    exact neg_nonpos.mpr hhold
  rw [stepReward]
  split_ifs
  · exact add_nonpos hbase hquad
  · exact hbase
  · exact hidle
section Runs
variable {Ring Clock F D : Type} [EventRing Ring] [ClockFn Clock] [MachineFloat F] [MachineFloat D]
  {cast : Casts F D} {parentQty horizonSteps : Nat} {arrivalMid : Price}

/-- An episode that traded inside the envelope only. -/
structure Enveloped (EP : Episode RefBook Unit Unit F) : Prop where
  floor : ∀ c ∈ EP.children, EP.env.arrivalMid - 5 ≤ c.price
  fills : ∀ f ∈ EP.fills, Exchange EP.env.arrivalMid EP.flow EP.children f
  cash : EP.env.cashFromFills ≤ (EP.env.arrivalMid - 1) * EP.env.qtyFilled

/-- The fills up to the child order are inside the envelope, those of the synthetic flow too. -/
theorem Enveloped.flow_exchange {x y : F} {EP : Episode RefBook Unit Unit F}
    {E' start mid : SimEnv RefBook Unit Unit F} {report : StepReport F} {bgFills : List Fill}
    (h : Enveloped EP) (hL : Ledger 0 EP.env EP.flow EP.children)
    (heffect : StepEffect cast x y EP.env E' report start mid bgFills) {f : Fill}
    (hf : f ∈ EP.fills ++ bgFills) :
    Exchange EP.env.arrivalMid (EP.record E' (.ok report)).flow EP.children f := by
  obtain ⟨hstart, hmid, -⟩ := hL.stepped heffect
  have hidx : start.stepIdx = EP.env.stepIdx ∧ start.arrivalMid = EP.env.arrivalMid := by
    rw [heffect.churn]
    exact ⟨rfl, rfl⟩
  rcases List.mem_append.mp hf with hf | hf
  · exact (h.fills f hf).mono (List.subset_append_left ..) (List.Subset.refl _)
  · simp only [Episode.record, ← hidx.1] at hmid
    have hx := hstart.flow_exchange hmid (hidx.2 ▸ h.floor) heffect.flow hf
    rw [hidx.1, hidx.2] at hx
    exact hx

/-- A live step keeps the envelope, and what it adds to the cash is below the mid too. -/
theorem Enveloped.step {x y : F} {EP : Episode RefBook Unit Unit F}
    {E' start mid : SimEnv RefBook Unit Unit F} {report : StepReport F} {bgFills : List Fill}
    (h : Enveloped EP) (hL : Ledger 0 EP.env EP.flow EP.children)
    (heffect : StepEffect cast x y EP.env E' report start mid bgFills) :
    Enveloped (EP.record E' (.ok report)) ∧
      E'.cashFromFills - EP.env.cashFromFills ≤
        (EP.env.arrivalMid - 1) * (E'.qtyFilled - EP.env.qtyFilled : Nat) := by
  obtain ⟨-, hmid, -⟩ := hL.stepped heffect
  have hacc := flow_account heffect
  have hbefore : ∀ f ∈ EP.fills ++ bgFills,
      Exchange EP.env.arrivalMid (EP.record E' (.ok report)).flow EP.children f :=
    fun _ hf => h.flow_exchange hL heffect hf
  rcases heffect.branch with ⟨-, hidle⟩ | ⟨-, s, fills, -, hchild⟩
  · obtain ⟨rfl, hreport⟩ := Prod.mk.inj hidle
    have hnone : report.child = none := by rw [hreport]
    have hfills : report.fills = bgFills := by rw [hreport]
    rw [maybeCloseOut_eq]
    refine ⟨⟨?_, ?_, ?_⟩, ?_⟩
    · simp only [Episode.record, hnone, Option.toList_none, List.append_nil, hacc.arrivalMid]
      exact h.floor
    · simp only [Episode.record, hnone, Option.toList_none, List.append_nil, hacc.arrivalMid, hfills]
      exact hbefore
    · simp only [Episode.record, hacc.cashFromFills, hacc.arrivalMid, hacc.qtyFilled]
      exact h.cash
    · simp only [hacc.cashFromFills, hacc.qtyFilled, sub_self, Nat.sub_self, Nat.cast_zero, mul_zero,
        le_refl]
  · have hfloor := h.floor
    have hmidPx : mid.arrivalMid = EP.env.arrivalMid := hacc.arrivalMid
    have hsold : ∀ f ∈ fills, Exchange EP.env.arrivalMid (EP.record E' (.ok report)).flow
        (EP.children ++ [s]) f := fun f hf => hmidPx ▸ hmid.child_exchange hchild hf
    have hcash : (fills.map fun f => f.price * (f.qty : Int)).sum ≤
        (EP.env.arrivalMid - 1) * ((fills.map Fill.qty).sum : Nat) := by
      refine sum_cash_le fun f hf => ?_
      obtain ⟨-, -, -, -, -, -, -, -, hle⟩ := hsold f hf
      exact hle
    refine ⟨⟨?_, ?_, ?_⟩, ?_⟩
    · simp only [Episode.record, hchild.child, Option.toList_some, hchild.arrivalMid, hmidPx]
      intro c hc
      rcases List.mem_append.mp hc with hc | hc
      · exact h.floor c hc
      · obtain rfl := List.mem_singleton.mp hc
        rw [hchild.price, ← hmidPx]
        exact hmid.childPx_floor (hmidPx ▸ h.floor) y
    · intro f hf
      have hf' : f ∈ EP.fills ++ report.fills := hf
      simp only [Episode.record, hchild.child, Option.toList_some, hchild.arrivalMid, hmidPx]
      rw [hchild.reported, ← List.append_assoc] at hf'
      rcases List.mem_append.mp hf' with hf' | hf'
      · exact (hbefore f hf').mono (List.Subset.refl _) (List.subset_append_left ..)
      · exact hsold f hf'
    · simp only [Episode.record, hchild.cashFromFills, hchild.arrivalMid, hchild.qtyFilled,
        hacc.cashFromFills, hacc.arrivalMid, hacc.qtyFilled, Nat.cast_add, mul_add]
      exact add_le_add h.cash hcash
    · rw [hchild.cashFromFills, hchild.qtyFilled, hacc.cashFromFills, hacc.qtyFilled,
        add_sub_cancel_left, Nat.add_sub_cancel_left]
      exact hcash

theorem reachable_enveloped {ok : Episode RefBook Unit Unit F → Call F → Prop}
    {EP : Episode RefBook Unit Unit F}
    (h : (refEpisodes cast parentQty horizonSteps arrivalMid).ReachableVia ok EP) : Enveloped EP := by
  refine (ref_invariant (I := fun EP => Enveloped EP ∧ Ledger 0 EP.env EP.flow EP.children)
    ?_ ?_ ?_ h).1.1
  · intro seed E hopen _
    refine ⟨⟨by simp [start], by simp [start], ?_⟩, .opened hopen⟩
    change E.cashFromFills ≤ _
    rw [hopen.cashFromFills]
    change 0 ≤ (E.arrivalMid - 1) * E.qtyFilled
    rw [hopen.qtyFilled, Nat.cast_zero, mul_zero]
  · exact fun EP hI => ⟨{ hI.1 with }, { hI.2 with }⟩
  · intro EP E' report start mid bgFills x y rest _ _ _ _ _ heffect hI
    exact ⟨(hI.1.step hI.2 heffect).1, (hI.2.stepped heffect).2.2⟩

/-- The market envelope: every fill pairs a child sell with a synthetic buy inside the bids'
band, the average sale is below the mid, and the exact reward of every step is at most 0. -/
theorem market_envelope {checked : Bool} {ep : Episode OrderBook Ring Clock F}
    (h : (episodes cast parentQty horizonSteps arrivalMid checked).Reachable ep) :
    (∀ f ∈ ep.fills, Exchange arrivalMid ep.flow ep.children f) ∧
    (∀ x ∈ ep.flow, ∀ c ∈ ep.children, x.2.id ≠ c.id) ∧
    (0 < ep.env.qtyFilled → (ep.env.avgFillPrice : ℚ) < arrivalMid) ∧
    ∀ action e report, ep.env.step cast action = some (e, .ok report) →
      (ep.env.done = true → report.reward = ((0 : Nat) : F)) ∧
      (ep.env.done = false →
        report.reward =
          stepReward cast ep.env.toEnvState e.toEnvState report.child.isSome report.charged ∧
        stepReward exactCasts ep.env.toEnvState.exact e.toEnvState.exact report.child.isSome
          report.charged ≤ 0) := by
  obtain ⟨EP, hreach, hf, hT⟩ := reachable_follows (P := fun _ _ => True) (fun _ _ _ => trivial) h
  have hL := reachable_ledger hreach
  have hE := reachable_enveloped hreach
  have hparams := (reachable_params hreach).2
  have hstate := hf.env.state
  refine ⟨?_, ?_, fun hq => ?_, fun action e report hstep => ?_⟩
  · rw [hf.fills, hf.flow, hf.children, ← hparams.arrivalMid]
    exact hE.fills
  · rw [hf.flow, hf.children]
    exact hL.apart
  · rw [SimEnv.avgFillPrice, if_neg hq.ne', hstate]
    have hq' : (0 : ℚ) < EP.env.qtyFilled := by
      rw [hstate] at hq
      exact_mod_cast hq
    have hcash := hE.cash
    rw [hparams.arrivalMid] at hcash
    have hlt : EP.env.cashFromFills < arrivalMid * EP.env.qtyFilled := by
      rw [hstate] at hq
      have hpos : (0 : Int) < EP.env.qtyFilled := by exact_mod_cast hq
      linarith
    change (EP.env.cashFromFills : ℚ) / (EP.env.qtyFilled : ℚ) < (arrivalMid : ℚ)
    rw [div_lt_iff₀ hq']
    exact_mod_cast hlt
  · obtain ⟨E', out, hstep', -, hcases⟩ := ref_step hT cast action
    obtain ⟨e', he, hm⟩ := hf.env.step hT hstep'
    obtain ⟨rfl, rfl⟩ := Prod.mk.inj (Option.some.inj (he.symm.trans hstep))
    refine ⟨fun hd => ?_, fun hd => ?_⟩
    · rw [(step_done hd hstep).1]
    · rcases hcases with ⟨msg, hout, -⟩ | ⟨sizeFrac, aggression, rest, rfl, hcases⟩
      · cases hout
      rw [hstate] at hd ⊢
      rcases hcases with ⟨hd', -⟩ | ⟨-, E1, report', start, mid, bgFills, -, heffect, rfl, hout⟩
      · rw [hd] at hd'
        cases hd'
      · cases hout
        rw [hm.state]
        have hreward := step_reward heffect
        exact ⟨hreward, stepReward_nonpos _ _ _ _ (hE.step hL heffect).2⟩

/-- Two marketable steps, in the second of which a child residual is bought. -/
theorem market_envelope_two_steps :
    ∃ ep : Episode OrderBook Unit Unit ℚ, ep.env.qtyFilled = 89 ∧ ep.fills ≠ [] ∧
      (∀ f ∈ ep.fills, Exchange 100 ep.flow ep.children f) ∧ (ep.env.avgFillPrice : ℚ) < 100 := by
  obtain ⟨ep, EP, hreach, hrun, hf⟩ := exists_run exactCasts () () 1000 32 100 true 2
    [.step [(1 : ℚ), 1], .step [1, 1]] (P := fun _ => True) fun _ _ => trivial
  have hval : (refRun exactCasts 1000 32 100 2 [.step [(1 : ℚ), 1], .step [1, 1]]).map
      (fun EP => (EP.env.qtyFilled, EP.fills.isEmpty)) = some (89, false) := by decide +kernel
  rw [hrun] at hval
  obtain ⟨hqty, hsome⟩ := Prod.mk.inj (Option.some.inj hval)
  rw [← congrArg EnvState.qtyFilled hf.env.state] at hqty
  rw [← hf.fills] at hsome
  obtain ⟨hfills, -, havg, -⟩ := market_envelope hreach
  refine ⟨ep, hqty, fun hnil => ?_, hfills, ?_⟩
  · rw [hnil] at hsome
    cases hsome
  · exact havg (by rw [hqty]; decide)

end Runs
end ExecutionPlatform.Bindings
