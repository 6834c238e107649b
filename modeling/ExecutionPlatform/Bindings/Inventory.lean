import ExecutionPlatform.Bindings.EpisodeIndependence
import ExecutionPlatform.Bindings.EpisodeLedger

/-! What the environment knows of the agent's inventory. It books a child order's fills when
the child is sent; a residual that is bought later moves nothing, and a run in which no
residual is bought keeps the books right. -/
namespace ExecutionPlatform.Bindings
open ExecutionPlatform.Core External Exec Foundations Episode SimEnv

namespace Episode
variable {B Ring Clock F : Type}

/-- One of the child orders takes part in the fill. -/
def involves (children : List Submission) (f : Fill) : Bool :=
  decide (f.takerId ∈ children.map Submission.id ∨ f.makerId ∈ children.map Submission.id)

/-- The quantity that the child orders traded. -/
def traded (children : List Submission) (fills : List Fill) : Quantity :=
  ((fills.filter (involves children)).map Fill.qty).sum

/-- The environment knows what was traded, and it was never more than the parent. -/
def InventoryKept (ep : Episode B Ring Clock F) : Prop :=
  traded ep.children ep.fills = ep.env.qtyFilled ∧ traded ep.children ep.fills ≤ ep.env.parentQty

theorem traded_append (children : List Submission) (fills fills' : List Fill) :
    traded children (fills ++ fills') = traded children fills + traded children fills' := by
  rw [traded, traded, traded, List.filter_append, List.map_append, List.sum_append]

theorem traded_none {children : List Submission} {fills : List Fill}
    (h : ∀ f ∈ fills, f.takerId ∉ children.map Submission.id ∧ f.makerId ∉ children.map Submission.id) :
    traded children fills = 0 := by
  have hnone : fills.filter (involves children) = [] := by
    refine List.filter_eq_nil_iff.mpr fun f hf hin => ?_
    exact (of_decide_eq_true hin).elim (h f hf).1 (h f hf).2
  rw [traded, hnone]
  rfl

theorem traded_all {children : List Submission} {fills : List Fill}
    (h : ∀ f ∈ fills, f.takerId ∈ children.map Submission.id) :
    traded children fills = (fills.map Fill.qty).sum := by
  have hall : fills.filter (involves children) = fills :=
    List.filter_eq_self.mpr fun f hf => decide_eq_true (.inl (h f hf))
  rw [traded, hall]

/-- A new child order takes part in no fill of orders sent before. -/
theorem traded_new {children : List Submission} {fills : List Fill} {s : Submission}
    (h : ∀ f ∈ fills, f.takerId < s.id ∧ f.makerId < s.id) :
    traded (children ++ [s]) fills = traded children fills := by
  have hsame : fills.filter (involves (children ++ [s])) = fills.filter (involves children) := by
    refine List.filter_congr fun f hf => ?_
    obtain ⟨ht, hm⟩ := h f hf
    simp only [involves, List.map_append, List.map_cons, List.map_nil, List.mem_append,
      List.mem_singleton, ht.ne, hm.ne, or_false]
  rw [traded, traded, hsame]

section Flow
variable [MatchingBook B] [EventRing Ring] [ClockFn Clock]

/-- The next order of the flow, with the book it meets once the slab-eviction guard has run. -/
def nextOrder (env : SimEnv B Ring Clock F) : Option (B × Side × Price) := do
  let ((side, px, _), rng) := drawOrder env.arrivalMid env.rng
  let env ← { env with rng := rng, nextId := env.nextId + 1 }.evict
  pure (env.publisher.book, side, px)

/-- None of the twelve orders that the flow of the next step sends crosses a child order that
rests when its turn comes; once the episode is over there is no such step. -/
def Unlifted (spares : B → List OrderId → Side → Price → Prop) (ep : Episode B Ring Clock F) : Prop :=
  ep.env.done = false → ∀ start ∈ expireLiquidity (ep.env.bgIds.length + 1) ep.env, ∀ k < 12,
    ∀ out ∈ start.backgroundFlow k, ∀ next ∈ nextOrder out.1,
      spares next.1 (ep.children.map Submission.id) next.2.1 next.2.2

end Flow

/-- A call with actions in [0, 1] that, if it runs a step, lifts no resting child order. -/
def QuietCall [MachineFloat F] (unlifted : Prop) (c : Call F) : Prop :=
  UnitCall c ∧ ∀ sizeFrac aggression rest, c = .step (sizeFrac :: aggression :: rest) → unlifted

end Episode

section Flow
variable {F : Type} {env env' : SimEnv RefBook Unit Unit F} {ids : List OrderId} {fills : List Fill}

/-- A synthetic order that spares the ids fills against none of them. -/
theorem order_spares {s : Submission} (h : env.backgroundOrder = some (env', s, fills))
    (hspares : ∀ next ∈ nextOrder env, next.1.Spares ids next.2.1 next.2.2) :
    ∀ f ∈ fills, f.makerId ∉ ids := by
  obtain ⟨⟨⟨side, px, qty⟩, rng⟩, hd⟩ : ∃ w, drawOrder env.arrivalMid env.rng = w := ⟨_, rfl⟩
  rw [SimEnv.backgroundOrder, hd] at h
  obtain ⟨env1, hev, h⟩ := Option.bind_eq_some_iff.mp h
  have hnext : nextOrder env = some (env1.publisher.book, side, px) := by
    rw [nextOrder, hd]
    exact Option.bind_eq_some_iff.mpr ⟨env1, hev, rfl⟩
  obtain ⟨out, hrun⟩ := publisher_addLimit env1.publisher env.nextId side px qty
  simp only [hrun, Option.bind_eq_bind, Option.bind_some] at h
  have hfills : fills = (env1.publisher.book.addLimit env.nextId side px qty).2.1 := by
    split_ifs at h <;> cases h <;> rfl
  rw [hfills]
  exact (hspares _ hnext).fills env.nextId qty

/-- So does a flow of such orders, by induction over its passes. -/
theorem flow_spares {n : Nat} {flow : List Submission}
    (h : env.backgroundFlow n = some (env', flow, fills))
    (hspares : ∀ k < n, ∀ out ∈ env.backgroundFlow k, ∀ next ∈ nextOrder out.1,
      next.1.Spares ids next.2.1 next.2.2) : ∀ f ∈ fills, f.makerId ∉ ids := by
  induction n generalizing env flow fills with
  | zero =>
    cases h
    exact fun f hf => absurd hf List.not_mem_nil
  | succ n ih =>
    obtain ⟨⟨env1, s1, fills1⟩, hone, h⟩ := Option.bind_eq_some_iff.mp h
    obtain ⟨⟨env2, flow2, fills2⟩, hrest, h⟩ := Option.bind_eq_some_iff.mp h
    cases h
    have hfirst := order_spares hone (hspares 0 (Nat.succ_pos n) (env, [], []) rfl)
    have hlater := ih hrest fun k hk out hout => by
      refine hspares (k + 1) (Nat.succ_lt_succ hk) (out.1, s1 :: out.2.1, fills1 ++ out.2.2) ?_
      rw [SimEnv.backgroundFlow, hone]
      simp only [Option.bind_eq_bind, Option.bind_some]
      exact Option.bind_eq_some_iff.mpr ⟨out, hout, rfl⟩
    intro f hf
    exact (List.mem_append.mp hf).elim (hfirst f) (hlater f)

end Flow

section Mirrored
variable {Ring Clock F : Type} [EventRing Ring] [ClockFn Clock]
  {e : SimEnv OrderBook Ring Clock F} {E : SimEnv RefBook Unit Unit F}

/-- Mirrored environments send the same next order to books that show the same. -/
theorem Mirrors.nextOrder {k : Nat} (h : e.Mirrors E) (hT : E.Tracked k) (ids : List OrderId) :
    ∃ next Next, Bindings.Episode.nextOrder e = some next ∧ Bindings.Episode.nextOrder E = some Next ∧
      (next.1.Spares ids next.2.1 next.2.2 ↔ Next.1.Spares ids Next.2.1 Next.2.2) := by
  obtain ⟨s, p, fusedSeq⟩ := e
  obtain ⟨S, P, FusedSeq⟩ := E
  obtain ⟨hs, hb⟩ := h
  obtain rfl : s = S := hs
  obtain ⟨⟨⟨side, px, qty⟩, rng⟩, hd⟩ : ∃ w, drawOrder s.arrivalMid s.rng = w := ⟨_, rfl⟩
  have hT1 : Tracked k ⟨{ s with rng := rng, nextId := s.nextId + 1 }, P, FusedSeq⟩ :=
    { hT with
      fresh := fun o ho => Nat.lt_succ_of_lt (hT.fresh o ho)
      issued := fun id hi => Nat.lt_succ_of_lt (hT.issued id hi) }
  have h1 : SimEnv.Mirrors ⟨{ s with rng := rng, nextId := s.nextId + 1 }, p, fusedSeq⟩
      ⟨{ s with rng := rng, nextId := s.nextId + 1 }, P, FusedSeq⟩ := ⟨rfl, hb⟩
  obtain ⟨P1, restingIds, hE1, -, -⟩ := hT1.evict
  obtain ⟨e1, he1, h2⟩ := h1.evict hE1
  obtain ⟨rs, hr⟩ := h2.book
  refine ⟨(e1.publisher.book, side, px), (P1.book, side, px), ?_, ?_, hr.spares_iff ids side px⟩
  · rw [Episode.nextOrder, hd]
    exact Option.bind_eq_some_iff.mpr ⟨e1, he1, rfl⟩
  · rw [Episode.nextOrder, hd]
    exact Option.bind_eq_some_iff.mpr ⟨_, hE1, rfl⟩

/-- An unlifted step is one over either book. -/
theorem Follows.unlifted_iff {ep : Episode OrderBook Ring Clock F} {EP : Episode RefBook Unit Unit F}
    (h : ep.Follows EP) (hT : EP.env.Tracked 0) :
    ep.Unlifted OrderBook.Spares ↔ EP.Unlifted RefBook.Spares := by
  have hfuel : EP.env.bgIds.length - EP.env.bgHead < EP.env.bgIds.length + 1 :=
    Nat.lt_succ_of_le (Nat.sub_le ..)
  obtain ⟨p, head, hE1, hT1, hy1, -⟩ := hT.expire hfuel
  obtain ⟨e1, he1, hm1⟩ := h.env.expire hE1
  have hstep : ∀ k, ∃ out Out, e1.backgroundFlow k = some out ∧
      SimEnv.backgroundFlow k { EP.env with publisher := p, bgHead := head } = some Out ∧
      ∃ next Next, nextOrder out.1 = some next ∧ nextOrder Out.1 = some Next ∧
        (next.1.Spares (EP.children.map Submission.id) next.2.1 next.2.2 ↔
          Next.1.Spares (EP.children.map Submission.id) Next.2.1 Next.2.2) := by
    intro k
    obtain ⟨E2, flow, fills, hE2, hT2, -, -⟩ := hT1.backgroundFlow k hy1
    obtain ⟨e2, he2, hm2⟩ := hm1.backgroundFlow k hT1 hy1 hE2
    exact ⟨_, _, he2, hE2, Mirrors.nextOrder hm2 hT2 _⟩
  have hids : ep.env.bgIds = EP.env.bgIds := congrArg EnvState.bgIds h.env.state
  have hdone : ep.env.done = EP.env.done := congrArg EnvState.done h.env.state
  rw [Unlifted, Unlifted, hids, hdone, he1, hE1, h.children]
  refine imp_congr_right fun _ => ?_
  simp only [Option.mem_some_iff, forall_eq']
  refine forall_congr' fun k => imp_congr_right fun _ => ?_
  obtain ⟨out, Out, ho, hO, next, Next, hn, hN, hiff⟩ := hstep k
  rw [ho, hO]
  simp only [Option.mem_some_iff, forall_eq']
  rw [hn, hN]
  simpa only [Option.mem_some_iff, forall_eq'] using hiff

end Mirrored

section Balance
variable {F D : Type} [MachineFloat F] [MachineFloat D] {cast : Casts F D}
  {EP : Episode RefBook Unit Unit F} {E' start mid : SimEnv RefBook Unit Unit F} {x y : F}
  {report : StepReport F} {bgFills : List Fill}

/-- The books of a reference episode agree with its fills, which name orders already sent. -/
structure Balanced (EP : Episode RefBook Unit Unit F) : Prop where
  known : traded EP.children EP.fills = EP.env.qtyFilled
  issued : ∀ f ∈ EP.fills, f.takerId < EP.env.nextId ∧ f.makerId < EP.env.nextId

/-- The flow of an unlifted step trades with no child order, old or new. -/
theorem flow_uninvolved (hL : Ledger 0 EP.env EP.flow EP.children) (hd : EP.env.done = false)
    (hquiet : EP.Unlifted RefBook.Spares)
    (heffect : StepEffect cast x y EP.env E' report start mid bgFills) {f : Fill} (hf : f ∈ bgFills) :
    f.takerId < mid.nextId ∧ f.makerId < mid.nextId ∧
      f.takerId ∉ EP.children.map Submission.id ∧ f.makerId ∉ EP.children.map Submission.id := by
  obtain ⟨hstart, hmid, -⟩ := hL.stepped heffect
  obtain ⟨s, hs, hmaker⟩ := heffect.flow.fills f hf
  have hnew : ∀ s ∈ report.flow, (EP.env.stepIdx, s) ∈ (EP.record E' (.ok report)).flow :=
    fun s hs => List.mem_append_right _ (List.mem_map_of_mem hs)
  have htaker : f.takerId = s.id := by
    rcases hmaker with ⟨m, -, hmeets⟩ | ⟨s', -, hmeets⟩ <;> exact hmeets.taker
  have hapart : s.id ∉ EP.children.map Submission.id := by
    intro hc
    obtain ⟨c, hc, hid⟩ := List.mem_map.mp hc
    exact hmid.apart _ (hnew s hs) c hc hid.symm
  have hspared : f.makerId ∉ EP.children.map Submission.id :=
    flow_spares heffect.flowed (hquiet hd start heffect.expired) f hf
  obtain ⟨z, hz, hid⟩ : ∃ z ∈ (EP.record E' (.ok report)).flow, f.makerId = z.2.id := by
    rcases hmaker with ⟨m, hm, hmeets⟩ | ⟨s', hs', hmeets⟩
    · rcases hstart.orders m hm with ⟨z, hz, -, hpart⟩ | ⟨c, hc, hpart⟩
      · exact ⟨z, List.mem_append_left _ hz, hmeets.maker.trans hpart.id⟩
      · rw [hmeets.maker, hpart.id] at hspared
        exact absurd (List.mem_map_of_mem hc) hspared
    · exact ⟨_, hnew s' hs', hmeets.maker⟩
  refine ⟨?_, ?_, htaker ▸ hapart, hspared⟩
  · rw [htaker]
    exact hmid.flow_issued _ (hnew s hs)
  · rw [hid]
    exact hmid.flow_issued z hz

/-- A live step that lifts no child order keeps the books right. -/
theorem Balanced.step (h : Balanced EP) (hL : Ledger 0 EP.env EP.flow EP.children)
    (hd : EP.env.done = false) (hquiet : EP.Unlifted RefBook.Spares)
    (heffect : StepEffect cast x y EP.env E' report start mid bgFills) :
    Balanced (EP.record E' (.ok report)) := by
  have hacc := flow_account heffect
  have hnext : EP.env.nextId ≤ mid.nextId := by
    have hflow := heffect.flow.nextId
    rw [heffect.churn] at hflow
    exact hflow ▸ Nat.le_add_right ..
  have hbg : ∀ f ∈ bgFills, _ := fun f hf => flow_uninvolved hL hd hquiet heffect hf
  have hbefore : ∀ f ∈ EP.fills ++ bgFills, f.takerId < mid.nextId ∧ f.makerId < mid.nextId := by
    intro f hf
    rcases List.mem_append.mp hf with hf | hf
    · exact ⟨(h.issued f hf).1.trans_le hnext, (h.issued f hf).2.trans_le hnext⟩
    · exact ⟨(hbg f hf).1, (hbg f hf).2.1⟩
  have hold : traded EP.children (EP.fills ++ bgFills) = EP.env.qtyFilled := by
    rw [traded_append, h.known, traded_none fun f hf => (hbg f hf).2.2, Nat.add_zero]
  rcases heffect.branch with ⟨-, hidle⟩ | ⟨-, s, fills, -, hchild⟩
  · obtain ⟨hE, hreport⟩ := Prod.mk.inj hidle
    have hfills : (EP.record E' (.ok report)).fills = EP.fills ++ bgFills := by
      rw [hreport]
      rfl
    have hchildren : (EP.record E' (.ok report)).children = EP.children := by
      rw [hreport]
      exact List.append_nil _
    rw [maybeCloseOut_eq] at hE
    refine ⟨?_, ?_⟩
    · rw [hfills, hchildren, hold]
      change _ = E'.qtyFilled
      rw [hE]
      exact hacc.qtyFilled.symm
    · rw [hfills]
      change ∀ f ∈ EP.fills ++ bgFills, f.takerId < E'.nextId ∧ f.makerId < E'.nextId
      rw [hE]
      exact hbefore
  · have hfills : (EP.record E' (.ok report)).fills = EP.fills ++ bgFills ++ fills := by
      change EP.fills ++ report.fills = _
      rw [hchild.reported, List.append_assoc]
    have hchildren : (EP.record E' (.ok report)).children = EP.children ++ [s] := by
      change EP.children ++ report.child.toList = _
      rw [hchild.child, Option.toList_some]
    have htakers : ∀ f ∈ fills, f.takerId = s.id := fun f hf => by
      obtain ⟨m, -, hmeets⟩ := hchild.fills f hf
      exact hmeets.taker
    have hsold : traded (EP.children ++ [s]) fills = (fills.map Fill.qty).sum := by
      refine traded_all fun f hf => ?_
      rw [htakers f hf, List.map_append]
      exact List.mem_append_right _ (List.mem_singleton_self _)
    refine ⟨?_, ?_⟩
    · rw [hfills, hchildren, traded_append, traded_new (hchild.id ▸ hbefore), hold, hsold]
      change _ = E'.qtyFilled
      rw [hchild.qtyFilled, hacc.qtyFilled]
    · rw [hfills]
      change ∀ f ∈ EP.fills ++ bgFills ++ fills, f.takerId < E'.nextId ∧ f.makerId < E'.nextId
      rw [hchild.nextId]
      intro f hf
      rcases List.mem_append.mp hf with hf | hf
      · exact ⟨Nat.lt_succ_of_lt (hbefore f hf).1, Nat.lt_succ_of_lt (hbefore f hf).2⟩
      · obtain ⟨m, hm, hmeets⟩ := hchild.fills f hf
        have hmaker := heffect.tracked_mid.fresh m hm
        rw [hmeets.taker, hchild.id, hmeets.maker]
        exact ⟨Nat.lt_succ_self _, Nat.lt_succ_of_lt hmaker⟩

end Balance

section Runs
variable {Ring Clock F D : Type} [EventRing Ring] [ClockFn Clock] [MachineFloat F] [MachineFloat D]
  {cast : Casts F D} {parentQty horizonSteps : Nat} {arrivalMid : Price}

theorem reachable_balanced {EP : Episode RefBook Unit Unit F}
    (h : (refEpisodes cast parentQty horizonSteps arrivalMid).ReachableVia
      (fun EP c => QuietCall (EP.Unlifted RefBook.Spares) c) EP) : Balanced EP := by
  refine (ref_invariant (I := fun EP => Balanced EP ∧ Ledger 0 EP.env EP.flow EP.children)
    ?_ ?_ ?_ h).1.1
  · intro seed E hopen _
    refine ⟨⟨?_, by simp [start]⟩, .opened hopen⟩
    change 0 = E.qtyFilled
    exact hopen.qtyFilled.symm
  · exact fun EP hI => ⟨{ hI.1 with }, { hI.2 with }⟩
  · intro EP E' report start mid bgFills x y rest _ _ hd hok _ heffect hI
    exact ⟨hI.1.step hI.2 hd (hok.2 _ _ _ rfl) heffect, (hI.2.stepped heffect).2.2⟩

/-- In a run in which the flow trades with no resting child order, the environment keeps
track of the inventory. -/
theorem inventory_kept {checked : Bool} (hsize : UnitSizing cast) {ep : Episode OrderBook Ring Clock F}
    (h : (episodes cast parentQty horizonSteps arrivalMid checked).ReachableVia
      (fun ep c => QuietCall (ep.Unlifted OrderBook.Spares) c) ep) : ep.InventoryKept := by
  have hok : ∀ {ep : Episode OrderBook Ring Clock F} {EP : Episode RefBook Unit Unit F} {c : Call F},
      ep.Follows EP → EP.env.Tracked 0 → QuietCall (ep.Unlifted OrderBook.Spares) c →
        QuietCall (EP.Unlifted RefBook.Spares) c :=
    fun hf hT hok => ⟨hok.1, fun x y rest hc => (Follows.unlifted_iff hf hT).mp (hok.2 x y rest hc)⟩
  obtain ⟨EP, hreach, hf, -⟩ := reachable_follows
    (P := fun EP c => QuietCall (EP.Unlifted RefBook.Spares) c) hok h
  have hB := reachable_balanced hreach
  have hA := (reachable_inOrder hsize (hreach.mono fun _ _ hok => hok.1)).accounted
  have hbalance := hA.balance
  rw [InventoryKept, hf.children, hf.fills, hf.env.state, hB.known]
  exact ⟨rfl, hbalance ▸ Nat.le_add_right ..⟩

/-- A child order rests before the second step of this run, and the flow does not reach it. -/
theorem inventory_kept_resting_child :
    ∃ ep ep' : Episode OrderBook Unit Unit ℚ,
      (∃ px, ∃ o ∈ ep.env.publisher.book.levelOrders .sell px, o.id ∈ ep.children.map Submission.id) ∧
      ep.call exactCasts (.step [1, 1]) = some ep' ∧ ep'.env.stepIdx = 2 ∧ ep'.InventoryKept := by
  obtain ⟨ep, E, hinit, hE, hf, hT⟩ := exists_start (F := ℚ) exactCasts () () 1000 32 100 true 12
  obtain ⟨ep1, EP1, hcall1, hCall1, hT1, hf1⟩ := hf.call hT exactCasts (.step [1, 1])
  obtain ⟨ep2, EP2, hcall2, hCall2, -, hf2⟩ := hf1.call hT1 exactCasts (.step [1, 1])
  have hrun1 : EP1 ∈ refRun exactCasts 1000 32 100 12 [.step [(1 : ℚ), 1]] := by
    rw [refRun, hE]
    exact Option.bind_eq_some_iff.mpr ⟨E, rfl, Option.bind_eq_some_iff.mpr ⟨EP1, hCall1, rfl⟩⟩
  have hrun2 : EP2 ∈ refRun exactCasts 1000 32 100 12 [.step [(1 : ℚ), 1], .step [1, 1]] := by
    rw [refRun, hE]
    exact Option.bind_eq_some_iff.mpr ⟨E, rfl, Option.bind_eq_some_iff.mpr
      ⟨EP1, hCall1, Option.bind_eq_some_iff.mpr ⟨EP2, hCall2, rfl⟩⟩⟩
  have hresting : ∀ EP ∈ refRun exactCasts 1000 32 100 12 [.step [(1 : ℚ), 1]],
      ∃ o ∈ EP.env.orders, o.side = .sell ∧ o.id ∈ EP.children.map Submission.id := by
    decide +kernel
  have hspared : ∀ EP ∈ refRun exactCasts 1000 32 100 12 [.step [(1 : ℚ), 1]],
      ∀ start ∈ expireLiquidity (EP.env.bgIds.length + 1) EP.env, ∀ k < 12,
        ∀ out ∈ start.backgroundFlow k, ∀ next ∈ nextOrder out.1,
          next.1.Spares (EP.children.map Submission.id) next.2.1 next.2.2 := by
    decide +kernel
  have hunit : UnitCall (.step [(1 : ℚ), 1]) := by
    intro x hx
    obtain rfl : x = 1 := by simpa using hx
    exact ⟨by decide +kernel, by decide +kernel⟩
  have hquiet : QuietCall (ep.Unlifted OrderBook.Spares) (.step [(1 : ℚ), 1]) := by
    refine ⟨hunit, fun _ _ _ _ => (Follows.unlifted_iff hf hT).mpr ?_⟩
    -- no child order has been sent yet
    exact fun _ start _ k _ out _ next _ o ho =>
      absurd (of_decide_eq_true (List.mem_filter.mp ho).2) List.not_mem_nil
  have hquiet1 : QuietCall (ep1.Unlifted OrderBook.Spares) (.step [(1 : ℚ), 1]) :=
    ⟨hunit, fun _ _ _ _ => (Follows.unlifted_iff hf1 hT1).mpr fun _ => hspared EP1 hrun1⟩
  have hidx : ∀ EP ∈ refRun exactCasts 1000 32 100 12 [.step [(1 : ℚ), 1], .step [1, 1]],
      EP.env.stepIdx = 2 := by
    decide +kernel
  refine ⟨ep1, ep2, ?_, hcall2, ?_,
    inventory_kept exactCasts_unitSizing (.step (.step (.init hinit) hquiet hcall1) hquiet1 hcall2)⟩
  · obtain ⟨o, ho, hside, hid⟩ := hresting EP1 hrun1
    obtain ⟨rs, hr⟩ := hf1.env.book
    refine ⟨o.price, o, ?_, hf1.children ▸ hid⟩
    rw [hr.shows.levelOrders]
    exact List.mem_filter.mpr ⟨ho, by simp [hside]⟩
  · rw [hf2.env.state]
    exact hidx EP2 hrun2

/-- In the second step of this run a synthetic buy lifts 56 of the first child's residual,
and the environment does not notice. -/
theorem inventory_lost :
    ∃ ep : Episode OrderBook Unit Unit ℚ,
      (episodes exactCasts 1000 32 100 true).ReachableVia (fun _ c => UnitCall c) ep ∧
      traded ep.children ep.fills = 145 ∧ ep.env.qtyFilled = 89 ∧ ¬ ep.InventoryKept := by
  have hunit : UnitCall (.step [(1 : ℚ), 1]) := by
    intro x hx
    obtain rfl : x = 1 := by simpa using hx
    exact ⟨by decide +kernel, by decide +kernel⟩
  obtain ⟨ep, EP, hreach, hrun, hf⟩ := exists_run exactCasts () () 1000 32 100 true 2
    [.step [(1 : ℚ), 1], .step [1, 1]] (P := UnitCall) (by simpa using hunit)
  have hval : (refRun exactCasts 1000 32 100 2 [.step [(1 : ℚ), 1], .step [1, 1]]).map
      (fun EP => (traded EP.children EP.fills, EP.env.qtyFilled)) = some (145, 89) := by decide +kernel
  rw [hrun] at hval
  obtain ⟨htraded, hqty⟩ := Prod.mk.inj (Option.some.inj hval)
  rw [← hf.children, ← hf.fills] at htraded
  rw [← congrArg EnvState.qtyFilled hf.env.state] at hqty
  refine ⟨ep, hreach, htraded, hqty, fun hkept => ?_⟩
  have heq := hkept.1
  rw [htraded, hqty] at heq
  cases heq

end Runs
end ExecutionPlatform.Bindings
