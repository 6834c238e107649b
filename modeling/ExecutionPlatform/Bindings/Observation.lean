import ExecutionPlatform.Bindings.BookHistory
import ExecutionPlatform.Bindings.MarketEnvelope
import ExecutionPlatform.Core.BookPrices

/-! The observation and the touch. WriteState marks an empty side by the price 0, which is
also the lowest price of the band: a bid that rests there is taken for no bid. -/
namespace ExecutionPlatform.Bindings
open ExecutionPlatform.Core External Exec Foundations Episode

/-- Prices of the default band are so small that float adds and subtracts them exactly. -/
structure TickExact (F : Type) [MachineFloat F] : Prop where
  add : ∀ p q : Price, 0 ≤ p → p ≤ 16383 → 0 ≤ q → q ≤ 16383 → (p : F) + (q : F) = ((p + q : Price) : F)
  sub : ∀ p q : Price, 0 ≤ p → p ≤ 16383 → 0 ≤ q → q ≤ 16383 → (p : F) - (q : F) = ((p - q : Price) : F)
  nonzero : ∀ p : Price, 0 < p → p ≤ 16383 → ((0 : Nat) : F) ≠ (p : F)

theorem rat_tickExact : TickExact ℚ where
  add p q _ _ _ _ := (Int.cast_add p q).symm
  sub p q _ _ _ _ := (Int.cast_sub p q).symm
  nonzero p hp _ h := by
    have h' : (p : ℚ) = 0 := h.symm
    exact hp.ne' (by exact_mod_cast h')

namespace SimEnv
variable {B Ring Clock F D : Type} [MatchingBook B] [MachineFloat F] [MachineFloat D]
  {env : SimEnv B Ring Clock F} {cast : Casts F D}

/-- The state vector shows the best bid, the best ask, the spread and the mid. -/
def ObservesTouch (env : SimEnv B Ring Clock F) : Prop :=
  env.stateBuf[2]? = some ((MatchingBook.bestBid env.publisher.book : Price) : F) ∧
  env.stateBuf[3]? = some ((MatchingBook.bestAsk env.publisher.book : Price) : F) ∧
  env.stateBuf[4]? = some ((MatchingBook.bestAsk env.publisher.book -
    MatchingBook.bestBid env.publisher.book : Price) : F) ∧
  env.stateBuf[5]? = some (MachineFloat.half * ((MatchingBook.bestBid env.publisher.book +
    MatchingBook.bestAsk env.publisher.book : Price) : F))

/-- On an uncrossed two-sided book WriteState shows the touch unless the best bid is at 0. -/
theorem writeState_observes (hexact : TickExact F) (hbid : MatchingBook.hasBid env.publisher.book = true)
    (hask : MatchingBook.hasAsk env.publisher.book = true)
    (hlow : 0 ≤ MatchingBook.bestBid env.publisher.book)
    (hlt : MatchingBook.bestBid env.publisher.book < MatchingBook.bestAsk env.publisher.book)
    (hhigh : MatchingBook.bestAsk env.publisher.book ≤ 16383) :
    (env.writeState cast).ObservesTouch ↔ MatchingBook.bestBid env.publisher.book ≠ 0 := by
  obtain ⟨bb, hbb⟩ : ∃ bb : Price, MatchingBook.bestBid env.publisher.book = bb := ⟨_, rfl⟩
  obtain ⟨ba, hba⟩ : ∃ ba : Price, MatchingBook.bestAsk env.publisher.book = ba := ⟨_, rfl⟩
  have hbook : (env.writeState cast).publisher = env.publisher := rfl
  rw [ObservesTouch, hbook, hbb, hba]
  rw [hbb] at hlow hlt
  rw [hba] at hlt hhigh
  have hentries : (env.writeState cast).stateBuf[2]? = some (bb : F) ∧
      (env.writeState cast).stateBuf[3]? = some (ba : F) ∧
      (env.writeState cast).stateBuf[4]? =
        some (if bb = 0 ∨ ba = 0 then ((0 : Nat) : F) else (ba : F) - (bb : F)) ∧
      (env.writeState cast).stateBuf[5]? = some (if bb = 0 ∨ ba = 0 then (env.arrivalMid : F)
        else MachineFloat.half * ((bb : F) + (ba : F))) := by
    simp only [writeState, hbid, hask, hbb, hba, if_true]
    exact ⟨rfl, rfl, rfl, rfl⟩
  obtain ⟨h2, h3, h4, h5⟩ := hentries
  rw [h2, h3, h4, h5]
  constructor
  · rintro ⟨-, -, hspread, -⟩ rfl
    -- a spread of 0 is reported, and the real one is positive
    rw [if_pos (.inl rfl)] at hspread
    exact hexact.nonzero (ba - 0) (by lia) (by lia) (Option.some.inj hspread)
  · intro hb
    have hno : ¬ (bb = 0 ∨ ba = 0) := by lia
    rw [if_neg hno, if_neg hno, hexact.sub ba bb (by lia) hhigh hlow (by lia),
      hexact.add bb ba hlow (by lia) (by lia) hhigh]
    exact ⟨rfl, rfl, rfl, rfl⟩

end SimEnv

/-- The books of an environment stay uncrossed and inside the band. -/
theorem touch_lasting : Lasting fun R : RefBook =>
    SimEnv.startBook.SameShape R ∧ R.Uncrossed ∧ R.InBand where
  addLimit := by
    rintro R id side px qty R' fills ok ⟨hshape, hU, hband⟩ hadd
    have hstep := hU.step (.addLimit id side px qty)
    obtain rfl : (R.addLimit id side px qty).1 = R' := congrArg Prod.fst (Option.some.inj hadd)
    exact ⟨hshape.trans (R.addLimit_shape id side px qty), hstep, hband.addLimit id side px qty⟩
  cancel := by
    rintro R id R' report ⟨hshape, hU, hband⟩ hcancel
    have hstep := hU.step (.cancel id)
    obtain rfl : (R.cancel id).1 = R' := congrArg Prod.fst (Option.some.inj hcancel)
    exact ⟨hshape.trans (R.cancel_shape id), hstep, hband.cancel id⟩

section Runs
variable {Ring Clock F D : Type} [EventRing Ring] [ClockFn Clock] [MachineFloat F] [MachineFloat D]
  {cast : Casts F D} {parentQty horizonSteps : Nat} {arrivalMid : Price}

/-- On a two-sided book the touch is inside the band and open. -/
theorem reachable_touch {ok : Episode RefBook Unit Unit F → Call F → Prop}
    {EP : Episode RefBook Unit Unit F}
    (h : (refEpisodes cast parentQty horizonSteps arrivalMid).ReachableVia ok EP)
    (hbid : MatchingBook.hasBid EP.env.publisher.book = true)
    (hask : MatchingBook.hasAsk EP.env.publisher.book = true) :
    0 ≤ MatchingBook.bestBid EP.env.publisher.book ∧
      MatchingBook.bestBid EP.env.publisher.book < MatchingBook.bestAsk EP.env.publisher.book ∧
      MatchingBook.bestAsk EP.env.publisher.book ≤ 16383 := by
  obtain ⟨hshape, hU, hband⟩ := touch_lasting.reachable
    ⟨⟨rfl, rfl, rfl⟩, fun _ ho => absurd ho List.not_mem_nil, fun _ ho => absurd ho List.not_mem_nil⟩ h
  obtain ⟨bb, hbb⟩ := Option.isSome_iff_exists.mp hbid
  obtain ⟨ba, hba⟩ := Option.isSome_iff_exists.mp hask
  obtain ⟨⟨o, ho, hs, rfl⟩, -⟩ := bestPrice_spec hbb
  obtain ⟨⟨o', ho', hs', rfl⟩, -⟩ := bestPrice_spec hba
  have hlow := (hband o ho).1
  have hhigh := (hband o' ho').2
  rw [hshape.minPrice] at hlow
  rw [hshape.maxPrice] at hhigh
  simp only [MatchingBook.bestBid, MatchingBook.bestAsk, hbb, hba, Option.getD_some]
  exact ⟨hlow, hU o ho o' ho' hs hs', hhigh⟩

/-- Every call ends by writing the state, so between calls it is up to date. -/
theorem reachable_written {checked : Bool} {ok : Episode OrderBook Ring Clock F → Call F → Prop}
    {ep : Episode OrderBook Ring Clock F}
    (h : (episodes cast parentQty horizonSteps arrivalMid checked).ReachableVia ok ep) :
    ep.env.writeState cast = ep.env := by
  refine h.invariant (I := fun ep => ep.env.writeState cast = ep.env) ?_ ?_
  · rintro ep ⟨book, ring, clock, seed, env, -, hnew, rfl⟩
    rw [SimEnv.new] at hnew
    obtain ⟨env1, -, hnew⟩ := Option.bind_eq_some_iff.mp hnew
    obtain rfl := Option.some.inj hnew
    rfl
  · rintro ep c ep' - hep hcall
    rcases call_cases hcall with ⟨action, rfl, -, rfl⟩ |
      ⟨sizeFrac, aggression, rest, env, report, rfl, -, rfl⟩ | ⟨seed, env, rfl, hreset, rfl⟩
    · exact hep
    · rfl
    · obtain ⟨env1, -, hreset⟩ := Option.bind_eq_some_iff.mp hreset
      obtain rfl := Option.some.inj hreset
      rfl

/-- In every reachable state with a two-sided book the state vector shows the touch exactly
if no bid at price 0 is the best; above a mid of 5 none is. -/
theorem observes_touch_iff {checked : Bool} (hexact : TickExact F) {ep : Episode OrderBook Ring Clock F}
    (h : (episodes cast parentQty horizonSteps arrivalMid checked).Reachable ep)
    (hbid : MatchingBook.hasBid ep.env.publisher.book = true)
    (hask : MatchingBook.hasAsk ep.env.publisher.book = true) :
    (ep.env.ObservesTouch ↔ MatchingBook.bestBid ep.env.publisher.book ≠ 0) ∧
      (5 < arrivalMid → MatchingBook.bestBid ep.env.publisher.book ≠ 0) := by
  obtain ⟨EP, hreach, hf, hT⟩ := reachable_follows (P := fun _ _ => True) (fun _ _ _ => trivial) h
  obtain ⟨-, hhasBid, hhasAsk, hbestBid, hbestAsk⟩ := hf.env.book.observers
  rw [hhasBid] at hbid
  rw [hhasAsk] at hask
  have htouch := reachable_touch hreach hbid hask
  rw [← hbestBid, ← hbestAsk] at htouch
  refine ⟨?_, fun hmid => ?_⟩
  · rw [← reachable_written h]
    exact SimEnv.writeState_observes hexact (hhasBid.trans hbid) (hhasAsk.trans hask) htouch.1
      htouch.2.1 htouch.2.2
  · -- a bid is a synthetic order
    obtain ⟨bb, hbb⟩ := Option.isSome_iff_exists.mp hbid
    obtain ⟨⟨o, ho, hs, hop⟩, -⟩ := bestPrice_spec hbb
    have hL := reachable_ledger hreach
    have hp := (reachable_params hreach).2.arrivalMid
    rw [hbestBid]
    simp only [MatchingBook.bestBid, hbb, Option.getD_some]
    rcases hL.orders o ho with ⟨x, hx, -, hpart⟩ | ⟨c, hc, hpart⟩
    · have hlow := (hL.bid_price hx (hpart.side.symm.trans hs)).1
      have hprice : o.price = x.2.price := hpart.price
      lia
    · have hsell := hpart.side.trans (hL.sells c hc)
      rw [hs] at hsell
      cases hsell

/-- At the usual mid of 100 the first step is observed as it is. -/
theorem observes_touch_iff_mid_100 : ∃ ep : Episode OrderBook Unit Unit ℚ,
    (episodes exactCasts 1000 32 100 true).Reachable ep ∧
    MatchingBook.bestBid ep.env.publisher.book = 98 ∧ MatchingBook.bestAsk ep.env.publisher.book = 101 ∧
    ep.env.ObservesTouch := by
  obtain ⟨ep, EP, hreach, hrun, hf⟩ := exists_run exactCasts () () 1000 32 100 true 2
    [.step [(0 : ℚ), 0]] (P := fun _ => True) fun _ _ => trivial
  have hval : (refRun exactCasts 1000 32 100 2 [.step [(0 : ℚ), 0]]).map (fun EP =>
      (MatchingBook.hasBid EP.env.publisher.book, MatchingBook.hasAsk EP.env.publisher.book,
        MatchingBook.bestBid EP.env.publisher.book, MatchingBook.bestAsk EP.env.publisher.book)) =
      some (true, true, 98, 101) := by decide +kernel
  rw [hrun] at hval
  simp only [Option.map_some, Option.some.injEq, Prod.mk.injEq] at hval
  obtain ⟨hbid, hask, hbb, hba⟩ := hval
  obtain ⟨-, hhasBid, hhasAsk, hbestBid, hbestAsk⟩ := hf.env.book.observers
  rw [← hhasBid] at hbid
  rw [← hhasAsk] at hask
  have hiff := observes_touch_iff rat_tickExact hreach hbid hask
  exact ⟨ep, hreach, hbestBid.trans hbb, hbestAsk.trans hba, hiff.1.mpr (hiff.2 (by decide))⟩

/-- At a mid of 1 the bids rest at 0. After two steps without a child the book shows 0 bid, 2
asked, and the state vector a spread of 0. -/
theorem observed_spread_lost : ∃ ep : Episode OrderBook Unit Unit ℚ,
    (episodes exactCasts 1000 32 1 true).Reachable ep ∧
    MatchingBook.hasBid ep.env.publisher.book = true ∧ MatchingBook.hasAsk ep.env.publisher.book = true ∧
    MatchingBook.bestBid ep.env.publisher.book = 0 ∧ MatchingBook.bestAsk ep.env.publisher.book = 2 ∧
    ep.env.stateBuf[4]? = some 0 ∧ ¬ ep.env.ObservesTouch := by
  obtain ⟨ep, EP, hreach, hrun, hf⟩ := exists_run exactCasts () () 1000 32 1 true 2
    [.step [(0 : ℚ), 0], .step [0, 0]] (P := fun _ => True) fun _ _ => trivial
  have hval : (refRun exactCasts 1000 32 1 2 [.step [(0 : ℚ), 0], .step [0, 0]]).map (fun EP =>
      (MatchingBook.hasBid EP.env.publisher.book, MatchingBook.hasAsk EP.env.publisher.book,
        MatchingBook.bestBid EP.env.publisher.book, MatchingBook.bestAsk EP.env.publisher.book,
        EP.env.stateBuf[4]?)) = some (true, true, 0, 2, some 0) := by decide +kernel
  rw [hrun] at hval
  simp only [Option.map_some, Option.some.injEq, Prod.mk.injEq] at hval
  obtain ⟨hbid, hask, hbb, hba, hspread⟩ := hval
  obtain ⟨-, hhasBid, hhasAsk, hbestBid, hbestAsk⟩ := hf.env.book.observers
  rw [← congrArg EnvState.stateBuf hf.env.state] at hspread
  refine ⟨ep, hreach, hhasBid.trans hbid, hhasAsk.trans hask, hbestBid.trans hbb, hbestAsk.trans hba,
    hspread, fun hobs => ?_⟩
  have hreal := hobs.2.2.1
  rw [hbestBid, hbestAsk, hbb, hba, hspread] at hreal
  exact absurd (Option.some.inj hreal) (by decide +kernel)

end Runs
end ExecutionPlatform.Bindings
