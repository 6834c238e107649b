import ExecutionPlatform.Core.BookGuarantees

/-! Prices: no sequence of calls leaves a crossed or locked book, and the fills of one
AddLimit walk away from the touch without passing the taker's limit. -/
namespace ExecutionPlatform.Core
open Foundations

/-- No bid reaches an ask. -/
def RefBook.Uncrossed (R : RefBook) : Prop :=
  ∀ o ∈ R.orders, ∀ o' ∈ R.orders, o.side = .buy → o'.side = .sell → o.price < o'.price

namespace RefBook.Uncrossed
variable {R : RefBook}

private theorem of_subset {orders : List Resting} (h : R.Uncrossed)
    (hs : ∀ o ∈ orders, ∃ m ∈ R.orders, o.side = m.side ∧ o.price = m.price) :
    ({ R with orders := orders } : RefBook).Uncrossed := by
  intro o ho o' ho' hside hside'
  obtain ⟨m, hm, h1, h2⟩ := hs o ho
  obtain ⟨m', hm', h1', h2'⟩ := hs o' ho'
  rw [h2, h2']
  exact h m hm m' hm' (h1 ▸ hside) (h1' ▸ hside')

/-- Resting what no opposite order reaches keeps the sides apart. -/
private theorem append {m : Resting} (h : R.Uncrossed)
    (hm : ∀ o ∈ R.orders, o.crossedBy m.side m.price = false) :
    ({ R with orders := R.orders ++ [m] } : RefBook).Uncrossed := by
  have hno : ∀ o ∈ R.orders, o.side = m.side.opposite → crosses m.side m.price o.price = false := by
    intro o ho hs
    have := hm o ho
    rwa [Resting.crossedBy, decide_eq_true hs, Bool.true_and] at this
  intro o ho o' ho' hside hside'
  rcases List.mem_append.mp ho with h1 | h1 <;> rcases List.mem_append.mp ho' with h2 | h2
  · exact h o h1 o' h2 hside hside'
  · obtain rfl := List.mem_singleton.mp h2
    simpa [crosses, hside'] using hno o h1 (by rw [hside', hside]; rfl)
  · obtain rfl := List.mem_singleton.mp h1
    simpa [crosses, hside] using hno o' h2 (by rw [hside, hside']; rfl)
  · rw [List.mem_singleton.mp h1, ← List.mem_singleton.mp h2, hside'] at hside
    cases hside

theorem step (h : R.Uncrossed) (op : BookOp) : (R.step op).1.Uncrossed := by
  cases op with
  | cancel id =>
    simp only [RefBook.step, RefBook.cancel]
    cases R.orders.find? (fun o => o.id = id) with
    | none => exact h
    | some m => exact h.of_subset fun o ho => ⟨o, (List.mem_filter.mp ho).1, rfl, rfl⟩
  | addLimit id side price qty =>
    obtain ⟨ht, hstuck⟩ := takes_matchAll id side price R.orders qty
    have hrest : ({ R with orders := (matchAll id side price R.orders qty).1 } : RefBook).Uncrossed :=
      h.of_subset fun o ho => by
        obtain ⟨m, hm, -, h1, h2, -⟩ := ht.subset o ho
        exact ⟨m, hm, h1, h2⟩
    simp only [RefBook.step, RefBook.addLimit]
    split_ifs with hz hroom
    · exact hrest
    · refine hrest.append (takeBest_eq_none_iff.mp ?_)
      rw [takeOne, if_neg hz] at hstuck
      split at hstuck
      · assumption
      · cases hstuck
    · exact hrest

theorem stepOldest (h : R.Uncrossed) (op : BookOp) : (R.stepOldest op).1.Uncrossed := by
  cases op with
  | addLimit id side price qty => exact h.step (.addLimit id side price qty)
  | cancel id =>
    rw [RefBook.stepOldest]
    rcases R.cancelOldest_spec id with ⟨-, hout⟩ | ⟨l, m, r, hsplit, -, -, hout⟩ <;> rw [hout]
    · exact h
    · refine h.of_subset fun o ho => ⟨o, ?_, rfl, rfl⟩
      rw [hsplit]
      exact ((List.sublist_cons_self m r).append_left l).subset ho

end RefBook.Uncrossed

namespace OrderBook

/-- Every bid the ladder shows is below every ask it shows. -/
def Uncrossed (b : OrderBook) : Prop :=
  ∀ p q, b.levelOrders .buy p ≠ [] → b.levelOrders .sell q ≠ [] → p < q

theorem Represents.uncrossed {b : OrderBook} {R : RefBook} {rs : List Nat} (h : b.Represents R rs)
    (hR : R.Uncrossed) : b.Uncrossed := by
  intro p q hp hq
  rw [h.shows.levelOrders] at hp hq
  obtain ⟨o, ho⟩ := List.exists_mem_of_ne_nil _ hp
  obtain ⟨o', ho'⟩ := List.exists_mem_of_ne_nil _ hq
  obtain ⟨hm, hs, rfl⟩ : o ∈ R.orders ∧ o.side = .buy ∧ o.price = p := by
    simpa [RefBook.queue] using ho
  obtain ⟨hm', hs', rfl⟩ : o' ∈ R.orders ∧ o'.side = .sell ∧ o'.price = q := by
    simpa [RefBook.queue] using ho'
  exact hR o hm o' hm' hs hs'

section Fills
variable {b b' : OrderBook} {s : Side} {px : Price} {i fuel : Nat} {takerId : OrderId} {taker : Side}
  {limit : Price} {remaining remaining' : Quantity} {f : Fill} {fs : List Fill}

private theorem popMaker_best (h : b.popMaker s px i = some b') (s' : Side) :
    b'.best s' = b.best s' := by
  simp only [popMaker, Option.bind_eq_bind, Option.bind_eq_some_iff, Option.pure_def,
    Option.some.injEq] at h
  obtain ⟨_, -, _, -, out, -, _, -, _, -, _, -, rfl⟩ := h
  exact setLevel_best b s s' px _

private theorem fillMaker_price (h : b.fillMaker takerId taker px i remaining = some (b', remaining', f)) :
    f.price = px ∧ ∀ s, b'.best s = b.best s := by
  simp only [fillMaker, Option.bind_eq_bind, Option.bind_eq_some_iff, Option.pure_def] at h
  obtain ⟨m, -, slab, -, lvl, -, h⟩ := h
  split_ifs at h
  · obtain ⟨b1, hpop, he⟩ := Option.bind_eq_some_iff.mp h
    cases he
    exact ⟨rfl, fun s => (popMaker_best hpop s).trans (setLevel_best b _ s px _)⟩
  · cases h
    exact ⟨rfl, fun s => setLevel_best b _ s px _⟩

/-- Whatever the book, ConsumeLevel trades at the level's price until the level or the
taker is exhausted, and leaves the cached touch. -/
private theorem consumeLevel_price (h : consumeLevel takerId taker px fuel b remaining =
      some (b', remaining', fs)) :
    (∀ f ∈ fs, f.price = px) ∧ (∀ s, b'.best s = b.best s) ∧
      (remaining' = 0 ∨ ∀ lvl, b'.levelAt taker.opposite px = some lvl → lvl.empty = true) := by
  induction fuel generalizing b remaining fs with
  | zero => cases h
  | succ fuel ih =>
    rw [consumeLevel] at h
    obtain ⟨lvl, hlvl, h⟩ := Option.bind_eq_some_iff.mp h
    split at h
    · next hhead =>
      cases h
      refine ⟨by simp, fun _ => rfl, .inr fun lvl' h' => ?_⟩
      obtain rfl : lvl = lvl' := Option.some.inj (hlvl.symm.trans h')
      rw [LevelFIFO.empty, hhead]
      rfl
    · split_ifs at h with hz
      · cases h
        exact ⟨by simp, fun _ => rfl, .inl hz⟩
      · obtain ⟨⟨b1, rem1, f⟩, hfill, h⟩ := Option.bind_eq_some_iff.mp h
        obtain ⟨⟨b2, rem2, fs2⟩, hrec, h⟩ := Option.bind_eq_some_iff.mp h
        cases h
        obtain ⟨h1, h2⟩ := fillMaker_price hfill
        obtain ⟨h3, h4, h5⟩ := ih hrec
        refine ⟨fun g hg => ?_, fun s => (h4 s).trans (h2 s), h5⟩
        rcases List.mem_cons.mp hg with rfl | hg
        · exact h1
        · exact h3 g hg

private theorem scanLevels_worse {dir q : Price} (hdir : s = .buy ∧ dir = -1 ∨ s = .sell ∧ dir = 1)
    (h : b.scanLevels s dir fuel px = some q) : better s px q = true := by
  induction fuel generalizing px with
  | zero => cases h
  | succ fuel ih =>
    rw [scanLevels] at h
    obtain ⟨lvl, -, h⟩ := Option.bind_eq_some_iff.mp h
    split_ifs at h
    · have := ih h
      rcases hdir with ⟨rfl, rfl⟩ | ⟨rfl, rfl⟩ <;> simp only [better, decide_eq_true_eq] at this ⊢ <;> lia
    · cases h
      rcases hdir with ⟨rfl, rfl⟩ | ⟨rfl, rfl⟩ <;> simp only [better, decide_eq_true_eq] <;> lia

/-- When the touch level empties, its side is over or the touch moves strictly away. -/
private theorem markLevelEmptied_worse (h : b.markLevelEmptied s (b.best s) = some b') :
    b'.live s = 0 ∨ better s (b.best s) (b'.best s) = true := by
  cases s with
  | buy =>
    rw [markLevelEmptied] at h
    obtain ⟨n, hn⟩ : ∃ n, subWord 64 b.liveBidLevels 1 = n := ⟨_, rfl⟩
    rw [hn] at h
    dsimp only at h
    split_ifs at h with hlive
    · obtain ⟨q, hq, h⟩ := Option.bind_eq_some_iff.mp h
      cases h
      exact .inr (scanLevels_worse (.inl ⟨rfl, rfl⟩) hq)
    · have hz : n = 0 := Nat.eq_zero_of_not_pos fun hpos => hlive ⟨hpos, rfl⟩
      cases h
      exact .inl hz
  | sell =>
    rw [markLevelEmptied] at h
    obtain ⟨n, hn⟩ : ∃ n, subWord 64 b.liveAskLevels 1 = n := ⟨_, rfl⟩
    rw [hn] at h
    dsimp only at h
    split_ifs at h with hlive
    · obtain ⟨q, hq, h⟩ := Option.bind_eq_some_iff.mp h
      cases h
      exact .inr (scanLevels_worse (.inr ⟨rfl, rfl⟩) hq)
    · have hz : n = 0 := Nat.eq_zero_of_not_pos fun hpos => hlive ⟨hpos, rfl⟩
      cases h
      exact .inl hz

/-- A loop without a taker or without an opposite side fills nothing. -/
private theorem matchOpposite_dry (hdry : remaining = 0 ∨ b.live taker.opposite = 0)
    (h : matchOpposite takerId taker limit fuel b remaining = some (b', remaining', fs)) : fs = [] := by
  cases fuel with
  | zero => cases taker <;> cases h
  | succ fuel =>
    rw [matchOpposite_succ, if_neg (by lia)] at h
    cases h
    rfl

private theorem not_better_of_worse {p q r : Price} (h : better s p r = false)
    (hw : better s q r = true) : better s p q = false := by
  cases s <;> simp [better] at h hw ⊢ <;> lia

/-- Whatever the book, the fills of a matching loop stay within the taker's limit, start
no better than the touch, and never improve. -/
theorem matchOpposite_prices (h : matchOpposite takerId taker limit fuel b remaining =
      some (b', remaining', fs)) :
    (∀ f ∈ fs, crosses taker limit f.price = true ∧
        better taker.opposite f.price (b.best taker.opposite) = false) ∧
      fs.Pairwise fun f g => better taker.opposite g.price f.price = false := by
  induction fuel generalizing b remaining fs with
  | zero => cases taker <;> cases h
  | succ fuel ih =>
    rw [matchOpposite_succ] at h
    split_ifs at h with hgo
    · obtain ⟨⟨b1, rem1, fs1⟩, hcons, h⟩ := Option.bind_eq_some_iff.mp h
      obtain ⟨lvl, hlvl, h⟩ := Option.bind_eq_some_iff.mp h
      obtain ⟨b2, hrep, h⟩ := Option.bind_eq_some_iff.mp h
      obtain ⟨⟨b3, rem3, fs2⟩, hrec, h⟩ := Option.bind_eq_some_iff.mp h
      cases h
      obtain ⟨hprice, hbest1, hend⟩ := consumeLevel_price hcons
      obtain ⟨hlim2, hmono2⟩ := ih hrec
      have hfs1 : ∀ f ∈ fs1, crosses taker limit f.price = true ∧
          better taker.opposite f.price (b.best taker.opposite) = false := fun f hf => by
        rw [hprice f hf]
        exact ⟨hgo.2, better_irrefl _ _⟩
      -- a later pass starts from a strictly worse touch, if it fills at all
      have hfs2 : ∀ g ∈ fs2, better taker.opposite g.price (b.best taker.opposite) = false := by
        intro g hg
        have hstart := (hlim2 g hg).2
        split_ifs at hrep with hemp
        · rw [← hbest1] at hrep ⊢
          rcases markLevelEmptied_worse hrep with hdry | hworse
          · rw [matchOpposite_dry (.inr hdry) hrec] at hg
            cases hg
          · exact not_better_of_worse hstart hworse
        · obtain rfl := Option.some.inj hrep
          rcases hend with hz | hfull
          · rw [matchOpposite_dry (.inl hz) hrec] at hg
            cases hg
          · exact absurd (hfull lvl hlvl) hemp
      refine ⟨fun f hf => ?_, List.pairwise_append.mpr ⟨?_, hmono2, fun f hf g hg => ?_⟩⟩
      · rcases List.mem_append.mp hf with hf | hf
        · exact hfs1 f hf
        · exact ⟨(hlim2 f hf).1, hfs2 f hf⟩
      · refine List.pairwise_iff_forall_sublist.mpr fun hsub => ?_
        rw [hprice _ (hsub.subset (by simp)), hprice _ (hsub.subset (by simp))]
        exact better_irrefl _ _
      · rw [hprice f hf]
        exact hfs2 g hg
    · cases h
      exact ⟨by simp, .nil⟩

/-- The fills of one AddLimit, whatever the book. -/
theorem addLimit_prices {id : OrderId} {side : Side} {price : Price} {qty : Quantity}
    {fills : List Fill} {ok : Bool} (h : b.addLimit id side price qty = some (b', fills, ok)) :
    (∀ f ∈ fills, crosses side price f.price = true ∧
        better side.opposite f.price (b.bestOf side.opposite) = false) ∧
      fills.Pairwise fun f g => better side.opposite g.price f.price = false := by
  rw [addLimit_eq] at h
  obtain ⟨⟨b1, rem, fs⟩, hmatch, h⟩ := Option.bind_eq_some_iff.mp h
  have hfs : fs = fills := by
    dsimp only at h
    split_ifs at h
    · cases h
      rfl
    · obtain ⟨⟨b2, ok2⟩, -, h⟩ := Option.bind_eq_some_iff.mp h
      cases h
      rfl
  subst hfs
  have hp := matchOpposite_prices hmatch
  rw [bestOf_eq]
  split_ifs with hlive
  · exact hp
  · rw [matchOpposite_dry (.inr (Nat.eq_zero_of_not_pos hlive)) hmatch]
    exact ⟨by simp, .nil⟩

end Fills

/-- The book is never crossed or locked as long as every call sells out the oldest order of
an id first; and in any state the fills of one AddLimit respect its limit and leave the touch
in one direction. -/
theorem reachable_uncrossed {orderCapacity : Nat} {minPrice maxPrice : Price} {checked : Bool}
    {b : OrderBook} (hcap : orderCapacity < 2 ^ 57)
    (h : Reachable orderCapacity minPrice maxPrice checked OldestFirst b) :
    (b.Uncrossed ∧ (b.hasBid = true → b.hasAsk = true → b.bestBid < b.bestAsk)) ∧
    ∀ (c c' : OrderBook) id side price qty fills ok,
      c.addLimit id side price qty = some (c', fills, ok) →
      (∀ f ∈ fills, crosses side price f.price = true ∧
        better side.opposite f.price (c.bestOf side.opposite) = false) ∧
      fills.Pairwise fun f g => better side.opposite g.price f.price = false := by
  refine ⟨?_, fun c c' id side price qty fills ok he => addLimit_prices he⟩
  obtain ⟨R, rs, hR, hU⟩ := h.represents (P := RefBook.Uncrossed) hcap
    (fun _ ho => absurd ho List.not_mem_nil) fun R op hP => hP.stepOldest op
  refine ⟨hR.uncrossed hU, fun hbid hask => ?_⟩
  obtain ⟨⟨o, ho, hs, hp⟩, -⟩ := hR.shows.best .buy hbid
  obtain ⟨⟨o', ho', hs', hp'⟩, -⟩ := hR.shows.best .sell hask
  have := hU o ho o' ho' hs hs'
  rw [hp, hp'] at this
  exact this

/-- Two bids and an ask under one id: the older bid is cancelled, and the book keeps both sides. -/
theorem reachable_uncrossed_reused_id :
    ∃ b b' outs, OrderBook.new 8 90 110 false = some b ∧
      b.run [.addLimit 1 .buy 99 5, .addLimit 1 .buy 100 5, .addLimit 2 .sell 100 3,
        .addLimit 1 .sell 102 4, .addLimit 3 .sell 111 1, .cancel 1] = some (b', outs) ∧
      b'.levelOrders .buy 100 = [⟨1, .buy, 100, 2⟩] ∧ b'.levelOrders .sell 102 = [⟨1, .sell, 102, 4⟩] ∧
      (b'.Uncrossed ∧ (b'.hasBid = true → b'.hasAsk = true → b'.bestBid < b'.bestAsk)) ∧
      ∀ (c c' : OrderBook) id side price qty fills ok,
        c.addLimit id side price qty = some (c', fills, ok) →
        (∀ f ∈ fills, crosses side price f.price = true ∧
          better side.opposite f.price (c.bestOf side.opposite) = false) ∧
        fills.Pairwise fun f g => better side.opposite g.price f.price = false := by
  have h : ((OrderBook.new 8 90 110 false).bind fun b => b.run
      [.addLimit 1 .buy 99 5, .addLimit 1 .buy 100 5, .addLimit 2 .sell 100 3,
        .addLimit 1 .sell 102 4, .addLimit 3 .sell 111 1, .cancel 1]).map
        (fun out => (out.1.levelOrders .buy 100, out.1.levelOrders .sell 102)) =
          some ([⟨1, .buy, 100, 2⟩], [⟨1, .sell, 102, 4⟩]) := by decide +kernel
  have hold : ∀ b ∈ OrderBook.new 8 90 110 false, AllowedRun OldestFirst b
      [.addLimit 1 .buy 99 5, .addLimit 1 .buy 100 5, .addLimit 2 .sell 100 3,
        .addLimit 1 .sell 102 4, .addLimit 3 .sell 111 1, .cancel 1] := by decide +kernel
  obtain ⟨⟨b', outs⟩, hbind, hview⟩ := Option.map_eq_some_iff.mp h
  obtain ⟨b, hnew, hrun⟩ := Option.bind_eq_some_iff.mp hbind
  obtain ⟨hbid, hask⟩ := Prod.mk.inj hview
  exact ⟨b, b', outs, hnew, hrun, hbid, hask,
    reachable_uncrossed (by decide) ((Reachable.new hnew).run (hold b hnew) hrun)⟩

/-- After a duplicate id has cost a resting bid its index entry, cancelling the id empties
the wrong level, and an ask comes to rest below the bid that is still there. -/
theorem uncrossed_fails_on_duplicate_id :
    ∃ b b' outs, OrderBook.new 8 90 110 false = some b ∧
      b.run [.addLimit 1 .buy 99 5, .addLimit 1 .buy 100 5, .addLimit 2 .sell 100 5, .cancel 1,
        .addLimit 3 .sell 98 5] = some (b', outs) ∧ ¬ b'.Uncrossed := by
  have h : ((OrderBook.new 8 90 110 false).bind fun b => b.run
      [.addLimit 1 .buy 99 5, .addLimit 1 .buy 100 5, .addLimit 2 .sell 100 5, .cancel 1,
        .addLimit 3 .sell 98 5]).map
      (fun out => (out.1.levelOrders .buy 99, out.1.levelOrders .sell 98)) =
        some ([⟨1, .buy, 99, 5⟩], [⟨3, .sell, 98, 5⟩]) := by decide +kernel
  obtain ⟨⟨b', outs⟩, hbind, hview⟩ := Option.map_eq_some_iff.mp h
  obtain ⟨b, hnew, hrun⟩ := Option.bind_eq_some_iff.mp hbind
  obtain ⟨hbid, hask⟩ := Prod.mk.inj hview
  refine ⟨b, b', outs, hnew, hrun, fun hU => ?_⟩
  have hcross := hU 99 98 (by rw [hbid]; simp) (by rw [hask]; simp)
  exact absurd hcross (by decide)

end OrderBook
end ExecutionPlatform.Core
