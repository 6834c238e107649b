import ExecutionPlatform.Core.BookGuarantees

/-! What the telemetry publisher and the environment ask of a book. Both the order book
and the reference book answer, and they answer alike. -/
namespace ExecutionPlatform.Core

class MatchingBook (B : Type) where
  addLimit : B → OrderId → Side → Price → Quantity → Option (B × List Fill × Bool)
  cancel : B → OrderId → Option (B × Option OrderBook.CancelReport)
  openOrderCount : B → Nat
  hasBid : B → Bool
  hasAsk : B → Bool
  bestBid : B → Price
  bestAsk : B → Price

instance : MatchingBook OrderBook where
  addLimit := OrderBook.addLimit
  cancel := OrderBook.cancel
  openOrderCount := OrderBook.openOrderCount
  hasBid := OrderBook.hasBid
  hasAsk := OrderBook.hasAsk
  bestBid := OrderBook.bestBid
  bestAsk := OrderBook.bestAsk

/-- The best price among the orders of one side. -/
def bestPrice (side : Side) : List Resting → Option Price
  | [] => none
  | o :: os =>
    if o.side = side then
      match bestPrice side os with
      | none => some o.price
      | some p => some (if better side p o.price then p else o.price)
    else bestPrice side os

instance : MatchingBook RefBook where
  addLimit R id side price qty := some (R.addLimit id side price qty)
  cancel R id := some (R.cancel id)
  openOrderCount R := R.orders.length
  hasBid R := (bestPrice .buy R.orders).isSome
  hasAsk R := (bestPrice .sell R.orders).isSome
  bestBid R := (bestPrice .buy R.orders).getD 0
  bestAsk R := (bestPrice .sell R.orders).getD 0

theorem bestPrice_eq_none_iff {side : Side} {os : List Resting} :
    bestPrice side os = none ↔ ∀ o ∈ os, o.side ≠ side := by
  induction os with
  | nil => simp [bestPrice]
  | cons o os ih =>
    rw [bestPrice]
    by_cases ho : o.side = side
    · cases hb : bestPrice side os <;> simp [ho]
    · simp [ho, ih]

theorem bestPrice_spec {side : Side} {os : List Resting} {p : Price} (h : bestPrice side os = some p) :
    (∃ o ∈ os, o.side = side ∧ o.price = p) ∧
      ∀ o ∈ os, o.side = side → better side o.price p = false := by
  induction os generalizing p with
  | nil => simp [bestPrice] at h
  | cons o os ih =>
    rw [bestPrice] at h
    split_ifs at h with ho
    · cases hb : bestPrice side os with
      | none =>
        rw [hb] at h
        obtain rfl := Option.some.inj h
        have hno := bestPrice_eq_none_iff.mp hb
        refine ⟨⟨o, List.mem_cons_self, ho, rfl⟩, fun x hx hs => ?_⟩
        rcases List.mem_cons.mp hx with rfl | hx
        · exact better_irrefl ..
        · exact absurd hs (hno x hx)
      | some q =>
        rw [hb] at h
        obtain ⟨⟨m, hm, hms, hmp⟩, hbest⟩ := ih hb
        obtain rfl := Option.some.inj h
        split_ifs with hq
        · refine ⟨⟨m, List.mem_cons_of_mem _ hm, hms, hmp⟩, fun x hx hs => ?_⟩
          rcases List.mem_cons.mp hx with rfl | hx
          · exact better_asymm hq
          · exact hbest x hx hs
        · refine ⟨⟨o, List.mem_cons_self, ho, rfl⟩, fun x hx hs => ?_⟩
          rcases List.mem_cons.mp hx with rfl | hx
          · exact better_irrefl ..
          · by_contra hbad
            have hbad : better side x.price o.price = true := by simpa using hbad
            have hq' : better side q o.price = false := by simpa using hq
            -- x would beat o, and q, which nothing beats, does not
            cases side <;> simp [better] at hq hbad hbest <;> grind
    · obtain ⟨⟨m, hm, hms, hmp⟩, hbest⟩ := ih h
      refine ⟨⟨m, List.mem_cons_of_mem _ hm, hms, hmp⟩, fun x hx hs => ?_⟩
      rcases List.mem_cons.mp hx with rfl | hx
      · exact absurd hs ho
      · exact hbest x hx hs

namespace OrderBook
namespace Refines
variable {b : OrderBook} {R : RefBook} {rs : List Nat}

theorem has_eq (h : b.Refines R rs) (s : Side) : b.has s = (bestPrice s R.orders).isSome := by
  rw [Bool.eq_iff_iff, h.shows.has, Option.isSome_iff_ne_none, Ne, bestPrice_eq_none_iff]
  push Not
  rfl

theorem bestOf_eq (h : b.Refines R rs) (s : Side) : b.bestOf s = (bestPrice s R.orders).getD 0 := by
  have hhas := h.has_eq s
  cases hb : bestPrice s R.orders with
  | none => exact h.shows.noBest s (by rw [hhas, hb]; rfl)
  | some p =>
    obtain ⟨⟨o, ho, hs, hp⟩, hbest⟩ := bestPrice_spec hb
    obtain ⟨⟨m, hm, hms, hmp⟩, hbest'⟩ := h.shows.best s (by rw [hhas, hb]; rfl)
    exact eq_of_not_better (hmp ▸ hbest m hm hms : better s (b.bestOf s) p = false)
      (hp ▸ hbest' o ho hs)

/-- The order book shows the environment what the reference book would. -/
theorem observers (h : b.Refines R rs) :
    MatchingBook.openOrderCount b = MatchingBook.openOrderCount R ∧
    MatchingBook.hasBid b = MatchingBook.hasBid R ∧ MatchingBook.hasAsk b = MatchingBook.hasAsk R ∧
    MatchingBook.bestBid b = MatchingBook.bestBid R ∧ MatchingBook.bestAsk b = MatchingBook.bestAsk R :=
  ⟨h.shows.openOrderCount, h.has_eq .buy, h.has_eq .sell, h.bestOf_eq .buy, h.bestOf_eq .sell⟩

end Refines
end OrderBook
end ExecutionPlatform.Core
