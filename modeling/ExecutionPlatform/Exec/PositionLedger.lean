import ExecutionPlatform.Core.BookConservation
import ExecutionPlatform.Exec.TelemetryPublisher

/-! The position of a group of orders on one side of the market, as the tape tells it: what was sent
was executed, withdrawn or dropped, or rests. -/
namespace ExecutionPlatform.Exec
open ExecutionPlatform.Core External

/-- What the orders of these ids traded, as takers or as makers. -/
def executed (p : OrderId → Bool) (events : List TelemetryEvent) : Quantity :=
  ((events.filter fun e => e.type = .fill ∧ (p e.orderId || p e.counterId)).map TelemetryEvent.qty).sum

/-- What was cancelled of them. -/
def withdrawn (p : OrderId → Bool) (events : List TelemetryEvent) : Quantity :=
  ((events.filter fun e => e.type = .cancel ∧ p e.orderId).map TelemetryEvent.qty).sum

/-- A fill moves shares of these orders in their own direction, and never between two of them. -/
structure Directed (p : OrderId → Bool) (s : Side) (e : TelemetryEvent) : Prop where
  taker : p e.orderId = true → e.side = s ∧ p e.counterId = false
  maker : p e.counterId = true → e.side = s.opposite ∧ p e.orderId = false

/-- The group has sent so much, of which some may have been dropped. -/
structure Position (p : OrderId → Bool) (s : Side) (R : RefBook) (events : List TelemetryEvent)
    (sent dropped : Quantity) : Prop where
  sound : R.Sound
  balance : executed p events + withdrawn p events + supply p R.orders + dropped = sent
  oneSided : ∀ o ∈ R.orders, p o.id = true → o.side = s
  directed : ∀ e ∈ events, e.type = .fill → Directed p s e

section Events
variable {p : OrderId → Bool} {events events' : List TelemetryEvent} {seq ts : Nat}

theorem executed_append : executed p (events ++ events') = executed p events + executed p events' := by
  rw [executed, executed, executed, List.filter_append, List.map_append, List.sum_append]

theorem withdrawn_append : withdrawn p (events ++ events') = withdrawn p events + withdrawn p events' := by
  rw [withdrawn, withdrawn, withdrawn, List.filter_append, List.map_append, List.sum_append]

@[simp] theorem executed_fill (f : Fill) :
    executed p [.fill seq ts f] = if p f.takerId || p f.makerId then f.qty else 0 := by
  rw [executed, List.filter_singleton]
  split_ifs <;> simp_all [TelemetryEvent.fill]

@[simp] theorem withdrawn_fill (f : Fill) : withdrawn p [.fill seq ts f] = 0 := by
  simp [withdrawn, TelemetryEvent.fill]

@[simp] theorem executed_ack (id : OrderId) (side : Side) (price : Price) (qty : Quantity) :
    executed p [.ack seq ts id side price qty] = 0 := by
  simp [executed, TelemetryEvent.ack]

@[simp] theorem withdrawn_ack (id : OrderId) (side : Side) (price : Price) (qty : Quantity) :
    withdrawn p [.ack seq ts id side price qty] = 0 := by
  simp [withdrawn, TelemetryEvent.ack]

@[simp] theorem executed_cancel (id : OrderId) (side : Side) (price : Price) (qty : Quantity) :
    executed p [.cancel seq ts id side price qty] = 0 := by
  simp [executed, TelemetryEvent.cancel]

@[simp] theorem withdrawn_cancel (id : OrderId) (side : Side) (price : Price) (qty : Quantity) :
    withdrawn p [.cancel seq ts id side price qty] = if p id then qty else 0 := by
  rw [withdrawn, List.filter_singleton]
  split_ifs <;> simp_all [TelemetryEvent.cancel]

end Events

section Book
variable {p : OrderId → Bool} {orders orders' : List Resting}

theorem supply_filter_add (q : Resting → Bool) (orders : List Resting) :
    supply p (orders.filter q) + supply p (orders.filter fun o => !q o) = supply p orders := by
  induction orders with
  | nil => rfl
  | cons o orders ih =>
    have hcons : ∀ l : List Resting, supply p (o :: l) = supply p [o] + supply p l :=
      fun l => supply_append p [o] l
    by_cases hq : q o = true
    · rw [List.filter_cons_of_pos hq, List.filter_cons_of_neg (by simpa using hq), hcons, hcons orders]
      lia
    · rw [List.filter_cons_of_neg hq, List.filter_cons_of_pos (by simpa using hq), hcons, hcons orders]
      lia

theorem filter_id {m : Resting} (hn : (orders.map Resting.id).Nodup) (hm : m ∈ orders) :
    orders.filter (fun o => o.id = m.id) = [m] := by
  obtain ⟨l, r, rfl⟩ := List.append_of_mem hm
  rw [List.map_append, List.map_cons, List.nodup_middle, List.nodup_cons, List.mem_append] at hn
  obtain ⟨hl, hr⟩ := not_or.mp hn.1
  have hleft : l.filter (fun o => o.id = m.id) = [] := by
    refine List.filter_eq_nil_iff.mpr fun o ho hid => hl ?_
    exact List.mem_map.mpr ⟨o, ho, by simpa using hid⟩
  have hright : r.filter (fun o => o.id = m.id) = [] := by
    refine List.filter_eq_nil_iff.mpr fun o ho hid => hr ?_
    exact List.mem_map.mpr ⟨o, ho, by simpa using hid⟩
  rw [List.filter_append, List.filter_cons, hleft, hright]
  simp

/-- A cancel reports what it takes out. -/
theorem supply_cancel {R : RefBook} (h : R.Sound) (id : OrderId) :
    (((R.cancel id).2.map fun r => if p r.id then r.qty else 0).getD 0) +
      supply p (R.cancel id).1.orders = supply p R.orders := by
  rw [RefBook.cancel_orders]
  have hsplit := supply_filter_add (p := p) (fun o => o.id ≠ id) R.orders
  rw [RefBook.cancel]
  cases hf : R.orders.find? (fun o => o.id = id) with
  | none =>
    have hall : R.orders.filter (fun o => o.id ≠ id) = R.orders :=
      List.filter_eq_self.mpr fun o ho => by simpa using List.find?_eq_none.mp hf o ho
    rw [hall]
    exact Nat.zero_add _
  | some m =>
    obtain rfl : m.id = id := by simpa using List.find?_some hf
    have hone := filter_id h.nodup (List.mem_of_find?_eq_some hf)
    simp only [ne_eq, decide_not, Bool.not_not, hone, supply_singleton] at hsplit
    simp only [Option.map_some, Option.getD_some, ne_eq, decide_not]
    lia

variable {s : Side} {id : OrderId} {side : Side} {limit : Price} {qty rem : Quantity} {fs : List Fill}

theorem takes_side (h : Takes id side limit orders qty fs orders' rem) : ∀ f ∈ fs, f.takerSide = side := by
  induction h with
  | refl => simp
  | cons h _ ih =>
    obtain ⟨l, m, r, -, -, -, -, -, -, -, rfl⟩ := takeOne_spec h
    intro f hf
    rcases List.mem_cons.mp hf with rfl | hf
    · rfl
    · exact ih f hf

/-- Orders on one side never trade with each other. -/
theorem takes_directed (h : Takes id side limit orders qty fs orders' rem)
    (hone : ∀ o ∈ orders, p o.id = true → o.side = s) (hside : p id = true → side = s) :
    ∀ f ∈ fs, f.takerId = id ∧ (p id = true → p f.makerId = false) ∧
      (p f.makerId = true → f.takerSide = s.opposite) := by
  intro f hf
  obtain ⟨htaker, m, hm, hid, -, hopp, -⟩ := h.fills f hf
  have hflip : side = m.side.opposite := by
    rw [hopp]
    cases side <;> rfl
  refine ⟨htaker, fun hp => ?_, fun hp => ?_⟩
  · by_contra hmaker
    have hs := hone m hm (by simpa [hid] using hmaker)
    rw [hside hp, hs] at hflip
    cases s <;> cases hflip
  · rw [takes_side h f hf, hflip, hone m hm (hid ▸ hp)]

/-- What the group's orders traded is what it took and what was taken from it. -/
theorem takes_executed (h : Takes id side limit orders qty fs orders' rem)
    (hone : ∀ o ∈ orders, p o.id = true → o.side = s) (hside : p id = true → side = s) :
    ((fs.filter fun f => p f.takerId || p f.makerId).map Fill.qty).sum + supply p orders' +
      (if p id then rem else 0) = supply p orders + if p id then qty else 0 := by
  have hdirected := takes_directed h hone hside
  have hdrawn := h.supply p
  have hfilled := h.filled
  by_cases hp : p id = true
  · have hall : fs.filter (fun f => p f.takerId || p f.makerId) = fs := by
      refine List.filter_eq_self.mpr fun f hf => ?_
      rw [(hdirected f hf).1, hp, Bool.true_or]
    have hnone : drawn p fs = 0 := by
      rw [drawn, List.filter_eq_nil_iff.mpr fun f hf => by simp [(hdirected f hf).2.1 hp]]
      rfl
    rw [hall, if_pos hp, if_pos hp]
    lia
  · have hmakers : fs.filter (fun f => p f.takerId || p f.makerId) = fs.filter fun f => p f.makerId := by
      apply List.filter_congr
      intro f hf
      rw [(hdirected f hf).1, Bool.eq_false_of_not_eq_true hp, Bool.false_or]
    rw [drawn] at hdrawn
    rw [hmakers, if_neg hp, if_neg hp]
    lia

end Book

namespace Position
variable {Clock : Type} [ClockFn Clock] {p : OrderId → Bool} {s : Side} {R : RefBook}
  {out : Outlet EventLog Clock} {sent dropped : Quantity}

theorem events_emitFills (out : Outlet EventLog Clock) (fs : List Fill) :
    ∃ told, (out.emitFills fs).ring.events = out.ring.events ++ told ∧
      executed p told = ((fs.filter fun f => p f.takerId || p f.makerId).map Fill.qty).sum ∧
      withdrawn p told = 0 ∧ ∀ e ∈ told, ∃ f ∈ fs, ∃ seq ts, e = .fill seq ts f := by
  induction fs generalizing out with
  | nil => exact ⟨[], (List.append_nil _).symm, rfl, rfl, by simp⟩
  | cons f fs ih =>
    obtain ⟨told, htold, hexec, hwith, hfrom⟩ := ih (out.emit fun seq ts => .fill seq ts f)
    refine ⟨.fill out.seq (ClockFn.read out.clock).1 f :: told, ?_, ?_, ?_, ?_⟩
    · exact htold.trans (List.append_assoc ..)
    · rw [← List.singleton_append, executed_append, hexec, executed_fill, List.filter_cons]
      split_ifs <;> simp
    · rw [← List.singleton_append, withdrawn_append, hwith, withdrawn_fill]
    · intro e he
      rcases List.mem_cons.mp he with rfl | he
      · exact ⟨f, List.mem_cons_self, _, _, rfl⟩
      · obtain ⟨g, hg, heq⟩ := hfrom e he
        exact ⟨g, List.mem_cons_of_mem f hg, heq⟩

/-- A call of AddLimit: what the group sends with it is sent, and nothing of the group is dropped
unless its own call fails. -/
theorem addLimit (h : Position p s R out.ring.events sent dropped) {id : OrderId} {side : Side}
    (price : Price) (qty : Quantity) (hid : id ∉ R.ids) (hside : p id = true → side = s) :
    ∃ lost, ((R.addLimit id side price qty).2.2 = true ∨ p id = false → lost = 0) ∧
      Position p s (R.addLimit id side price qty).1
        (out.report id side price qty (R.addLimit id side price qty).2.1
          (R.addLimit id side price qty).2.2).ring.events
        (sent + if p id then qty else 0) (dropped + lost) := by
  obtain ⟨orders, rem, fs, ht, -, hadd⟩ := R.addLimit_spec id side price qty
  have hpos := ht.residual_pos h.sound.residual
  have hexec := takes_executed ht h.oneSided hside
  have hdirected := takes_directed ht h.oneSided hside
  have hfilled := ht.filled
  obtain ⟨told, htold, htoldexec, htoldwith, hfrom⟩ := events_emitFills (p := p) out fs
  have hnodup := RefBook.addLimit_ids_nodup side price qty h.sound.nodup hid
  have hkept : ∀ o ∈ orders, p o.id = true → o.side = s := by
    intro o ho hp
    obtain ⟨m, hm, hpart⟩ := ht.subset o ho
    rw [hpart.side]
    exact h.oneSided m hm (hpart.id ▸ hp)
  have hnew : ∀ e ∈ told, e.type = .fill → Directed p s e := by
    rintro e he -
    obtain ⟨f, hf, seq, ts, rfl⟩ := hfrom e he
    obtain ⟨htaker, htake, hmake⟩ := hdirected f hf
    constructor
    · intro hp
      change p f.takerId = true at hp
      rw [htaker] at hp
      exact ⟨(takes_side ht f hf).trans (hside hp), htake hp⟩
    · intro hp
      change p f.makerId = true at hp
      refine ⟨hmake hp, ?_⟩
      change p f.takerId = false
      by_contra htp
      rw [htaker, Bool.not_eq_false] at htp
      rw [htake htp] at hp
      cases hp
  have hdir : ∀ e ∈ out.ring.events ++ told, e.type = .fill → Directed p s e := by
    intro e he
    rcases List.mem_append.mp he with he | he
    · exact h.directed e he
    · exact hnew e he
  have hsum : executed p (out.ring.events ++ told) + withdrawn p (out.ring.events ++ told) +
      supply p orders + dropped + (if p id then rem else 0) = sent + if p id then qty else 0 := by
    have hbalance := h.balance
    rw [executed_append, withdrawn_append, htoldexec, htoldwith]
    lia
  rw [Outlet.report]
  rcases hadd with ⟨rfl, hadd⟩ | ⟨hrem, -, -, hadd⟩ | ⟨-, -, hadd⟩ <;> rw [hadd] at hnodup ⊢ <;>
    simp only
  · rw [if_neg (by lia), htold]
    refine ⟨0, fun _ => rfl, ⟨hnodup, hpos⟩, ?_, hkept, hdir⟩
    simp only [ite_self] at hsum
    lia
  · rw [if_pos ⟨trivial, by lia⟩]
    have hrested : ∀ o ∈ orders ++ [⟨id, side, price, rem⟩], o ∈ orders ∨ o = ⟨id, side, price, rem⟩ :=
      fun o ho => (List.mem_append.mp ho).imp_right List.mem_singleton.mp
    refine ⟨0, fun _ => rfl, ⟨hnodup, fun o ho => ?_⟩, ?_, fun o ho hp => ?_, fun e he htype => ?_⟩
    · rcases hrested o ho with ho | rfl
      · exact hpos o ho
      · exact hrem
    · change executed p ((out.emitFills fs).ring.events ++ [_]) +
        withdrawn p ((out.emitFills fs).ring.events ++ [_]) + _ + _ = _
      rw [executed_append, withdrawn_append, executed_ack, withdrawn_ack, htold, supply_append,
        supply_singleton]
      lia
    · rcases hrested o ho with ho | rfl
      · exact hkept o ho hp
      · exact hside hp
    · change e ∈ (out.emitFills fs).ring.events ++ [_] at he
      rw [htold] at he
      rcases List.mem_append.mp he with he | he
      · exact hdir e he htype
      · obtain rfl := List.mem_singleton.mp he
        cases htype
  · rw [if_neg (by simp), htold]
    refine ⟨if p id then rem else 0, fun hother => ?_, ⟨hnodup, hpos⟩, by lia, hkept, hdir⟩
    rw [hother.resolve_left Bool.false_ne_true]
    rfl

omit [ClockFn Clock] in
/-- A cancel that finds nothing. -/
theorem cancel_none (h : Position p s R out.ring.events sent dropped) {id : OrderId}
    (hr : (R.cancel id).2 = none) : Position p s (R.cancel id).1 out.ring.events sent dropped := by
  have hsupply := supply_cancel (p := p) h.sound id
  have hbalance := h.balance
  rw [hr] at hsupply
  simp only [Option.map_none, Option.getD_none] at hsupply
  refine ⟨h.sound.step (show R.Admissible (.cancel id) from trivial), by lia, fun o ho => ?_, h.directed⟩
  rw [RefBook.cancel_orders] at ho
  exact h.oneSided o (List.mem_filter.mp ho).1

/-- A cancel, of whoever's order. -/
theorem cancel_some (h : Position p s R out.ring.events sent dropped) {id : OrderId}
    {r : OrderBook.CancelReport} (hr : (R.cancel id).2 = some r) :
    Position p s (R.cancel id).1
      (out.emit fun seq ts => .cancel seq ts r.id r.side r.price r.qty).ring.events sent dropped := by
  have hsupply := supply_cancel (p := p) h.sound id
  have hbalance := h.balance
  rw [hr] at hsupply
  simp only [Option.map_some, Option.getD_some] at hsupply
  refine ⟨h.sound.step (show R.Admissible (.cancel id) from trivial), ?_, fun o ho => ?_, fun e he htype => ?_⟩
  · change executed p (out.ring.events ++ [_]) + withdrawn p (out.ring.events ++ [_]) + _ + _ = _
    rw [executed_append, withdrawn_append, executed_cancel, withdrawn_cancel]
    lia
  · rw [RefBook.cancel_orders] at ho
    exact h.oneSided o (List.mem_filter.mp ho).1
  · change e ∈ out.ring.events ++ [_] at he
    rcases List.mem_append.mp he with he | he
    · exact h.directed e he htype
    · obtain rfl := List.mem_singleton.mp he
      cases htype

end Position

namespace TelemetryPublisher
variable {Clock : Type} [ClockFn Clock] {q : TelemetryPublisher OrderBook EventLog Clock} {R : RefBook}
  {rs : List Nat} {p : OrderId → Bool} {s : Side} {sent dropped : Quantity}

theorem addLimit_position (hq : q.book.Refines R rs) (h : Position p s R q.out.ring.events sent dropped)
    {id : OrderId} {side : Side} (price : Price) (qty : Quantity) (hid : id ∉ R.ids)
    (hside : p id = true → side = s) :
    ∃ q' fills ok lost rs', q.addLimit id side price qty = some (q', fills, ok) ∧
      q'.book.Refines (R.addLimit id side price qty).1 rs' ∧ (ok = true ∨ p id = false → lost = 0) ∧
      Position p s (R.addLimit id side price qty).1 q'.out.ring.events
        (sent + if p id then qty else 0) (dropped + lost) := by
  obtain ⟨b', rs', he, hr⟩ := hq.addLimit (RefBook.not_restsDuplicate hid side price qty)
  obtain ⟨lost, hlost, h'⟩ := h.addLimit price qty hid hside
  refine ⟨⟨b', q.out.report id side price qty _ _⟩, (R.addLimit id side price qty).2.1, _, lost, rs', ?_,
    hr, hlost, h'⟩
  rw [TelemetryPublisher.addLimit]
  simp only [MatchingBook.addLimit, he, Option.bind_eq_bind, Option.bind_some]
  rfl

theorem cancel_position (hq : q.book.Refines R rs) (h : Position p s R q.out.ring.events sent dropped)
    (id : OrderId) :
    ∃ q' ok rs', q.cancel id = some (q', ok) ∧ q'.book.Refines (R.cancel id).1 rs' ∧
      Position p s (R.cancel id).1 q'.out.ring.events sent dropped := by
  obtain ⟨b', rs', he, hr⟩ := hq.cancel id
  cases hreport : (R.cancel id).2 with
  | none =>
    refine ⟨⟨b', q.out⟩, false, rs', ?_, hr, h.cancel_none hreport⟩
    simp only [TelemetryPublisher.cancel, MatchingBook.cancel, he, hreport, Option.bind_eq_bind,
      Option.bind_some]
    rfl
  | some r =>
    refine ⟨⟨b', _⟩, true, rs', ?_, hr, h.cancel_some hreport⟩
    simp only [TelemetryPublisher.cancel, MatchingBook.cancel, he, hreport, Option.bind_eq_bind,
      Option.bind_some]
    rfl

end TelemetryPublisher
end ExecutionPlatform.Exec
