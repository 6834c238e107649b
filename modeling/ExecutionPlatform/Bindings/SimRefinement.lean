import ExecutionPlatform.Bindings.SimSteps

/-! The environment over the order book and the environment over the reference book go
through the same states and show the same results, whatever ring and clock they have. -/
namespace ExecutionPlatform.Bindings
open ExecutionPlatform.Core External Exec Foundations

/-- The reference environment needs neither a ring nor a clock. -/
instance : EventRing Unit where
  tryPush _ _ := ((), true)

instance : ClockFn Unit where
  read _ := (0, ())

namespace SimEnv
variable {Ring Clock F D : Type}

/-- Both publishers hold one book. -/
def SameBook (p : TelemetryPublisher OrderBook Ring Clock) (P : TelemetryPublisher RefBook Unit Unit) :
    Prop := ∃ rs, p.book.Refines P.book rs

/-- The two environments differ at most in how the book is stored and in where telemetry goes. -/
structure Mirrors (e : SimEnv OrderBook Ring Clock F) (E : SimEnv RefBook Unit Unit F) : Prop where
  state : e.toEnvState = E.toEnvState
  book : SameBook e.publisher E.publisher

section Publisher
variable {p : TelemetryPublisher OrderBook Ring Clock} {P : TelemetryPublisher RefBook Unit Unit}

theorem SameBook.observers (h : SameBook p P) :
    MatchingBook.openOrderCount p.book = MatchingBook.openOrderCount P.book ∧
    MatchingBook.hasBid p.book = MatchingBook.hasBid P.book ∧
    MatchingBook.hasAsk p.book = MatchingBook.hasAsk P.book ∧
    MatchingBook.bestBid p.book = MatchingBook.bestBid P.book ∧
    MatchingBook.bestAsk p.book = MatchingBook.bestAsk P.book := by
  obtain ⟨rs, h⟩ := h
  exact h.observers

variable [EventRing Ring] [ClockFn Clock]

theorem SameBook.cancel (h : SameBook p P) (id : OrderId) :
    ∃ p' P' ok, p.cancel id = some (p', ok) ∧ P.cancel id = some (P', ok) ∧ SameBook p' P' := by
  obtain ⟨rs, h⟩ := h
  obtain ⟨b', rs', he, hr⟩ := h.cancel id
  simp only [TelemetryPublisher.cancel, MatchingBook.cancel, he, Option.bind_eq_bind, Option.bind_some]
  cases (P.book.cancel id).2 with
  | none => exact ⟨_, _, _, rfl, rfl, rs', hr⟩
  | some r => exact ⟨_, _, _, rfl, rfl, rs', hr⟩

theorem SameBook.addLimit (h : SameBook p P) {id : OrderId} (hid : id ∉ P.book.ids) (side : Side)
    (price : Price) (qty : Quantity) :
    ∃ p' P' fills ok, p.addLimit id side price qty = some (p', fills, ok) ∧
      P.addLimit id side price qty = some (P', fills, ok) ∧ SameBook p' P' := by
  obtain ⟨rs, h⟩ := h
  obtain ⟨b', rs', he, hr⟩ := h.addLimit (RefBook.not_restsDuplicate hid side price qty)
  simp only [TelemetryPublisher.addLimit, MatchingBook.addLimit, he, Option.bind_eq_bind,
    Option.bind_some]
  exact ⟨_, _, _, _, rfl, rfl, rs', hr⟩

theorem SameBook.submitChild (h : SameBook p P) {id : OrderId} (hid : id ∉ P.book.ids) (seq Seq : Nat)
    (px : Price) (qty : Quantity) :
    ∃ p' P' seq' Seq' fills ok, submitChild p seq id px qty = some (p', seq', fills, ok) ∧
      submitChild P Seq id px qty = some (P', Seq', fills, ok) ∧ SameBook p' P' := by
  obtain ⟨rs, h⟩ := h
  obtain ⟨b', rs', he, hr⟩ := h.addLimit (RefBook.not_restsDuplicate hid .sell px qty)
  simp only [Bindings.submitChild, MatchingBook.addLimit, he, Option.bind_eq_bind, Option.bind_some]
  exact ⟨_, _, _, _, _, _, rfl, rfl, rs', hr⟩

theorem SameBook.cancelAll (h : SameBook p P) (ids : List OrderId) :
    ∃ p' P', cancelAll ids p = some p' ∧ cancelAll ids P = some P' ∧ SameBook p' P' := by
  induction ids generalizing p P with
  | nil => exact ⟨p, P, rfl, rfl, h⟩
  | cons id ids ih =>
    obtain ⟨p1, P1, ok, h1, h2, h3⟩ := h.cancel id
    obtain ⟨p2, P2, h4, h5, h6⟩ := ih h3
    refine ⟨p2, P2, ?_, ?_, h6⟩
    · rw [Bindings.cancelAll, h1]
      exact h4
    · rw [Bindings.cancelAll, h2]
      exact h5

end Publisher

variable {e : SimEnv OrderBook Ring Clock F} {E E' : SimEnv RefBook Unit Unit F}

section Observers
variable [MachineFloat F] [MachineFloat D]

theorem Mirrors.childPx (h : Mirrors e E) (aggression : F) : e.childPx aggression = E.childPx aggression := by
  obtain ⟨-, h1, h2, h3, h4⟩ := h.book.observers
  rw [SimEnv.childPx, SimEnv.childPx, h.state, h1, h2, h3, h4]

theorem Mirrors.writeState (h : Mirrors e E) (cast : Casts F D) :
    Mirrors (e.writeState cast) (E.writeState cast) := by
  obtain ⟨-, h1, h2, h3, h4⟩ := h.book.observers
  refine ⟨?_, h.book⟩
  simp only [SimEnv.writeState, h.state, h1, h2, h3, h4]

end Observers

variable [EventRing Ring] [ClockFn Clock]

theorem Mirrors.expire {fuel : Nat} (h : Mirrors e E) (hE : expireLiquidity fuel E = some E') :
    ∃ e', expireLiquidity fuel e = some e' ∧ Mirrors e' E' := by
  induction fuel generalizing e E with
  | zero => cases hE
  | succ fuel ih =>
    obtain ⟨s, p, fusedSeq⟩ := e
    obtain ⟨S, P, FusedSeq⟩ := E
    obtain ⟨hs, hb⟩ := h
    obtain rfl : s = S := hs
    rw [expireLiquidity] at hE ⊢
    simp only at hE ⊢
    split_ifs at hE ⊢ with hlt
    · cases hbirth : s.bgBirth[s.bgHead]? with
      | none => simp [hbirth] at hE
      | some birth =>
        simp only [hbirth, Option.bind_eq_bind, Option.bind_some] at hE ⊢
        split_ifs at hE ⊢ with hold
        · cases hid : s.bgIds[s.bgHead]? with
          | none => simp [hid] at hE
          | some id =>
            obtain ⟨p1, P1, ok, h1, h2, h3⟩ := hb.cancel id
            simp only [hid, h1, h2, Option.bind_some] at hE ⊢
            exact ih ⟨rfl, h3⟩ hE
        · obtain rfl := Option.some.inj hE
          exact ⟨_, rfl, rfl, hb⟩
    · obtain rfl := Option.some.inj hE
      exact ⟨_, rfl, rfl, hb⟩

theorem Mirrors.evict (h : Mirrors e E) (hE : E.evict = some E') :
    ∃ e', e.evict = some e' ∧ Mirrors e' E' := by
  obtain ⟨s, p, fusedSeq⟩ := e
  obtain ⟨S, P, FusedSeq⟩ := E
  obtain ⟨hs, hb⟩ := h
  obtain rfl : s = S := hs
  have hcount : MatchingBook.openOrderCount p.book = MatchingBook.openOrderCount P.book :=
    hb.observers.1
  rw [SimEnv.evict] at hE ⊢
  simp only [hcount] at hE ⊢
  split_ifs at hE ⊢ with hfull
  · cases hlast : s.restingIds.getLast? with
    | none =>
      simp only [hlast] at hE ⊢
      obtain rfl := Option.some.inj hE
      exact ⟨_, rfl, rfl, hb⟩
    | some victim =>
      obtain ⟨p1, P1, ok, h1, h2, h3⟩ := hb.cancel victim
      simp only [hlast, h1, h2, Option.bind_eq_bind, Option.bind_some] at hE ⊢
      obtain rfl := Option.some.inj hE
      exact ⟨_, rfl, rfl, h3⟩
  · obtain rfl := Option.some.inj hE
    exact ⟨_, rfl, rfl, hb⟩

theorem Mirrors.backgroundOrder {k : Nat} {order : Submission} {fills : List Fill} (h : Mirrors e E)
    (hT : E.Tracked k) (hE : E.backgroundOrder = some (E', order, fills)) :
    ∃ e', e.backgroundOrder = some (e', order, fills) ∧ Mirrors e' E' := by
  obtain ⟨s, p, fusedSeq⟩ := e
  obtain ⟨S, P, FusedSeq⟩ := E
  obtain ⟨hs, hb⟩ := h
  obtain rfl : s = S := hs
  rw [SimEnv.backgroundOrder] at hE ⊢
  obtain ⟨⟨⟨side, px, qty⟩, rng⟩, hd⟩ : ∃ w, drawOrder s.arrivalMid s.rng = w := ⟨_, rfl⟩
  simp only [hd] at hE ⊢
  have hT1 : Tracked k ⟨{ s with rng := rng, nextId := s.nextId + 1 }, P, FusedSeq⟩ :=
    { hT with
      fresh := fun o ho => Nat.lt_succ_of_lt (hT.fresh o ho)
      issued := fun id hi => Nat.lt_succ_of_lt (hT.issued id hi) }
  have h1 : Mirrors ⟨{ s with rng := rng, nextId := s.nextId + 1 }, p, fusedSeq⟩
      ⟨{ s with rng := rng, nextId := s.nextId + 1 }, P, FusedSeq⟩ := ⟨rfl, hb⟩
  obtain ⟨P1, restingIds, hE1, -, hsub⟩ := hT1.evict
  obtain ⟨⟨s1, p1, fusedSeq1⟩, he1, hs1, hb1⟩ := h1.evict hE1
  have hfresh : s.nextId ∉ P1.book.ids := fun hid => by
    obtain ⟨o, ho, hid⟩ := List.mem_map.mp hid
    exact absurd (hid ▸ hT.fresh o (hsub.subset ho)) (Nat.lt_irrefl _)
  obtain ⟨p2, P2, fills2, ok, h3, h4, h5⟩ := hb1.addLimit hfresh side px qty
  simp only at hs1
  simp only [hE1, he1, h3, h4, Option.bind_eq_bind, Option.bind_some, hs1] at hE ⊢
  split_ifs at hE ⊢
  · cases hE
    exact ⟨_, rfl, rfl, h5⟩
  · cases hE
    exact ⟨_, rfl, rfl, h5⟩

theorem Mirrors.backgroundFlow {j : Nat} (k : Nat) {flow : List Submission} {fills : List Fill}
    (h : Mirrors e E) (hT : E.Tracked j) (hy : E.Young)
    (hE : E.backgroundFlow k = some (E', flow, fills)) :
    ∃ e', e.backgroundFlow k = some (e', flow, fills) ∧ Mirrors e' E' := by
  induction k generalizing e E E' j flow fills with
  | zero =>
    cases hE
    exact ⟨e, rfl, h⟩
  | succ k ih =>
    obtain ⟨E1, order, fills1, hE1, hT1, hy1, -⟩ := hT.backgroundOrder hy
    obtain ⟨e1, he1, h1⟩ := h.backgroundOrder hT hE1
    rw [SimEnv.backgroundFlow, hE1] at hE
    simp only [Option.bind_eq_bind, Option.bind_some] at hE
    obtain ⟨⟨E2, flow2, fills2⟩, hE2, hout⟩ := Option.bind_eq_some_iff.mp hE
    obtain ⟨e2, he2, h2⟩ := ih h1 hT1 hy1 hE2
    cases hout
    refine ⟨e2, ?_, h2⟩
    rw [SimEnv.backgroundFlow, he1]
    simp only [Option.bind_eq_bind, Option.bind_some, he2]
    rfl

theorem Mirrors.resetInternal (h : Mirrors e E) (hE : E.resetInternal = some E') :
    ∃ e', e.resetInternal = some e' ∧ Mirrors e' E' := by
  have hs := h.state
  have hids : e.restingIds = E.restingIds := congrArg EnvState.restingIds hs
  obtain ⟨p, P, h1, h2, h3⟩ := h.book.cancelAll E.restingIds
  rw [SimEnv.resetInternal] at hE ⊢
  rw [h2] at hE
  rw [hids, h1]
  obtain rfl := Option.some.inj hE
  exact ⟨_, rfl, congrArg (fun s => { s with
    restingIds := []
    bgIds := []
    bgBirth := []
    bgHead := 0
    remaining := s.parentQty
    stepIdx := 0
    qtyFilled := 0
    cashFromFills := 0
    done := false
    nextId := 1 }) hs, h3⟩

variable [MachineFloat F] [MachineFloat D]

theorem Mirrors.childStep {k : Nat} {cast : Casts F D} {aggression : F} {qty : Quantity}
    {flow : List Submission} {bgFills : List Fill} {report : StepReport F} (h : Mirrors e E)
    (hT : E.Tracked k) (hE : E.childStep cast aggression qty flow bgFills = some (E', report)) :
    ∃ e', e.childStep cast aggression qty flow bgFills = some (e', report) ∧ Mirrors e' E' := by
  have hpx := h.childPx aggression
  obtain ⟨s, p, fusedSeq⟩ := e
  obtain ⟨S, P, FusedSeq⟩ := E
  obtain ⟨hs, hb⟩ := h
  obtain rfl : s = S := hs
  have hfresh : s.nextId ∉ P.book.ids := fun hid => by
    obtain ⟨o, ho, hid⟩ := List.mem_map.mp hid
    exact absurd (hid ▸ hT.fresh o ho) (Nat.lt_irrefl _)
  obtain ⟨px, hpx'⟩ : ∃ px, SimEnv.childPx ⟨s, P, FusedSeq⟩ aggression = px := ⟨_, rfl⟩
  obtain ⟨p1, P1, seq1, Seq1, fills, ok, h1, h2, h3⟩ := hb.submitChild hfresh fusedSeq FusedSeq px qty
  rw [hpx'] at hpx
  rw [SimEnv.childStep] at hE ⊢
  simp only [hpx, hpx', h1, h2, Option.bind_eq_bind, Option.bind_some] at hE ⊢
  obtain ⟨rfl, rfl⟩ := Prod.mk.inj (Option.some.inj hE)
  exact ⟨_, rfl, rfl, h3⟩

theorem Mirrors.stepImpl {cast : Casts F D} {sizeFrac aggression : F} {report : StepReport F}
    (h : Mirrors e E) (hT : E.Tracked 0)
    (hE : E.stepImpl cast sizeFrac aggression = some (E', report)) :
    ∃ e', e.stepImpl cast sizeFrac aggression = some (e', report) ∧ Mirrors e' E' := by
  have hdone : e.done = E.done := congrArg EnvState.done h.state
  have hids : e.bgIds = E.bgIds := congrArg EnvState.bgIds h.state
  rw [SimEnv.stepImpl] at hE ⊢
  rw [hdone, hids]
  split_ifs at hE ⊢ with hd
  · obtain ⟨rfl, rfl⟩ := Prod.mk.inj (Option.some.inj hE)
    exact ⟨e, rfl, h⟩
  · obtain ⟨P, head, hE1, hT1, hy1, -⟩ := hT.expire (Nat.lt_succ_of_le (Nat.sub_le ..) :
      E.bgIds.length - E.bgHead < E.bgIds.length + 1)
    obtain ⟨e1, he1, h1⟩ := h.expire hE1
    obtain ⟨E2, flow, bgFills, hE2, hT2, -, -⟩ := hT1.backgroundFlow 12 hy1
    obtain ⟨e2, he2, h2⟩ := h1.backgroundFlow 12 hT1 hy1 hE2
    simp only [hE1, he1, hE2, he2, Option.bind_eq_bind, Option.bind_some, h2.state] at hE ⊢
    split_ifs at hE ⊢ with hz
    · obtain ⟨rfl, rfl⟩ := Prod.mk.inj (Option.some.inj hE)
      simp only [idleStep, h2.state]
      exact ⟨_, rfl, rfl, h2.book⟩
    · exact h2.childStep hT2 hE

theorem Mirrors.reset {cast : Casts F D} {seed : BitVec 64} (h : Mirrors e E)
    (hE : E.reset cast seed = some E') : ∃ e', e.reset cast seed = some e' ∧ Mirrors e' E' := by
  have hrng : e.rng = E.rng := congrArg EnvState.rng h.state
  rw [SimEnv.reset] at hE ⊢
  obtain ⟨E1, hE1, hE⟩ := Option.bind_eq_some_iff.mp hE
  have h0 : Mirrors { e with rng := e.rng.reseed seed } { E with rng := E.rng.reseed seed } :=
    ⟨by simp only [h.state], h.book⟩
  obtain ⟨e1, he1, h1⟩ := h0.resetInternal hE1
  obtain rfl := Option.some.inj hE
  refine ⟨_, ?_, h1.writeState cast⟩
  rw [he1]
  rfl

theorem Mirrors.new (cast : Casts F D) {checked : Bool} {book : OrderBook} (ring : Ring) (clock : Clock)
    (parentQty horizonSteps : Nat) (seed : BitVec 64) (arrivalMid : Price)
    (hbook : OrderBook.new kBookCapacity OrderBook.defaultMinPrice OrderBook.defaultMaxPrice checked =
      some book) :
    ∃ e E, SimEnv.new cast book ring clock parentQty horizonSteps seed arrivalMid = some e ∧
      SimEnv.new cast startBook () () parentQty horizonSteps seed arrivalMid = some E ∧ Mirrors e E := by
  obtain ⟨b, hnew, hr⟩ := OrderBook.new_refines kBookCapacity OrderBook.defaultMinPrice
    OrderBook.defaultMaxPrice checked (by decide) (by decide)
  obtain rfl : b = book := Option.some.inj (hnew.symm.trans hbook)
  exact ⟨_, _, rfl, rfl, Mirrors.writeState ⟨rfl, [], hr⟩ cast⟩

theorem Mirrors.step {cast : Casts F D} {action : List F} {out : Except String (StepReport F)}
    (h : Mirrors e E) (hT : E.Tracked 0) (hE : E.step cast action = some (E', out)) :
    ∃ e', e.step cast action = some (e', out) ∧ Mirrors e' E' := by
  have hshort : ∀ msg, some (E, Except.error msg) = some (E', out) →
      ∃ e', some (e, Except.error msg) = some (e', out) ∧ Mirrors e' E' := by
    intro msg hE
    obtain ⟨rfl, rfl⟩ := Prod.mk.inj (Option.some.inj hE)
    exact ⟨e, rfl, h⟩
  match action with
  | [] => exact hshort _ hE
  | [_] => exact hshort _ hE
  | sizeFrac :: aggression :: _ =>
    obtain ⟨⟨E1, report⟩, hE1, hE⟩ := Option.bind_eq_some_iff.mp hE
    obtain ⟨e1, he1, h1⟩ := h.stepImpl hT hE1
    obtain ⟨rfl, rfl⟩ := Prod.mk.inj (Option.some.inj hE)
    refine ⟨_, ?_, h1.writeState cast⟩
    rw [SimEnv.step, he1]
    rfl

end SimEnv
end ExecutionPlatform.Bindings
