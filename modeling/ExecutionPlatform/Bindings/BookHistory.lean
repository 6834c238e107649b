import ExecutionPlatform.Bindings.Episode

/-! The environment touches its book through AddLimit and Cancel only, so what both of them
keep holds of the book after any calls of the environment. -/
namespace ExecutionPlatform.Bindings
open ExecutionPlatform.Core External Exec Foundations

/-- A property of books that survives both operations. -/
structure Lasting {B : Type} [MatchingBook B] (P : B → Prop) : Prop where
  addLimit : ∀ {b id side px qty b' fills ok}, P b →
    MatchingBook.addLimit b id side px qty = some (b', fills, ok) → P b'
  cancel : ∀ {b id b' report}, P b → MatchingBook.cancel b id = some (b', report) → P b'

namespace Lasting
variable {B Ring Clock F D : Type} [MatchingBook B] [EventRing Ring] [ClockFn Clock] {P : B → Prop}
  {env env' : SimEnv B Ring Clock F} {p p' : TelemetryPublisher B Ring Clock}

theorem publisherCancel {id : OrderId} {ok : Bool} (hP : Lasting P) (h : P p.book)
    (he : p.cancel id = some (p', ok)) : P p'.book := by
  obtain ⟨⟨book, report⟩, hcancel, he⟩ := Option.bind_eq_some_iff.mp he
  have hbook := hP.cancel h hcancel
  cases report with
  | none =>
    obtain ⟨rfl, -⟩ := Prod.mk.inj (Option.some.inj he)
    exact hbook
  | some r =>
    obtain ⟨rfl, -⟩ := Prod.mk.inj (Option.some.inj he)
    exact hbook

theorem publisherAddLimit {id : OrderId} {side : Side} {px : Price} {qty : Quantity}
    {fills : List Fill} {ok : Bool} (hP : Lasting P) (h : P p.book)
    (he : p.addLimit id side px qty = some (p', fills, ok)) : P p'.book := by
  obtain ⟨⟨book, fills', ok'⟩, hadd, he⟩ := Option.bind_eq_some_iff.mp he
  obtain ⟨rfl, -⟩ := Prod.mk.inj (Option.some.inj he)
  exact hP.addLimit h hadd

theorem cancelAll {ids : List OrderId} (hP : Lasting P) (h : P p.book)
    (he : Bindings.cancelAll ids p = some p') : P p'.book := by
  induction ids generalizing p with
  | nil =>
    obtain rfl := Option.some.inj he
    exact h
  | cons id ids ih =>
    obtain ⟨⟨p1, ok⟩, hcancel, he⟩ := Option.bind_eq_some_iff.mp he
    exact ih (hP.publisherCancel h hcancel) he

theorem expireLiquidity {fuel : Nat} (hP : Lasting P) (h : P env.publisher.book)
    (he : SimEnv.expireLiquidity fuel env = some env') : P env'.publisher.book := by
  induction fuel generalizing env with
  | zero => cases he
  | succ fuel ih =>
    rw [SimEnv.expireLiquidity] at he
    split_ifs at he with hlt
    · obtain ⟨birth, -, he⟩ := Option.bind_eq_some_iff.mp he
      split_ifs at he with hold
      · obtain ⟨id, -, he⟩ := Option.bind_eq_some_iff.mp he
        obtain ⟨⟨p, ok⟩, hcancel, he⟩ := Option.bind_eq_some_iff.mp he
        exact ih (hP.publisherCancel h hcancel) he
      · obtain rfl := Option.some.inj he
        exact h
    · obtain rfl := Option.some.inj he
      exact h

theorem evict (hP : Lasting P) (h : P env.publisher.book) (he : env.evict = some env') :
    P env'.publisher.book := by
  rw [SimEnv.evict] at he
  split_ifs at he with hfull
  · cases hlast : env.restingIds.getLast? with
    | none =>
      rw [hlast] at he
      obtain rfl := Option.some.inj he
      exact h
    | some victim =>
      rw [hlast] at he
      obtain ⟨⟨p, ok⟩, hcancel, he⟩ := Option.bind_eq_some_iff.mp he
      obtain rfl := Option.some.inj he
      exact hP.publisherCancel h hcancel
  · obtain rfl := Option.some.inj he
    exact h

theorem backgroundOrder {s : Submission} {fills : List Fill} (hP : Lasting P)
    (h : P env.publisher.book) (he : env.backgroundOrder = some (env', s, fills)) :
    P env'.publisher.book := by
  obtain ⟨env1, hevict, he⟩ := Option.bind_eq_some_iff.mp he
  obtain ⟨⟨p, fills', ok⟩, hadd, he⟩ := Option.bind_eq_some_iff.mp he
  have hbook := hP.publisherAddLimit (hP.evict (by exact h) hevict) hadd
  cases ok with
  | true =>
    obtain ⟨rfl, -⟩ := Prod.mk.inj (Option.some.inj he)
    exact hbook
  | false =>
    obtain ⟨rfl, -⟩ := Prod.mk.inj (Option.some.inj he)
    exact hbook

theorem backgroundFlow {n : Nat} {flow : List Submission} {fills : List Fill} (hP : Lasting P)
    (h : P env.publisher.book) (he : env.backgroundFlow n = some (env', flow, fills)) :
    P env'.publisher.book := by
  induction n generalizing env flow fills with
  | zero =>
    obtain ⟨rfl, -⟩ := Prod.mk.inj (Option.some.inj he)
    exact h
  | succ n ih =>
    obtain ⟨⟨env1, s1, fills1⟩, hone, he⟩ := Option.bind_eq_some_iff.mp he
    obtain ⟨⟨env2, flow2, fills2⟩, hrest, he⟩ := Option.bind_eq_some_iff.mp he
    obtain ⟨rfl, -⟩ := Prod.mk.inj (Option.some.inj he)
    exact ih (hP.backgroundOrder h hone) hrest

theorem resetInternal (hP : Lasting P) (h : P env.publisher.book)
    (he : env.resetInternal = some env') : P env'.publisher.book := by
  obtain ⟨p, hcancel, he⟩ := Option.bind_eq_some_iff.mp he
  obtain rfl := Option.some.inj he
  exact hP.cancelAll h hcancel

variable [MachineFloat F] [MachineFloat D] {cast : Casts F D}

theorem childStep {aggression : F} {qty : Quantity} {flow : List Submission} {bgFills : List Fill}
    {report : StepReport F} (hP : Lasting P) (h : P env.publisher.book)
    (he : env.childStep cast aggression qty flow bgFills = some (env', report)) :
    P env'.publisher.book := by
  obtain ⟨⟨p, seq, fills, ok⟩, hchild, he⟩ := Option.bind_eq_some_iff.mp he
  obtain ⟨⟨book, fills', ok'⟩, hadd, hchild⟩ := Option.bind_eq_some_iff.mp hchild
  obtain ⟨rfl, -⟩ := Prod.mk.inj (Option.some.inj hchild)
  obtain ⟨rfl, -⟩ := Prod.mk.inj (Option.some.inj he)
  exact hP.addLimit h hadd

theorem stepImpl {sizeFrac aggression : F} {report : StepReport F} (hP : Lasting P)
    (h : P env.publisher.book) (he : env.stepImpl cast sizeFrac aggression = some (env', report)) :
    P env'.publisher.book := by
  rw [SimEnv.stepImpl] at he
  split_ifs at he with hd
  · obtain ⟨rfl, -⟩ := Prod.mk.inj (Option.some.inj he)
    exact h
  obtain ⟨start, hchurn, he⟩ := Option.bind_eq_some_iff.mp he
  obtain ⟨⟨mid, flow, bgFills⟩, hflow, he⟩ := Option.bind_eq_some_iff.mp he
  have hmid := hP.backgroundFlow (hP.expireLiquidity h hchurn) hflow
  simp only at he
  split_ifs at he with hz
  · obtain ⟨rfl, -⟩ := Prod.mk.inj (Option.some.inj he)
    exact hmid
  · exact hP.childStep hmid he

theorem reset {seed : BitVec 64} (hP : Lasting P) (h : P env.publisher.book)
    (he : env.reset cast seed = some env') : P env'.publisher.book := by
  obtain ⟨env1, hreset, he⟩ := Option.bind_eq_some_iff.mp he
  obtain rfl := Option.some.inj he
  have hbook := hP.resetInternal (by exact h) hreset
  exact hbook

theorem new {book : B} {ring : Ring} {clock : Clock} {parentQty horizonSteps : Nat} {seed : BitVec 64}
    {arrivalMid : Price} (hP : Lasting P) (h : P book)
    (he : SimEnv.new cast book ring clock parentQty horizonSteps seed arrivalMid = some env') :
    P env'.publisher.book := by
  rw [SimEnv.new] at he
  obtain ⟨env1, hreset, he⟩ := Option.bind_eq_some_iff.mp he
  obtain rfl := Option.some.inj he
  have hbook := hP.resetInternal (by exact h) hreset
  exact hbook

/-- What lasts holds of the book of every reachable reference episode. -/
theorem reachable {P : RefBook → Prop} (hP : Lasting P) (h0 : P SimEnv.startBook)
    {parentQty horizonSteps : Nat} {arrivalMid : Price}
    {ok : Episode RefBook Unit Unit F → Call F → Prop} {EP : Episode RefBook Unit Unit F}
    (h : (refEpisodes cast parentQty horizonSteps arrivalMid).ReachableVia ok EP) :
    P EP.env.publisher.book := by
  refine h.invariant (I := fun EP => P EP.env.publisher.book) ?_ ?_
  · rintro EP ⟨seed, E, hnew, rfl⟩
    exact hP.new h0 hnew
  · rintro EP c EP' - hEP hcall
    rcases Episode.call_cases hcall with ⟨action, rfl, -, rfl⟩ |
      ⟨sizeFrac, aggression, rest, E, report, rfl, himpl, rfl⟩ | ⟨seed, E, rfl, hreset, rfl⟩
    · exact hEP
    · have hbook := hP.stepImpl hEP himpl
      exact hbook
    · exact hP.reset hEP hreset

end Lasting
end ExecutionPlatform.Bindings
