import ExecutionPlatform.Bindings.SimRefinement
import ExecutionPlatform.Foundations.ShiftXor

/-! The simulation runner: its generator, and the workload loop that drives the publisher. -/
namespace ExecutionPlatform.Main
open ExecutionPlatform.Core Exec Foundations

def kBookCapacity : Nat := 8192

/-- The runner's own copy of the generator, which takes its seed as it is. -/
structure Xorshift64 where
  state : BitVec 64
  deriving DecidableEq

namespace Xorshift64

def new (seed : BitVec 64) : Xorshift64 := ⟨seed⟩

def next (rng : Xorshift64) : BitVec 64 × Xorshift64 :=
  let s := rng.state ^^^ (rng.state <<< 13)
  let s := s ^^^ (s >>> 7)
  let s := s ^^^ (s <<< 17)
  (s, ⟨s⟩)

/-- The composed map only takes 0 to 0. -/
theorem next_ne_zero {rng : Xorshift64} (h : rng.state ≠ 0) : rng.next.1 ≠ 0 := by
  intro hz
  have h1 := eq_zero_of_xor_shiftLeft (k := 17) (by decide) hz
  have h2 := eq_zero_of_xor_ushiftRight (k := 7) (by decide) h1
  exact h (eq_zero_of_xor_shiftLeft (k := 13) (by decide) h2)

/-- From equal states both copies draw alike. -/
theorem draw_eq_of_state (rng : Xorshift64) (rng' : Bindings.Xorshift64) (h : rng.state = rng'.state)
    (n : Nat) : draw next rng n = draw Bindings.Xorshift64.next rng' n := by
  refine draw_eq (R := fun r r' => r.state = r'.state) (fun r r' hr => ?_) h n
  rw [next, Bindings.Xorshift64.next, hr]
  exact ⟨rfl, rfl⟩

theorem draw_ne_zero (rng : Xorshift64) (h : rng.state ≠ 0) (n : Nat) : draw next rng n ≠ 0 :=
  draw_invariant (I := fun r => r.state ≠ 0) (P := fun x => x ≠ 0)
    (fun _ hr => ⟨next_ne_zero hr, next_ne_zero hr⟩) h n

/-- A shared seed draws the same in both programs, and never 0, exactly if it is not 0. -/
theorem shared_seed_iff (rng : Bindings.Xorshift64) (seed : BitVec 64) :
    (∀ n, draw next (new seed) n = draw Bindings.Xorshift64.next (.new seed) n ∧
      draw next (new seed) n = draw Bindings.Xorshift64.next (rng.reseed seed) n ∧
      draw next (new seed) n ≠ 0 ∧ draw Bindings.Xorshift64.next (.new seed) n ≠ 0) ↔ seed ≠ 0 := by
  constructor
  · rintro h rfl
    exact (h 0).2.2.1 (by decide)
  · intro hseed n
    have hnew : (Bindings.Xorshift64.new seed).state = seed := if_pos hseed
    have hreseed : (rng.reseed seed).state = seed := if_pos hseed
    have heq := draw_eq_of_state (new seed) (.new seed) hnew.symm n
    have hne := draw_ne_zero (new seed) hseed n
    exact ⟨heq, draw_eq_of_state (new seed) (rng.reseed seed) hreseed.symm n, hne, heq ▸ hne⟩

/-- Under seed 0 the runner only ever draws 0, and the environment does not. -/
theorem seed_zero_absorbed : draw next (new 0) 0 = 0 ∧ draw next (new 0) 1 = 0 ∧
    draw Bindings.Xorshift64.next (.new 0) 0 ≠ draw next (new 0) 0 := by
  decide

end Xorshift64

/-- The side, price and quantity of the order of one iteration, from three draws. Buys are
centred on 99 and sells on 101. -/
def drawOrder (rng : Xorshift64) : (Side × Price × Quantity) × Xorshift64 :=
  let (r, rng) := rng.next
  let side : Side := if r &&& 1 ≠ 0 then .buy else .sell
  let (r, rng) := rng.next
  let offset : Price := ((r % 11).toNat : Nat) - 5
  let px := match side with
    | .buy => 99 + offset
    | .sell => 101 + offset
  let (r, rng) := rng.next
  ((side, px, 1 + (r % 4).toNat), rng)

/-- The variables of the workload loop. Ids count up from 1, one for each order sent. -/
structure SimRunner (B Ring Clock : Type) where
  publisher : TelemetryPublisher B Ring Clock
  rng : Xorshift64
  resting : Array OrderId
  nextId : OrderId
  adds : Nat
  cancels : Nat

/-- Which way an iteration went: the random cancel, the eviction branch, of none when it
finds no id to evict, or an order and whether it was accepted. -/
inductive Turn where
  | cancelled (victim : OrderId)
  | evicted (victim : Option OrderId)
  | submitted (id : OrderId) (side : Side) (px : Price) (qty : Quantity) (ok : Bool)
  deriving DecidableEq

namespace SimRunner
variable {B Ring Clock : Type} [MatchingBook B] [EventRing Ring] [ClockFn Clock]

def start (book : B) (ring : Ring) (clock : Clock) (seed : BitVec 64) : SimRunner B Ring Clock where
  publisher := ⟨book, ⟨ring, clock, 0⟩⟩
  rng := .new seed
  resting := #[]
  nextId := 1
  adds := 0
  cancels := 0

/-- Take the last id off the vector and cancel it. -/
def cancelBack (r : SimRunner B Ring Clock) : Option (SimRunner B Ring Clock × OrderId) := do
  let victim ← r.resting.back?
  let (publisher, _) ← r.publisher.cancel victim
  pure ({ r with publisher := publisher, resting := r.resting.pop, cancels := r.cancels + 1 }, victim)

/-- The random cancel: the victim is swapped to the back. -/
def cancelRandom (r : SimRunner B Ring Clock) : Option (SimRunner B Ring Clock × Turn) := do
  let (draw, rng) := r.rng.next
  let idx := draw.toNat % r.resting.size
  let (r, victim) ← { r with rng := rng
                             resting := r.resting.swapIfInBounds idx (r.resting.size - 1) }.cancelBack
  pure (r, .cancelled victim)

/-- The defensive eviction before the slab is full. -/
def evict (r : SimRunner B Ring Clock) : Option (SimRunner B Ring Clock × Turn) :=
  if r.resting.isEmpty then pure (r, .evicted none)
  else do
    let (r, victim) ← r.cancelBack
    pure (r, .evicted (some victim))

def submit (r : SimRunner B Ring Clock) : Option (SimRunner B Ring Clock × Turn) := do
  let ((side, px, qty), rng) := drawOrder r.rng
  let id := r.nextId
  let (publisher, _, ok) ← r.publisher.addLimit id side px qty
  let r := { r with publisher := publisher, rng := rng, nextId := r.nextId + 1 }
  pure (if ok then { r with resting := r.resting.push id, adds := r.adds + 1 } else r,
    .submitted id side px qty ok)

/-- The last two branches of an iteration. -/
def guardedSubmit (r : SimRunner B Ring Clock) : Option (SimRunner B Ring Clock × Turn) :=
  if kBookCapacity - 4 ≤ MatchingBook.openOrderCount r.publisher.book then r.evict else r.submit

/-- One iteration. The first draw is only made when there is something to cancel. -/
def iterate (r : SimRunner B Ring Clock) : Option (SimRunner B Ring Clock × Turn) :=
  if r.resting.isEmpty then r.guardedSubmit
  else
    let (draw, rng) := r.rng.next
    let r := { r with rng := rng }
    if draw % 4 = 0 then r.cancelRandom else r.guardedSubmit

/-- The workload loop, with what each iteration did. -/
def loop : Nat → SimRunner B Ring Clock → Option (SimRunner B Ring Clock × List Turn)
  | 0, r => some (r, [])
  | ops + 1, r => do
    let (r, turn) ← r.iterate
    let (r, turns) ← loop ops r
    pure (r, turn :: turns)

end SimRunner
end ExecutionPlatform.Main
