import ExecutionPlatform.Exec.Strategy

/-! The Almgren-Chriss baseline: an urgency schedule tabulated at construction. -/
namespace ExecutionPlatform.Exec
open ExecutionPlatform.Core Foundations

/-- The constructor asserts at least one step and positive horizon and eta, in debug builds
only. -/
structure AlmgrenChriss.Params (D : Type) where
  parentQty : Quantity
  parentSide : Side
  numSteps : Nat
  horizon : D
  lambda : D
  sigma : D
  eta : D

structure AlmgrenChriss (D : Type) where
  params : AlmgrenChriss.Params D
  kappa : D
  childQty : Nat → Quantity
  remaining : Nat → Quantity

namespace AlmgrenChriss
variable {D : Type} {p : Params D}

/-- The tables under construction. -/
structure Fill where
  prev : Quantity
  childQty : Nat → Quantity
  remaining : Nat → Quantity

/-- Full inventory at the start and none at the horizon. -/
def Fill.anchors (p : Params D) : Fill where
  prev := p.parentQty
  childQty := fun _ => 0
  remaining := Function.update (Function.update (fun _ => 0) 0 p.parentQty) p.numSteps 0

/-- After k turns the tables sell the parent down to prev, and the end is still anchored. -/
structure Tabulated (p : Params D) (st : Fill) (k : Nat) : Prop where
  soldDown : SoldDown p.parentQty st.childQty st.remaining k
  prev : st.prev = st.remaining k
  anchor : st.remaining p.numSteps = 0

theorem Tabulated.anchors (hN : 1 ≤ p.numSteps) : Tabulated p (.anchors p) 0 := by
  have hstart : (Fill.anchors p).remaining 0 = p.parentQty := by
    simp only [Fill.anchors]
    rw [Function.update_of_ne (by omega), Function.update_self]
  exact ⟨⟨hstart, fun j hj => absurd hj j.not_lt_zero⟩, hstart.symm, Function.update_self ..⟩

variable [MachineFloat D] {libm : Libm D}

def computeKappa (libm : Libm D) (lambda sigma eta : D) : D :=
  let num := lambda * sigma * sigma
  if num ≤ ((0 : Nat) : D) then ((0 : Nat) : D) else libm.sqrt (num / eta)

/-- The loop's threshold 1e-9, below which the ratio is taken to its linear limit. -/
def kappaFloor : D := ((1 : Nat) : D) / ((1000000000 : Nat) : D)

def linear (libm : Libm D) (p : Params D) : Bool :=
  !(kappaFloor < computeKappa libm p.lambda p.sigma p.eta * p.horizon)

/-- The fraction of the parent that is to remain after step j, before the clamps. -/
def ratio (libm : Libm D) (p : Params D) (j : Nat) : D :=
  let kappa := computeKappa libm p.lambda p.sigma p.eta
  let t := (j : D) * p.horizon / (p.numSteps : D)
  if linear libm p then (p.horizon - t) / p.horizon
  else libm.sinh (kappa * (p.horizon - t)) / libm.sinh (kappa * p.horizon)

/-- What step j's llround call leaves of the parent, as an unsigned quantity. -/
def target (libm : Libm D) (p : Params D) (j : Nat) : Quantity :=
  (libm.llround j ((p.parentQty : D) * clampUnit (ratio libm p j))).toNat

/-- One turn of the loop over the inner steps. -/
def turn (libm : Libm D) (p : Params D) (st : Fill) (j : Nat) : Fill :=
  let x := target libm p j
  let x := if st.prev < x then st.prev else x
  { remaining := Function.update st.remaining j x
    childQty := Function.update st.childQty (j - 1) (subWord 64 st.prev x)
    prev := x }

/-- The loop after its first k turns, j from 1 to k. -/
def turns (libm : Libm D) (p : Params D) : Nat → Fill
  | 0 => .anchors p
  | k + 1 => turn libm p (turns libm p k) (k + 1)

/-- The constructor; the last child closes out. -/
def new (libm : Libm D) (p : Params D) : AlmgrenChriss D :=
  let st := turns libm p (p.numSteps - 1)
  { params := p
    kappa := computeKappa libm p.lambda p.sigma p.eta
    childQty := Function.update st.childQty (p.numSteps - 1) st.prev
    remaining := st.remaining }

instance : Strategy (AlmgrenChriss D) where
  childQuantity s j := s.childQty j
  remainingAfterStep s j := s.remaining j
  side s := s.params.parentSide
  parentQty s := s.params.parentQty
  numSteps s := s.params.numSteps

theorem Tabulated.turn {st : Fill} {k : Nat} (h : Tabulated p st k) (hQ : p.parentQty < 2 ^ 64)
    (hk : k + 1 < p.numSteps) : Tabulated p (turn libm p st (k + 1)) (k + 1) := by
  obtain ⟨x, hx⟩ : ∃ x, (if st.prev < target libm p (k + 1) then st.prev
    else target libm p (k + 1)) = x := ⟨_, rfl⟩
  have hle : x ≤ st.prev := by
    rw [← hx]
    split_ifs with hlt
    · exact le_rfl
    · exact Nat.le_of_not_lt hlt
  have hprev : st.prev < 2 ^ 64 := h.prev ▸ h.soldDown.remaining_le.trans_lt hQ
  have hsell := h.soldDown.sell (h.prev ▸ hle)
  rw [AlmgrenChriss.turn, hx, subWord_of_le hle hprev, Nat.add_sub_cancel]
  refine ⟨?_, ?_, ?_⟩
  · rw [h.prev]
    exact hsell
  · change x = Function.update st.remaining (k + 1) x (k + 1)
    rw [Function.update_self]
  · have hne : p.numSteps ≠ k + 1 := by omega
    exact (Function.update_of_ne hne x st.remaining).trans h.anchor

theorem Tabulated.turns (hQ : p.parentQty < 2 ^ 64) {k : Nat} (hk : k < p.numSteps) :
    Tabulated p (turns libm p k) k := by
  induction k with
  | zero => exact .anchors hk
  | succ k ih => exact (ih (Nat.lt_of_succ_lt hk)).turn hQ hk

theorem new_keepsContract (libm : Libm D) (hN : 1 ≤ p.numSteps) (hQ : p.parentQty < 2 ^ 64) :
    Strategy.KeepsContract (new libm p) p.numSteps := by
  obtain ⟨n, hn⟩ := Nat.exists_eq_add_of_le' hN
  have htab : Tabulated p (turns libm p n) n := .turns hQ (by omega)
  have hsell := htab.soldDown.sell (Nat.zero_le _)
  have hend : Function.update (turns libm p n).remaining (n + 1) 0 = (turns libm p n).remaining := by
    rw [← hn, ← htab.anchor, Function.update_eq_self]
  rw [hend, Nat.sub_zero, ← htab.prev] at hsell
  have hnew : new libm p = ⟨p, computeKappa libm p.lambda p.sigma p.eta,
      Function.update (turns libm p n).childQty n (turns libm p n).prev,
      (turns libm p n).remaining⟩ := by
    rw [new, hn, Nat.add_sub_cancel]
  refine Strategy.keepsContract ?_ fun _ => ?_ <;> rw [hnew]
  · rw [hn]
    exact hsell
  · exact htab.anchor

/-- The inventory kept after an inner step: the least target so far. -/
def kept (libm : Libm D) (p : Params D) : Nat → Quantity
  | 0 => p.parentQty
  | j + 1 => min (kept libm p j) (target libm p (j + 1))

theorem turns_prev (libm : Libm D) (p : Params D) (k : Nat) : (turns libm p k).prev = kept libm p k := by
  induction k with
  | zero => rfl
  | succ k ih =>
    change (if (turns libm p k).prev < target libm p (k + 1) then (turns libm p k).prev
      else target libm p (k + 1)) = min (kept libm p k) (target libm p (k + 1))
    rw [ih]
    split_ifs with hlt
    · exact (min_eq_left hlt.le).symm
    · exact (min_eq_right (Nat.le_of_not_lt hlt)).symm

theorem turns_remaining (hQ : p.parentQty < 2 ^ 64) {j k : Nat} (hk : k < p.numSteps) (hj : j ≤ k) :
    (turns libm p k).remaining j = kept libm p j := by
  induction k with
  | zero =>
    obtain rfl := Nat.le_zero.mp hj
    have htab : Tabulated p (turns libm p 0) 0 := .turns hQ hk
    exact htab.prev.symm
  | succ k ih =>
    rcases Nat.lt_succ_iff_lt_or_eq.mp (Nat.lt_succ_of_le hj) with hlt | rfl
    · have hne : j ≠ k + 1 := by omega
      refine (Function.update_of_ne hne ..).trans ?_
      exact ih (by omega) (by omega)
    · have htab : Tabulated p (turns libm p (k + 1)) (k + 1) := .turns hQ hk
      exact htab.prev.symm.trans (turns_prev libm p (k + 1))

theorem new_remaining (libm : Libm D) (hQ : p.parentQty < 2 ^ 64) {j : Nat} (hj : j < p.numSteps) :
    Strategy.remainingAfterStep (new libm p) j = kept libm p j :=
  turns_remaining hQ (by omega) (by omega)

theorem kept_anti (libm : Libm D) (p : Params D) {i j : Nat} (hij : i ≤ j) :
    kept libm p j ≤ kept libm p i := by
  induction j, hij using Nat.le_induction with
  | base => exact le_rfl
  | succ j _ ih => exact (min_le_left _ _).trans ih

theorem kept_le_target (libm : Libm D) (p : Params D) (j : Nat) :
    kept libm p (j + 1) ≤ target libm p (j + 1) := min_le_right _ _

/-- A bound below the parent and every target so far is a bound below what is kept. -/
theorem le_kept {x : Quantity} {j : Nat} (hQ : x ≤ p.parentQty)
    (h : ∀ i, 1 ≤ i → i ≤ j → x ≤ target libm p i) : x ≤ kept libm p j := by
  induction j with
  | zero => exact hQ
  | succ j ih =>
    refine le_min (ih fun i h1 hi => h i h1 (Nat.le_succ_of_le hi)) ?_
    exact h (j + 1) (Nat.le_add_left 1 j) le_rfl

end AlmgrenChriss
end ExecutionPlatform.Exec
