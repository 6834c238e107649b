import Mathlib.Algebra.GroupWithZero.Nat
import Mathlib.Algebra.BigOperators.Group.List.Basic
import Mathlib.Tactic.Common

/-! State machines with enabled actions, and the invariant rule for their runs. -/
namespace ExecutionPlatform.Foundations

/-- A step is none where the action is not enabled. -/
structure Machine (σ α : Type) where
  init : σ → Prop
  step : σ → α → Option σ

namespace Machine
variable {σ α : Type} {m : Machine σ α}

/-- The states that steps of the allowed kind lead to. -/
inductive ReachableVia (m : Machine σ α) (ok : σ → α → Prop) : σ → Prop
  | init {s : σ} (h : m.init s) : ReachableVia m ok s
  | step {s s' : σ} {a : α} (hs : ReachableVia m ok s) (hok : ok s a) (h : m.step s a = some s') :
      ReachableVia m ok s'

/-- What holds at the start and survives every allowed step holds in every state reached. -/
theorem ReachableVia.invariant {ok : σ → α → Prop} {I : σ → Prop} (h0 : ∀ s, m.init s → I s)
    (hstep : ∀ s a s', ok s a → I s → m.step s a = some s' → I s') {s : σ} (h : m.ReachableVia ok s) :
    I s := by
  induction h with
  | init h => exact h0 _ h
  | step _ hok h ih => exact hstep _ _ _ hok ih h

theorem ReachableVia.mono {ok ok' : σ → α → Prop} (hmono : ∀ s a, ok s a → ok' s a) {s : σ}
    (h : m.ReachableVia ok s) : m.ReachableVia ok' s := by
  induction h with
  | init h => exact .init h
  | step _ hok h ih => exact .step ih (hmono _ _ hok) h

/-- Forward simulation: a machine that another follows step by step stays related to it. -/
theorem ReachableVia.simulate {τ : Type} {M : Machine τ α} {ok : σ → α → Prop} {OK : τ → α → Prop}
    {R : σ → τ → Prop} (h0 : ∀ s, m.init s → ∃ t, M.init t ∧ R s t)
    (hstep : ∀ s t a s', R s t → ok s a → m.step s a = some s' →
      OK t a ∧ ∃ t', M.step t a = some t' ∧ R s' t') {s : σ} (h : m.ReachableVia ok s) :
    ∃ t, M.ReachableVia OK t ∧ R s t := by
  induction h with
  | init h =>
    obtain ⟨t, ht, hR⟩ := h0 _ h
    exact ⟨t, .init ht, hR⟩
  | step _ hok h ih =>
    obtain ⟨t, ht, hR⟩ := ih
    obtain ⟨hOK, t', ht', hR'⟩ := hstep _ _ _ _ hR hok h
    exact ⟨t', .step ht hOK ht', hR'⟩

/-- The states that any steps lead to. -/
abbrev Reachable (m : Machine σ α) : σ → Prop := m.ReachableVia fun _ _ => True

theorem Reachable.invariant {I : σ → Prop} (h0 : ∀ s, m.init s → I s)
    (hstep : ∀ s a s', I s → m.step s a = some s' → I s') {s : σ} (h : m.Reachable s) : I s :=
  ReachableVia.invariant h0 (fun s a s' _ => hstep s a s') h

/-- Run a sequence of actions. -/
def run (m : Machine σ α) : σ → List α → Option σ
  | s, [] => some s
  | s, a :: as => do
    let s' ← m.step s a
    m.run s' as

theorem run_append (s : σ) (as bs : List α) :
    m.run s (as ++ bs) = (m.run s as).bind fun s' => m.run s' bs := by
  induction as generalizing s with
  | nil => rfl
  | cons a as ih =>
    rw [List.cons_append, run, run]
    cases m.step s a with
    | none => rfl
    | some s' => exact ih s'

/-- What every action of a sequence keeps, the sequence keeps. -/
theorem run_keeps {I : σ → Prop} {P : α → Prop}
    (hstep : ∀ s a s', P a → I s → m.step s a = some s' → I s') {as : List α} {s s' : σ}
    (hP : ∀ a ∈ as, P a) (hs : I s) (h : m.run s as = some s') : I s' := by
  induction as generalizing s with
  | nil =>
    obtain rfl := Option.some.inj h
    exact hs
  | cons a as ih =>
    obtain ⟨s1, h1, h⟩ := Option.bind_eq_some_iff.mp h
    exact ih (fun b hb => hP b (List.mem_cons_of_mem a hb))
      (hstep s a s1 (hP a List.mem_cons_self) hs h1) h

/-- The potential rule: where every action pays for what it adds to a measure of the state, a
sequence pays for the whole run. -/
theorem run_paid {I : σ → Prop} {c : σ → Nat} {pay : α → Nat}
    (hstep : ∀ s a s', I s → m.step s a = some s' → I s' ∧ c s' ≤ c s + pay a) {as : List α}
    {s s' : σ} (hs : I s) (h : m.run s as = some s') : c s' ≤ c s + (as.map pay).sum := by
  induction as generalizing s with
  | nil =>
    obtain rfl := Option.some.inj h
    exact Nat.le_add_right _ _
  | cons a as ih =>
    obtain ⟨s1, h1, h⟩ := Option.bind_eq_some_iff.mp h
    obtain ⟨hI, hpaid⟩ := hstep s a s1 hs h1
    have hrest := ih hI h
    rw [List.map_cons, List.sum_cons]
    omega

theorem ReachableVia.run {ok : σ → α → Prop} {s s' : σ} (hs : m.ReachableVia ok s) {as : List α}
    (hok : ∀ a ∈ as, ∀ t, ok t a) (h : m.run s as = some s') : m.ReachableVia ok s' :=
  run_keeps (fun t _ _ hok hI => ReachableVia.step hI (hok t)) hok hs h

section Driving
variable {τ β : Type} {M : Machine τ β} {calls : σ → α → List β}

/-- Two machines, where a step of the first makes calls of the second, which others may call too. -/
def driving (m : Machine σ α) (M : Machine τ β) (calls : σ → α → List β) :
    Machine (σ × τ) (α ⊕ β) where
  init s := m.init s.1 ∧ M.init s.2
  step s
    | .inl a => do
      let s' ← m.step s.1 a
      let t' ← M.run s.2 (calls s.1 a)
      pure (s', t')
    | .inr b => do
      let t' ← M.step s.2 b
      pure (s.1, t')

theorem driving_inl {s s' : σ × τ} {a : α} :
    (m.driving M calls).step s (.inl a) = some s' ↔
      m.step s.1 a = some s'.1 ∧ M.run s.2 (calls s.1 a) = some s'.2 := by
  simp only [driving, Option.bind_eq_bind, Option.bind_eq_some_iff, Option.pure_def, Option.some.injEq]
  constructor
  · rintro ⟨_, h, _, h', rfl⟩
    exact ⟨h, h'⟩
  · rintro ⟨h, h'⟩
    exact ⟨_, h, _, h', rfl⟩

theorem driving_inr {s s' : σ × τ} {b : β} :
    (m.driving M calls).step s (.inr b) = some s' ↔ s'.1 = s.1 ∧ M.step s.2 b = some s'.2 := by
  simp only [driving, Option.bind_eq_bind, Option.bind_eq_some_iff, Option.pure_def, Option.some.injEq]
  constructor
  · rintro ⟨_, h, rfl⟩
    exact ⟨rfl, h⟩
  · rintro ⟨h, h'⟩
    exact ⟨_, h', Prod.ext h.symm rfl⟩

/-- Each of the two only does what it could do alone. -/
theorem ReachableVia.of_driving {ok : σ → α → Prop} {OK : σ × τ → α ⊕ β → Prop}
    (hok : ∀ s a, OK s (.inl a) → ok s.1 a) {s : σ × τ}
    (h : (m.driving M calls).ReachableVia OK s) : m.ReachableVia ok s.1 ∧ M.Reachable s.2 := by
  induction h with
  | init h => exact ⟨.init h.1, .init h.2⟩
  | @step s s' a _ hallowed h ih =>
    cases a with
    | inl a =>
      obtain ⟨h1, h2⟩ := driving_inl.mp h
      exact ⟨ih.1.step (hok _ _ hallowed) h1, ih.2.run (fun _ _ _ => trivial) h2⟩
    | inr b =>
      obtain ⟨h1, h2⟩ := driving_inr.mp h
      exact ⟨h1 ▸ ih.1, ih.2.step trivial h2⟩

theorem run_of_driving {as : List (α ⊕ β)} {s s' : σ × τ} (h : (m.driving M calls).run s as = some s') :
    m.run s.1 (as.filterMap Sum.getLeft?) = some s'.1 := by
  induction as generalizing s with
  | nil =>
    obtain rfl := Option.some.inj h
    rfl
  | cons a as ih =>
    obtain ⟨s1, h1, h⟩ := Option.bind_eq_some_iff.mp h
    have hrest := ih h
    cases a with
    | inl a =>
      change (m.step s.1 a).bind (fun s' => m.run s' (as.filterMap Sum.getLeft?)) = _
      rw [(driving_inl.mp h1).1]
      exact hrest
    | inr b =>
      change m.run s.1 (as.filterMap Sum.getLeft?) = _
      rw [← (driving_inr.mp h1).1]
      exact hrest

end Driving

end Machine
end ExecutionPlatform.Foundations
