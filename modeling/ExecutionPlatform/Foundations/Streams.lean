import Mathlib.Algebra.Order.BigOperators.Group.List
import Mathlib.Algebra.Order.Ring.Int
import Mathlib.Data.List.Destutter
import Mathlib.Order.Lattice
import Mathlib.Tactic.Linarith

/-! What a loop keeps of a stream that it reads once: a window of the latest entries, each entry
once, the greatest so far, and the average. -/
namespace ExecutionPlatform.Foundations
variable {α : Type*}

/-- Where only a prefix can satisfy p, dropping it is filtering it out. -/
theorem dropWhile_eq_filter {p : α → Bool} {xs : List α}
    (h : xs.Pairwise fun x y => p y = true → p x = true) :
    xs.dropWhile p = xs.filter fun x => !p x := by
  induction xs with
  | nil => rfl
  | cons x xs ih =>
    obtain ⟨hx, hxs⟩ := List.pairwise_cons.mp h
    cases hp : p x with
    | true =>
      rw [List.dropWhile_cons_of_pos hp, List.filter_cons_of_neg (by simp [hp])]
      exact ih hxs
    | false =>
      rw [List.dropWhile_cons_of_neg (by simp [hp]), List.filter_cons_of_pos (by simp [hp])]
      have hall : ∀ y ∈ xs, (!p y) = true := by
        intro y hy
        cases hq : p y with
        | false => rfl
        | true => exact absurd (hx y hy hq) (by simp [hp])
      rw [List.filter_eq_self.mpr hall]

section Destutter
variable {R : α → α → Prop} [DecidableRel R]

private theorem destutter'_concat (xs : List α) (a b : α) :
    ∃ c, (xs.destutter' R a).getLast? = some c ∧
      (xs ++ [b]).destutter' R a = xs.destutter' R a ++ if R c b then [b] else [] := by
  induction xs generalizing a with
  | nil =>
    refine ⟨a, rfl, ?_⟩
    by_cases h : R a b
    · simp [h]
    · simp [h]
  | cons x xs ih =>
    by_cases h : R a x
    · obtain ⟨c, hc, hcat⟩ := ih x
      rw [List.cons_append, List.destutter'_cons_pos _ h, List.destutter'_cons_pos _ h, hcat]
      refine ⟨c, ?_, List.cons_append.symm⟩
      rw [List.getLast?_cons, hc]
      rfl
    · rw [List.cons_append, List.destutter'_cons_neg _ h, List.destutter'_cons_neg _ h]
      exact ih a

/-- One more entry is kept where it differs from the last one kept. -/
theorem destutter_concat (xs : List α) (b : α) :
    (xs ++ [b]).destutter R =
      xs.destutter R ++ if ∀ c ∈ (xs.destutter R).getLast?, R c b then [b] else [] := by
  cases xs with
  | nil => simp
  | cons a xs =>
    obtain ⟨c, hc, hcat⟩ := destutter'_concat (R := R) xs a b
    rw [List.cons_append, List.destutter_cons', List.destutter_cons', hcat, hc]
    simp

theorem destutter_prefix (xs ys : List α) : xs.destutter R <+: (xs ++ ys).destutter R := by
  induction ys using List.reverseRecOn with
  | nil => simp
  | append_singleton ys y ih =>
    rw [← List.append_assoc, destutter_concat]
    exact ih.trans (List.prefix_append _ _)

end Destutter

section Peak
variable [LinearOrder α] {xs : List α} {m x : α} {n : Nat}

/-- The greatest entry is m, and n entries follow its first occurrence. -/
def Peak (xs : List α) (m : α) (n : Nat) : Prop :=
  ∃ l r, xs = l ++ m :: r ∧ (∀ y ∈ l, y < m) ∧ (∀ y ∈ r, y ≤ m) ∧ r.length = n

theorem Peak.le (h : Peak xs m n) : ∀ y ∈ xs, y ≤ m := by
  obtain ⟨l, r, rfl, hl, hr, -⟩ := h
  intro y hy
  rcases List.mem_append.mp hy with hy | hy
  · exact (hl y hy).le
  · rcases List.mem_cons.mp hy with rfl | hy
    · exact le_rfl
    · exact hr y hy

theorem Peak.higher (h : ∀ y ∈ xs, y < x) : Peak (xs ++ [x]) x 0 :=
  ⟨xs, [], rfl, h, by simp, rfl⟩

theorem Peak.lower (h : Peak xs m n) (hx : x ≤ m) : Peak (xs ++ [x]) m (n + 1) := by
  obtain ⟨l, r, rfl, hl, hr, rfl⟩ := h
  refine ⟨l, r ++ [x], by simp, hl, fun y hy => ?_, by simp⟩
  rcases List.mem_append.mp hy with hy | hy
  · exact hr y hy
  · rwa [List.mem_singleton.mp hy]

/-- There is only one. -/
theorem Peak.unique {m' : α} {n' : Nat} (h : Peak xs m n) (h' : Peak xs m' n') : m = m' ∧ n = n' := by
  obtain ⟨l, r, rfl, hl, hr, rfl⟩ := h
  obtain ⟨l', r', heq, hl', hr', rfl⟩ := h'
  rcases List.append_eq_append_iff.mp heq with ⟨t, rfl, ht⟩ | ⟨t, rfl, ht⟩
  · cases t with
    | nil =>
      obtain ⟨rfl, rfl⟩ := List.cons.inj ht
      exact ⟨rfl, rfl⟩
    | cons y t =>
      -- the second peak follows the first, and is higher
      obtain ⟨rfl, rfl⟩ := List.cons.inj ht
      exact absurd (hr m' (by simp)) (not_le.mpr (hl' m (by simp)))
  · cases t with
    | nil =>
      obtain ⟨rfl, rfl⟩ := List.cons.inj ht
      exact ⟨rfl, rfl⟩
    | cons y t =>
      obtain ⟨rfl, rfl⟩ := List.cons.inj ht
      exact absurd (hr' m (by simp)) (not_le.mpr (hl m' (by simp)))

end Peak

/-- What is no larger than all that follows it has no larger an average than the whole. -/
theorem prefix_average {l r : List Int} (h : ∀ x ∈ l, ∀ y ∈ r, x ≤ y) :
    l.sum * (l ++ r).length ≤ (l ++ r).sum * l.length := by
  have hcross : l.sum * r.length ≤ r.sum * l.length := by
    induction l with
    | nil => simp
    | cons x l ih =>
      have hrest := ih fun x' hx' => h x' (List.mem_cons_of_mem x hx')
      have hone : r.length • x ≤ r.sum := List.card_nsmul_le_sum r x (h x List.mem_cons_self)
      rw [nsmul_eq_mul] at hone
      rw [List.sum_cons, List.length_cons]
      push_cast
      linarith
  rw [List.sum_append, List.length_append]
  push_cast
  linarith

end ExecutionPlatform.Foundations
