import Mathlib.Data.List.Nodup
import Mathlib.Tactic.Common

/-! Linked lists threaded through a store of nodes. A list of node keys is chained
when the links lead from a head through it to null, and threaded when every key's
two links are its neighbours in the list. -/
namespace ExecutionPlatform.Foundations
variable {κ : Type}

/-- The links lead from p through c, in order, to null. -/
def Chained (next : κ → Option κ) : Option κ → List κ → Prop
  | p, [] => p = none
  | p, i :: c => p = some i ∧ Chained next (next i) c

theorem Chained.congr {next next' : κ → Option κ} {p : Option κ} {c : List κ}
    (h : Chained next p c) (hn : ∀ j ∈ c, next' j = next j) : Chained next' p c := by
  induction c generalizing p with
  | nil => exact h
  | cons i c ih =>
    refine ⟨h.1, ?_⟩
    rw [hn i List.mem_cons_self]
    exact ih h.2 fun j hj => hn j (List.mem_cons_of_mem _ hj)

theorem Chained.eq_nil {next : κ → Option κ} {c : List κ} (h : Chained next none c) : c = [] := by
  cases c with
  | nil => rfl
  | cons i c => cases h.1

theorem Chained.head_mem {next : κ → Option κ} {i : κ} {c : List κ} (h : Chained next (some i) c) :
    i ∈ c := by
  cases c with
  | nil => cases h
  | cons j c =>
    obtain rfl := Option.some.inj h.1
    exact List.mem_cons_self

theorem Chained.next_mem {next : κ → Option κ} {p : Option κ} {c : List κ} (h : Chained next p c)
    {i j : κ} (hi : i ∈ c) (hj : next i = some j) : j ∈ c := by
  induction c generalizing p with
  | nil => cases hi
  | cons k c ih =>
    apply List.mem_cons_of_mem
    rcases List.mem_cons.mp hi with rfl | hi
    · exact head_mem (hj ▸ h.2)
    · exact ih h.2 hi

/-- A chain under other names for its keys. -/
theorem Chained.map {κ' : Type} {next : κ → Option κ} {next' : κ' → Option κ'} {f : κ → κ'}
    {p : Option κ} {c : List κ} (h : Chained next p c) (hn : ∀ j ∈ c, next' (f j) = (next j).map f) :
    Chained next' (p.map f) (c.map f) := by
  induction c generalizing p with
  | nil =>
    obtain rfl : p = none := h
    rfl
  | cons i c ih =>
    obtain ⟨rfl, h⟩ := h
    refine ⟨rfl, ?_⟩
    rw [hn i List.mem_cons_self]
    exact ih h fun j hj => hn j (List.mem_cons_of_mem _ hj)

/-- Follow one link from a starting key, at most fuel times. -/
def follow (link : κ → Option κ) : Nat → Option κ → List κ
  | 0, _ => []
  | _ + 1, none => []
  | fuel + 1, some i => i :: follow link fuel (link i)

theorem Chained.follow {next : κ → Option κ} {p : Option κ} {c : List κ} (h : Chained next p c)
    {fuel : Nat} (hf : c.length ≤ fuel) : follow next fuel p = c := by
  induction c generalizing p fuel with
  | nil =>
    obtain rfl : p = none := h
    cases fuel <;> rfl
  | cons i c ih =>
    obtain ⟨rfl, h⟩ := h
    obtain ⟨fuel, rfl⟩ : ∃ n, fuel = n + 1 := ⟨fuel - 1, by simp at hf; omega⟩
    rw [Foundations.follow, ih h (by simpa using hf)]

/-- Every member of c points back at the key before it and forward at the key after it. -/
def Threaded (prev next : κ → Option κ) (c : List κ) : Prop :=
  ∀ l i r, c = l ++ i :: r → prev i = l.getLast? ∧ next i = r.head?

namespace Threaded
variable {prev next prev' next' : κ → Option κ}

theorem nil : Threaded prev next [] := by
  intro l i r h
  simp at h

/-- Threading reads the links of the members only. -/
theorem congr {c : List κ} (h : Threaded prev next c)
    (hp : ∀ j ∈ c, prev' j = prev j) (hn : ∀ j ∈ c, next' j = next j) :
    Threaded prev' next' c := by
  intro l i r he
  have hi : i ∈ c := by simp [he]
  rw [hp i hi, hn i hi]
  exact h l i r he

private theorem getLast?_eq_some_iff_of_nodup {l b : List κ} {j : κ} (hn : (l ++ j :: b).Nodup) :
    (l ++ j :: b).getLast? = some j ↔ b = [] := by
  constructor
  · intro h
    rcases List.eq_nil_or_concat' b with rfl | ⟨b', k, rfl⟩
    · rfl
    · rw [← List.cons_append, ← List.append_assoc, List.getLast?_concat] at h
      obtain rfl : k = j := Option.some.inj h
      simp [List.nodup_append] at hn
  · rintro rfl
    simp

private theorem head?_eq_some_iff_of_nodup {l b : List κ} {j : κ} (hn : (l ++ j :: b).Nodup) :
    (l ++ j :: b).head? = some j ↔ l = [] := by
  constructor
  · intro h
    rcases l with _ | ⟨a, l⟩
    · rfl
    · have ha : a = j := by simpa using h
      subst ha
      simp at hn
  · rintro rfl
    rfl

/-- Appending a fresh key redirects the old tail and nothing else. -/
theorem push_back [DecidableEq κ] {c : List κ} {i : κ} (h : Threaded prev next c)
    (hd : (c ++ [i]).Nodup) (hpi : prev' i = c.getLast?) (hni : next' i = none)
    (hp : ∀ j ∈ c, prev' j = prev j)
    (hn : ∀ j ∈ c, next' j = if c.getLast? = some j then some i else next j) :
    Threaded prev' next' (c ++ [i]) := by
  intro l j r he
  rcases List.eq_nil_or_concat' r with rfl | ⟨b, k, rfl⟩
  · obtain ⟨rfl, hij⟩ : c = l ∧ i = j := by
      have := List.append_inj' he rfl
      simpa using this
    subst hij
    exact ⟨hpi, hni⟩
  · obtain ⟨rfl, rfl⟩ : c = l ++ j :: b ∧ i = k := by
      have := List.append_inj' (show c ++ [i] = (l ++ j :: b) ++ [k] by simpa using he) rfl
      simpa using this
    have hj : j ∈ l ++ j :: b := by simp
    have hdc : (l ++ j :: b).Nodup := (List.nodup_append.mp hd).1
    obtain ⟨hjp, hjn⟩ := h l j b rfl
    refine ⟨(hp j hj).trans hjp, ?_⟩
    rw [hn j hj]
    simp only [getLast?_eq_some_iff_of_nodup hdc]
    by_cases hb : b = []
    · simp [hb]
    · obtain ⟨x, b', rfl⟩ := List.exists_cons_of_ne_nil hb
      simpa using hjn

/-- Unlinking a member joins its two neighbours; the links of the others stay. -/
theorem unlink [DecidableEq κ] {l r : List κ} {i : κ} (h : Threaded prev next (l ++ i :: r))
    (hd : (l ++ i :: r).Nodup)
    (hp : ∀ j ∈ l ++ r, prev' j = if r.head? = some j then l.getLast? else prev j)
    (hn : ∀ j ∈ l ++ r, next' j = if l.getLast? = some j then r.head? else next j) :
    Threaded prev' next' (l ++ r) := by
  intro a j b he
  have hj : j ∈ l ++ r := by simp [he]
  rw [hp j hj, hn j hj]
  have hdl : l.Nodup := (List.nodup_append.mp hd).1
  have hdr : r.Nodup := (List.nodup_cons.mp (List.nodup_append.mp hd).2.1).2
  have hlr : ∀ x ∈ l, ∀ y ∈ r, x ≠ y := fun x hx y hy =>
    (List.nodup_append.mp hd).2.2 x hx y (List.mem_cons_of_mem _ hy)
  rcases List.append_eq_append_iff.mp he with ⟨a', rfl, rfl⟩ | ⟨b', rfl, hb⟩
  · -- j lies in r: its forward link is untouched
    obtain ⟨hjp, hjn⟩ := h (l ++ i :: a') j b (by simp)
    have hjl : ¬ l.getLast? = some j := fun hc =>
      hlr j (List.mem_of_getLast? hc) j (by simp) rfl
    rw [if_neg hjl]
    refine ⟨?_, hjn⟩
    simp only [head?_eq_some_iff_of_nodup hdr]
    by_cases ha : a' = []
    · simp [ha]
    · rw [if_neg ha, hjp]
      obtain ⟨a'', x, rfl⟩ := (List.eq_nil_or_concat' a').resolve_left ha
      rw [← List.append_assoc l, ← List.cons_append, ← List.append_assoc,
        List.getLast?_concat, List.getLast?_concat]
  · rcases b' with _ | ⟨x, b'⟩
    · -- j is the head of r
      obtain rfl : r = j :: b := by simpa using hb.symm
      obtain ⟨-, hjn⟩ := h (a ++ [i]) j b (by simp)
      have hja : ¬ a.getLast? = some j := fun hc =>
        hlr j (by simpa using List.mem_of_getLast? hc) j (by simp) rfl
      simp only [List.append_nil, List.head?_cons, if_true, if_neg hja, true_and]
      exact hjn
    · -- j lies in l: its backward link is untouched
      obtain ⟨rfl, rfl⟩ : j = x ∧ b = b' ++ r := by simpa using hb
      obtain ⟨hjp, hjn⟩ := h a j (b' ++ i :: r) (by simp)
      have hjr : ¬ r.head? = some j := fun hc =>
        hlr j (by simp) j (List.mem_of_head? hc) rfl
      rw [if_neg hjr]
      refine ⟨hjp, ?_⟩
      simp only [getLast?_eq_some_iff_of_nodup hdl]
      by_cases hb' : b' = []
      · simp [hb']
      · obtain ⟨y, b'', rfl⟩ := List.exists_cons_of_ne_nil hb'
        simpa using hjn

/-- Reversing the list swaps the roles of the two links. -/
theorem reverse {c : List κ} (h : Threaded prev next c) : Threaded next prev c.reverse := by
  intro l i r he
  have hc : c = r.reverse ++ i :: l.reverse := by
    rw [← List.reverse_reverse c, he]
    simp
  obtain ⟨hp, hn⟩ := h _ _ _ hc
  rw [hp, hn]
  simp

/-- The forward links lead from the head through the whole list to null. -/
theorem chained {c : List κ} (h : Threaded prev next c) : Chained next c.head? c := by
  have aux : ∀ r l : List κ, c = l ++ r → Chained next r.head? r := by
    intro r
    induction r with
    | nil => exact fun _ _ => rfl
    | cons i r ih =>
      intro l hl
      refine ⟨rfl, ?_⟩
      rw [(h l i r hl).2]
      exact ih (l ++ [i]) (by simp [hl])
  exact aux c [] rfl

/-- Following the forward links from the head visits exactly the list. -/
theorem follow_head {c : List κ} (h : Threaded prev next c) {fuel : Nat} (hf : c.length ≤ fuel) :
    follow next fuel c.head? = c := by
  exact h.chained.follow hf

end Threaded
end ExecutionPlatform.Foundations
