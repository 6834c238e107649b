import Mathlib.Data.Fintype.Card
import Mathlib.Data.Finset.Card
import Mathlib.Data.List.Nodup
import Mathlib.Logic.Function.Basic
import Mathlib.Tactic.Common

/-! Open addressing with linear probing and back-shift deletion, for any key
type and any hash. A table has n slots; distances are taken forward around it. A key may
have several values: its probe sequence holds them in the order of their insertion. -/
namespace ExecutionPlatform.Foundations.Probe
variable {K V : Type}

/-- The slot d steps after a. -/
def ahead (n a d : Nat) : Nat := if a + d < n then a + d else a + d - n

/-- The number of forward steps from a to b. -/
def gap (n a b : Nat) : Nat := if a ≤ b then b - a else b + n - a

theorem ahead_lt {n a d : Nat} (ha : a < n) (hd : d ≤ n) : ahead n a d < n := by
  unfold ahead; split_ifs <;> omega

theorem gap_lt {n a b : Nat} (ha : a < n) (hb : b < n) : gap n a b < n := by
  unfold gap; split_ifs <;> omega

theorem ahead_gap {n a b : Nat} (ha : a < n) (hb : b < n) : ahead n a (gap n a b) = b := by
  unfold gap ahead; split_ifs <;> omega

theorem gap_ahead {n a d : Nat} (ha : a < n) (hd : d < n) : gap n a (ahead n a d) = d := by
  unfold gap ahead; split_ifs <;> omega

theorem ahead_zero {n a : Nat} (ha : a < n) : ahead n a 0 = a := by
  simp [ahead, ha]

theorem ahead_succ {n a d : Nat} (ha : a < n) (hd : d < n) :
    ahead n (ahead n a d) 1 = ahead n a (d + 1) := by
  unfold ahead; split_ifs <;> omega

theorem ahead_eq_mod {n a d : Nat} (ha : a < n) (hd : d ≤ n) : ahead n a d = (a + d) % n := by
  unfold ahead
  split_ifs with h
  · rw [Nat.mod_eq_of_lt h]
  · rw [Nat.mod_eq_sub_mod (by omega), Nat.mod_eq_of_lt (by omega)]

theorem gap_eq_mod {n a b : Nat} (ha : a < n) (hb : b < n) : gap n a b = (b + n - a) % n := by
  unfold gap
  split_ifs with h
  · rw [show b + n - a = b - a + n by omega, Nat.add_mod_right, Nat.mod_eq_of_lt (by omega)]
  · rw [Nat.mod_eq_of_lt (by omega)]

theorem gap_next {n a s : Nat} (ha : a < n) (hs : s < n) (hne : a ≠ s) :
    gap n (ahead n a 1) s + 1 = gap n a s := by
  unfold gap ahead; split_ifs <;> omega

theorem gap_next_right {n a s : Nat} (ha : a < n) (hs : s < n) (hne : ahead n s 1 ≠ a) :
    gap n a (ahead n s 1) = gap n a s + 1 := by
  revert hne; unfold gap ahead; split_ifs <;> omega

theorem gap_pos {n a b : Nat} (ha : a < n) (hne : a ≠ b) : 0 < gap n a b := by
  unfold gap; split_ifs <;> omega

/-- A waypoint d steps along the path from a to s leaves the rest of the path. -/
theorem gap_of_waypoint {n a s d : Nat} (ha : a < n) (hs : s < n) (hd : d < gap n a s) :
    gap n (ahead n a d) s = gap n a s - d := by
  revert hd; unfold gap ahead; split_ifs <;> omega

theorem ahead_waypoint {n a s d e : Nat} (ha : a < n) (hs : s < n) (hd : d < gap n a s)
    (he : e < gap n (ahead n a d) s) : ahead n (ahead n a d) e = ahead n a (d + e) := by
  revert hd he; unfold gap ahead; split_ifs <;> omega

abbrev Table (K V : Type) := Nat → Option (K × V)

section Picks
variable {f g : Nat → Option V} {n a b : Nat} {v : V}

theorem range_split (h : a < n) :
    List.range n = List.range' 0 a ++ a :: List.range' (a + 1) (n - (a + 1)) := by
  have hcons : a :: List.range' (a + 1) (n - (a + 1)) = List.range' a (n - a) := by
    rw [show n - a = n - (a + 1) + 1 by omega, List.range'_succ]
  have happend : List.range' 0 a ++ List.range' (0 + a) (n - a) = List.range' 0 (a + (n - a)) :=
    List.range'_append_1
  rw [Nat.zero_add, Nat.add_sub_cancel' h.le] at happend
  rw [hcons, happend, List.range_eq_range']

theorem filterMap_eq_nil_of {l : List Nat} (h : ∀ c ∈ l, f c = none) : l.filterMap f = [] :=
  List.filterMap_eq_nil_iff.mpr h

/-- Nothing stands at or after position a: a value put there comes last. -/
theorem filterMap_range_push (h : a < n) (hf : ∀ c, a ≤ c → c < n → f c = none) (hg : g a = some v)
    (hoff : ∀ c < n, c ≠ a → g c = f c) :
    (List.range n).filterMap g = (List.range n).filterMap f ++ [v] := by
  have hbefore : (List.range' 0 a).filterMap g = (List.range' 0 a).filterMap f := by
    refine List.filterMap_congr fun c hc => ?_
    have hca := List.mem_range'_1.mp hc
    exact hoff c (by omega) (by omega)
  have hafter : ∀ c ∈ List.range' (a + 1) (n - (a + 1)), f c = none ∧ g c = none := by
    intro c hc
    have hca := List.mem_range'_1.mp hc
    have hnone := hf c (by omega) (by omega)
    exact ⟨hnone, (hoff c (by omega) (by omega)).trans hnone⟩
  rw [range_split h, List.filterMap_append, List.filterMap_append, List.filterMap_cons_some hg,
    List.filterMap_cons_none (hf a le_rfl h), hbefore, filterMap_eq_nil_of fun c hc => (hafter c hc).1,
    filterMap_eq_nil_of fun c hc => (hafter c hc).2, List.append_nil]

/-- The first value goes: the others stay as they are. -/
theorem filterMap_range_pop (h : a < n) (hf : ∀ c < a, f c = none) (hv : f a = some v)
    (hg : g a = none) (hoff : ∀ c < n, c ≠ a → g c = f c) :
    (List.range n).filterMap f = v :: (List.range n).filterMap g := by
  have hbefore : ∀ c ∈ List.range' 0 a, f c = none ∧ g c = none := by
    intro c hc
    have hca := List.mem_range'_1.mp hc
    have hnone := hf c (by omega)
    exact ⟨hnone, (hoff c (by omega) (by omega)).trans hnone⟩
  have hafter : (List.range' (a + 1) (n - (a + 1))).filterMap g =
      (List.range' (a + 1) (n - (a + 1))).filterMap f := by
    refine List.filterMap_congr fun c hc => ?_
    have hca := List.mem_range'_1.mp hc
    exact hoff c (by omega) (by omega)
  rw [range_split h, List.filterMap_append, List.filterMap_append, List.filterMap_cons_some hv,
    List.filterMap_cons_none hg, hafter, filterMap_eq_nil_of fun c hc => (hbefore c hc).1,
    filterMap_eq_nil_of fun c hc => (hbefore c hc).2, List.nil_append, List.nil_append]

/-- A value that moves back over positions without one keeps its place in the order. -/
theorem filterMap_range_move (hab : a < b) (h : b < n) (hfa : f a = none) (hfb : f b = some v)
    (hbetween : ∀ c, a < c → c < b → f c = none) (hga : g a = some v) (hgb : g b = none)
    (hoff : ∀ c < n, c ≠ a → c ≠ b → g c = f c) :
    (List.range n).filterMap g = (List.range n).filterMap f := by
  have hsplit : List.range n = (List.range' 0 a ++ a :: List.range' (a + 1) (b - (a + 1))) ++
      b :: List.range' (b + 1) (n - (b + 1)) := by
    rw [range_split h, ← range_split hab, List.range_eq_range']
  have hbefore : (List.range' 0 a).filterMap g = (List.range' 0 a).filterMap f := by
    refine List.filterMap_congr fun c hc => ?_
    have hca := List.mem_range'_1.mp hc
    exact hoff c (by omega) (by omega) (by omega)
  have hmid : ∀ c ∈ List.range' (a + 1) (b - (a + 1)), f c = none ∧ g c = none := by
    intro c hc
    have hca := List.mem_range'_1.mp hc
    have hnone := hbetween c (by omega) (by omega)
    exact ⟨hnone, (hoff c (by omega) (by omega) (by omega)).trans hnone⟩
  have hafter : (List.range' (b + 1) (n - (b + 1))).filterMap g =
      (List.range' (b + 1) (n - (b + 1))).filterMap f := by
    refine List.filterMap_congr fun c hc => ?_
    have hca := List.mem_range'_1.mp hc
    exact hoff c (by omega) (by omega) (by omega)
  rw [hsplit]
  simp only [List.filterMap_append, List.filterMap_cons_some hga, List.filterMap_cons_none hgb,
    List.filterMap_cons_none hfa, List.filterMap_cons_some hfb, hbefore, hafter,
    filterMap_eq_nil_of fun c hc => (hmid c hc).1, filterMap_eq_nil_of fun c hc => (hmid c hc).2,
    List.append_assoc, List.nil_append, List.cons_append]

end Picks

/-- The table holds exactly the pairs of M, one slot a key, and every key can
be reached from its home slot without crossing an empty slot. -/
structure Holds (n : Nat) (home : K → Nat) (t : Table K V) (M : K → V → Prop) : Prop where
  entry : ∀ k v, (∃ s < n, t s = some (k, v)) ↔ M k v
  once : ∀ s < n, ∀ s' < n, ∀ k v v', t s = some (k, v) → t s' = some (k, v') → s = s'
  covered : ∀ s < n, ∀ k v, t s = some (k, v) →
    ∀ d < gap n (home k) s, t (ahead n (home k) d) ≠ none

theorem Holds.congr {n : Nat} {home : K → Nat} {t : Table K V} {M M' : K → V → Prop}
    (h : Holds n home t M) (hM : ∀ k v, M k v ↔ M' k v) : Holds n home t M' :=
  ⟨fun k v => (h.entry k v).trans (hM k v), h.once, h.covered⟩

variable [DecidableEq K]

/-- The value of k that is stored d steps into its probe sequence. -/
def reading (n : Nat) (home : K → Nat) (t : Table K V) (k : K) (d : Nat) : Option V :=
  (t (ahead n (home k) d)).bind fun e => if e.1 = k then some e.2 else none

/-- The values of k in the order of its probe sequence. -/
def along (n : Nat) (home : K → Nat) (t : Table K V) (k : K) : List V :=
  (List.range n).filterMap (reading n home t k)

/-- The table holds the values of q, those of one key in the order of its probe sequence, and
every one can be reached from its home slot without crossing an empty slot. -/
structure Queues (n : Nat) (home : K → Nat) (t : Table K V) (q : K → List V) : Prop where
  along : ∀ k, along n home t k = q k
  covered : ∀ s < n, ∀ k v, t s = some (k, v) →
    ∀ d < gap n (home k) s, t (ahead n (home k) d) ≠ none

section Reading
variable {n : Nat} {home : K → Nat} {t t' : Table K V} {k k' : K} {v : V} {d s : Nat}

theorem reading_eq_some : reading n home t k d = some v ↔ t (ahead n (home k) d) = some (k, v) := by
  rw [reading]
  rcases t (ahead n (home k) d) with _ | ⟨k', v'⟩
  · simp
  · by_cases hk : k' = k <;> simp [hk]

theorem reading_eq_none (h : t (ahead n (home k) d) = none) : reading n home t k d = none := by
  rw [reading, h]
  rfl

/-- Another key's entry is not read. -/
theorem reading_other (h : t (ahead n (home k) d) = some (k', v)) (hk : k' ≠ k) :
    reading n home t k d = none := by
  rw [reading, h]
  exact if_neg hk

theorem reading_congr (h : t' (ahead n (home k) d) = t (ahead n (home k) d)) :
    reading n home t' k d = reading n home t k d := by
  rw [reading, reading, h]

theorem mem_along (hhome : home k < n) :
    v ∈ along n home t k ↔ ∃ s < n, t s = some (k, v) := by
  rw [along, List.mem_filterMap]
  constructor
  · rintro ⟨d, hd, hr⟩
    exact ⟨_, ahead_lt hhome (List.mem_range.mp hd).le, reading_eq_some.mp hr⟩
  · rintro ⟨s, hs, he⟩
    refine ⟨gap n (home k) s, List.mem_range.mpr (gap_lt hhome hs), reading_eq_some.mpr ?_⟩
    rwa [ahead_gap hhome hs]

theorem ahead_injective {a e : Nat} (ha : a < n) (hd : d < n) (he : e < n)
    (h : ahead n a d = ahead n a e) : d = e := by
  rw [← gap_ahead ha hd, h, gap_ahead ha he]

end Reading

namespace Queues
variable {n : Nat} {home : K → Nat} {t : Table K V} {q q' : K → List V}

theorem congr (h : Queues n home t q) (hq : ∀ k, q k = q' k) : Queues n home t q' :=
  ⟨fun k => (h.along k).trans (hq k), h.covered⟩

theorem empty : Queues n home (fun _ => (none : Option (K × V))) (fun _ => []) :=
  ⟨fun _ => filterMap_eq_nil_of fun _ _ => rfl, by simp⟩

/-- Where the values of a key are related in their order, so are any two of its slots. -/
theorem slots (h : Queues n home t q) {k : K} (hhome : home k < n) {r : V → V → Prop}
    (hr : (q k).Pairwise r) {s s' : Nat} (hs : s < n) (hs' : s' < n) {v v' : V}
    (he : t s = some (k, v)) (he' : t s' = some (k, v')) : s = s' ∨ r v v' ∨ r v' v := by
  rw [← h.along k, Probe.along, List.pairwise_filterMap, List.range_eq_range'] at hr
  have hread : ∀ {s v}, s < n → t s = some (k, v) →
      reading n home t k (gap n (home k) s) = some v := fun hs he =>
    reading_eq_some.mpr (by rwa [ahead_gap hhome hs])
  have hord := List.pairwise_iff_getElem.mp hr
  have hpos : ∀ {a b : Nat} {w w' : V}, a < b → b < n → reading n home t k a = some w →
      reading n home t k b = some w' → r w w' := by
    intro a b w w' hab hb hw hw'
    have hlen : (List.range' 0 n).length = n := List.length_range'
    have hp := hord a b (by omega) (by omega) hab
    simp only [List.getElem_range', Nat.zero_add, Nat.one_mul] at hp
    exact hp w hw w' hw'
  rcases Nat.lt_trichotomy (gap n (home k) s) (gap n (home k) s') with hlt | heq | hgt
  · exact .inr (.inl (hpos hlt (gap_lt hhome hs') (hread hs he) (hread hs' he')))
  · exact .inl (by rw [← ahead_gap hhome hs, heq, ahead_gap hhome hs'])
  · exact .inr (.inr (hpos hgt (gap_lt hhome hs) (hread hs' he') (hread hs he)))

/-- With one value a key at most, the table is a finite map. -/
theorem holds (h : Queues n home t q) (hhome : ∀ k, home k < n) (hq : ∀ k, (q k).length ≤ 1) :
    Holds n home t fun k v => v ∈ q k := by
  refine ⟨fun k v => ?_, fun s hs s' hs' k v v' he he' => ?_, h.covered⟩
  · rw [← h.along k, mem_along (hhome k)]
  · have hfalse : (q k).Pairwise fun _ _ => False := by
      have hlen := hq k
      rcases hk : q k with _ | ⟨w, _ | ⟨w', l⟩⟩
      · exact .nil
      · exact List.pairwise_singleton _ w
      · rw [hk] at hlen
        simp at hlen
    rcases h.slots (hhome k) hfalse hs hs' he he' with heq | hno | hno
    · exact heq
    · exact hno.elim
    · exact hno.elim

/-- Fewer pairs than slots leave an empty slot. -/
theorem exists_empty (h : Queues n home t q) (hhome : ∀ k, home k < n) (pairs : List (K × V))
    (hq : ∀ k, (q k).Nodup) (hp : ∀ k, ∀ v ∈ q k, (k, v) ∈ pairs) (hlen : pairs.length < n) :
    ∃ s < n, t s = none := by
  classical
  by_contra hno
  push Not at hno
  choose e he using fun s : Fin n => Option.ne_none_iff_exists'.mp (hno s s.isLt)
  have hmaps : ∀ s ∈ (Finset.univ : Finset (Fin n)), e s ∈ pairs.toFinset := by
    intro s _
    refine List.mem_toFinset.mpr (hp _ _ ?_)
    rw [← h.along, mem_along (hhome _)]
    exact ⟨s, s.isLt, he s⟩
  have hinj : Set.InjOn e ((Finset.univ : Finset (Fin n)) : Set (Fin n)) := by
    intro s _ s' _ hee
    have he' := he s'
    rw [← hee] at he'
    rcases h.slots (hhome _) (hq _) s.isLt s'.isLt (he s) he' with heq | hne | hne
    · exact Fin.ext heq
    · exact absurd rfl hne
    · exact absurd rfl hne
  have hcard := Finset.card_le_card_of_injOn e hmaps hinj
  have := List.toFinset_card_le pairs
  rw [Finset.card_univ, Fintype.card_fin] at hcard
  omega

/-- Nothing of k lies beyond an empty slot of its probe sequence. -/
theorem reading_beyond (h : Queues n home t q) {k : K} {d : Nat} (hhome : home k < n)
    (hempty : t (ahead n (home k) d) = none) {c : Nat} (hdc : d ≤ c) (hc : c < n) :
    reading n home t k c = none := by
  by_contra hsome
  obtain ⟨v, hv⟩ := Option.ne_none_iff_exists'.mp hsome
  have he := reading_eq_some.mp hv
  rcases Nat.eq_or_lt_of_le hdc with rfl | hlt
  · rw [hempty] at he
    cases he
  · exact h.covered _ (ahead_lt hhome hc.le) k v he d (by rwa [gap_ahead hhome hc]) hempty

/-- Probing past d entries with other keys to an empty slot, or all the way
round, shows that the key is absent. -/
theorem absent (h : Queues n home t q) {k : K} {d : Nat} (hhome : home k < n)
    (hseen : ∀ j < d, ∀ v, t (ahead n (home k) j) ≠ some (k, v))
    (hend : n ≤ d ∨ t (ahead n (home k) d) = none) : q k = [] := by
  rw [← h.along k]
  refine filterMap_eq_nil_of fun c hc => ?_
  have hcn := List.mem_range.mp hc
  rcases Nat.lt_or_ge c d with hlt | hge
  · by_contra hsome
    obtain ⟨v, hv⟩ := Option.ne_none_iff_exists'.mp hsome
    exact hseen c hlt v (reading_eq_some.mp hv)
  · exact h.reading_beyond hhome (hend.resolve_left (by omega)) hge hcn

/-- Storing a value in the first empty slot of its probe sequence puts it behind the others
of its key. -/
theorem insert (h : Queues n home t q) {k : K} {v : V} {d : Nat} (hhome : ∀ k, home k < n)
    (hd : d < n) (hfull : ∀ j < d, t (ahead n (home k) j) ≠ none)
    (hempty : t (ahead n (home k) d) = none) :
    Queues n home (Function.update t (ahead n (home k) d) (some (k, v)))
      (Function.update q k (q k ++ [v])) := by
  refine ⟨fun k' => ?_, ?_⟩
  · by_cases hk : k' = k
    · subst hk
      rw [Function.update_self, ← h.along k']
      refine filterMap_range_push hd (fun c hdc hc => h.reading_beyond (hhome k') hempty hdc hc)
        (reading_eq_some.mpr (Function.update_self ..)) fun c hc hne => reading_congr ?_
      exact Function.update_of_ne (fun hs => hne (ahead_injective (hhome k') hc hd hs)) ..
    · rw [Function.update_of_ne hk, ← h.along k']
      refine List.filterMap_congr fun c _ => ?_
      by_cases hs : ahead n (home k') c = ahead n (home k) d
      · have hnew : Function.update t (ahead n (home k) d) (some (k, v)) (ahead n (home k') c) =
            some (k, v) := by rw [hs, Function.update_self]
        rw [reading_other hnew (Ne.symm hk), reading_eq_none (hs ▸ hempty)]
      · exact reading_congr (Function.update_of_ne hs ..)
  · intro s hs k' v' he j hj
    rw [Function.update_apply]
    split_ifs
    · simp
    · rw [Function.update_apply] at he
      split_ifs at he with hse
      · cases he
        refine hfull j ?_
        rwa [hse, gap_ahead (hhome k) hd] at hj
      · exact h.covered s hs k' v' he j hj

end Queues

/-- The state of a back-shift pass: the hole is empty, every slot strictly
between hole and next is occupied, and the hole is the only gap on any probe
path, seen only by entries at or beyond next. spare is an empty slot the pass
has not reached. -/
structure Shifting (n : Nat) (home : K → Nat) (u : Table K V) (q : K → List V)
    (hole next spare : Nat) : Prop where
  hole_lt : hole < n
  next_lt : next < n
  spare_lt : spare < n
  vacant : u hole = none
  spare_empty : u spare = none
  spare_ne : spare ≠ hole
  between : gap n hole next ≤ gap n hole spare
  pos : 0 < gap n hole next
  along : ∀ k, along n home u k = q k
  covered : ∀ s < n, ∀ k v, u s = some (k, v) →
    ∀ d < gap n (home k) s, u (ahead n (home k) d) = none →
      ahead n (home k) d = hole ∧ gap n hole next ≤ gap n hole s

namespace Shifting
variable {n : Nat} {home : K → Nat} {u : Table K V} {q : K → List V} {hole next spare : Nat}

/-- Erasing the first entry of its key opens the hole. -/
theorem start {t : Table K V} (h : Queues n home t q) (hhome : ∀ k, home k < n) {k : K} {v : V}
    {d : Nat} (hd : d < n) (hseen : ∀ j < d, ∀ v, t (ahead n (home k) j) ≠ some (k, v))
    (he : t (ahead n (home k) d) = some (k, v)) (hspare : spare < n) (hempty : t spare = none) :
    ∃ vs, q k = v :: vs ∧ Shifting n home (Function.update t (ahead n (home k) d) none)
      (Function.update q k vs) (ahead n (home k) d) (ahead n (ahead n (home k) d) 1) spare := by
  have hs := ahead_lt (hhome k) hd.le
  obtain ⟨s, hslot⟩ : ∃ s, ahead n (home k) d = s := ⟨_, rfl⟩
  have hne : spare ≠ s := by
    rintro rfl
    rw [hslot, hempty] at he
    cases he
  have hoff : ∀ c < n, c ≠ d → reading n home (Function.update t s none) k c = reading n home t k c :=
    fun c hc hcd => reading_congr (Function.update_of_ne
      (fun hcs => hcd (ahead_injective (hhome k) hc hd (hcs.trans hslot.symm))) ..)
  have hpop := filterMap_range_pop (g := reading n home (Function.update t s none) k) hd
    (fun c hc => by
      by_contra hsome
      obtain ⟨w, hw⟩ := Option.ne_none_iff_exists'.mp hsome
      exact hseen c hc w (reading_eq_some.mp hw))
    (reading_eq_some.mpr he) (reading_eq_none (by rw [hslot, Function.update_self])) hoff
  refine ⟨Probe.along n home (Function.update t s none) k, (h.along k).symm.trans hpop, ?_⟩
  rw [hslot] at he hs ⊢
  have hn : 1 < n := by omega
  refine ⟨hs, ahead_lt hs hn.le, hspare, by simp, by simp [hne, hempty], hne, ?_, ?_, ?_, ?_⟩
  · rw [gap_ahead hs hn]
    exact gap_pos hs hne.symm
  · rw [gap_ahead hs hn]
    omega
  · intro k'
    by_cases hk : k' = k
    · rw [hk, Function.update_self]
    · rw [Function.update_of_ne hk, ← h.along k']
      refine List.filterMap_congr fun c _ => ?_
      by_cases hcs : ahead n (home k') c = s
      · rw [reading_eq_none (by rw [hcs, Function.update_self]),
          reading_other (hcs ▸ he) (Ne.symm hk)]
      · exact reading_congr (Function.update_of_ne hcs ..)
  · intro a ha k' v' h1 c hc h2
    rw [Function.update_apply] at h1 h2
    split_ifs at h1 with has
    split_ifs at h2 with hds
    · refine ⟨hds, ?_⟩
      rw [gap_ahead hs hn]
      exact gap_pos hs (Ne.symm has)
    · exact absurd h2 (h.covered a ha k' v' h1 c hc)

/-- The pass ends at an empty slot with every probe path closed again. -/
theorem stop (h : Shifting n home u q hole next spare) (hhome : ∀ k, home k < n)
    (hempty : u next = none) : Queues n home u q := by
  refine ⟨h.along, ?_⟩
  intro s hs k v he d hd hgap
  obtain ⟨hhole, hle⟩ := h.covered s hs k v he d hd hgap
  have hk := hhome k
  have hrest := gap_of_waypoint hk hs hd
  rw [hhole] at hrest
  -- past the hole the path meets next, which is empty and not the hole
  have hns : gap n hole next ≠ gap n hole s := by
    intro heq
    have : next = s := by
      rw [← ahead_gap h.hole_lt h.next_lt, heq, ahead_gap h.hole_lt hs]
    rw [this, he] at hempty
    cases hempty
  have hpath : ahead n (home k) (d + gap n hole next) = next := by
    rw [← ahead_waypoint hk hs hd (by rw [hhole]; omega), hhole, ahead_gap h.hole_lt h.next_lt]
  obtain ⟨hbad, -⟩ := h.covered s hs k v he (d + gap n hole next) (by omega) (by rw [hpath]; exact hempty)
  have hp := h.pos
  rw [hpath] at hbad
  rw [hbad] at hp
  simp [gap] at hp

theorem next_ne_spare (h : Shifting n home u q hole next spare) {e : K × V}
    (he : u next = some e) : next ≠ spare := by
  rintro rfl
  simp [h.spare_empty] at he

private theorem advance (h : Shifting n home u q hole next spare) {e : K × V}
    (he : u next = some e) : gap n hole next + 1 ≤ gap n hole spare := by
  have hne := h.next_ne_spare he
  have hb := h.between
  rcases Nat.eq_or_lt_of_le hb with heq | hlt
  · exact absurd (by rw [← ahead_gap h.hole_lt h.next_lt, heq, ahead_gap h.hole_lt h.spare_lt]) hne
  · exact hlt

/-- An entry whose home lies strictly after the hole stays where it is. -/
theorem keep (h : Shifting n home u q hole next spare) (hhome : ∀ k, home k < n) {k : K} {v : V}
    (he : u next = some (k, v)) (hlt : gap n (home k) next < gap n hole next) :
    Shifting n home u q hole (ahead n next 1) spare := by
  have hadv := h.advance he
  have hgs := gap_lt h.hole_lt h.spare_lt
  have hne : ahead n next 1 ≠ hole := by
    have h1 := h.hole_lt
    have h2 := h.next_lt
    revert hadv hgs
    unfold gap ahead; split_ifs <;> omega
  have hstep := gap_next_right h.hole_lt h.next_lt hne
  refine ⟨h.hole_lt, ahead_lt h.next_lt (by have := h.next_lt; omega), h.spare_lt, h.vacant,
    h.spare_empty, h.spare_ne, by omega, by omega, h.along, ?_⟩
  intro s hs k' v' hs' d hd hgap
  obtain ⟨hhole, hle⟩ := h.covered s hs k' v' hs' d hd hgap
  refine ⟨hhole, ?_⟩
  rw [hstep]
  rcases Nat.eq_or_lt_of_le hle with heq | hlt'
  · -- the entry at next itself does not see the hole
    obtain rfl : s = next := by
      rw [← ahead_gap h.hole_lt hs, ← heq, ahead_gap h.hole_lt h.next_lt]
    rw [he] at hs'
    cases hs'
    have hrest := gap_of_waypoint (hhome k) hs hd
    rw [hhole] at hrest
    omega
  · exact hlt'

omit [DecidableEq K] in
/-- The table after an entry has moved from next into the hole. -/
private theorem moved_eq_some_iff {next hole s : Nat} {e e' : K × V} (hne : next ≠ hole)
    (he : u next = some e) :
    Function.update (Function.update u hole (some e)) next none s = some e' ↔
      s ≠ next ∧ u (if s = hole then next else s) = some e' := by
  rcases eq_or_ne s next with rfl | h1
  · simp
  rw [Function.update_of_ne h1]
  rcases eq_or_ne s hole with rfl | h2
  · rw [Function.update_self, if_pos rfl, he]
    exact (and_iff_right h1).symm
  · rw [Function.update_of_ne h2, if_neg h2]
    exact (and_iff_right h1).symm

/-- An entry whose home lies at or before the hole moves into it, and its old
slot becomes the hole. -/
theorem move (h : Shifting n home u q hole next spare) (hhome : ∀ k, home k < n) {k : K} {v : V}
    (he : u next = some (k, v)) (hle : gap n hole next ≤ gap n (home k) next) :
    Shifting n home (Function.update (Function.update u hole (some (k, v))) next none) q
      next (ahead n next 1) spare := by
  have hnh : next ≠ hole := by
    intro hc
    have hp := h.pos
    rw [hc] at hp
    simp [gap] at hp
  have hns := h.next_ne_spare he
  have hn1 : 1 < n := by have := h.next_lt; have := h.hole_lt; omega
  have hpre : gap n (home k) hole + gap n hole next = gap n (home k) next := by
    have h1 := hhome k
    have h2 := h.next_lt
    have h3 := h.hole_lt
    revert hle
    unfold gap; split_ifs <;> omega
  refine ⟨h.next_lt, ahead_lt h.next_lt hn1.le, h.spare_lt, by simp, ?_, hns.symm, ?_, ?_, ?_, ?_⟩
  · rw [Function.update_of_ne hns.symm, Function.update_of_ne h.spare_ne]
    exact h.spare_empty
  · rw [gap_ahead h.next_lt hn1]
    exact gap_pos h.next_lt hns
  · rw [gap_ahead h.next_lt hn1]
    omega
  · intro k'
    rw [← h.along k']
    by_cases hk : k' = k
    · subst hk
      -- between the hole and the old slot there is no other entry of the key
      have hpos := h.pos
      have hlt : gap n (home k') hole < gap n (home k') next := by omega
      have hold : u (ahead n (home k') (gap n (home k') next)) = some (k', v) := by
        rw [ahead_gap (hhome k') h.next_lt, he]
      have hvacant : u (ahead n (home k') (gap n (home k') hole)) = none := by
        rw [ahead_gap (hhome k') h.hole_lt, h.vacant]
      have hnew : Function.update (Function.update u hole (some (k', v))) next none
          (ahead n (home k') (gap n (home k') hole)) = some (k', v) := by
        rw [ahead_gap (hhome k') h.hole_lt, Function.update_of_ne hnh.symm, Function.update_self]
      refine filterMap_range_move hlt (gap_lt (hhome k') h.next_lt) (reading_eq_none hvacant)
        (reading_eq_some.mpr hold) (fun c hac hcb => ?_) (reading_eq_some.mpr hnew)
        (reading_eq_none ?_) fun c hc hca hcb => reading_congr ?_
      · by_contra hsome
        obtain ⟨w, hw⟩ := Option.ne_none_iff_exists'.mp hsome
        have hcn : c < n := hcb.trans (gap_lt (hhome k') h.next_lt)
        have hs := ahead_lt (hhome k') hcn.le
        have hgc := gap_ahead (hhome k') hcn
        have hsee := h.covered _ hs k' w (reading_eq_some.mp hw) (gap n (home k') hole) (by omega)
          hvacant
        have hway := gap_of_waypoint (hhome k') hs (d := gap n (home k') hole) (by omega)
        rw [ahead_gap (hhome k') h.hole_lt] at hway
        omega
      · rw [ahead_gap (hhome k') h.next_lt, Function.update_self]
      · rw [Function.update_of_ne, Function.update_of_ne]
        · exact fun hs => hca (by rw [← hs, gap_ahead (hhome k') hc])
        · exact fun hs => hcb (by rw [← hs, gap_ahead (hhome k') hc])
    · refine List.filterMap_congr fun c _ => ?_
      by_cases h1 : ahead n (home k') c = next
      · rw [reading_eq_none (by rw [h1, Function.update_self]), reading_other (h1 ▸ he) (Ne.symm hk)]
      by_cases h2 : ahead n (home k') c = hole
      · have hnew : Function.update (Function.update u hole (some (k, v))) next none
            (ahead n (home k') c) = some (k, v) := by
          rw [Function.update_of_ne h1, h2, Function.update_self]
        rw [reading_other hnew (Ne.symm hk), reading_eq_none (h2 ▸ h.vacant)]
      · exact reading_congr (by rw [Function.update_of_ne h1, Function.update_of_ne h2])
  · intro s hs k' v' hse d hd hgap
    obtain ⟨hsn, hse⟩ := (moved_eq_some_iff hnh he).mp hse
    by_cases hdn : ahead n (home k') d = next
    · refine ⟨hdn, ?_⟩
      rw [gap_ahead h.next_lt hn1]
      exact gap_pos h.next_lt hsn.symm
    exfalso
    rw [Function.update_of_ne hdn] at hgap
    have hdh : ahead n (home k') d ≠ hole := by
      intro hc
      rw [hc, Function.update_self] at hgap
      cases hgap
    rw [Function.update_of_ne hdh] at hgap
    by_cases hsh : s = hole
    · -- the moved entry: its new path is a prefix of its old one
      subst hsh
      rw [if_pos rfl, he] at hse
      cases hse
      have hgn := h.pos
      exact hdh (h.covered next h.next_lt k v he d (by omega) hgap).1
    · rw [if_neg hsh] at hse
      exact hdh (h.covered s hs k' v' hse d hd hgap).1

end Shifting
end ExecutionPlatform.Foundations.Probe
