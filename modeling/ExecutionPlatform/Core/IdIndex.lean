import ExecutionPlatform.Core.OrderBook

/-! The id index keeps a queue of slots for every id, and a finite map when no id comes
twice: the two probe loops and the back-shift pass of the source, proved against the
open-addressing rules for any hash. -/
namespace ExecutionPlatform.Core
open Foundations

theorem subWord_and_mask {k a b : Nat} (hk : k ≤ 64) (ha : a < 2 ^ k) (hb : b < 2 ^ k) :
    subWord 64 a b &&& (2 ^ k - 1) = Probe.gap (2 ^ k) b a := by
  obtain ⟨q, hq⟩ : ∃ q, (2 : Nat) ^ 64 = 2 ^ k * (q + 1) := by
    refine ⟨2 ^ (64 - k) - 1, ?_⟩
    rw [Nat.sub_add_cancel Nat.one_le_two_pow, ← Nat.pow_add, Nat.add_sub_cancel' hk]
  have hdvd : 2 ^ k ∣ 2 ^ 64 := ⟨_, hq⟩
  have hbw : b % 2 ^ 64 = b := Nat.mod_eq_of_lt (hb.trans_le (Nat.pow_le_pow_right (by decide) hk))
  rw [Nat.and_two_pow_sub_one_eq_mod, subWord, Nat.mod_mod_of_dvd _ hdvd, hbw,
    Probe.gap_eq_mod hb ha, hq, show a + 2 ^ k * (q + 1) - b = a + 2 ^ k - b + 2 ^ k * q by
      rw [Nat.mul_add, Nat.mul_one]; omega, Nat.add_mul_mod_self_left]

namespace IdIndex
variable {t : IdIndex} {M : OrderId → Nat → Prop} {q : OrderId → List Nat}

/-- The table as pairs: a slot with a null pointer is empty. -/
def table (t : IdIndex) : Probe.Table OrderId Nat :=
  fun s => (t.idIndex s).ptr.map fun o => ((t.idIndex s).id, o)

/-- A power of two of slots, all reachable with the mask. -/
def WellSized (t : IdIndex) : Prop := ∃ k, 1 ≤ k ∧ k ≤ 64 ∧ t.idCapacity = 2 ^ k ∧ t.idMask = 2 ^ k - 1

/-- The index holds exactly the pairs of M. -/
structure Holds (t : IdIndex) (M : OrderId → Nat → Prop) : Prop where
  sized : t.WellSized
  probe : Probe.Holds t.idCapacity t.home t.table M

theorem Holds.congr {M' : OrderId → Nat → Prop} (h : t.Holds M) (hM : ∀ k v, M k v ↔ M' k v) :
    t.Holds M' := ⟨h.sized, h.probe.congr hM⟩

/-- The index holds the slots of q, those of one id in the order of its probe sequence. -/
structure Queues (t : IdIndex) (q : OrderId → List Nat) : Prop where
  sized : t.WellSized
  probe : Probe.Queues t.idCapacity t.home t.table q

theorem Queues.congr {q' : OrderId → List Nat} (h : t.Queues q) (hq : ∀ k, q k = q' k) :
    t.Queues q' := ⟨h.sized, h.probe.congr hq⟩

/-- A slot of the table is empty. -/
def Roomy (t : IdIndex) : Prop := ∃ s < t.idCapacity, t.table s = none

theorem WellSized.home_lt (h : t.WellSized) (id : OrderId) : t.home id < t.idCapacity := by
  obtain ⟨k, -, -, hc, hm⟩ := h
  rw [home, hm, hc, Nat.and_two_pow_sub_one_eq_mod]
  exact Nat.mod_lt _ (Nat.two_pow_pos k)

theorem WellSized.nextSlot_eq (h : t.WellSized) {s : Nat} (hs : s < t.idCapacity) :
    t.nextSlot s = Probe.ahead t.idCapacity s 1 := by
  obtain ⟨k, h1, -, hc, hm⟩ := h
  rw [nextSlot, hm, hc, Nat.and_two_pow_sub_one_eq_mod, Probe.ahead_eq_mod (hc ▸ hs)
    Nat.one_le_two_pow]

theorem WellSized.gap_eq (h : t.WellSized) {a b : Nat} (ha : a < t.idCapacity)
    (hb : b < t.idCapacity) : subWord 64 a b &&& t.idMask = Probe.gap t.idCapacity b a := by
  obtain ⟨k, -, h64, hc, hm⟩ := h
  rw [hc] at ha hb ⊢
  rw [hm, subWord_and_mask h64 ha hb]

theorem table_eq_none {s : Nat} : t.table s = none ↔ (t.idIndex s).ptr = none := by
  simp [table]

theorem table_eq_some {s : Nat} {k : OrderId} {v : Nat} :
    t.table s = some (k, v) ↔ t.idIndex s = ⟨k, some v⟩ := by
  cases h : t.idIndex s with
  | mk id ptr => cases ptr <;> simp [table, h]

theorem table_set (s : Nat) (e : IdEntry) :
    (t.set s e).table = Function.update t.table s (e.ptr.map fun o => (e.id, o)) := by
  funext s'
  simp only [table, set, Function.update_apply]
  split_ifs <;> rfl

theorem set_wellSized (h : t.WellSized) (s : Nat) (e : IdEntry) : (t.set s e).WellSized := h

/-- The insertion probe stops at the first empty slot of the id's sequence. -/
private theorem probeEmpty_spec (h : t.WellSized) (id : OrderId) {spare : Nat}
    (hs : spare < t.idCapacity) (hempty : t.table spare = none) (d fuel : Nat)
    (hd : d ≤ Probe.gap t.idCapacity (t.home id) spare)
    (hfuel : t.idCapacity ≤ d + fuel)
    (hfull : ∀ j < d, t.table (Probe.ahead t.idCapacity (t.home id) j) ≠ none) :
    ∃ e < t.idCapacity, t.probeEmpty fuel (Probe.ahead t.idCapacity (t.home id) d) =
        some (Probe.ahead t.idCapacity (t.home id) e) ∧
      (∀ j < e, t.table (Probe.ahead t.idCapacity (t.home id) j) ≠ none) ∧
      t.table (Probe.ahead t.idCapacity (t.home id) e) = none := by
  have hh := h.home_lt id
  have hg := Probe.gap_lt hh hs
  induction fuel generalizing d with
  | zero => omega
  | succ fuel ih =>
    rw [probeEmpty]
    by_cases hp : (t.idIndex (Probe.ahead t.idCapacity (t.home id) d)).ptr = none
    · exact ⟨d, by omega, by rw [if_pos hp], hfull, table_eq_none.mpr hp⟩
    · have hne : d ≠ Probe.gap t.idCapacity (t.home id) spare := by
        rintro rfl
        rw [Probe.ahead_gap hh hs] at hp
        exact hp (table_eq_none.mp hempty)
      rw [if_neg hp, h.nextSlot_eq (Probe.ahead_lt hh (by omega)), Probe.ahead_succ hh (by omega)]
      refine ih (d + 1) (by omega) (by omega) fun j hj => ?_
      rcases Nat.lt_succ_iff_lt_or_eq.mp hj with hj | rfl
      · exact hfull j hj
      · exact fun hc => hp (table_eq_none.mp hc)

/-- With one slot an id at most, the index is a finite map. -/
theorem Queues.holds (h : t.Queues q) (hq : ∀ k, (q k).length ≤ 1) :
    t.Holds fun k v => v ∈ q k :=
  ⟨h.sized, h.probe.holds h.sized.home_lt hq⟩

/-- InsertId terminates and puts the slot behind the others of its id. -/
theorem insertId_spec (id : OrderId) (o : Nat) (h : t.Queues q) (hroom : t.Roomy) :
    ∃ t', t.insertId id o = some t' ∧ t'.idCapacity = t.idCapacity ∧
      t'.Queues (Function.update q id (q id ++ [o])) := by
  obtain ⟨spare, hs, hempty⟩ := hroom
  have hh := h.sized.home_lt id
  obtain ⟨e, he, hp, hfull, hnone⟩ := probeEmpty_spec h.sized id hs hempty 0 t.idCapacity
    (Nat.zero_le _) (by omega) (by simp)
  rw [Probe.ahead_zero hh] at hp
  have hrun : t.insertId id o = some (t.set (Probe.ahead t.idCapacity (t.home id) e) ⟨id, some o⟩) := by
    rw [insertId, hp]
    rfl
  refine ⟨_, hrun, rfl, set_wellSized h.sized _ _, ?_⟩
  rw [table_set]
  exact h.probe.insert h.sized.home_lt he hfull hnone

/-- One back-shift pass terminates before the spare slot, which it leaves empty, and closes
every probe path. -/
private theorem backShift_spec {u : Probe.Table OrderId Nat} {hole next spare : Nat}
    (hsz : t.WellSized) (hu : u = Function.update t.table hole none)
    (h : Probe.Shifting t.idCapacity t.home u q hole next spare) {fuel : Nat}
    (hfuel : Probe.gap t.idCapacity next spare < fuel) :
    ∃ t', t.backShift fuel hole next = some t' ∧ t'.idCapacity = t.idCapacity ∧ t'.Queues q ∧
      t'.Roomy := by
  have hhome := hsz.home_lt
  induction fuel generalizing t u hole next with
  | zero => omega
  | succ fuel ih =>
    have hnh : next ≠ hole := by
      intro hc
      have := h.pos
      simp [hc, Probe.gap] at this
    have hun : u next = t.table next := by rw [hu, Function.update_of_ne hnh]
    rw [backShift]
    by_cases hp : (t.idIndex next).ptr = none
    · have hset : (t.set hole {}).table = u := (table_set _ _).trans hu.symm
      refine ⟨_, if_pos hp, rfl, ⟨set_wellSized hsz _ _, ?_⟩, spare, h.spare_lt, ?_⟩
      · rw [hset]
        exact h.stop hhome (hun.trans (table_eq_none.mpr hp))
      · rw [hset]
        exact h.spare_empty
    · obtain ⟨v, hv⟩ := Option.ne_none_iff_exists'.mp hp
      have he : u next = some ((t.idIndex next).id, v) := by
        rw [hun, table_eq_some, ← hv]
      have hcloser : Probe.gap t.idCapacity (Probe.ahead t.idCapacity next 1) spare < fuel := by
        have := Probe.gap_next h.next_lt h.spare_lt (h.next_ne_spare he)
        omega
      rw [if_neg hp, hsz.gap_eq h.next_lt h.hole_lt, hsz.gap_eq h.next_lt (hhome _),
        hsz.nextSlot_eq h.next_lt]
      split_ifs with hle
      · refine ih (t := t.set hole (t.idIndex next)) (set_wellSized hsz _ _) ?_
          (h.move hhome he hle) ?_ hhome
        · rw [table_set, hu, hv, Function.update_idem]
          rfl
        · exact hcloser
      · exact ih hsz hu (h.keep hhome he (Nat.lt_of_not_le hle)) hcloser hhome

/-- The lookup probe past d entries with other ids. -/
private theorem probeId_spec (h : t.Queues q) (id : OrderId) (hroom : t.Roomy) (d fuel : Nat)
    (hfuel : t.idCapacity = d + fuel)
    (hseen : ∀ j < d, ∀ v, t.table (Probe.ahead t.idCapacity (t.home id) j) ≠ some (id, v)) :
    (∃ v vs t', q id = v :: vs ∧
        t.probeId id fuel (Probe.ahead t.idCapacity (t.home id) d) = some (some v, t') ∧
        t'.idCapacity = t.idCapacity ∧ t'.Queues (Function.update q id vs) ∧ t'.Roomy) ∨
      (q id = [] ∧ t.probeId id fuel (Probe.ahead t.idCapacity (t.home id) d) = some (none, t)) := by
  have hh := h.sized.home_lt id
  induction fuel generalizing d with
  | zero => exact .inr ⟨h.probe.absent hh hseen (.inl (by omega)), rfl⟩
  | succ fuel ih =>
    have hd : d < t.idCapacity := by omega
    have hslot := Probe.ahead_lt (a := t.home id) hh hd.le
    rw [probeId]
    by_cases hp : (t.idIndex (Probe.ahead t.idCapacity (t.home id) d)).ptr = none
    · rw [if_pos hp]
      exact .inr ⟨h.probe.absent hh hseen (.inr (table_eq_none.mpr hp)), rfl⟩
    rw [if_neg hp]
    obtain ⟨v, hv⟩ := Option.ne_none_iff_exists'.mp hp
    by_cases hid : (t.idIndex (Probe.ahead t.idCapacity (t.home id) d)).id = id
    · left
      rw [if_pos hid]
      have he : t.table (Probe.ahead t.idCapacity (t.home id) d) = some (id, v) := by
        rw [table_eq_some]
        cases hc : t.idIndex (Probe.ahead t.idCapacity (t.home id) d)
        simp_all
      obtain ⟨spare, hs, hempty⟩ := hroom
      obtain ⟨vs, hq, hsh⟩ := Probe.Shifting.start h.probe h.sized.home_lt hd hseen he hs hempty
      obtain ⟨t', ht', hcap, hH, hroom'⟩ :=
        backShift_spec h.sized rfl hsh (Probe.gap_lt hsh.next_lt hs)
      refine ⟨v, vs, t', hq, ?_, hcap, hH, hroom'⟩
      rw [h.sized.nextSlot_eq hslot, ht', hv]
      rfl
    · rw [if_neg hid, h.sized.nextSlot_eq hslot, Probe.ahead_succ hh hd]
      refine ih (d + 1) (by omega) fun j hj w => ?_
      rcases Nat.lt_succ_iff_lt_or_eq.mp hj with hj | rfl
      · exact hseen j hj w
      · rw [Ne, table_eq_some]
        intro hc
        exact hid (by rw [hc])

/-- LookupAndEraseId of a present id returns its oldest slot and forgets that slot only. -/
theorem lookupAndEraseId_present (h : t.Queues q) {id : OrderId} {o : Nat} {os : List Nat}
    (hq : q id = o :: os) (hroom : t.Roomy) :
    ∃ t', t.lookupAndEraseId id = some (some o, t') ∧ t'.idCapacity = t.idCapacity ∧
      t'.Queues (Function.update q id os) ∧ t'.Roomy := by
  have hh := h.sized.home_lt id
  have hspec := probeId_spec h id hroom 0 t.idCapacity (by omega) (by simp)
  rw [Probe.ahead_zero hh] at hspec
  rcases hspec with ⟨v, vs, t', hv, ht', hcap, hH⟩ | ⟨habs, -⟩
  · obtain ⟨rfl, rfl⟩ := List.cons.inj (hq.symm.trans hv)
    exact ⟨t', ht', hcap, hH⟩
  · rw [hq] at habs
    cases habs

/-- LookupAndEraseId of an absent id returns null and leaves the table alone. -/
theorem lookupAndEraseId_absent (id : OrderId) (h : t.Queues q) (hq : q id = []) (hroom : t.Roomy) :
    t.lookupAndEraseId id = some (none, t) := by
  have hh := h.sized.home_lt id
  have hspec := probeId_spec h id hroom 0 t.idCapacity (by omega) (by simp)
  rw [Probe.ahead_zero hh] at hspec
  rcases hspec with ⟨v, vs, t', hv, -⟩ | ⟨-, ht⟩
  · rw [hq] at hv
    cases hv
  · exact ht

end IdIndex

/-- The constructor's table size: a power of two with at least one slot to spare. -/
theorem roundUpPow2_spec {n : Nat} (h1 : 1 < n) (hn : n ≤ 2 ^ 63) :
    ∃ k, 1 ≤ k ∧ k ≤ 63 ∧ n ≤ 2 ^ k ∧ roundUpPow2 n = some (2 ^ k) := by
  have aux : ∀ fuel k, k ≤ 63 → 64 ≤ k + fuel → (k = 0 ∨ 2 ^ (k - 1) < n) →
      ∃ j, k ≤ j ∧ j ≤ 63 ∧ n ≤ 2 ^ j ∧ roundUpPow2Loop n fuel (2 ^ k) = some (2 ^ j) := by
    intro fuel
    induction fuel with
    | zero => intro k hk hf; omega
    | succ fuel ih =>
      intro k hk hf _
      rw [roundUpPow2Loop]
      split_ifs with hlt
      · have hk' : k < 63 := by
          by_contra hge
          obtain rfl : k = 63 := by omega
          omega
        have hshift : (2 ^ k <<< 1) % 2 ^ 64 = 2 ^ (k + 1) := by
          rw [Nat.shiftLeft_eq, ← Nat.pow_add]
          exact Nat.mod_eq_of_lt (Nat.pow_lt_pow_right (by decide) (by omega))
        rw [hshift]
        obtain ⟨j, hj, hj63, hnj, hr⟩ := ih (k + 1) (by omega) (by omega) (.inr hlt)
        exact ⟨j, by omega, hj63, hnj, hr⟩
      · exact ⟨k, le_rfl, hk, by omega, rfl⟩
  obtain ⟨k, -, hk, hnk, hr⟩ := aux 65 0 (by omega) (by omega) (.inl rfl)
  refine ⟨k, ?_, hk, hnk, hr⟩
  rcases k with _ | k
  · simp at hnk
    omega
  · omega

end ExecutionPlatform.Core
