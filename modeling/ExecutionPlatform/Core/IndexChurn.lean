import ExecutionPlatform.Core.IdIndex
import Mathlib.Data.Finmap

/-! The id index over whole runs: whatever the hash, insertions and erasures answer as a
finite map does. -/
namespace ExecutionPlatform.Core
open Foundations

/-- The calls of the book on its index. -/
inductive IndexOp where
  | insertId (id : OrderId) (o : Nat)
  | lookupAndEraseId (id : OrderId)
  deriving DecidableEq, Repr

/-- What an index is for: a finite map from resting ids to their orders. -/
abbrev IdMap := Finmap fun _ : OrderId => Nat

namespace IdMap

def step (m : IdMap) : IndexOp → IdMap × Ptr
  | .insertId id o => (m.insert id o, none)
  | .lookupAndEraseId id => (m.erase id, m.lookup id)

def run : IdMap → List IndexOp → IdMap × List Ptr
  | m, [] => (m, [])
  | m, op :: ops =>
    let (m', outs) := run (m.step op).1 ops
    (m', (m.step op).2 :: outs)

/-- An insertion is of an absent id, and leaves no more than the capacity present. -/
def Admissible (orderCapacity : Nat) (m : IdMap) : IndexOp → Prop
  | .insertId id _ => id ∉ m ∧ m.keys.card < orderCapacity
  | .lookupAndEraseId _ => True

instance (orderCapacity : Nat) (m : IdMap) (op : IndexOp) : Decidable (m.Admissible orderCapacity op) := by
  cases op <;> unfold Admissible <;> infer_instance

def AdmissibleRun (orderCapacity : Nat) : IdMap → List IndexOp → Prop
  | _, [] => True
  | m, op :: ops => m.Admissible orderCapacity op ∧ AdmissibleRun orderCapacity (m.step op).1 ops

variable {m : IdMap} {id : OrderId} {o : Nat}

theorem card_insert_le (m : IdMap) (id : OrderId) (o : Nat) :
    (m.insert id o).keys.card ≤ m.keys.card + 1 := by
  have hsub : (m.insert id o).keys ⊆ insert id m.keys := by
    intro k hk
    rw [Finmap.mem_keys, Finmap.mem_insert] at hk
    exact Finset.mem_insert.mpr (hk.imp_right Finmap.mem_keys.mpr)
  exact (Finset.card_le_card hsub).trans (Finset.card_insert_le id m.keys)

theorem card_erase_le (m : IdMap) (id : OrderId) : (m.erase id).keys.card ≤ m.keys.card := by
  rw [Finmap.keys_erase]
  exact Finset.card_erase_le

/-- The slots under an id, as the index holds them: one at most. -/
def slotsOf (m : IdMap) (id : OrderId) : List Nat := (m.lookup id).toList

theorem mem_slotsOf {v : Nat} : v ∈ m.slotsOf id ↔ m.lookup id = some v := Option.mem_toList

theorem slotsOf_length_le (m : IdMap) (id : OrderId) : (m.slotsOf id).length ≤ 1 := by
  rw [slotsOf]
  cases m.lookup id <;> simp

theorem slotsOf_eq_nil (hid : id ∉ m) : m.slotsOf id = [] := by
  rw [slotsOf, Finmap.lookup_eq_none.mpr hid]
  rfl

theorem slotsOf_insert (hid : id ∉ m) (k : OrderId) :
    Function.update m.slotsOf id (m.slotsOf id ++ [o]) k = slotsOf (m.insert id o) k := by
  by_cases hk : k = id
  · rw [hk, Function.update_self, slotsOf_eq_nil hid, slotsOf, Finmap.lookup_insert]
    rfl
  · rw [Function.update_of_ne hk, slotsOf, slotsOf, Finmap.lookup_insert_of_ne m hk]

theorem slotsOf_erase (m : IdMap) (id k : OrderId) :
    Function.update m.slotsOf id [] k = slotsOf (m.erase id) k := by
  by_cases hk : k = id
  · rw [hk, Function.update_self, slotsOf, Finmap.lookup_erase]
    rfl
  · rw [Function.update_of_ne hk, slotsOf, slotsOf, Finmap.lookup_erase_ne hk]

end IdMap

namespace IdIndex
variable {t : IdIndex} {m : IdMap} {orderCapacity : Nat}

/-- The index members of the book's constructor, for any hash. -/
def new (mix : OrderId → Nat) (orderCapacity : Nat) : Option IdIndex := do
  let idCapacity ← roundUpPow2 (max orderCapacity 1 * 2 % 2 ^ 64)
  pure ⟨idCapacity, idCapacity - 1, mix, fun _ => {}⟩

def step (t : IdIndex) : IndexOp → Option (IdIndex × Ptr)
  | .insertId id o => (t.insertId id o).map fun t' => (t', none)
  | .lookupAndEraseId id => (t.lookupAndEraseId id).map Prod.swap

def run : IdIndex → List IndexOp → Option (IdIndex × List Ptr)
  | t, [] => some (t, [])
  | t, op :: ops => do
    let (t', out) ← t.step op
    let (t', outs) ← run t' ops
    pure (t', out :: outs)

theorem backShift_mixId {fuel hole next : Nat} {t' : IdIndex}
    (h : t.backShift fuel hole next = some t') : t'.mixId = t.mixId := by
  induction fuel generalizing t hole next with
  | zero => cases h
  | succ fuel ih =>
    rw [backShift] at h
    split_ifs at h
    · obtain rfl := Option.some.inj h
      rfl
    · have hmix := ih h
      exact hmix
    · exact ih h

theorem probeId_mixId {id : OrderId} {probes slot : Nat} {t' : IdIndex} {p : Ptr}
    (h : t.probeId id probes slot = some (p, t')) : t'.mixId = t.mixId := by
  induction probes generalizing slot with
  | zero =>
    cases h
    rfl
  | succ probes ih =>
    rw [probeId] at h
    split_ifs at h
    · cases h
      rfl
    · obtain ⟨t1, h1, h⟩ := Option.bind_eq_some_iff.mp h
      cases h
      exact backShift_mixId h1
    · exact ih h

/-- No call changes the hash. -/
theorem step_mixId {op : IndexOp} {t' : IdIndex} {p : Ptr} (h : t.step op = some (t', p)) :
    t'.mixId = t.mixId := by
  cases op with
  | insertId id o =>
    obtain ⟨t1, h1, h⟩ := Option.map_eq_some_iff.mp h
    obtain ⟨slot, -, h1⟩ := Option.bind_eq_some_iff.mp h1
    cases h
    obtain rfl := Option.some.inj h1
    rfl
  | lookupAndEraseId id =>
    obtain ⟨⟨p1, t1⟩, h1, h⟩ := Option.map_eq_some_iff.mp h
    cases h
    exact probeId_mixId h1

theorem run_mixId {ops : List IndexOp} {t' : IdIndex} {ps : List Ptr}
    (h : t.run ops = some (t', ps)) : t'.mixId = t.mixId := by
  induction ops generalizing t ps with
  | nil =>
    cases h
    rfl
  | cons op ops ih =>
    obtain ⟨⟨t1, p⟩, h1, h⟩ := Option.bind_eq_some_iff.mp h
    obtain ⟨⟨t2, ps'⟩, h2, h⟩ := Option.bind_eq_some_iff.mp h
    cases h
    exact (ih h2).trans (step_mixId h1)

/-- The occupied slots are the pairs of the map, and one slot at least is free. -/
structure Represents (t : IdIndex) (orderCapacity : Nat) (m : IdMap) : Prop where
  queues : t.Queues m.slotsOf
  room : orderCapacity < t.idCapacity
  card : m.keys.card ≤ orderCapacity

theorem Represents.holds (h : t.Represents orderCapacity m) :
    t.Holds fun k v => m.lookup k = some v :=
  (h.queues.holds m.slotsOf_length_le).congr fun _ _ => IdMap.mem_slotsOf

theorem Represents.roomy (h : t.Represents orderCapacity m) : t.Roomy := by
  refine h.queues.probe.exists_empty h.queues.sized.home_lt
    (m.keys.toList.flatMap fun k => (m.slotsOf k).map fun v => (k, v)) (fun k => ?_) (fun k v hk => ?_)
    ?_
  · rw [IdMap.slotsOf]
    cases m.lookup k <;> simp
  · refine List.mem_flatMap.mpr ⟨k, ?_, List.mem_map_of_mem hk⟩
    rw [Finset.mem_toList, Finmap.mem_keys]
    exact Finmap.mem_of_lookup_eq_some (IdMap.mem_slotsOf.mp hk)
  · have hlen : ∀ ks : List OrderId,
        (ks.flatMap fun k => (m.slotsOf k).map fun v => (k, v)).length ≤ ks.length := by
      intro ks
      induction ks with
      | nil => exact le_rfl
      | cons k ks ih =>
        have hone := m.slotsOf_length_le k
        rw [List.flatMap_cons, List.length_append, List.length_map, List.length_cons]
        omega
    refine (hlen _).trans_lt ?_
    rw [Finset.length_toList]
    exact h.card.trans_lt h.room

/-- Erasing an absent id answers null and leaves the table alone. -/
theorem Represents.lookup_absent (h : t.Represents orderCapacity m) {id : OrderId} (hid : id ∉ m) :
    t.lookupAndEraseId id = some (none, t) :=
  lookupAndEraseId_absent id h.queues (IdMap.slotsOf_eq_nil hid) h.roomy

theorem Represents.step (h : t.Represents orderCapacity m) {op : IndexOp}
    (hop : m.Admissible orderCapacity op) :
    ∃ t', t.step op = some (t', (m.step op).2) ∧ t'.Represents orderCapacity (m.step op).1 := by
  cases op with
  | insertId id o =>
    obtain ⟨t', ht', hcap, hH⟩ := insertId_spec id o h.queues h.roomy
    refine ⟨t', ?_, ?_, hcap ▸ h.room, ?_⟩
    · rw [IdIndex.step, ht']
      rfl
    · exact hH.congr (IdMap.slotsOf_insert hop.1)
    · exact (m.card_insert_le id o).trans hop.2
  | lookupAndEraseId id =>
    by_cases hid : id ∈ m
    · obtain ⟨o, ho⟩ := Finmap.mem_iff.mp hid
      have hslots : m.slotsOf id = [o] := by
        rw [IdMap.slotsOf, ho]
        rfl
      obtain ⟨t', ht', hcap, hH, -⟩ := lookupAndEraseId_present h.queues hslots h.roomy
      refine ⟨t', ?_, ?_, hcap ▸ h.room, (m.card_erase_le id).trans h.card⟩
      · rw [IdIndex.step, ht', IdMap.step, ho]
        rfl
      · exact hH.congr (m.slotsOf_erase id)
    · have hnone : m.lookup id = none := Finmap.lookup_eq_none.mpr hid
      refine ⟨t, ?_, ?_, h.room, (m.card_erase_le id).trans h.card⟩
      · rw [IdIndex.step, h.lookup_absent hid, IdMap.step, hnone]
        rfl
      · refine h.queues.congr fun k => ?_
        refine Eq.trans ?_ (m.slotsOf_erase id k)
        rw [← IdMap.slotsOf_eq_nil hid, Function.update_eq_self]

theorem Represents.run (h : t.Represents orderCapacity m) {ops : List IndexOp}
    (hops : m.AdmissibleRun orderCapacity ops) :
    ∃ t', t.run ops = some (t', (m.run ops).2) ∧ t'.Represents orderCapacity (m.run ops).1 := by
  induction ops generalizing t m with
  | nil => exact ⟨t, rfl, h⟩
  | cons op ops ih =>
    obtain ⟨t1, h1, hr1⟩ := h.step hops.1
    obtain ⟨t2, h2, hr2⟩ := ih hr1 hops.2
    refine ⟨t2, ?_, hr2⟩
    rw [IdIndex.run, h1]
    change (t1.run ops).bind _ = _
    rw [h2]
    rfl

/-- The table is built with more slots than orders. -/
theorem new_represents (mix : OrderId → Nat) (hcap : orderCapacity ≤ 2 ^ 62) :
    ∃ t, IdIndex.new mix orderCapacity = some t ∧ t.mixId = mix ∧ t.Represents orderCapacity ∅ := by
  have hsize : max orderCapacity 1 * 2 % 2 ^ 64 = max orderCapacity 1 * 2 :=
    Nat.mod_eq_of_lt (by omega)
  obtain ⟨k, h1, h63, hk, hr⟩ := roundUpPow2_spec (n := max orderCapacity 1 * 2) (by omega) (by omega)
  refine ⟨⟨2 ^ k, 2 ^ k - 1, mix, fun _ => {}⟩, ?_, rfl, ⟨⟨k, h1, by omega, rfl, rfl⟩, ?_⟩, ?_, ?_⟩
  · rw [IdIndex.new, hsize, hr]
    rfl
  · exact Probe.Queues.empty.congr fun k => (IdMap.slotsOf_eq_nil Finmap.notMem_empty).symm
  · change orderCapacity < 2 ^ k
    omega
  · exact Nat.zero_le _

/-- Over every run that keeps to the capacity, both loops terminate, the answers are those
of a finite map, the occupied slots are its pairs, each once and with no empty slot before
it, and erasing an absent id changes nothing. -/
theorem finite_map_under_churn (mix : OrderId → Nat) (hcap : orderCapacity ≤ 2 ^ 62)
    {ops : List IndexOp} (hops : IdMap.AdmissibleRun orderCapacity ∅ ops) :
    ∃ t t', IdIndex.new mix orderCapacity = some t ∧ t.run ops = some (t', (IdMap.run ∅ ops).2) ∧
      t'.mixId = mix ∧ (t'.Holds fun k v => (IdMap.run ∅ ops).1.lookup k = some v) ∧
      ∀ id ∉ (IdMap.run ∅ ops).1, t'.lookupAndEraseId id = some (none, t') := by
  obtain ⟨t, hnew, hmix, h⟩ := new_represents mix hcap
  obtain ⟨t', hrun, h'⟩ := h.run hops
  exact ⟨t, t', hnew, hrun, (run_mixId hrun).trans hmix, h'.holds, fun id hid => h'.lookup_absent hid⟩

/-- Under a hash that sends every id to the last slot, the cluster wraps past the end. -/
theorem finite_map_under_churn_wrapped :
    ∃ t t', IdIndex.new (fun _ => 7) 3 = some t ∧
      t.run [.insertId 1 10, .insertId 2 20, .insertId 3 30, .lookupAndEraseId 1,
        .insertId 1 40, .lookupAndEraseId 3, .lookupAndEraseId 3] =
        some (t', [none, none, none, some 10, none, some 30, none]) ∧ t'.mixId = (fun _ => 7) ∧
      (t'.Holds fun k v => (IdMap.run ∅ [.insertId 1 10, .insertId 2 20, .insertId 3 30,
        .lookupAndEraseId 1, .insertId 1 40, .lookupAndEraseId 3, .lookupAndEraseId 3]).1.lookup k =
          some v) ∧
      ∀ id ∉ (IdMap.run ∅ [.insertId 1 10, .insertId 2 20, .insertId 3 30, .lookupAndEraseId 1,
        .insertId 1 40, .lookupAndEraseId 3, .lookupAndEraseId 3]).1,
        t'.lookupAndEraseId id = some (none, t') :=
  finite_map_under_churn (fun _ => 7) (by decide)
    ⟨by decide, by decide, by decide, trivial, by decide, trivial, trivial, trivial⟩

end IdIndex

/-- The book's index is such a table under MixId. -/
theorem OrderBook.new_index {orderCapacity : Nat} {minPrice maxPrice : Price} {checked : Bool}
    {b : OrderBook} (h : OrderBook.new orderCapacity minPrice maxPrice checked = some b) :
    IdIndex.new mixId orderCapacity = some b.index := by
  obtain ⟨idCapacity, hr, h⟩ := Option.bind_eq_some_iff.mp h
  obtain ⟨-, -, h⟩ := Option.bind_eq_some_iff.mp h
  obtain rfl := Option.some.inj h
  rw [IdIndex.new, hr]
  rfl

end ExecutionPlatform.Core
