import ExecutionPlatform.Main.SimRunner
import ExecutionPlatform.Core.BookLedger

/-! What every iteration of the workload loop keeps: the vector of the runner names every
resting order, so the loop can always make room in time. -/
namespace ExecutionPlatform.Main
open ExecutionPlatform.Core Exec Foundations

/-- The vector's ids are distinct and include those of the reference book R, which the
runner's book represents and which has room for four more orders. -/
structure Tracks {Ring Clock : Type} (R : RefBook) (r : SimRunner OrderBook Ring Clock) : Prop where
  book : ∃ rs, r.publisher.book.Refines R rs
  shape : (RefBook.new kBookCapacity OrderBook.defaultMinPrice OrderBook.defaultMaxPrice).SameShape R
  covered : ∀ id ∈ R.ids, id ∈ r.resting
  issued : ∀ id ∈ r.resting, id < r.nextId
  nodup : r.resting.toList.Nodup
  room : R.orders.length ≤ kBookCapacity - 4
  adds : r.adds + 1 = r.nextId

namespace Turn

/-- The eviction branch found an id, and the publisher accepted the order. -/
def Sound : Turn → Prop
  | .cancelled _ => True
  | .evicted victim => victim ≠ none
  | .submitted _ _ _ _ ok => ok = true

def isSubmission : Turn → Bool
  | .submitted .. => true
  | _ => false

end Turn

/-- Every price of the workload is inside the default band. -/
theorem drawOrder_inBand (rng : Xorshift64) :
    OrderBook.defaultMinPrice ≤ (drawOrder rng).1.2.1 ∧
      (drawOrder rng).1.2.1 ≤ OrderBook.defaultMaxPrice := by
  have hlt : (rng.next.2.next.1 % 11).toNat < 11 := by
    rw [BitVec.toNat_umod]
    exact Nat.mod_lt _ (by decide)
  simp only [drawOrder, OrderBook.defaultMinPrice, OrderBook.defaultMaxPrice]
  split_ifs <;> simp only <;> constructor <;> lia

namespace Tracks
variable {Ring Clock : Type} {R : RefBook} {r : SimRunner OrderBook Ring Clock}

/-- The order of the vector and the generator do not matter. -/
theorem reorder (h : Tracks R r) (rng : Xorshift64) {resting : Array OrderId}
    (hperm : resting.Perm r.resting) : Tracks R { r with rng := rng, resting := resting } :=
  { h with
    covered := fun id hid => hperm.mem_iff.mpr (h.covered id hid)
    issued := fun id hid => h.issued id (hperm.mem_iff.mp hid)
    nodup := hperm.toList.nodup_iff.mpr h.nodup }

theorem reseeded (h : Tracks R r) (rng : Xorshift64) : Tracks R { r with rng := rng } := { h with }

variable [EventRing Ring] [ClockFn Clock]

/-- Cancelling the last id of the vector takes it out of the book too. -/
theorem cancelBack (h : Tracks R r) (hne : r.resting ≠ #[]) :
    ∃ R' r' victim, r.cancelBack = some (r', victim) ∧ Tracks R' r' ∧ r'.adds = r.adds := by
  obtain ⟨victim, hback⟩ := Option.isSome_iff_exists.mp (Array.back?_isSome.mpr hne)
  obtain ⟨ids, hids⟩ := Array.back?_eq_some_iff.mp hback
  obtain ⟨rs, hb⟩ := h.book
  obtain ⟨b', rs', he, hr⟩ := hb.cancel victim
  obtain ⟨p', ok, hp, hr⟩ : ∃ p' ok, r.publisher.cancel victim = some (p', ok) ∧
      p'.book.Refines (R.cancel victim).1 rs' := by
    simp only [TelemetryPublisher.cancel, MatchingBook.cancel, he, Option.bind_eq_bind, Option.bind_some]
    cases (R.cancel victim).2 with
    | none => exact ⟨_, _, rfl, hr⟩
    | some report => exact ⟨_, _, rfl, hr⟩
  have horders := R.cancel_orders victim
  have hpop : r.resting.pop = ids := by rw [hids, Array.pop_push]
  refine ⟨(R.cancel victim).1,
    { r with publisher := p', resting := r.resting.pop, cancels := r.cancels + 1 }, victim, ?_,
    ⟨⟨rs', hr⟩, h.shape.trans (R.cancel_shape victim), fun id hid => ?_, fun id hid => ?_, ?_, ?_,
      h.adds⟩, rfl⟩
  · rw [SimRunner.cancelBack, hback]
    simp only [Option.bind_eq_bind, Option.bind_some, hp]
    rfl
  · rw [RefBook.ids, horders] at hid
    obtain ⟨o, ho, rfl⟩ := List.mem_map.mp hid
    obtain ⟨ho, hne⟩ := List.mem_filter.mp ho
    have hmem := h.covered o.id (List.mem_map_of_mem ho)
    rw [hids, Array.mem_push] at hmem
    change o.id ∈ r.resting.pop
    rw [hpop]
    exact hmem.resolve_right (by simpa using hne)
  · change id ∈ r.resting.pop at hid
    rw [hpop] at hid
    exact h.issued id (hids ▸ Array.mem_push_of_mem victim hid)
  · have hn := h.nodup
    rw [hids, Array.toList_push] at hn
    change r.resting.pop.toList.Nodup
    rw [hpop]
    exact (List.nodup_append.mp hn).1
  · rw [horders]
    exact (List.length_filter_le ..).trans h.room

/-- A submitted order is accepted and joins the vector. -/
theorem submit (h : Tracks R r) (hroom : R.orders.length < kBookCapacity - 4) :
    ∃ R' r' turn, r.submit = some (r', turn) ∧ Tracks R' r' ∧ turn.Sound ∧
      turn.isSubmission = true ∧ r'.adds = r.adds + 1 := by
  have hband := drawOrder_inBand r.rng
  obtain ⟨⟨⟨side, px, qty⟩, rng⟩, hd⟩ : ∃ w, drawOrder r.rng = w := ⟨_, rfl⟩
  rw [hd] at hband
  obtain ⟨rs, hb⟩ := h.book
  have hnew : r.nextId ∉ r.resting := fun hid => absurd (h.issued _ hid) (Nat.lt_irrefl _)
  have hfresh : r.nextId ∉ R.ids := fun hid => hnew (h.covered _ hid)
  obtain ⟨b', rs', he, hr⟩ := hb.addLimit (RefBook.not_restsDuplicate hfresh side px qty)
  have hok : (R.addLimit r.nextId side px qty).2.2 = true := by
    apply RefBook.addLimit_accepted
    · rw [h.shape.minPrice, h.shape.maxPrice]
      exact hband
    · rw [h.shape.orderCapacity]
      exact hroom.trans_le (Nat.sub_le ..)
  have hids := R.addLimit_ids_sublist r.nextId side px qty
  rw [hok] at he
  obtain ⟨out, hrun⟩ : ∃ out, r.publisher.addLimit r.nextId side px qty =
      some (⟨b', out⟩, (R.addLimit r.nextId side px qty).2.1, true) := by
    simp only [TelemetryPublisher.addLimit, MatchingBook.addLimit, he, Option.bind_eq_bind,
      Option.bind_some]
    exact ⟨_, rfl⟩
  refine ⟨(R.addLimit r.nextId side px qty).1,
    { r with publisher := ⟨b', out⟩
             rng := rng
             nextId := r.nextId + 1
             resting := r.resting.push r.nextId
             adds := r.adds + 1 }, .submitted r.nextId side px qty true, ?_,
    ⟨⟨rs', hr⟩, h.shape.trans (R.addLimit_shape ..), fun id hid => ?_, fun id hid => ?_, ?_, ?_, ?_⟩,
    rfl, rfl, rfl⟩
  · rw [SimRunner.submit, hd]
    simp only [hrun, Option.bind_eq_bind, Option.bind_some]
    rfl
  · rcases List.mem_append.mp (hids.subset hid) with hold | hone
    · exact Array.mem_push_of_mem _ (h.covered id hold)
    · obtain rfl := List.mem_singleton.mp hone
      exact Array.mem_push_self
  · rcases Array.mem_push.mp hid with hold | rfl
    · exact Nat.lt_succ_of_lt (h.issued id hold)
    · exact Nat.lt_succ_self _
  · rw [Array.toList_push]
    refine List.nodup_append.mpr ⟨h.nodup, List.nodup_singleton _, fun x hx y hy hxy => ?_⟩
    obtain rfl := List.mem_singleton.mp hy
    exact hnew (Array.mem_toList_iff.mp (hxy ▸ hx))
  · have hlen := hids.length_le
    rw [RefBook.ids, RefBook.ids, List.length_append, List.length_map, List.length_map,
      List.length_singleton] at hlen
    omega
  · change r.adds + 1 + 1 = r.nextId + 1
    rw [h.adds]

/-- A full book holds an order, so that the eviction finds an id. -/
theorem guardedSubmit (h : Tracks R r) :
    ∃ R' r' turn, r.guardedSubmit = some (r', turn) ∧ Tracks R' r' ∧ turn.Sound ∧
      r'.adds = r.adds + if turn.isSubmission then 1 else 0 := by
  have hcount : MatchingBook.openOrderCount r.publisher.book = R.orders.length := by
    obtain ⟨rs, hb⟩ := h.book
    exact hb.observers.1
  rw [SimRunner.guardedSubmit, hcount]
  split_ifs with hfull
  · have hne : r.resting ≠ #[] := by
      obtain ⟨o, ho⟩ := List.exists_mem_of_length_pos (l := R.orders) (by
        rw [kBookCapacity] at hfull
        omega)
      exact Array.ne_empty_of_mem (h.covered o.id (List.mem_map_of_mem ho))
    obtain ⟨R', r', victim, he, h', hadds⟩ := h.cancelBack hne
    refine ⟨R', r', .evicted (some victim), ?_, h', Option.some_ne_none victim, hadds⟩
    rw [SimRunner.evict, if_neg (by simpa using hne), he]
    rfl
  · obtain ⟨R', r', turn, he, h', hsound, hsub, hadds⟩ := h.submit (not_le.mp hfull)
    refine ⟨R', r', turn, he, h', hsound, ?_⟩
    rw [hsub, hadds]
    rfl

/-- One iteration, whichever branch it takes. -/
theorem iterate (h : Tracks R r) :
    ∃ R' r' turn, r.iterate = some (r', turn) ∧ Tracks R' r' ∧ turn.Sound ∧
      r'.adds = r.adds + if turn.isSubmission then 1 else 0 := by
  rw [SimRunner.iterate]
  split_ifs with hempty
  · exact h.guardedSubmit
  obtain ⟨⟨draw, rng⟩, hdraw⟩ : ∃ w, r.rng.next = w := ⟨_, rfl⟩
  rw [hdraw]
  simp only
  split_ifs with hcancel
  · have hne : r.resting ≠ #[] := by simpa using hempty
    have hpos : 0 < r.resting.size := Array.size_pos_iff.mpr hne
    obtain ⟨⟨draw', rng'⟩, hdraw'⟩ : ∃ w, rng.next = w := ⟨_, rfl⟩
    have hidx : draw'.toNat % r.resting.size < r.resting.size := Nat.mod_lt _ hpos
    have hperm : (r.resting.swapIfInBounds (draw'.toNat % r.resting.size) (r.resting.size - 1)).Perm
        r.resting := by
      rw [Array.swapIfInBounds_def, dif_pos hidx, dif_pos (Nat.sub_one_lt hpos.ne')]
      exact Array.swap_perm _ _
    have hne' : r.resting.swapIfInBounds (draw'.toNat % r.resting.size) (r.resting.size - 1) ≠ #[] := by
      rw [← Array.size_pos_iff, Array.size_swapIfInBounds]
      exact hpos
    obtain ⟨R', r', victim, he, h', hadds⟩ := (h.reorder rng' hperm).cancelBack hne'
    refine ⟨R', r', .cancelled victim, ?_, h', trivial, hadds⟩
    rw [SimRunner.cancelRandom]
    simp only [hdraw', he, Option.bind_eq_bind, Option.bind_some]
    rfl
  · exact (h.reseeded rng).guardedSubmit

theorem loop (ops : Nat) (h : Tracks R r) :
    ∃ R' r' turns, r.loop ops = some (r', turns) ∧ Tracks R' r' ∧ (∀ turn ∈ turns, turn.Sound) ∧
      r'.adds = r.adds + turns.countP Turn.isSubmission := by
  induction ops generalizing R r with
  | zero => exact ⟨R, r, [], rfl, h, by simp, rfl⟩
  | succ ops ih =>
    obtain ⟨R1, r1, turn, he1, h1, hsound1, hadds1⟩ := h.iterate
    obtain ⟨R2, r2, turns, he2, h2, hsound2, hadds2⟩ := ih h1
    refine ⟨R2, r2, turn :: turns, ?_, h2, List.forall_mem_cons.mpr ⟨hsound1, hsound2⟩, ?_⟩
    · rw [SimRunner.loop, he1]
      simp only [Option.bind_eq_bind, Option.bind_some, he2]
      rfl
    · rw [hadds2, hadds1, List.countP_cons, Nat.add_assoc, Nat.add_comm (turns.countP _)]

end Tracks

/-- The runner never overflows its book: whatever the seed, after any number of iterations the
vector names every resting order and no id twice, the book has room for four more orders, the
eviction branch has always found an id, and every order was accepted. -/
theorem workload_never_overflows {Ring Clock : Type} [EventRing Ring] [ClockFn Clock] (ring : Ring)
    (clock : Clock) (seed : BitVec 64) (checked : Bool) (ops : Nat) :
    ∃ book r turns,
      OrderBook.new kBookCapacity OrderBook.defaultMinPrice OrderBook.defaultMaxPrice checked =
        some book ∧
      SimRunner.loop ops (.start book ring clock seed) = some (r, turns) ∧
      (∀ id, r.publisher.book.Carries id → id ∈ r.resting) ∧ r.resting.toList.Nodup ∧
      MatchingBook.openOrderCount r.publisher.book ≤ kBookCapacity - 4 ∧
      (∀ turn ∈ turns, turn.Sound) ∧ r.adds = turns.countP Turn.isSubmission := by
  obtain ⟨book, hbook, hb⟩ := OrderBook.new_refines kBookCapacity OrderBook.defaultMinPrice
    OrderBook.defaultMaxPrice checked (by decide) (by decide)
  have hstart : Tracks (.new kBookCapacity OrderBook.defaultMinPrice OrderBook.defaultMaxPrice)
      (SimRunner.start book ring clock seed) :=
    ⟨⟨[], hb⟩, ⟨rfl, rfl, rfl⟩, by simp [RefBook.ids, RefBook.new], by simp [SimRunner.start],
      List.nodup_nil, by simp [RefBook.new], rfl⟩
  obtain ⟨R, r, turns, hrun, h, hsound, hadds⟩ := hstart.loop ops
  obtain ⟨rs, hr⟩ := h.book
  refine ⟨book, r, turns, hbook, hrun, fun id hid => h.covered id ((hr.carries_iff id).mp hid), h.nodup,
    ?_, hsound, hadds.trans (Nat.zero_add _)⟩
  rw [hr.observers.1]
  exact h.room

end ExecutionPlatform.Main
