import ExecutionPlatform.Cockpit.RunAccount

/-! The TWAP baseline of the cockpit. Sizes are cut off to whole shares, so what does not divide
evenly is sold at the end: one share more in each of the last steps. -/
namespace ExecutionPlatform.Cockpit
open ExecutionPlatform.Core External Exec Foundations Bindings Bindings.Episode

/-- What an even schedule leaves after t of T steps. -/
def twapRemaining (Q T t : Nat) : Nat := Q / T * (T - t) + min (Q % T) (T - t)

theorem twapRemaining_zero (Q : Nat) {T : Nat} (hT : 0 < T) : twapRemaining Q T 0 = Q := by
  rw [twapRemaining, Nat.sub_zero, Nat.min_eq_left (Nat.mod_lt Q hT).le]
  exact Nat.div_add_mod' Q T

/-- One of n even parts of what the schedule leaves. -/
theorem even_part (k r : Nat) {n : Nat} (hn : 0 < n) :
    (k * n + min r n) / n = k + if n ≤ r then 1 else 0 := by
  split_ifs with h
  · rw [Nat.min_eq_right h, ← Nat.succ_mul, Nat.mul_div_cancel _ hn]
  · rw [Nat.min_eq_left (Nat.le_of_not_le h), Nat.mul_comm, Nat.mul_add_div hn,
      Nat.div_eq_of_lt (Nat.lt_of_not_le h)]

/-- An even part less, and a step less. -/
theorem twapRemaining_succ (Q : Nat) {T t : Nat} (ht : t < T) :
    twapRemaining Q T (t + 1) + twapRemaining Q T t / (T - t) = twapRemaining Q T t := by
  obtain ⟨n, hn⟩ : ∃ n, T - t = n + 1 := ⟨T - t - 1, by omega⟩
  have hn' : T - (t + 1) = n := by omega
  rw [twapRemaining, twapRemaining, hn, hn', even_part _ _ (Nat.succ_pos n), Nat.mul_succ]
  split_ifs with h
  · omega
  · omega

/-- Who has more left than the schedule still has, after at most an even part. -/
theorem twapRemaining_le (Q : Nat) {T t left sold : Nat} (ht : t < T)
    (hleft : twapRemaining Q T t ≤ left) (hsold : sold ≤ left / (T - t)) :
    twapRemaining Q T (t + 1) ≤ left - sold := by
  obtain ⟨extra, rfl⟩ := Nat.exists_eq_add_of_le hleft
  have hpos : 0 < T - t := Nat.sub_pos_of_lt ht
  have hpart : (twapRemaining Q T t + extra) / (T - t) ≤ twapRemaining Q T t / (T - t) + extra := by
    rw [← Nat.add_mul_div_right _ _ hpos]
    exact Nat.div_le_div_right (Nat.add_le_add_left (Nat.le_mul_of_pos_right _ hpos) _)
  have hnext := twapRemaining_succ Q ht
  omega

/-- In exact arithmetic the child order is an even part of what is left. -/
theorem twap_childQty {s : EnvState ℚ} (hlt : s.stepIdx < s.horizonSteps) (obs : List ℚ) :
    s.childQty exactCasts (SimEnv.clampUnit ((twapAction obs s.stepIdx s.horizonSteps).getD 0 0)) =
      s.remaining / (s.horizonSteps - s.stepIdx) := by
  obtain ⟨n, hn⟩ : ∃ n, s.horizonSteps - s.stepIdx = n + 1 :=
    ⟨s.horizonSteps - s.stepIdx - 1, by omega⟩
  have hsize : (twapAction obs s.stepIdx s.horizonSteps).getD 0 0 = 1 / ((n + 1 : Nat) : ℚ) := by
    rw [twapAction, hn, Nat.max_eq_left (Nat.succ_le_succ (Nat.zero_le n))]
    rfl
  have hpos : (0 : ℚ) < ((n + 1 : Nat) : ℚ) := Nat.cast_pos.mpr (Nat.succ_pos n)
  have h0 : ((0 : Nat) : ℚ) ≤ 1 / ((n + 1 : Nat) : ℚ) := by
    rw [Nat.cast_zero]
    exact (one_div_pos.mpr hpos).le
  have h1 : 1 / ((n + 1 : Nat) : ℚ) ≤ ((1 : Nat) : ℚ) := by
    rw [Nat.cast_one, div_le_one hpos]
    exact_mod_cast Nat.succ_le_succ (Nat.zero_le n)
  rw [hsize, exactCasts_unitSizing.clampUnit h0 h1, hn, EnvState.childQty]
  split_ifs with hterminal
  · -- the last step takes all that is left
    obtain rfl : n = 0 := by
      rw [EnvState.terminal] at hterminal
      omega
    rw [Nat.zero_add, Nat.div_one]
  · change (⌊1 / ((n + 1 : Nat) : ℚ) * (s.remaining : ℚ)⌋).toNat = _
    rw [one_div_mul_eq_div, Rat.floor_natCast_div_natCast]
    rfl

/-- The child order of a record's step: an even part of what was left before it. -/
def asked (Q T : Nat) (r : StepRecord) : Nat := (Q - (r.cumFillQty - r.fillQty.toNat)) / (T - r.step)

/-- What the schedule sells in step t. -/
def twapChild (Q T t : Nat) : Nat := Q / T + if T - t ≤ Q % T then 1 else 0

/-- The baseline never sells more than the child order asks for and is never ahead of the schedule;
while its orders are filled in full it is on it. -/
structure Paced (Q T : Nat) (s : EnvState ℚ) (tally : Tally) : Prop where
  within : ∀ r ∈ tally.records, r.fillQty ≤ asked Q T r ∧
    r.cumFillQty + twapRemaining Q T (r.step + 1) ≤ Q
  behind : twapRemaining Q T s.stepIdx ≤ s.remaining
  full : (∀ r ∈ tally.records, r.fillQty = asked Q T r) →
    s.remaining = twapRemaining Q T s.stepIdx ∧
    ∀ r ∈ tally.records, r.cumFillQty + twapRemaining Q T (r.step + 1) = Q ∧
      r.fillQty = twapChild Q T r.step

variable {s s' : EnvState ℚ} {tally : Tally}

theorem Paced.note {B Ring Clock : Type} {sim : SimEnv B Ring Clock ℚ} {g : GymStep} {obs : List ℚ}
    (h : Paced s.parentQty s.horizonSteps s tally) (ht : Tells tally s) (hA : Accounted s)
    (hA' : Accounted sim.toEnvState) (hlt : s.stepIdx < s.horizonSteps)
    (hm : Moves (twapAction obs s.stepIdx s.horizonSteps) s sim.toEnvState g) :
    Paced s.parentQty s.horizonSteps sim.toEnvState (tally.note s.stepIdx sim g) := by
  obtain ⟨filled, hqty, hasked, -⟩ := hm.sold
  rw [twap_childQty hlt obs] at hasked
  have hbal := hA.balance
  have hbal' := hA'.balance
  rw [hm.parentQty] at hbal'
  have hrem : sim.remaining = s.remaining - filled := by omega
  have hnext := twapRemaining_le s.parentQty hlt h.behind hasked
  have hstep : (sim.qtyFilled : Int) - tally.prevCumQty = filled := by
    rw [ht.cumQty, hqty]
    push_cast
    ring
  obtain ⟨r, hr⟩ : ∃ r, (tally.note s.stepIdx sim g).records = tally.records ++ [r] ∧
      r.step = s.stepIdx ∧ r.fillQty = (filled : Int) ∧ r.cumFillQty = sim.qtyFilled :=
    ⟨_, rfl, rfl, hstep, rfl⟩
  obtain ⟨hrecords, hrstep, hrfill, hrcum⟩ := hr
  have haskedr : asked s.parentQty s.horizonSteps r = s.remaining / (s.horizonSteps - s.stepIdx) := by
    rw [asked, hrfill, hrcum, hrstep, Int.toNat_natCast, hqty, Nat.add_sub_cancel]
    congr 1
    omega
  have hmem : ∀ x ∈ (tally.note s.stepIdx sim g).records, x ∈ tally.records ∨ x = r := by
    intro x hx
    rw [hrecords] at hx
    simpa using hx
  refine ⟨fun x hx => ?_, ?_, fun hfull => ?_⟩
  · rcases hmem x hx with hx | rfl
    · exact h.within x hx
    · rw [haskedr, hrfill, hrcum, hrstep]
      exact ⟨by exact_mod_cast hasked, by omega⟩
  · rw [hm.stepIdx, hrem]
    exact hnext
  · have hone : filled = s.remaining / (s.horizonSteps - s.stepIdx) := by
      have hlast := hfull r (by simp [hrecords])
      rw [haskedr, hrfill] at hlast
      exact_mod_cast hlast
    obtain ⟨hon, hall⟩ := h.full fun x hx => hfull x (by simp [hrecords, hx])
    have hsucc := twapRemaining_succ s.parentQty hlt
    have hremaining : sim.remaining = twapRemaining s.parentQty s.horizonSteps (s.stepIdx + 1) := by
      rw [← hon] at hsucc
      omega
    refine ⟨by rw [hm.stepIdx, hremaining], fun x hx => ?_⟩
    rcases hmem x hx with hx | rfl
    · exact hall x hx
    · have hpart : twapRemaining s.parentQty s.horizonSteps s.stepIdx / (s.horizonSteps - s.stepIdx) =
          twapChild s.parentQty s.horizonSteps s.stepIdx :=
        even_part _ _ (Nat.sub_pos_of_lt hlt)
      rw [hrcum, hrstep, hrfill, hone, hon, hpart, ← hremaining]
      exact ⟨by omega, rfl⟩

/-- The cockpit's baseline: it never divides by a step that is not there, never sells more than an
even part of what is left, and is never ahead of the even schedule; if every child order is filled
in full, it sells the same in each step, but one share more in each of the last Q mod T. -/
theorem twap_baseline {Ring Clock : Type} [EventRing Ring] [ClockFn Clock] {checked : Bool}
    {book : OrderBook}
    (hbook : OrderBook.new kBookCapacity OrderBook.defaultMinPrice OrderBook.defaultMaxPrice checked =
      some book) (ring : Ring) (clock : Clock) {parentQty horizonSteps : Nat} {arrivalMid : Price}
    (hq : 0 < parentQty) (hT : 0 < horizonSteps) (hmid : 0 < arrivalMid) (seed : Int) :
    ∃ result, runEpisode "TWAP" twapAction book ring clock parentQty horizonSteps arrivalMid seed =
        some (.ok result) ∧
      (∀ r ∈ result.records, r.fillQty ≤ asked parentQty horizonSteps r ∧
        r.cumFillQty + twapRemaining parentQty horizonSteps (r.step + 1) ≤ parentQty) ∧
      ((∀ r ∈ result.records, r.fillQty = asked parentQty horizonSteps r) →
        ∀ r ∈ result.records,
          r.cumFillQty + twapRemaining parentQty horizonSteps (r.step + 1) = parentQty ∧
          r.fillQty = twapChild parentQty horizonSteps r.step) := by
  let I : EnvState ℚ → Tally → Prop := fun s tally => Tells tally s ∧ Paced parentQty horizonSteps s tally
  have hact : ∀ obs t T, 2 ≤ (twapAction obs t T).length := fun _ _ _ => le_refl 2
  have hopen : ∀ E, Opened (.ofInt 64 seed) E → Params parentQty horizonSteps arrivalMid E.toEnvState →
      I E.toEnvState ⟨[], 0, 0, 0⟩ := by
    intro E hopened hp
    have hremaining : E.remaining = twapRemaining parentQty horizonSteps E.stepIdx := by
      rw [hopened.stepIdx, twapRemaining_zero parentQty hT, hopened.remaining, hp.parentQty,
        if_pos hq.ne']
    exact ⟨tells_opened hopened, by simp, hremaining.ge, fun _ => ⟨hremaining, by simp⟩⟩
  have hpass : ∀ (E E' : SimEnv RefBook Unit Unit ℚ) g obs tally,
      Charted parentQty horizonSteps arrivalMid E → E.done = false →
      Charted parentQty horizonSteps arrivalMid E' →
      Moves (twapAction obs E.stepIdx horizonSteps) E.toEnvState E'.toEnvState g →
      I E.toEnvState tally → I E'.toEnvState (tally.note E.stepIdx E' g) := by
    intro E E' g obs tally h hd h' hmoves hI
    obtain ⟨ht, hpaced⟩ := hI
    have hQ : E.parentQty = parentQty := h.tracked.2.parentQty.trans (if_pos hq.ne')
    have hH : E.horizonSteps = horizonSteps := h.tracked.2.horizonSteps.trans (if_pos hT.ne')
    have hlt := h.lt_horizon hd
    rw [← hH] at hmoves
    rw [← hQ, ← hH] at hpaced
    have hnote := hpaced.note ht h.accounted h'.accounted hlt hmoves
    rw [hQ, hH] at hnote
    exact ⟨ht.note hmoves h'.accounted, hnote⟩
  obtain ⟨E, tally, hrun, -, -, -, -, hpaced⟩ := run_episode_keeps hbook "TWAP" hact ring clock parentQty
    hT hmid seed hopen hpass
  exact ⟨_, hrun, hpaced.within, fun hfull => (hpaced.full hfull).2⟩

/-- Ten shares in four steps, each child filled in full: two, two, three and three. -/
theorem twap_baseline_ten_in_four : ∃ book result,
    OrderBook.new kBookCapacity OrderBook.defaultMinPrice OrderBook.defaultMaxPrice true = some book ∧
      runEpisode "TWAP" twapAction book () () 10 4 100 7 = some (.ok result) ∧
      result.records.map StepRecord.fillQty = [2, 2, 3, 3] ∧
      (∀ r ∈ result.records, r.fillQty ≤ asked 10 4 r ∧
        r.cumFillQty + twapRemaining 10 4 (r.step + 1) ≤ 10) ∧
      ∀ r ∈ result.records, r.cumFillQty + twapRemaining 10 4 (r.step + 1) = 10 ∧
        r.fillQty = twapChild 10 4 r.step := by
  have hval : ∀ book ∈ OrderBook.new kBookCapacity OrderBook.defaultMinPrice OrderBook.defaultMaxPrice
      true, ∀ out ∈ runEpisode "TWAP" twapAction book () () 10 4 100 7,
        out.toOption.map (fun result => result.records.map fun r => (r.fillQty, r.fillQty - asked 10 4 r)) =
          some [(2, 0), (2, 0), (3, 0), (3, 0)] := by
    rw [OrderBook.new, SlabAllocator.new_eq]
    decide +kernel
  obtain ⟨book, hbook, -⟩ := OrderBook.new_refines kBookCapacity OrderBook.defaultMinPrice
    OrderBook.defaultMaxPrice true (by decide) (by decide)
  have hq : 0 < 10 := by decide
  have hT : 0 < 4 := by decide
  have hmid : (0 : Price) < 100 := by decide
  obtain ⟨result, hrun, hwithin, hfull⟩ := twap_baseline hbook () () hq hT hmid 7
  have hrecords : result.records.map (fun r => (r.fillQty, r.fillQty - asked 10 4 r)) =
      [(2, 0), (2, 0), (3, 0), (3, 0)] := Option.some.inj (hval book hbook _ hrun)
  refine ⟨book, result, hbook, hrun, ?_, hwithin, hfull fun r hr => ?_⟩
  · have hfirst := congrArg (List.map Prod.fst) hrecords
    rwa [List.map_map] at hfirst
  · have hmem : (r.fillQty, r.fillQty - (asked 10 4 r : Int)) ∈
        [((2 : Int), (0 : Int)), (2, 0), (3, 0), (3, 0)] := hrecords ▸ List.mem_map_of_mem hr
    have hzero : r.fillQty - asked 10 4 r = 0 := by
      simp only [List.mem_cons, Prod.mk.injEq, List.not_mem_nil, or_false] at hmem
      omega
    exact Int.sub_eq_zero.mp hzero

end ExecutionPlatform.Cockpit
