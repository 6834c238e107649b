import ExecutionPlatform.Foundations.Streams
import Mathlib.Algebra.Order.Group.Int
import Mathlib.Data.Int.Cast.Basic

/-! The supervisor of the training run: one pass of its loop reads the clock, the memory of the
trainer and the rewards that were logged, and may end the run. -/
namespace ExecutionPlatform.Train
open Foundations

structure MemorySample (F : Type) where
  monotonicTs : F
  rssMb : F

/-- What one pass reads. The series is empty where there is no event file or no reward in it. -/
structure Poll (F : Type) where
  now : F
  rssMb : F
  series : List (Nat × F)

def Poll.sample {F : Type} (p : Poll F) : MemorySample F := ⟨p.now, p.rssMb⟩

def memLeakThresholdMb {F : Type} [NatCast F] : F := ((500 : Nat) : F)
def memWindowSeconds {F : Type} [NatCast F] : F := ((10 * 60 : Nat) : F)
def plateauPatience : Nat := 50

inductive Verdict where
  | watch
  | leak
  | stalled
  deriving DecidableEq

/-- The variables of the loop. -/
structure Supervisor (F : Type) where
  memWindow : List (MemorySample F)
  bestReward : Option F
  lastRewardStep : Option Nat
  plateauCount : Nat
  lastStep : Option Nat

namespace Supervisor
variable {F : Type}

def start : Supervisor F := ⟨[], none, none, 0, none⟩

section Loop
variable [LinearOrder F] [Sub F] [NatCast F]

/-- The condition of the popleft loop. -/
def expired (now : F) (x : MemorySample F) : Bool := memWindowSeconds < now - x.monotonicTs

/-- Growth is only judged where the oldest sample kept is a window old. -/
def sampleMemory (s : Supervisor F) (now rssMb : F) : Supervisor F × Bool :=
  let memWindow := (s.memWindow ++ [(⟨now, rssMb⟩ : MemorySample F)]).dropWhile (expired now)
  let leaked := match memWindow.head?, (memWindow.map MemorySample.rssMb).min? with
    | some oldest, some windowMin =>
      decide (memWindowSeconds ≤ now - oldest.monotonicTs ∧ memLeakThresholdMb < rssMb - windowMin)
    | _, _ => false
  ({ s with memWindow := memWindow }, leaked)

omit [Sub F] [NatCast F] in
/-- A step that was seen before is not counted again. -/
def readReward (s : Supervisor F) (series : List (Nat × F)) : Supervisor F × Bool :=
  match series.getLast? with
  | none => (s, false)
  | some (step, current) =>
    if s.bestReward.all (· < current) then
      ({ s with bestReward := some current, lastRewardStep := some step, plateauCount := 0,
                lastStep := some step }, false)
    else if some step ≠ s.lastRewardStep then
      ({ s with plateauCount := s.plateauCount + 1, lastRewardStep := some step,
                lastStep := some step }, plateauPatience ≤ s.plateauCount + 1)
    else ({ s with lastStep := some step }, false)

def poll (s : Supervisor F) (p : Poll F) : Supervisor F × Verdict :=
  let (s, leaked) := s.sampleMemory p.now p.rssMb
  if leaked then (s, .leak)
  else
    let (s, stalled) := s.readReward p.series
    (s, if stalled then .stalled else .watch)

/-- The loop over the passes that the trainer lives to see. -/
def run : Supervisor F → List (Poll F) → Supervisor F × Verdict
  | s, [] => (s, .watch)
  | s, p :: ps =>
    match s.poll p with
    | (s, .watch) => s.run ps
    | (s, v) => (s, v)

end Loop

section Memory
variable [LinearOrder F] [Sub F] [NatCast F]

/-- What rounding keeps of a difference. -/
structure MonotoneSub (F : Type) [LinearOrder F] [Sub F] : Prop where
  left : ∀ {a b c : F}, a ≤ b → a - c ≤ b - c
  right : ∀ {a b c : F}, a ≤ b → c - b ≤ c - a

/-- The window is what was sampled, less what is too old from now on. -/
def Windowed (seen : List (MemorySample F)) (s : Supervisor F) : Prop :=
  ∃ old, seen = old ++ s.memWindow ∧ ∀ x ∈ old, ∀ now, (∀ y ∈ seen, y.monotonicTs ≤ now) →
    memWindowSeconds < now - x.monotonicTs

/-- Some sample is exactly a window old, and over the window the memory grew too much. -/
def Leaks (seen : List (MemorySample F)) (now rssMb : F) : Prop :=
  (∃ x ∈ seen, now - x.monotonicTs = memWindowSeconds) ∧
    ∃ x ∈ seen, now - x.monotonicTs ≤ memWindowSeconds ∧ memLeakThresholdMb < rssMb - x.rssMb

omit [Sub F] [NatCast F] in
/-- The clock of the passes never goes back. -/
abbrev InOrder (seen : List (MemorySample F)) : Prop :=
  seen.Pairwise fun x y => x.monotonicTs ≤ y.monotonicTs

variable {s : Supervisor F} {seen : List (MemorySample F)} {now rssMb : F}

/-- The oldest sample of a window that is a window old is exactly that old. -/
private theorem judged_iff (hsub : MonotoneSub F) {kept : List (MemorySample F)}
    (hsorted : InOrder kept)
    (hmem : ∀ x, x ∈ kept ↔ x ∈ seen ∧ now - x.monotonicTs ≤ memWindowSeconds) :
    (match kept.head?, (kept.map MemorySample.rssMb).min? with
      | some oldest, some windowMin =>
        decide (memWindowSeconds ≤ now - oldest.monotonicTs ∧ memLeakThresholdMb < rssMb - windowMin)
      | _, _ => false) = true ↔ Leaks seen now rssMb := by
  cases kept with
  | nil =>
    refine iff_of_false (by simp) ?_
    rintro ⟨⟨x, hx, hage⟩, -⟩
    exact absurd ((hmem x).mpr ⟨hx, hage.le⟩) (List.not_mem_nil)
  | cons oldest kept =>
    obtain ⟨hfirst, -⟩ := List.pairwise_cons.mp hsorted
    obtain ⟨windowMin, hmin⟩ : ∃ m, ((oldest :: kept).map MemorySample.rssMb).min? = some m :=
      Option.isSome_iff_exists.mp (by simp)
    obtain ⟨hin, hleast⟩ := List.min?_eq_some_iff.mp hmin
    obtain ⟨x, hx, rfl⟩ := List.mem_map.mp hin
    simp only [List.head?_cons, hmin, decide_eq_true_eq]
    constructor
    · rintro ⟨hage, hgrown⟩
      obtain ⟨hseen, hle⟩ := (hmem oldest).mp List.mem_cons_self
      obtain ⟨hseen', hle'⟩ := (hmem x).mp hx
      exact ⟨⟨oldest, hseen, le_antisymm hle hage⟩, x, hseen', hle', hgrown⟩
    · rintro ⟨⟨y, hy, hage⟩, z, hz, hle, hgrown⟩
      constructor
      · rcases List.mem_cons.mp ((hmem y).mpr ⟨hy, hage.le⟩) with rfl | hy'
        · exact hage.ge
        · exact hage.ge.trans (hsub.right (hfirst y hy'))
      · exact hgrown.trans_le (hsub.right (hleast _ (List.mem_map_of_mem ((hmem z).mpr ⟨hz, hle⟩))))

theorem Windowed.sampleMemory (hsub : MonotoneSub F) (h : Windowed seen s)
    (hsorted : InOrder (seen ++ [⟨now, rssMb⟩])) :
    Windowed (seen ++ [⟨now, rssMb⟩]) (s.sampleMemory now rssMb).1 ∧
      ((s.sampleMemory now rssMb).2 = true ↔ Leaks (seen ++ [⟨now, rssMb⟩]) now rssMb) := by
  obtain ⟨old, hseen, hold⟩ := h
  have hnow : ∀ y ∈ seen, y.monotonicTs ≤ now := fun y hy =>
    (List.pairwise_append.mp hsorted).2.2 y hy _ List.mem_cons_self
  have hsplit : seen ++ [⟨now, rssMb⟩] = old ++ (s.memWindow ++ [⟨now, rssMb⟩]) := by
    rw [hseen, List.append_assoc]
  have hwindow := (List.pairwise_append.mp (hsplit ▸ hsorted)).2.1
  have hexpired : ∀ x y : MemorySample F, x.monotonicTs ≤ y.monotonicTs → expired now y = true →
      expired now x = true := by
    intro x y hxy hy
    rw [expired, decide_eq_true_eq] at hy ⊢
    exact hy.trans_le (hsub.right hxy)
  have hkept := dropWhile_eq_filter (hwindow.imp fun {x y} hxy => hexpired x y hxy)
  constructor
  · refine ⟨old ++ (s.memWindow ++ [(⟨now, rssMb⟩ : MemorySample F)]).takeWhile (expired now), ?_, ?_⟩
    · rw [hsplit, Supervisor.sampleMemory, List.append_assoc, List.takeWhile_append_dropWhile]
    · intro x hx now' hnow'
      rcases List.mem_append.mp hx with hx | hx
      · exact hold x hx now' fun y hy => hnow' y (List.mem_append_left _ hy)
      · have hage := List.all_eq_true.mp List.all_takeWhile x hx
        rw [expired, decide_eq_true_eq] at hage
        exact hage.trans_le (hsub.left (hnow' ⟨now, rssMb⟩ (by simp)))
  · rw [Supervisor.sampleMemory, hkept]
    refine judged_iff hsub (hwindow.filter _) fun x => ?_
    rw [List.mem_filter, hsplit, List.mem_append (s := old)]
    simp only [expired, Bool.not_eq_true', decide_eq_false_iff_not, not_lt]
    constructor
    · rintro ⟨hx, hage⟩
      exact ⟨.inr hx, hage⟩
    · rintro ⟨hx | hx, hage⟩
      · exact absurd hage (not_le.mpr (hold x hx now hnow))
      · exact ⟨hx, hage⟩

omit [Sub F] [NatCast F] in
theorem readReward_memWindow (s : Supervisor F) (series : List (Nat × F)) :
    (s.readReward series).1.memWindow = s.memWindow := by
  rw [readReward]
  split
  · rfl
  · split_ifs <;> rfl

/-- What one pass does to the window, and when it sees a leak. -/
theorem Windowed.poll (hsub : MonotoneSub F) (h : Windowed seen s) {p : Poll F}
    (hsorted : InOrder (seen ++ [p.sample])) :
    Windowed (seen ++ [p.sample]) (s.poll p).1 ∧
      ((s.poll p).2 = .leak ↔ Leaks (seen ++ [p.sample]) p.now p.rssMb) := by
  obtain ⟨hwindow, hleak⟩ := h.sampleMemory hsub hsorted
  rw [Supervisor.poll]
  change _ ∧ (_ ↔ Leaks (seen ++ [⟨p.now, p.rssMb⟩]) p.now p.rssMb)
  rw [← hleak]
  dsimp only
  by_cases hleaked : (s.sampleMemory p.now p.rssMb).2 = true
  · rw [if_pos hleaked]
    exact ⟨hwindow, iff_of_true rfl hleaked⟩
  · rw [if_neg hleaked]
    refine ⟨?_, iff_of_false (by dsimp only; split_ifs <;> simp) hleaked⟩
    obtain ⟨old, hseen, hold⟩ := hwindow
    exact ⟨old, hseen.trans (congrArg (old ++ ·) (readReward_memWindow _ _).symm), hold⟩

/-- A pass that ends the run ends it, and after any other the run goes on. -/
theorem run_cons (s : Supervisor F) (p : Poll F) (ps : List (Poll F)) :
    s.run (p :: ps) = if (s.poll p).2 = .watch then (s.poll p).1.run ps else s.poll p := by
  rw [run]
  rcases s.poll p with ⟨s', v⟩
  cases v with
  | watch => rfl
  | leak => rfl
  | stalled => rfl

theorem Windowed.run_leak_iff (hsub : MonotoneSub F) (h : Windowed seen s) {ps : List (Poll F)}
    (hsorted : InOrder (seen ++ ps.map Poll.sample)) :
    (s.run ps).2 = .leak ↔ ∃ before p after, ps = before ++ p :: after ∧
      (s.run before).2 = .watch ∧ Leaks (seen ++ (before ++ [p]).map Poll.sample) p.now p.rssMb := by
  induction ps generalizing s seen with
  | nil => simp [Supervisor.run]
  | cons p ps ih =>
    rw [List.map_cons, ← List.singleton_append, ← List.append_assoc] at hsorted
    obtain ⟨hwindow, hleak⟩ := h.poll hsub (List.pairwise_append.mp hsorted).1
    rw [run_cons]
    split_ifs with hwatch
    · rw [ih hwindow hsorted]
      constructor
      · rintro ⟨before, q, after, rfl, hrun, hleaks⟩
        refine ⟨p :: before, q, after, rfl, by rw [run_cons, if_pos hwatch, hrun], ?_⟩
        simpa using hleaks
      · rintro ⟨before, q, after, heq, hrun, hleaks⟩
        cases before with
        | nil =>
          obtain ⟨rfl, rfl⟩ := List.cons.inj heq
          exact absurd (hleak.mpr hleaks) (by simp [hwatch])
        | cons b before =>
          obtain ⟨rfl, rfl⟩ := List.cons.inj heq
          rw [run_cons, if_pos hwatch] at hrun
          exact ⟨before, q, after, rfl, hrun, by simpa using hleaks⟩
    · rw [hleak]
      constructor
      · exact fun hleaks => ⟨[], p, ps, rfl, rfl, hleaks⟩
      · rintro ⟨before, q, after, heq, hrun, hleaks⟩
        cases before with
        | nil =>
          obtain ⟨rfl, rfl⟩ := List.cons.inj heq
          exact hleaks
        | cons b before =>
          obtain ⟨rfl, rfl⟩ := List.cons.inj heq
          rw [run_cons, if_neg hwatch] at hrun
          exact absurd hrun hwatch

theorem Windowed.start : Windowed [] (start : Supervisor F) := ⟨[], rfl, by simp⟩

/-- When the supervisor kills the trainer for a leak: memory above the minimum of the window is not
enough, some earlier pass must lie exactly ten minutes back. -/
theorem leak_detected_iff (hsub : MonotoneSub F) {ps : List (Poll F)}
    (hsorted : ps.Pairwise fun p q => p.now ≤ q.now) :
    ((start : Supervisor F).run ps).2 = .leak ↔ ∃ before p after, ps = before ++ p :: after ∧
      ((start : Supervisor F).run before).2 = .watch ∧
      (∃ q ∈ before ++ [p], p.now - q.now = memWindowSeconds) ∧
      ∃ q ∈ before ++ [p], p.now - q.now ≤ memWindowSeconds ∧ memLeakThresholdMb < p.rssMb - q.rssMb := by
  have hsamples : InOrder ([] ++ ps.map Poll.sample) := List.pairwise_map.mpr hsorted
  rw [Windowed.start.run_leak_iff hsub hsamples]
  simp only [Leaks, List.nil_append, List.mem_map, exists_exists_and_eq_and, Poll.sample]

/-- Differences of integers are exact. -/
theorem monotoneSub_int : MonotoneSub ℤ where
  left := fun h => Int.sub_le_sub_right h _
  right := fun h => Int.sub_le_sub_left h _

theorem leak_detected_full_window :
    ((start : Supervisor ℤ).run [⟨0, 100, []⟩, ⟨600, 700, []⟩]).2 = .leak :=
  (leak_detected_iff monotoneSub_int (by simp)).mpr
    ⟨[⟨0, 100, []⟩], ⟨600, 700, []⟩, [], rfl, by decide, by decide, by decide⟩

/-- With no two passes exactly ten minutes apart no leak is ever seen, whatever the memory does. -/
theorem leak_undetected (hsub : MonotoneSub F) {ps : List (Poll F)}
    (hsorted : ps.Pairwise fun p q => p.now ≤ q.now)
    (hapart : ∀ p ∈ ps, ∀ q ∈ ps, p.now - q.now ≠ memWindowSeconds) :
    ((start : Supervisor F).run ps).2 ≠ .leak := by
  intro hleak
  have hsamples : InOrder ([] ++ ps.map Poll.sample) := List.pairwise_map.mpr hsorted
  obtain ⟨before, p, after, rfl, -, ⟨x, hx, hage⟩, -⟩ :=
    (Windowed.start.run_leak_iff hsub hsamples).mp hleak
  obtain ⟨q, hq, rfl⟩ := List.mem_map.mp hx
  refine hapart p (by simp) q ?_ hage
  rw [← List.singleton_append, ← List.append_assoc]
  exact List.mem_append_left after hq

end Memory

section Rewards
variable [LinearOrder F]

/-- The last reward that each pass finds in the log. -/
def readings (ps : List (Poll F)) : List (Nat × F) := ps.filterMap fun p => p.series.getLast?

/-- An evaluation is read at every pass until the next one is logged. -/
def evals (rs : List (Nat × F)) : List (Nat × F) := rs.destutter fun a b => a.1 ≠ b.1

/-- Fifty evaluations in a row have not beaten the best one before them. -/
def Exhausted (es : List (Nat × F)) : Prop := ∃ best, Peak (es.map Prod.snd) best plateauPatience

/-- A reward that was logged for a step stays. -/
def Settled (rs : List (Nat × F)) : Prop := ∀ a ∈ rs, ∀ b ∈ rs, a.1 = b.1 → a.2 = b.2

/-- The variables of the detector say how the evaluations so far went. -/
structure Plateaued (rs : List (Nat × F)) (s : Supervisor F) : Prop where
  lastRewardStep : s.lastRewardStep = (evals rs).getLast?.map Prod.fst
  unread : s.bestReward = none → rs = [] ∧ s.plateauCount = 0
  peak : ∀ best ∈ s.bestReward, Peak ((evals rs).map Prod.snd) best s.plateauCount

variable {s : Supervisor F} {rs : List (Nat × F)}

omit [LinearOrder F] in
theorem evals_concat (rs : List (Nat × F)) (r : Nat × F) :
    evals (rs ++ [r]) =
      evals rs ++ if some r.1 = (evals rs).getLast?.map Prod.fst then [] else [r] := by
  rw [evals, destutter_concat, ← evals]
  cases (evals rs).getLast? with
  | none => simp
  | some c =>
    by_cases h : c.1 = r.1
    · simp [h]
    · simp [h, Ne.symm h]

/-- An evaluation that beats the best is a new one. -/
theorem Plateaued.fresh (h : Plateaued rs s) {r : Nat × F} (hsettled : Settled (rs ++ [r]))
    (hbeats : s.bestReward.all (· < r.2) = true) :
    some r.1 ≠ (evals rs).getLast?.map Prod.fst := by
  intro hstep
  obtain ⟨e, he, hre⟩ := Option.map_eq_some_iff.mp hstep.symm
  have hin : e ∈ evals rs := List.mem_of_getLast? he
  have hread : e ∈ rs := (List.destutter_sublist _ rs).mem hin
  cases hbest : s.bestReward with
  | none =>
    rw [(h.unread hbest).1] at hread
    cases hread
  | some best =>
    rw [hbest, Option.all_some, decide_eq_true_eq] at hbeats
    have hle := (h.peak best hbest).le e.2 (List.mem_map_of_mem hin)
    have heq := hsettled e (List.mem_append_left _ hread) r (by simp) hre
    exact absurd hle (not_le.mpr (heq ▸ hbeats))

omit [LinearOrder F] in
theorem unbeaten {best : Option F} {p : F → Bool} (h : ¬ best.all p = true) :
    ∃ b, best = some b ∧ p b = false := by
  cases best with
  | none => exact absurd rfl h
  | some b => exact ⟨b, rfl, Bool.eq_false_iff.mpr h⟩

/-- What one pass reads keeps the detector true, and it gives up when its count is full. -/
theorem Plateaued.readReward (h : Plateaued rs s) (hpatient : s.plateauCount < plateauPatience)
    {series : List (Nat × F)} (hsettled : Settled (rs ++ series.getLast?.toList)) :
    Plateaued (rs ++ series.getLast?.toList) (s.readReward series).1 ∧
      (s.readReward series).1.plateauCount ≤ plateauPatience ∧
      ((s.readReward series).2 = true ↔ (s.readReward series).1.plateauCount = plateauPatience) := by
  rw [Supervisor.readReward]
  cases hlast : series.getLast? with
  | none =>
    rw [Option.toList_none, List.append_nil]
    exact ⟨h, hpatient.le, iff_of_false Bool.false_ne_true hpatient.ne⟩
  | some r =>
    obtain ⟨step, current⟩ := r
    rw [hlast] at hsettled
    dsimp only [Option.toList_some] at hsettled ⊢
    split_ifs with hbeats hnew
    · have hevals := evals_concat rs (step, current)
      rw [if_neg (h.fresh hsettled hbeats)] at hevals
      refine ⟨⟨by simp [hevals], by simp, fun best hbest => ?_⟩, Nat.zero_le _, by simp [plateauPatience]⟩
      obtain rfl := Option.some.inj hbest
      rw [hevals, List.map_append, List.map_singleton]
      refine Peak.higher fun y hy => ?_
      cases hold : s.bestReward with
      | none =>
        rw [(h.unread hold).1] at hy
        cases hy
      | some old =>
        rw [hold, Option.all_some, decide_eq_true_eq] at hbeats
        exact ((h.peak old hold).le y hy).trans_lt hbeats
    · -- a new evaluation that does not beat the best one
      have hevals := evals_concat rs (step, current)
      rw [if_neg (h.lastRewardStep ▸ hnew)] at hevals
      obtain ⟨best, hbest, hle⟩ := unbeaten hbeats
      refine ⟨⟨by simp [hevals], by simp [hbest], fun best' hbest' => ?_⟩, hpatient, ?_⟩
      · rw [hevals, List.map_append, List.map_singleton]
        obtain rfl := Option.some.inj (hbest.symm.trans hbest')
        exact (h.peak best hbest).lower (not_lt.mp (of_decide_eq_false hle))
      · rw [decide_eq_true_eq]
        exact ⟨fun hle => le_antisymm hpatient hle, fun heq => heq.ge⟩
    · have hevals := evals_concat rs (step, current)
      rw [if_pos (h.lastRewardStep ▸ not_ne_iff.mp hnew), List.append_nil] at hevals
      obtain ⟨best, hbest, -⟩ := unbeaten hbeats
      refine ⟨⟨by rw [hevals]; exact h.lastRewardStep, by simp [hbest], ?_⟩, hpatient.le,
        by simp [hpatient.ne]⟩
      rw [hevals]
      exact h.peak

/-- The count is full just where the evaluations are exhausted. -/
theorem Plateaued.exhausted_iff (h : Plateaued rs s) :
    Exhausted (evals rs) ↔ s.plateauCount = plateauPatience := by
  cases hbest : s.bestReward with
  | none =>
    obtain ⟨rfl, hzero⟩ := h.unread hbest
    refine iff_of_false ?_ (by simp [hzero, plateauPatience])
    rintro ⟨best, l, r, heq, -⟩
    cases l <;> cases heq
  | some best =>
    constructor
    · rintro ⟨best', hpeak'⟩
      exact ((h.peak best hbest).unique hpeak').2
    · exact fun hcount => ⟨best, hcount ▸ h.peak best hbest⟩

variable [Sub F] [NatCast F]

omit [Sub F] [NatCast F] in
theorem not_exhausted_concat {es : List (Nat × F)} (hun : ∀ e, e <+: es → ¬ Exhausted e) {r : Nat × F}
    (h : ¬ Exhausted (es ++ [r])) : ∀ e, e <+: es ++ [r] → ¬ Exhausted e := by
  intro e he
  rcases List.prefix_concat_iff.mp he with rfl | he
  · exact h
  · exact hun e he

/-- One pass that sees no leak. -/
theorem Plateaued.poll (h : Plateaued rs s) (hpatient : s.plateauCount < plateauPatience) {p : Poll F}
    (hsettled : Settled (rs ++ p.series.getLast?.toList)) (hleak : (s.poll p).2 ≠ .leak) :
    Plateaued (rs ++ p.series.getLast?.toList) (s.poll p).1 ∧
      (s.poll p).1.plateauCount ≤ plateauPatience ∧
      ((s.poll p).2 = .stalled ↔ (s.poll p).1.plateauCount = plateauPatience) := by
  have hsampled : Plateaued rs (s.sampleMemory p.now p.rssMb).1 := ⟨h.lastRewardStep, h.unread, h.peak⟩
  have hread := hsampled.readReward hpatient hsettled
  rw [Supervisor.poll] at hleak ⊢
  dsimp only at hleak ⊢
  split_ifs at hleak ⊢ with hleaked hstalled
  · exact absurd rfl hleak
  · exact ⟨hread.1, hread.2.1, iff_of_true rfl (hread.2.2.mp hstalled)⟩
  · exact ⟨hread.1, hread.2.1, iff_of_false (by simp) fun hcount => hstalled (hread.2.2.mpr hcount)⟩

theorem Plateaued.run_stalled_iff (h : Plateaued rs s) (hpatient : s.plateauCount < plateauPatience)
    (hun : ∀ e, e <+: evals rs → ¬ Exhausted e) {ps : List (Poll F)}
    (hsettled : Settled (rs ++ readings ps)) (hleak : (s.run ps).2 ≠ .leak) :
    (s.run ps).2 = .stalled ↔ ∃ e, e <+: evals (rs ++ readings ps) ∧ Exhausted e := by
  induction ps generalizing s rs with
  | nil =>
    rw [readings, List.filterMap_nil, List.append_nil]
    exact iff_of_false (by simp [Supervisor.run]) (fun ⟨e, he, hex⟩ => hun e he hex)
  | cons p ps ih =>
    have hcons : rs ++ readings (p :: ps) = (rs ++ p.series.getLast?.toList) ++ readings ps := by
      rw [readings, List.filterMap_cons, List.append_assoc]
      cases p.series.getLast? <;> rfl
    rw [hcons] at hsettled ⊢
    have hsettled' : Settled (rs ++ p.series.getLast?.toList) := fun a ha b hb =>
      hsettled a (List.mem_append_left _ ha) b (List.mem_append_left _ hb)
    have hpoll : (s.poll p).2 ≠ .leak := by
      intro hl
      rw [run_cons, if_neg (by simp [hl])] at hleak
      exact hleak hl
    obtain ⟨h', hle, hstalled⟩ := h.poll hpatient hsettled' hpoll
    rw [run_cons] at hleak ⊢
    split_ifs at hleak ⊢ with hwatch
    · have hcount : (s.poll p).1.plateauCount ≠ plateauPatience := fun heq => by
        rw [hstalled.mpr heq] at hwatch
        cases hwatch
      have hnot : ¬ Exhausted (evals (rs ++ p.series.getLast?.toList)) := fun hex =>
        hcount (h'.exhausted_iff.mp hex)
      refine ih h' (lt_of_le_of_ne hle hcount) ?_ hsettled hleak
      cases hlast : p.series.getLast? with
      | none =>
        rw [Option.toList_none, List.append_nil]
        exact hun
      | some r =>
        rw [hlast, Option.toList_some] at hnot
        rw [Option.toList_some, evals_concat] at *
        split_ifs at hnot ⊢ with hrepeat
        · rw [List.append_nil]
          exact hun
        · exact not_exhausted_concat hun hnot
    · have hout : (s.poll p).2 = .stalled := by
        cases hv : (s.poll p).2 with
        | watch => exact absurd hv hwatch
        | leak => exact absurd hv hpoll
        | stalled => rfl
      exact iff_of_true hout ⟨_, destutter_prefix _ _, h'.exhausted_iff.mpr (hstalled.mp hout)⟩

/-- A pass every five seconds, and a reward that never moves. -/
def flatline : List (Poll ℤ) := (List.range 51).map fun i : Nat => ⟨5 * (i : Int), 100, [(i, 0)]⟩

end Rewards
end Supervisor

end ExecutionPlatform.Train
