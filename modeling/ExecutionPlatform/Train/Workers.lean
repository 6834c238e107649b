import ExecutionPlatform.Bindings.FlowIdentity
import ExecutionPlatform.Cockpit.RunEpisode

/-! The vectorised training environments: a worker for each rank, seeded apart so that they
explore different episodes. -/
namespace ExecutionPlatform.Train
open ExecutionPlatform.Core External Exec Foundations Bindings Cockpit

/-- What is asked of a worker. Gymnasium may pass a seed to reset, or none. -/
inductive WorkerCall where
  | reset (seed : Option Int)
  | step (action : List ℚ)

section Machines
variable {B Ring Clock : Type} [MatchingBook B] [EventRing Ring] [ClockFn Clock]

/-- The wrapper's defaults, with a seed of the rank's own. -/
def makeEnv (book : B) (ring : Ring) (clock : Clock) (rank : Nat) (seed : Int) :
    Option (ExecutionEnv B Ring Clock) :=
  ExecutionEnv.new book ring clock 1000 32 100 (seed + rank)

def serve (env : ExecutionEnv B Ring Clock) : WorkerCall → Option (ExecutionEnv B Ring Clock)
  | .reset seed => (env.reset seed).map Prod.fst
  | .step action => (env.step action).map Prod.fst

end Machines

variable {Ring Clock Ring₁ Clock₁ Ring₂ Clock₂ : Type} [EventRing Ring] [ClockFn Clock] [EventRing Ring₁]
  [ClockFn Clock₁] [EventRing Ring₂] [ClockFn Clock₂]

/-- The worker of one rank. -/
def worker (seed : Int) (rank : Nat) (checked : Bool) :
    Machine (ExecutionEnv OrderBook Ring Clock) WorkerCall where
  init env := ∃ book ring clock,
    OrderBook.new kBookCapacity OrderBook.defaultMinPrice OrderBook.defaultMaxPrice checked = some book ∧
    makeEnv book ring clock rank seed = some env
  step := serve

/-- A worker's simulation is that of an episode, and the rank's seed stays its default. -/
theorem worker_episode {seed : Int} {rank : Nat} {checked : Bool}
    {w : ExecutionEnv OrderBook Ring Clock} (h : (worker seed rank checked).Reachable w) :
    w.defaultSeed = .ofInt 64 (seed + rank) ∧
      ∃ ep, (episodes exactCasts 1000 32 100 checked).Reachable ep ∧ ep.env = w.sim := by
  refine h.invariant (I := fun w => w.defaultSeed = .ofInt 64 (seed + rank) ∧
    ∃ ep, (episodes exactCasts 1000 32 100 checked).Reachable ep ∧ ep.env = w.sim) ?_ ?_
  · rintro w ⟨book, ring, clock, hbook, hnew⟩
    have hnew' : (SimEnv.new exactCasts book ring clock 1000 32 (.ofInt 64 (seed + rank)) 100).bind
        (fun sim => some (⟨.ofInt 64 (seed + rank), sim⟩ : ExecutionEnv OrderBook Ring Clock)) = some w :=
      hnew
    obtain ⟨sim, hsim, hw⟩ := Option.bind_eq_some_iff.mp hnew'
    obtain rfl := Option.some.inj hw
    exact ⟨rfl, .start sim, .init ⟨book, ring, clock, _, sim, hbook, hsim, rfl⟩, rfl⟩
  · rintro w c w' ⟨hseed, ep, hreach, hsim⟩ hserve
    cases c with
    | reset asked =>
      obtain ⟨⟨env, obs⟩, hreset, rfl⟩ := Option.map_eq_some_iff.mp hserve
      obtain ⟨sim, hres, henv⟩ := Option.bind_eq_some_iff.mp hreset
      obtain ⟨rfl, rfl⟩ := Prod.mk.inj (Option.some.inj henv)
      have hcall : ep.call exactCasts (.reset (asked.elim w.defaultSeed (.ofInt 64))) =
          some (.start sim) := by
        rw [Episode.call, hsim, hres]
        rfl
      exact ⟨hseed, .start sim, .step (a := .reset (asked.elim w.defaultSeed (.ofInt 64))) hreach trivial
        hcall, rfl⟩
    | step action =>
      obtain ⟨⟨env, g⟩, hstep, rfl⟩ := Option.map_eq_some_iff.mp hserve
      obtain ⟨⟨sim, out⟩, hsim', henv⟩ := Option.bind_eq_some_iff.mp hstep
      have hcall : ep.call exactCasts (.step action) = some (ep.record sim out) := by
        rw [Episode.call, hsim, hsim']
        rfl
      refine ⟨?_, ep.record sim out, .step (a := .step action) hreach trivial hcall, ?_⟩
      · cases out <;> obtain ⟨rfl, -⟩ := Prod.mk.inj (Option.some.inj henv) <;> exact hseed
      · cases out <;> obtain ⟨rfl, -⟩ := Prod.mk.inj (Option.some.inj henv) <;> rfl

/-- Ranks whose seeds the generator does not tell apart, for being 0 and 1 after the wrap. -/
def Clash (seed : Int) (i j : Nat) : Prop :=
  (seed + i) % 2 ^ 64 = 0 ∧ (seed + j) % 2 ^ 64 = 1 ∨ (seed + i) % 2 ^ 64 = 1 ∧ (seed + j) % 2 ^ 64 = 0

theorem toNat_rankSeed (seed : Int) (i : Nat) :
    ((BitVec.ofInt 64 (seed + i)).toNat : Int) = (seed + i) % 2 ^ 64 := by
  rw [BitVec.toNat_ofInt, Int.toNat_of_nonneg (Int.emod_nonneg _ (by decide))]
  rfl

theorem sameStream_ranks (seed : Int) {i j : Nat} (hi : i < 2 ^ 64) (hj : j < 2 ^ 64) :
    SameStream (.ofInt 64 (seed + i)) (.ofInt 64 (seed + j)) ↔ i = j ∨ Clash seed i j := by
  have hi' := toNat_rankSeed seed i
  have hj' := toNat_rankSeed seed j
  rw [SameStream, Clash, ← BitVec.toNat_inj, ← BitVec.toNat_inj, ← BitVec.toNat_inj, ← BitVec.toNat_inj,
    ← BitVec.toNat_inj]
  change _ ∨ _ = 0 ∧ _ = 1 ∨ _ = 1 ∧ _ = 0 ↔ _
  omega

theorem reset_sameStream (env : SimEnv OrderBook Ring Clock ℚ) {seed₁ seed₂ : BitVec 64}
    (h : SameStream seed₁ seed₂) :
    env.reset exactCasts seed₁ = env.reset exactCasts seed₂ := by
  have hseed : env.rng.reseed seed₁ = env.rng.reseed seed₂ := sameStream_iff.mp h
  rw [SimEnv.reset, SimEnv.reset, hseed]

theorem reset_none {w : ExecutionEnv OrderBook Ring Clock} {sim : SimEnv OrderBook Ring Clock ℚ}
    (h : w.sim.reset exactCasts w.defaultSeed = some sim) :
    w.reset none = some (⟨w.defaultSeed, sim⟩, sim.stateBuf) := by
  rw [ExecutionEnv.reset, Option.elim_none, h]
  rfl

/-- Between two ranks the synthetic orders of an unseeded episode tell the workers apart, unless
their seeds clash. Workers of one rank, or of clashing ranks, always meet the same orders, and
show the same for the same actions. -/
theorem workers_share_flow_iff (seed : Int) {i j : Nat} (hi : i < 2 ^ 64) (hj : j < 2 ^ 64)
    {checked₁ checked₂ : Bool} {w₁ : ExecutionEnv OrderBook Ring₁ Clock₁}
    {w₂ : ExecutionEnv OrderBook Ring₂ Clock₂} (h₁ : (worker seed i checked₁).Reachable w₁)
    (h₂ : (worker seed j checked₂).Reachable w₂) (actions₁ actions₂ : List (List ℚ)) :
    ∃ e₁ e₂ obs₁ obs₂ shown₁ shown₂, w₁.reset none = some (e₁, obs₁) ∧ w₂.reset none = some (e₂, obs₂) ∧
      e₁.sim.observe exactCasts actions₁ = some shown₁ ∧
      e₂.sim.observe exactCasts actions₂ = some shown₂ ∧
      (18 ≤ (sentFlow shown₁).length → 18 ≤ (sentFlow shown₂).length →
        ((sentFlow shown₁).take 18 = (sentFlow shown₂).take 18 ↔ i = j ∨ Clash seed i j)) ∧
      (i = j ∨ Clash seed i j → obs₁ = obs₂ ∧ (actions₁ = actions₂ → shown₁ = shown₂)) := by
  obtain ⟨hseed₁, ep₁, hep₁, hsim₁⟩ := worker_episode h₁
  obtain ⟨hseed₂, ep₂, hep₂, hsim₂⟩ := worker_episode h₂
  obtain ⟨e₁, shown₁, n₁, he₁, hs₁, hflow₁⟩ := reset_sentFlow hep₁ w₁.defaultSeed actions₁
  obtain ⟨e₂, shown₂, n₂, he₂, hs₂, hflow₂⟩ := reset_sentFlow hep₂ w₂.defaultSeed actions₂
  have hsame : SameStream w₁.defaultSeed w₂.defaultSeed ↔ i = j ∨ Clash seed i j := by
    rw [hseed₁, hseed₂]
    exact sameStream_ranks seed hi hj
  refine ⟨_, _, _, _, shown₁, shown₂, reset_none (hsim₁ ▸ he₁), reset_none (hsim₂ ▸ he₂), hs₁, hs₂,
    fun hlen₁ hlen₂ => (take_tickets_iff hflow₁ hflow₂ hlen₁ hlen₂).trans hsame, fun hshare => ?_⟩
  -- under one stream the second reset might as well be given the first seed
  obtain ⟨e₁', e₂', E, he₁', he₂', hm₁, hm₂, -, hT⟩ := reset_mirrors_one hep₁ hep₂ w₁.defaultSeed
  rw [reset_sameStream ep₂.env (hsame.mpr hshare)] at he₂'
  obtain rfl : e₁' = e₁ := Option.some.inj (he₁'.symm.trans he₁)
  obtain rfl : e₂' = e₂ := Option.some.inj (he₂'.symm.trans he₂)
  have hview : (e₁'.view : View ℚ ℚ) = e₂'.view := hm₁.view.trans hm₂.view.symm
  refine ⟨congrArg View.stateBuf hview, fun hactions => ?_⟩
  subst hactions
  obtain ⟨shown, hS, hs⟩ := observe_eq exactCasts hm₁ hT actions₁
  obtain ⟨shown', hS', hs'⟩ := observe_eq exactCasts hm₂ hT actions₁
  obtain rfl : shown = shown' := Option.some.inj (hS.symm.trans hS')
  exact Option.some.inj ((hs₁.symm.trans hs).trans (hs'.symm.trans hs₂))

/-- Every rank's worker can be made, and mirrors one over the reference book. -/
theorem exists_worker (ring : Ring) (clock : Clock) (seed : Int) (rank : Nat) (checked : Bool) :
    ∃ (w : ExecutionEnv OrderBook Ring Clock) (E : SimEnv RefBook Unit Unit ℚ),
      (worker seed rank checked).Reachable w ∧ w.sim.Mirrors E ∧ E.Tracked 0 ∧
      w.defaultSeed = .ofInt 64 (seed + rank) ∧
      SimEnv.new exactCasts SimEnv.startBook () () 1000 32 (.ofInt 64 (seed + rank)) 100 = some E := by
  obtain ⟨book, hbook, -⟩ := OrderBook.new_refines kBookCapacity OrderBook.defaultMinPrice
    OrderBook.defaultMaxPrice checked (by decide) (by decide)
  obtain ⟨e, E, he, hE, hm⟩ := SimEnv.Mirrors.new exactCasts ring clock 1000 32
    (.ofInt 64 (seed + rank)) 100 hbook
  have hmake : makeEnv book ring clock rank seed = some ⟨.ofInt 64 (seed + rank), e⟩ := by
    rw [makeEnv, ExecutionEnv.new, he]
    rfl
  exact ⟨_, E, .init ⟨book, ring, clock, hbook, hmake⟩, hm, Episode.ref_new_tracked hE, rfl, hE⟩

theorem length_worker_flow {w e : ExecutionEnv OrderBook Ring Clock} {E : SimEnv RefBook Unit Unit ℚ}
    (hm : w.sim.Mirrors E) (hT : E.Tracked 0) {obs : List ℚ} {actions : List (List ℚ)}
    {shown : List (Except String (StepReport ℚ) × View ℚ ℚ)} {n : Nat}
    (hreset : w.reset none = some (e, obs)) (hs : e.sim.observe exactCasts actions = some shown)
    (hcount : ((E.reset exactCasts w.defaultSeed).bind fun E => E.observe exactCasts actions).map
      (fun shown => (sentFlow shown).length) = some n) : (sentFlow shown).length = n := by
  have hf : (Episode.start w.sim).Follows (Episode.start E) := ⟨hm, rfl, rfl, rfl, rfl⟩
  obtain ⟨sim, hres, he⟩ := Option.bind_eq_some_iff.mp hreset
  obtain ⟨rfl, -⟩ := Prod.mk.inj (Option.some.inj he)
  exact length_sentFlow hf hT hcount hres hs

/-- Trained with seed 0, ranks 0 and 1 play one game and ranks 1 and 2 do not. -/
theorem workers_share_flow_iff_seed_zero :
    ∃ (w₀ w₁ w₂ e₀ e₁ e₂ : ExecutionEnv OrderBook Unit Unit) (obs₀ obs₁ obs₂ : List ℚ)
      (shown₀ shown₁ shown₂ : List (Except String (StepReport ℚ) × View ℚ ℚ)),
      w₀.reset none = some (e₀, obs₀) ∧ w₁.reset none = some (e₁, obs₁) ∧
      w₂.reset none = some (e₂, obs₂) ∧ e₀.sim.observe exactCasts [[0, 0], [0, 0]] = some shown₀ ∧
      e₁.sim.observe exactCasts [[0, 0], [0, 0]] = some shown₁ ∧
      e₂.sim.observe exactCasts [[0, 0], [0, 0]] = some shown₂ ∧
      obs₀ = obs₁ ∧ shown₀ = shown₁ ∧ (sentFlow shown₁).take 18 ≠ (sentFlow shown₂).take 18 := by
  obtain ⟨w₀, E₀, h₀, -⟩ := exists_worker () () 0 0 true
  obtain ⟨w₁, E₁, h₁, hm₁, hT₁, hseed₁, hE₁⟩ := exists_worker () () 0 1 true
  obtain ⟨w₂, E₂, h₂, hm₂, hT₂, hseed₂, hE₂⟩ := exists_worker () () 0 2 true
  obtain ⟨e₀, e₁, obs₀, obs₁, shown₀, shown₁, hr₀, hr₁, hs₀, hs₁, -, hshare⟩ :=
    workers_share_flow_iff 0 (by decide) (by decide) h₀ h₁ [[0, 0], [0, 0]] [[0, 0], [0, 0]]
  obtain ⟨e₁', e₂, obs₁', obs₂, shown₁', shown₂, hr₁', hr₂, hs₁', hs₂, hiff, -⟩ :=
    workers_share_flow_iff 0 (by decide) (by decide) h₁ h₂ [[0, 0], [0, 0]] [[0, 0], [0, 0]]
  obtain ⟨rfl, rfl⟩ := Prod.mk.inj (Option.some.inj (hr₁.symm.trans hr₁'))
  obtain rfl := Option.some.inj (hs₁.symm.trans hs₁')
  obtain ⟨hobs, hshown⟩ := hshare (.inr (.inl ⟨by decide, by decide⟩))
  refine ⟨w₀, w₁, w₂, e₀, e₁, e₂, obs₀, obs₁, obs₂, shown₀, shown₁, shown₂, hr₀, hr₁, hr₂, hs₀, hs₁, hs₂,
    hobs, hshown rfl, ?_⟩
  have hcount : ∀ (rank : Nat) (E : SimEnv RefBook Unit Unit ℚ), rank = 1 ∨ rank = 2 →
      SimEnv.new exactCasts SimEnv.startBook () () 1000 32 (.ofInt 64 (0 + rank)) 100 = some E →
      ((E.reset exactCasts (.ofInt 64 (0 + rank))).bind fun E =>
        E.observe exactCasts [[0, 0], [0, 0]]).map (fun shown => (sentFlow shown).length) = some 24 := by
    have hval : ∀ rank : Nat, rank = 1 ∨ rank = 2 →
        ((SimEnv.new exactCasts SimEnv.startBook () () 1000 32 (.ofInt 64 (0 + rank)) 100).bind fun E =>
          (E.reset exactCasts (.ofInt 64 (0 + rank))).bind fun E =>
            E.observe exactCasts [[0, 0], [0, 0]]).map (fun shown => (sentFlow shown).length) =
          some 24 := by
      rintro rank (rfl | rfl) <;> decide +kernel
    intro rank E hrank hE
    have h := hval rank hrank
    rw [hE] at h
    exact h
  have hlen₁ := length_worker_flow hm₁ hT₁ hr₁ hs₁ (hseed₁ ▸ hcount 1 E₁ (.inl rfl) hE₁)
  have hlen₂ := length_worker_flow hm₂ hT₂ hr₂ hs₂ (hseed₂ ▸ hcount 2 E₂ (.inr rfl) hE₂)
  intro heq
  have hone := (hiff (by rw [hlen₁]; decide) (by rw [hlen₂]; decide)).mp heq
  simp [Clash] at hone

end ExecutionPlatform.Train
