import ExecutionPlatform.Bindings.EpisodeIndependence
import ExecutionPlatform.Foundations.ShiftXor

/-! The generator is linear over exclusive or, and a synthetic order shows four bits of it: its
side one, its quantity three. Eighteen orders are enough to tell which state sent them. -/
namespace ExecutionPlatform.Bindings
open ExecutionPlatform.Core External Exec Foundations Episode
open SimEnv (afterDraw flowDraws)

/-- Side and quantity of a synthetic order. Its price depends on the arrival mid as well. -/
def ticket (draw : Side × Price × Quantity) : Side × Quantity := (draw.1, draw.2.2)

/-- The two seeds the generator does not tell apart are 0 and 1. -/
def SameStream (seed₁ seed₂ : BitVec 64) : Prop :=
  seed₁ = seed₂ ∨ seed₁ = 0 ∧ seed₂ = 1 ∨ seed₁ = 1 ∧ seed₂ = 0

theorem sameStream_iff {seed₁ seed₂ : BitVec 64} :
    SameStream seed₁ seed₂ ↔ Xorshift64.new seed₁ = .new seed₂ := by
  rw [Xorshift64.new, Xorshift64.new, Xorshift64.mk.injEq, SameStream]
  by_cases h₁ : seed₁ = 0 <;> by_cases h₂ : seed₂ = 0 <;> grind

/-- The word after the given one. -/
def nextWord (s : BitVec 64) : BitVec 64 := (Xorshift64.next ⟨s⟩).1

theorem nextWord_linear : XorLinear nextWord := by
  have h₁ := XorLinear.id.xor (XorLinear.id.shiftLeft (w := 64) 13)
  have h₂ := h₁.xor (h₁.ushiftRight 7)
  exact h₂.xor (h₂.shiftLeft 17)

/-- What the bits that an order shows stand for: words that add up to the state. -/
structure Clue where
  side : BitVec 64
  qty0 : BitVec 64
  qty1 : BitVec 64
  qty2 : BitVec 64

/-- Read a state off the orders it sent. -/
def recover : List Clue → List (Side × Quantity) → BitVec 64
  | clue :: clues, (side, qty) :: flow =>
    (if side = .buy then clue.side else 0#64) ^^^ (if (qty - 10).testBit 0 then clue.qty0 else 0#64) ^^^
      (if (qty - 10).testBit 1 then clue.qty1 else 0#64) ^^^
      (if (qty - 10).testBit 2 then clue.qty2 else 0#64) ^^^ recover clues flow
  | _, _ => 0#64

/-- The same from the state itself. -/
def recovered : List Clue → BitVec 64 → BitVec 64
  | [], _ => 0#64
  | clue :: clues, s =>
    select 0 clue.side (nextWord s) ^^^ select 0 clue.qty0 (nextWord (nextWord (nextWord s))) ^^^
      select 1 clue.qty1 (nextWord (nextWord (nextWord s))) ^^^
      select 2 clue.qty2 (nextWord (nextWord (nextWord s))) ^^^
      recovered clues (nextWord (nextWord (nextWord s)))

theorem recovered_linear (clues : List Clue) : XorLinear (recovered clues) := by
  induction clues with
  | nil => exact XorLinear.const_zero
  | cons clue clues ih =>
    have h₃ := nextWord_linear.comp (nextWord_linear.comp nextWord_linear)
    have hside := (XorLinear.select 0 clue.side).comp nextWord_linear
    have h0 := (XorLinear.select 0 clue.qty0).comp h₃
    have h1 := (XorLinear.select 1 clue.qty1).comp h₃
    have h2 := (XorLinear.select 2 clue.qty2).comp h₃
    exact (((hside.xor h0).xor h1).xor h2).xor (ih.comp h₃)

/-- The three low bits of a quantity above ten are those of its draw, since 8 divides 40. -/
theorem testBit_qty (r : BitVec 64) {i : Nat} (hi : i < 3) :
    (10 + (r % 40).toNat - 10).testBit i = r.getLsbD i := by
  have hmod : (r % 40).toNat % 2 ^ 3 = r.toNat % 2 ^ 3 := Nat.mod_mod_of_dvd r.toNat (by decide)
  rw [Nat.add_sub_cancel_left]
  calc (r % 40).toNat.testBit i
      = ((r % 40).toNat % 2 ^ 3).testBit i := by rw [Nat.testBit_mod_two_pow]; simp [hi]
    _ = (r.toNat % 2 ^ 3).testBit i := by rw [hmod]
    _ = r.toNat.testBit i := by rw [Nat.testBit_mod_two_pow]; simp [hi]

theorem and_one_ne_zero (r : BitVec 64) : r &&& 1 ≠ 0 ↔ r.getLsbD 0 = true := by
  have hone : (1 : BitVec 64) = BitVec.twoPow 64 0 := rfl
  rw [hone, BitVec.and_twoPow]
  cases r.getLsbD 0 <;> decide

theorem side_clue (arrivalMid : Price) (rng : Xorshift64) (c : BitVec 64) :
    (if (drawOrder arrivalMid rng).1.1 = .buy then c else 0#64) = select 0 c (nextWord rng.state) := by
  have hside : (drawOrder arrivalMid rng).1.1 =
      if nextWord rng.state &&& 1 ≠ 0 then Side.buy else .sell := rfl
  rw [hside, select]
  by_cases hbit : nextWord rng.state &&& 1 ≠ 0
  · rw [if_pos hbit, if_pos rfl, if_pos ((and_one_ne_zero _).mp hbit)]
  · rw [if_neg hbit, if_neg Side.noConfusion, if_neg (mt (and_one_ne_zero _).mpr hbit)]

theorem qty_clue (arrivalMid : Price) (rng : Xorshift64) (c : BitVec 64) {i : Nat} (hi : i < 3) :
    (if ((drawOrder arrivalMid rng).1.2.2 - 10).testBit i then c else 0#64) =
      select i c (nextWord (nextWord (nextWord rng.state))) := by
  have hqty : (drawOrder arrivalMid rng).1.2.2 =
      10 + (nextWord (nextWord (nextWord rng.state)) % 40).toNat := rfl
  rw [hqty, testBit_qty _ hi, select]

theorem recover_flowDraws (arrivalMid : Price) (clues : List Clue) (rng : Xorshift64) :
    recover clues ((flowDraws arrivalMid clues.length rng).map ticket) = recovered clues rng.state := by
  induction clues generalizing rng with
  | nil => rfl
  | cons clue clues ih =>
    have hside := side_clue arrivalMid rng clue.side
    have h0 := qty_clue arrivalMid rng clue.qty0 (i := 0) (Nat.succ_pos 2)
    have h1 := qty_clue arrivalMid rng clue.qty1 (i := 1) (Nat.succ_lt_succ (Nat.succ_pos 1))
    have h2 := qty_clue arrivalMid rng clue.qty2 (i := 2) (Nat.lt_succ_self 2)
    change recover (clue :: clues) (((drawOrder arrivalMid rng).1.1, (drawOrder arrivalMid rng).1.2.2) ::
      (flowDraws arrivalMid clues.length (afterDraw rng)).map ticket) = _
    rw [recover, ih, hside, h0, h1, h2]
    rfl

/-- The columns of the inverse of the map from states to eighteen orders. -/
def clues : List Clue :=
  [⟨0xde3b636ccef10bb4, 0xdb9b222b9f94d164, 0x2eee52db48deb0af, 0x9d38a10cd3bed6bf⟩,
   ⟨0xb184a1eb73af7983, 0xe9fe2a93fde94c22, 0x29c3e76350dc8f5a, 0xed4267fd225a3a16⟩,
   ⟨0x8251cea0ad6cf8f1, 0x35b4e86de5acf2a3, 0x86704df654de2c06, 0xef1135e799b2d22a⟩,
   ⟨0x2279f7e67d989399, 0xd73554bce7676f50, 0x4497dd9c5dc528fb, 0x3911a4fc3e548c38⟩,
   ⟨0x77cca5901ad036eb, 0x14668a307f579299, 0xe45b3c570eca2262, 0x10d24f6791511585⟩,
   ⟨0x6e41d3237c8cac87, 0xd7507e1153151db7, 0xa790cffd91061a2c, 0x78dc10b1fa26e246⟩,
   ⟨0xcdafd0e63023f222, 0xed1042e3eb192da7, 0xbeb1a3a577ba5474, 0x5d47f4cb53c48f12⟩,
   ⟨0xcb765dd817f5d24c, 0xf3cb37ccf02aef3c, 0xb1fd04d4d0a1551a, 0x32db853df5f057a9⟩,
   ⟨0xc6ff0974cb5c8bd7, 0x4971428e350e35eb, 0x563e655f1fe4c5d7, 0x0dbd794a1bd31a4e⟩,
   ⟨0xfb4c8f34fb7b75a5, 0x140e87d394f7d502, 0xabfc0bd336cb0999, 0xeccc00445ec3abaf⟩,
   ⟨0xc3524b204bfa75bd, 0xc2768efef6ad67c7, 0x20a3cada53ba7f6a, 0xfad6b1bd0d3f544c⟩,
   ⟨0x87a68b4e33f34dd1, 0x9e113e1a75cc8f12, 0x68bb05662e2c6048, 0x8a4aa72a1262578d⟩,
   ⟨0x3ac65c7e2e71d17e, 0xdffc46d28c8098bf, 0xabff0e68360ea9e9, 0x02fd8f192ae7ec00⟩,
   ⟨0x35a6b40e62fd7812, 0xce6bc26638754edb, 0x68b6dfdec8d8012c, 0xc180ca0b5b8436e1⟩,
   ⟨0xd9adc79ae22c7acd, 0x9dc776510228da97, 0xe6ce22ee3e509499, 0x3b7435288c8302b5⟩,
   ⟨0x510ab4e74ab643db, 0x86f0aaba01a5eb95, 0x0000000000000000, 0x0ba6c5ed86df8c91⟩,
   ⟨0xb966b3ea299a0526, 0x0000000000000000, 0x0000000000000000, 0x0000000000000000⟩,
   ⟨0x0000000000000000, 0x0000000000000000, 0x0000000000000000, 0x0000000000000000⟩]

theorem recovered_clues (s : BitVec 64) : recovered clues s = s := by
  have hbits : ∀ i < 64, recovered clues (BitVec.twoPow 64 i) = BitVec.twoPow 64 i := by decide +kernel
  exact congrFun ((recovered_linear clues).ext XorLinear.id hbits) s

/-- Eighteen synthetic orders determine the generator that sent them. -/
theorem flowDraws_inj {mid₁ mid₂ : Price} {rng₁ rng₂ : Xorshift64}
    (h : (flowDraws mid₁ 18 rng₁).map ticket = (flowDraws mid₂ 18 rng₂).map ticket) : rng₁ = rng₂ := by
  have hstate := congrArg (recover clues) h
  have h₁ := recover_flowDraws mid₁ clues rng₁
  have h₂ := recover_flowDraws mid₂ clues rng₂
  rw [recovered_clues] at h₁ h₂
  have heq : rng₁.state = rng₂.state := h₁.symm.trans (hstate.trans h₂)
  cases rng₁
  cases rng₂
  exact congrArg Xorshift64.mk heq

theorem flowDraws_add (arrivalMid : Price) (j k : Nat) (rng : Xorshift64) :
    flowDraws arrivalMid (j + k) rng =
      flowDraws arrivalMid j rng ++ flowDraws arrivalMid k (afterDraw^[j] rng) := by
  induction j generalizing rng with
  | zero => rw [Nat.zero_add]; rfl
  | succ j ih =>
    rw [Nat.succ_add, flowDraws, ih, Function.iterate_succ_apply]
    rfl

theorem length_flowDraws (arrivalMid : Price) (k : Nat) (rng : Xorshift64) :
    (flowDraws arrivalMid k rng).length = k := by
  induction k generalizing rng with
  | zero => rfl
  | succ k ih => exact congrArg Nat.succ (ih (afterDraw rng))

/-- Sides and quantities do not depend on the arrival mid. -/
theorem tickets_eq (mid₁ mid₂ : Price) (k : Nat) (rng : Xorshift64) :
    (flowDraws mid₁ k rng).map ticket = (flowDraws mid₂ k rng).map ticket := by
  induction k generalizing rng with
  | zero => rfl
  | succ k ih => exact congrArg (ticket (drawOrder mid₁ rng).1 :: ·) (ih (afterDraw rng))

theorem tickets_extend (mid₁ mid₂ : Price) {j k : Nat} (h : j ≤ k) (rng : Xorshift64) :
    (flowDraws mid₁ j rng).map ticket <+: (flowDraws mid₂ k rng).map ticket := by
  obtain ⟨d, rfl⟩ := Nat.exists_eq_add_of_le h
  rw [flowDraws_add, List.map_append, tickets_eq mid₁ mid₂]
  exact List.prefix_append _ _

theorem take_tickets (arrivalMid : Price) {j k : Nat} (h : j ≤ k) (rng : Xorshift64) :
    ((flowDraws arrivalMid k rng).map ticket).take j = (flowDraws arrivalMid j rng).map ticket := by
  obtain ⟨d, rfl⟩ := Nat.exists_eq_add_of_le h
  rw [flowDraws_add, List.map_append]
  apply List.take_left'
  rw [List.length_map, length_flowDraws]

/-- Eighteen orders tell the seeds apart that the generator tells apart, and no others. -/
theorem take_tickets_iff {mid₁ mid₂ : Price} {seed₁ seed₂ : BitVec 64} {k₁ k₂ : Nat}
    {flow₁ flow₂ : List (Side × Quantity)}
    (h₁ : flow₁ = (flowDraws mid₁ k₁ (.new seed₁)).map ticket)
    (h₂ : flow₂ = (flowDraws mid₂ k₂ (.new seed₂)).map ticket) (hlen₁ : 18 ≤ flow₁.length)
    (hlen₂ : 18 ≤ flow₂.length) : flow₁.take 18 = flow₂.take 18 ↔ SameStream seed₁ seed₂ := by
  rw [h₁, List.length_map, length_flowDraws] at hlen₁
  rw [h₂, List.length_map, length_flowDraws] at hlen₂
  rw [h₁, h₂, take_tickets mid₁ hlen₁, take_tickets mid₂ hlen₂, sameStream_iff]
  constructor
  · exact flowDraws_inj
  · intro heq
    rw [heq]
    exact tickets_eq mid₁ mid₂ 18 _

section Episodes
variable {Ring₁ Clock₁ Ring₂ Clock₂ F D : Type} [EventRing Ring₁] [ClockFn Clock₁] [EventRing Ring₂]
  [ClockFn Clock₂] [MachineFloat F] [MachineFloat D] {cast : Casts F D}

/-- Side and quantity of every synthetic order that Step calls sent, in order. -/
def sentFlow : List (Except String (StepReport F) × View F D) → List (Side × Quantity)
  | [] => []
  | (.error _, _) :: shown => sentFlow shown
  | (.ok report, _) :: shown => report.flow.map (fun s => ticket s.draw) ++ sentFlow shown

/-- A live step sends the next twelve orders of the generator and leaves it after them. -/
theorem step_flow {x y : F} {E E' start mid : SimEnv RefBook Unit Unit F} {report : StepReport F}
    {bgFills : List Fill} (h : SimEnv.StepEffect cast x y E E' report start mid bgFills) :
    report.flow.map Submission.draw = flowDraws E.arrivalMid 12 E.rng ∧
      E'.rng = afterDraw^[12] E.rng := by
  have hstart : start.rng = E.rng ∧ start.arrivalMid = E.arrivalMid := by
    rw [h.churn]
    exact ⟨rfl, rfl⟩
  have hmid : mid.rng = afterDraw^[12] E.rng := by rw [h.flow.rng, hstart.1]
  refine ⟨?_, ?_⟩
  · rw [h.flow.draws, hstart.1, hstart.2]
  · rcases h.branch with ⟨-, hidle⟩ | ⟨-, s, fills, -, hchild⟩
    · obtain ⟨rfl, -⟩ := Prod.mk.inj hidle
      rw [SimEnv.maybeCloseOut_eq]
      exact hmid
    · exact hchild.rng.trans hmid

/-- Step calls send what the generator gives, twelve orders for each live step. -/
theorem observe_sentFlow {parentQty horizonSteps : Nat} {arrivalMid : Price}
    {E : SimEnv RefBook Unit Unit F} (cast : Casts F D) (hT : E.Tracked 0)
    (hp : Params parentQty horizonSteps arrivalMid E.toEnvState) (actions : List (List F)) :
    ∃ shown n, E.observe cast actions = some shown ∧
      sentFlow shown = (flowDraws arrivalMid (12 * n) E.rng).map ticket := by
  induction actions generalizing E with
  | nil => exact ⟨[], 0, rfl, rfl⟩
  | cons action actions ih =>
    obtain ⟨E', out, hE, hT', hcases⟩ := ref_step hT cast action
    have hobserve : ∀ shown, E'.observe cast actions = some shown →
        E.observe cast (action :: actions) = some ((out, E'.view) :: shown) := by
      intro shown hshown
      rw [SimEnv.observe, hE]
      simp only [Option.bind_eq_bind, Option.bind_some, hshown]
      rfl
    rcases hcases with ⟨msg, rfl, rfl, -⟩ | ⟨x, y, rest, -, hcases⟩
    · obtain ⟨shown, n, hshown, hflow⟩ := ih hT hp
      exact ⟨_, n, hobserve shown hshown, hflow⟩
    rcases hcases with ⟨-, rfl, rfl⟩ | ⟨-, E1, report, start, mid, bgFills, -, heffect, rfl, rfl⟩
    · obtain ⟨shown, n, hshown, hflow⟩ := ih hT' { hp with }
      exact ⟨_, n, hobserve shown hshown, hflow⟩
    · obtain ⟨hdraws, hrng⟩ := step_flow heffect
      obtain ⟨shown, n, hshown, hflow⟩ := ih hT' { hp.step heffect with }
      refine ⟨_, n + 1, hobserve shown hshown, ?_⟩
      change report.flow.map (ticket ∘ Submission.draw) ++ sentFlow shown = _
      change sentFlow shown = (flowDraws arrivalMid (12 * n) E1.rng).map ticket at hflow
      rw [← List.map_map, hdraws, hflow, hrng, hp.arrivalMid, Nat.mul_succ, Nat.add_comm (12 * n),
        flowDraws_add, List.map_append]

/-- A reset restarts the generator, whatever the environment went through before. -/
theorem reset_sentFlow {parentQty horizonSteps : Nat} {arrivalMid : Price} {checked : Bool}
    {ep : Episode OrderBook Ring₁ Clock₁ F}
    (h : (episodes cast parentQty horizonSteps arrivalMid checked).Reachable ep) (seed : BitVec 64)
    (actions : List (List F)) :
    ∃ e shown n, ep.env.reset cast seed = some e ∧ e.observe cast actions = some shown ∧
      sentFlow shown = (flowDraws arrivalMid (12 * n) (.new seed)).map ticket := by
  obtain ⟨EP, hf, hT, hp⟩ := reachable_tracked h
  obtain ⟨E, hE, hopen, hp'⟩ := ref_reset_opened hT hp cast seed
  obtain ⟨e, he, hm⟩ := hf.env.reset hE
  obtain ⟨shown, n, hS, hflow⟩ := observe_sentFlow cast hopen.tracked hp' actions
  obtain ⟨shown', hS', hs⟩ := observe_eq cast hm hopen.tracked actions
  obtain rfl : shown = shown' := Option.some.inj (hS.symm.trans hS')
  rw [hopen.rng] at hflow
  exact ⟨e, shown, n, he, hs, hflow⟩

/-- The synthetic orders identify the seed: two episodes that sent eighteen orders or more agree
on the first eighteen exactly if the generator does not tell their seeds apart, and then one
sent what the other did, as far as both went. -/
theorem flow_identifies_seed {parentQty₁ parentQty₂ horizonSteps₁ horizonSteps₂ : Nat}
    {mid₁ mid₂ : Price} {checked₁ checked₂ : Bool} {ep₁ : Episode OrderBook Ring₁ Clock₁ F}
    {ep₂ : Episode OrderBook Ring₂ Clock₂ F}
    (h₁ : (episodes cast parentQty₁ horizonSteps₁ mid₁ checked₁).Reachable ep₁)
    (h₂ : (episodes cast parentQty₂ horizonSteps₂ mid₂ checked₂).Reachable ep₂)
    (seed₁ seed₂ : BitVec 64) (actions₁ actions₂ : List (List F)) :
    ∃ e₁ e₂ shown₁ shown₂, ep₁.env.reset cast seed₁ = some e₁ ∧ ep₂.env.reset cast seed₂ = some e₂ ∧
      e₁.observe cast actions₁ = some shown₁ ∧ e₂.observe cast actions₂ = some shown₂ ∧
      (SameStream seed₁ seed₂ →
        sentFlow shown₁ <+: sentFlow shown₂ ∨ sentFlow shown₂ <+: sentFlow shown₁) ∧
      (18 ≤ (sentFlow shown₁).length → 18 ≤ (sentFlow shown₂).length →
        ((sentFlow shown₁).take 18 = (sentFlow shown₂).take 18 ↔ SameStream seed₁ seed₂)) := by
  obtain ⟨e₁, shown₁, n₁, he₁, hs₁, hflow₁⟩ := reset_sentFlow h₁ seed₁ actions₁
  obtain ⟨e₂, shown₂, n₂, he₂, hs₂, hflow₂⟩ := reset_sentFlow h₂ seed₂ actions₂
  refine ⟨e₁, e₂, shown₁, shown₂, he₁, he₂, hs₁, hs₂, fun hsame => ?_, take_tickets_iff hflow₁ hflow₂⟩
  rw [hflow₁, hflow₂, sameStream_iff.mp hsame]
  rcases Nat.le_total n₁ n₂ with hle | hle
  · exact .inl (tickets_extend mid₁ mid₂ (Nat.mul_le_mul_left 12 hle) _)
  · exact .inr (tickets_extend mid₂ mid₁ (Nat.mul_le_mul_left 12 hle) _)

/-- The number of orders can be counted over the reference book. -/
theorem length_sentFlow {ep : Episode OrderBook Ring₁ Clock₁ F} {EP : Episode RefBook Unit Unit F}
    (hf : ep.Follows EP) (hT : EP.env.Tracked 0) {seed : BitVec 64} {actions : List (List F)} {n : Nat}
    (hcount : ((EP.env.reset cast seed).bind fun E => E.observe cast actions).map
      (fun shown => (sentFlow shown).length) = some n) {e : SimEnv OrderBook Ring₁ Clock₁ F}
    {shown : List (Except String (StepReport F) × View F D)} (he : ep.env.reset cast seed = some e)
    (hs : e.observe cast actions = some shown) : (sentFlow shown).length = n := by
  obtain ⟨P, hE, hshape, hempty⟩ := ref_reset hT cast seed
  obtain ⟨e', he', hm⟩ := hf.env.reset hE
  obtain rfl : e' = e := Option.some.inj (he'.symm.trans he)
  obtain ⟨shown', hS, hs'⟩ := observe_eq cast hm
    ((SimEnv.cleared_tracked hshape hempty).writeState cast) actions
  obtain rfl : shown' = shown := Option.some.inj (hs'.symm.trans hs)
  rw [hE, Option.bind_some, hS] at hcount
  exact Option.some.inj hcount

/-- Seeds 0 and 1, under two agents. -/
theorem flow_identifies_seed_zero_one :
    ∃ (ep : Episode OrderBook Unit Unit ℚ) (e₁ e₂ : SimEnv OrderBook Unit Unit ℚ)
      (shown₁ shown₂ : List (Except String (StepReport ℚ) × View ℚ ℚ)),
      ep.env.reset exactCasts 0 = some e₁ ∧ ep.env.reset exactCasts 1 = some e₂ ∧
      e₁.observe exactCasts [[0, 0], [0, 0]] = some shown₁ ∧
      e₂.observe exactCasts [[1, 1], [1, 1]] = some shown₂ ∧ (sentFlow shown₁).length = 24 ∧
      (sentFlow shown₁).take 18 = (sentFlow shown₂).take 18 := by
  obtain ⟨ep, E, hinit, hE, hf, hT⟩ := exists_start (F := ℚ) exactCasts () () 1000 32 100 true 7
  have hreach : (episodes exactCasts 1000 32 100 true).Reachable ep := .init hinit
  obtain ⟨e₁, e₂, shown₁, shown₂, he₁, he₂, hs₁, hs₂, -, hiff⟩ :=
    flow_identifies_seed hreach hreach 0 1 [[0, 0], [0, 0]] [[1, 1], [1, 1]]
  have hcount : ∀ (seed : BitVec 64) (actions : List (List ℚ)),
      ((refRun exactCasts 1000 32 100 7 []).bind fun EP => (EP.env.reset exactCasts seed).bind
        fun E => E.observe exactCasts actions).map (fun shown => (sentFlow shown).length) = some 24 →
      ((E.reset exactCasts seed).bind fun E => E.observe exactCasts actions).map
        (fun shown => (sentFlow shown).length) = some 24 := by
    intro seed actions h
    rw [refRun, hE] at h
    exact h
  have hlen₁ := length_sentFlow hf hT (hcount 0 [[0, 0], [0, 0]] (by decide +kernel)) he₁ hs₁
  have hlen₂ := length_sentFlow hf hT (hcount 1 [[1, 1], [1, 1]] (by decide +kernel)) he₂ hs₂
  refine ⟨ep, e₁, e₂, shown₁, shown₂, he₁, he₂, hs₁, hs₂, hlen₁, ?_⟩
  apply (hiff (by rw [hlen₁]; decide) (by rw [hlen₂]; decide)).mpr
  exact .inr (.inl ⟨rfl, rfl⟩)

end Episodes
end ExecutionPlatform.Bindings
