import ExecutionPlatform.Bindings.StandingLiquidity

/-! Why no AddLimit of the environment is ever refused. The guard evicts the top of
resting_ids_ only, so what bounds the book is the number of orders below the top, less the
few synthetic ones that a child order of the last steps has buried. -/
namespace ExecutionPlatform.Bindings
open ExecutionPlatform.Core External Exec Foundations Episode SimEnv

/-- Synthetic orders and everything that rests keep within five ticks of the mid. -/
def Banded (arrivalMid px : Price) : Prop := arrivalMid - 5 ≤ px ∧ px ≤ arrivalMid + 5

theorem drawOrder_banded (arrivalMid : Price) (rng : Xorshift64) :
    Banded arrivalMid (drawOrder arrivalMid rng).1.2.1 := by
  have hlt : (rng.next.2.next.1 % 5).toNat < 5 := by
    rw [BitVec.toNat_umod]
    exact Nat.mod_lt _ (by decide)
  simp only [drawOrder, Banded]
  split_ifs
  · simp only
    lia
  · simp only
    lia

/-- The orders in the book that are neither on top of resting_ids_ nor among the given ones
are at most as many as the guard tolerates. -/
structure Guarded {Ring Clock F : Type} (young : List OrderId) (env : SimEnv RefBook Ring Clock F) :
    Prop where
  spare : (env.publisher.book.ids.filter fun id =>
    decide (env.restingIds.getLast? ≠ some id ∧ id ∉ young)).length ≤ kBookCapacity - 8
  banded : ∀ o ∈ env.orders, Banded env.arrivalMid o.price

section Orders
variable {Ring Clock F : Type} {env env' : SimEnv RefBook Ring Clock F} {young : List OrderId} {k : Nat}

/-- So the book holds the top and the given ones besides. -/
theorem Guarded.length_le (h : Guarded young env) (hT : env.Tracked k) :
    env.orders.length ≤ kBookCapacity - 8 + (young.length + 1) := by
  obtain ⟨p, hp⟩ : ∃ p : OrderId → Bool, (fun id =>
    decide (env.restingIds.getLast? ≠ some id ∧ id ∉ young)) = p := ⟨_, rfl⟩
  have hspare := h.spare
  rw [hp] at hspare
  have hrest : (env.publisher.book.ids.filter fun id => !p id).length ≤
      (env.restingIds.getLast?.toList ++ young).length := by
    refine (List.subperm_of_subset (hT.nodup.filter _) fun id hid => ?_).length_le
    rw [← hp, List.mem_filter] at hid
    by_cases htop : env.restingIds.getLast? = some id
    · exact List.mem_append_left _ (by rw [htop]; exact List.mem_singleton_self id)
    · exact List.mem_append_right _ (by simpa [htop] using hid.2)
  have htop : env.restingIds.getLast?.toList.length ≤ 1 := by
    cases env.restingIds.getLast? <;> simp
  have hsplit := List.length_eq_length_filter_add (l := env.publisher.book.ids) p
  rw [RefBook.ids, List.length_map] at hsplit
  rw [List.length_append] at hrest
  rw [RefBook.ids] at hspare hrest
  change env.publisher.book.orders.length ≤ _
  omega

theorem length_filter_le_filter {α : Type} {l l' : List α} {p q : α → Bool} (hsub : l.Sublist l')
    (hpq : ∀ x ∈ l, p x = true → q x = true) : (l.filter p).length ≤ (l'.filter q).length := by
  rw [← List.countP_eq_length_filter, ← List.countP_eq_length_filter]
  exact (List.countP_mono_left hpq).trans hsub.countP_le

/-- An order that joins the book on top of resting_ids_ is not counted. -/
theorem spare_push {ids ids' : List OrderId} {id : OrderId} {young : List OrderId} {n : Nat}
    (hsub : ids'.Sublist (ids ++ [id])) (h : (ids.filter fun i => decide (i ∉ young)).length ≤ n) :
    (ids'.filter fun i => decide (some id ≠ some i ∧ i ∉ young)).length ≤ n := by
  refine ((hsub.filter _).length_le.trans ?_).trans h
  have hself : [id].filter (fun i => decide (some id ≠ some i ∧ i ∉ young)) = [] := by simp
  rw [List.filter_append, hself, List.append_nil]
  refine length_filter_le_filter (List.Sublist.refl _) fun i _ hi => ?_
  rw [decide_eq_true_iff] at hi ⊢
  exact hi.2

/-- The constants of the book: its capacity, and a band that holds every price near the mid. -/
theorem tracked_accepts (hT : env.Tracked k) (hlow : 0 ≤ env.arrivalMid - 5)
    (hhigh : env.arrivalMid + 5 ≤ 16383) {book : RefBook} (hshape : env.publisher.book.SameShape book)
    (hroom : book.orders.length < kBookCapacity) {px : Price} (hpx : Banded env.arrivalMid px)
    (id : OrderId) (side : Side) (qty : Quantity) : (book.addLimit id side px qty).2.2 = true := by
  have hfrom := hT.shape.trans hshape
  refine RefBook.addLimit_accepted ⟨?_, ?_⟩ (hfrom.orderCapacity ▸ hroom) id side qty
  · rw [hfrom.minPrice]
    exact hlow.trans hpx.1
  · rw [hfrom.maxPrice]
    exact hpx.2.trans hhigh

variable [EventRing Ring] [ClockFn Clock]

/-- The guard leaves room: what it evicts is the one order that was not counted, and where it
evicts nothing there is room anyway. -/
theorem Guarded.evict (h : Guarded young env) (hT : env.Tracked k) (he : env.evict = some env') :
    ∃ young' : List OrderId, young'.Sublist young ∧
      (env'.publisher.book.ids.filter fun id => decide (id ∉ young')).length ≤ kBookCapacity - 8 := by
  rw [SimEnv.evict] at he
  split_ifs at he with hfull
  · refine ⟨young, List.Sublist.refl _, ?_⟩
    have hspare := h.spare
    cases hlast : env.restingIds.getLast? with
    | none =>
      have hnone : env.publisher.book.ids = [] := by
        refine List.eq_nil_iff_forall_not_mem.mpr fun id hid => ?_
        obtain ⟨o, ho, rfl⟩ := List.mem_map.mp hid
        have hcov := hT.covered o ho
        rw [List.getLast?_eq_none_iff.mp hlast] at hcov
        cases hcov
      rw [hlast] at he
      obtain rfl := Option.some.inj he
      rw [hnone]
      exact Nat.zero_le _
    | some victim =>
      obtain ⟨p, ok, hc, hp⟩ := publisher_cancel env.publisher victim
      rw [hlast] at he hspare
      simp only [hc, Option.bind_eq_bind, Option.bind_some] at he
      obtain rfl := Option.some.inj he
      have hids : p.book.ids = env.publisher.book.ids.filter fun id => decide (id ≠ victim) := by
        rw [RefBook.ids, publisher_cancel_orders hp, RefBook.ids, List.filter_map]
        rfl
      rw [hids, List.filter_filter]
      refine (length_filter_le_filter (List.Sublist.refl _) fun id _ hid => ?_).trans hspare
      rw [Bool.and_eq_true, decide_eq_true_iff, decide_eq_true_iff] at hid
      exact decide_eq_true ⟨fun he => hid.2 (Option.some.inj he).symm, hid.1⟩
  · obtain rfl := Option.some.inj he
    refine ⟨[], List.nil_sublist _, (List.length_filter_le _ _).trans ?_⟩
    rw [RefBook.ids, List.length_map]
    exact (Nat.not_le.mp hfull).le

/-- A synthetic order finds room, and is on top of resting_ids_ afterwards. -/
theorem Guarded.backgroundOrder {s : Submission} {fills : List Fill} (h : Guarded young env)
    (hT : env.Tracked k) (hlen : young.length ≤ 2) (hlow : 0 ≤ env.arrivalMid - 5)
    (hhigh : env.arrivalMid + 5 ≤ 16383) (he : env.backgroundOrder = some (env', s, fills)) :
    s.accepted = true ∧ env'.restingIds.getLast? = some s.id ∧
      ∃ young' : List OrderId, young'.Sublist young ∧ Guarded young' env' := by
  have hpx := drawOrder_banded env.arrivalMid env.rng
  rw [SimEnv.backgroundOrder] at he
  obtain ⟨⟨⟨side, px, qty⟩, rng⟩, hd⟩ : ∃ w, drawOrder env.arrivalMid env.rng = w := ⟨_, rfl⟩
  rw [hd] at hpx he
  have h1 : Tracked k { env with rng := rng, nextId := env.nextId + 1 } :=
    { hT with
      fresh := fun o ho => Nat.lt_succ_of_lt (hT.fresh o ho)
      issued := fun id hi => Nat.lt_succ_of_lt (hT.issued id hi) }
  have hg1 : Guarded young { env with rng := rng, nextId := env.nextId + 1 } := { h with }
  obtain ⟨p, restingIds, hev, h2, hsub⟩ := h1.evict
  obtain ⟨young', hyoung, hspare⟩ := hg1.evict h1 hev
  obtain ⟨out, hrun⟩ := publisher_addLimit p env.nextId side px qty
  have hroom : p.book.orders.length < kBookCapacity := by
    have hle := hsub.length_le.trans (hg1.length_le h1)
    rw [kBookCapacity] at hle ⊢
    omega
  have hok := tracked_accepts h2 hlow hhigh ⟨rfl, rfl, rfl⟩ hroom hpx env.nextId side qty
  have hmem := p.book.addLimit_mem env.nextId side px qty
  have hids := p.book.addLimit_ids_sublist env.nextId side px qty
  obtain ⟨⟨book, fills', ok⟩, hadd⟩ : ∃ w, p.book.addLimit env.nextId side px qty = w := ⟨_, rfl⟩
  rw [hadd] at hrun hok hmem hids
  obtain rfl : ok = true := hok
  simp only [hev, hrun, Option.bind_eq_bind, Option.bind_some, if_true, Option.pure_def] at he
  obtain ⟨rfl, hrest⟩ := Prod.mk.inj (Option.some.inj he)
  obtain ⟨rfl, rfl⟩ := Prod.mk.inj hrest
  refine ⟨rfl, List.getLast?_concat, young', hyoung, ?_, fun o ho => ?_⟩
  · rw [List.getLast?_concat]
    exact spare_push hids hspare
  · rcases hmem o ho with ⟨m, hm, hpart⟩ | ⟨-, hpart, -⟩
    · exact hpart.price ▸ h.banded m (hsub.subset hm)
    · exact hpart.price ▸ hpx

/-- A burst of synthetic orders is accepted whole, and leaves its last order on top. -/
theorem Guarded.backgroundFlow {n : Nat} {flow : List Submission} {fills : List Fill}
    (h : Guarded young env) (hT : env.Tracked k) (hy : env.Young) (hlen : young.length ≤ 2)
    (hlow : 0 ≤ env.arrivalMid - 5) (hhigh : env.arrivalMid + 5 ≤ 16383)
    (he : env.backgroundFlow n = some (env', flow, fills)) :
    (∀ s ∈ flow, s.accepted = true) ∧
      (n = 0 ∧ env' = env ∨ ∃ s ∈ flow, env'.restingIds.getLast? = some s.id) ∧
      ∃ young' : List OrderId, young'.Sublist young ∧ Guarded young' env' := by
  induction n generalizing env young k flow fills with
  | zero =>
    obtain ⟨rfl, hrest⟩ := Prod.mk.inj (Option.some.inj he)
    obtain ⟨rfl, rfl⟩ := Prod.mk.inj hrest
    exact ⟨fun s hs => by (cases hs), .inl ⟨rfl, rfl⟩, young, List.Sublist.refl _, h⟩
  | succ n ih =>
    obtain ⟨env1, s1, fills1, he1, h1, hy1, hone⟩ := hT.backgroundOrder hy
    obtain ⟨hok, htop, young1, hyoung, hg1⟩ := h.backgroundOrder hT hlen hlow hhigh he1
    rw [SimEnv.backgroundFlow, he1] at he
    simp only [Option.bind_eq_bind, Option.bind_some] at he
    obtain ⟨⟨env2, flow2, fills2⟩, he2, he⟩ := Option.bind_eq_some_iff.mp he
    obtain ⟨rfl, hrest⟩ := Prod.mk.inj (Option.some.inj he)
    obtain ⟨rfl, rfl⟩ := Prod.mk.inj hrest
    have hmid : env1.arrivalMid = env.arrivalMid := hone.account.arrivalMid
    obtain ⟨hoks, htops, young2, hyoung2, hg2⟩ := ih hg1 h1 hy1 (hyoung.length_le.trans hlen)
      (hmid ▸ hlow) (hmid ▸ hhigh) he2
    refine ⟨fun s hs => ?_, .inr ?_, young2, hyoung2.trans hyoung, hg2⟩
    · rcases List.mem_cons.mp hs with rfl | hs
      · exact hok
      · exact hoks s hs
    · rcases htops with ⟨-, rfl⟩ | ⟨s, hs, htop2⟩
      · exact ⟨s1, List.mem_cons_self, htop⟩
      · exact ⟨s, List.mem_cons_of_mem _ hs, htop2⟩

end Orders

section Child
variable {Ring Clock F D : Type} {env env' : SimEnv RefBook Ring Clock F} {young : List OrderId} {k : Nat}
  [MachineFloat F] [MachineFloat D] {cast : Casts F D} {aggression : F} {qty : Quantity}
  {flow : List Submission} {bgFills : List Fill} {report : StepReport F}

/-- The child is priced like a resting order or next to the mid. -/
theorem childPx_banded (h : ∀ o ∈ env.orders, Banded env.arrivalMid o.price) (aggression : F) :
    Banded env.arrivalMid (env.childPx aggression) := by
  rcases env.childPx_cases aggression with ⟨o, ho, hpx⟩ | hpx | hpx
  · rw [hpx]
    exact h o ho
  · exact ⟨by lia, by lia⟩
  · exact ⟨by lia, by lia⟩

variable [EventRing Ring] [ClockFn Clock]

/-- The child's AddLimit, and what of it joins resting_ids_. -/
theorem childStep_book (he : env.childStep cast aggression qty flow bgFills = some (env', report)) :
    ∃ book fills ok, env.publisher.book.addLimit env.nextId .sell (env.childPx aggression) qty =
        (book, fills, ok) ∧
      env'.publisher.book = book ∧ env'.arrivalMid = env.arrivalMid ∧
      env'.restingIds = (if ok ∧ (fills.map Fill.qty).sum < qty then env.restingIds ++ [env.nextId]
        else env.restingIds) ∧
      report.flow = flow ∧
      report.child = some ⟨env.nextId, .sell, env.childPx aggression, qty, ok⟩ := by
  obtain ⟨⟨book, fills, ok⟩, hadd⟩ : ∃ w, env.publisher.book.addLimit env.nextId .sell
    (env.childPx aggression) qty = w := ⟨_, rfl⟩
  simp only [SimEnv.childStep, submitChild, MatchingBook.addLimit, hadd, Option.bind_eq_bind,
    Option.bind_some, Option.pure_def, settle_eq, maybeCloseOut_eq] at he
  obtain ⟨rfl, rfl⟩ := Prod.mk.inj (Option.some.inj he)
  exact ⟨book, fills, ok, hadd, rfl, rfl, rfl, rfl, rfl⟩

/-- The child finds room too. If it rests it buries the order that was on top. -/
theorem Guarded.childStep {top : OrderId} (h : Guarded young env) (hT : env.Tracked k)
    (hlen : young.length ≤ 2) (htop : env.restingIds.getLast? = some top)
    (hlow : 0 ≤ env.arrivalMid - 5) (hhigh : env.arrivalMid + 5 ≤ 16383)
    (he : env.childStep cast aggression qty flow bgFills = some (env', report)) :
    report.flow = flow ∧ (∀ c ∈ report.child, c.accepted = true ∧ Banded env'.arrivalMid c.price) ∧
      Guarded (top :: young) env' := by
  obtain ⟨book, fills, ok, hadd, hbook, hmid, hresting, hflow, hchild⟩ := childStep_book he
  have hpx := childPx_banded h.banded aggression
  have hroom : env.publisher.book.orders.length < kBookCapacity := by
    have hle := h.length_le hT
    change env.publisher.book.orders.length ≤ _ at hle
    rw [kBookCapacity] at hle ⊢
    omega
  have hok := tracked_accepts hT hlow hhigh ⟨rfl, rfl, rfl⟩ hroom hpx env.nextId .sell qty
  have hmem := env.publisher.book.addLimit_mem env.nextId .sell (env.childPx aggression) qty
  have hids := env.publisher.book.addLimit_ids_sublist env.nextId .sell (env.childPx aggression) qty
  rw [hadd] at hok hmem hids
  obtain rfl : ok = true := hok
  have hspare := h.spare
  rw [htop] at hspare
  refine ⟨hflow, fun c hc => ?_, ?_, fun o ho => ?_⟩
  · rw [hchild] at hc
    obtain rfl := Option.some.inj hc
    exact ⟨rfl, hmid ▸ hpx⟩
  · have hburied : (env.publisher.book.ids.filter fun i => decide (i ∉ top :: young)).length ≤
        kBookCapacity - 8 := by
      refine (length_filter_le_filter (List.Sublist.refl _) fun id _ hid => ?_).trans hspare
      rw [decide_eq_true_iff, List.mem_cons, not_or] at hid
      exact decide_eq_true ⟨fun he => hid.1 (Option.some.inj he).symm, hid.2⟩
    rw [hbook, hresting]
    split_ifs with hrests
    · rw [List.getLast?_concat]
      exact spare_push hids hburied
    · -- nothing of the child rests, and the top stays
      have hnew : env.nextId ∉ book.ids := fun hin => by
        obtain ⟨o, ho, hid⟩ := List.mem_map.mp hin
        rcases hmem o ho with ⟨m, hm, hpart⟩ | ⟨-, -, hlt⟩
        · exact absurd (hT.fresh m hm) (Nat.not_lt.mpr (hid.symm.trans hpart.id).le)
        · exact hrests ⟨rfl, hlt⟩
      rw [htop]
      refine (length_filter_le_filter (List.Sublist.refl _) fun id hid hout => ?_).trans
        (spare_push hids hburied)
      exact decide_eq_true ⟨fun he => hnew (Option.some.inj he ▸ hid), (of_decide_eq_true hout).2⟩
  · rw [hmid]
    change o ∈ env'.publisher.book.orders at ho
    rw [hbook] at ho
    rcases hmem o ho with ⟨m, hm, hpart⟩ | ⟨-, hpart, -⟩
    · exact hpart.price ▸ h.banded m hm
    · exact hpart.price ▸ hpx

end Child

section Boundary
variable {F D : Type} {EP : Episode RefBook Unit Unit F} {young : List (Nat × Submission)}

/-- The churn drops the buried orders of more than two steps ago: what it leaves of them are
at most one for each of the last two steps. -/
theorem Guarded.churn {p : TelemetryPublisher RefBook Unit Unit} {head : Nat}
    (h : Guarded (young.map fun x => x.2.id) EP.env) (hL : Ledger 0 EP.env EP.flow EP.children)
    (hin : young ⊆ EP.flow) (hstamps : (young.map Prod.fst).Nodup)
    (hT : SimEnv.Tracked 0 { EP.env with publisher := p, bgHead := head })
    (hy : Young { EP.env with publisher := p, bgHead := head })
    (hsub : p.book.orders.Sublist EP.env.orders) :
    ∃ young' : List (Nat × Submission), young'.Sublist young ∧ young'.length ≤ 2 ∧
      Guarded (young'.map fun x => x.2.id) { EP.env with publisher := p, bgHead := head } := by
  have hstart : Ledger 0 { EP.env with publisher := p, bgHead := head } EP.flow EP.children :=
    hL.churned rfl hsub
  refine ⟨young.filter fun x => decide (x.2.id ∈ p.book.ids), List.filter_sublist, ?_, ?_, fun o ho =>
    h.banded o (hsub.subset ho)⟩
  · have hages : ∀ b ∈ (young.filter fun x => decide (x.2.id ∈ p.book.ids)).map Prod.fst,
        b ∈ [EP.env.stepIdx - 2, EP.env.stepIdx - 1] := by
      intro b hb
      obtain ⟨x, hx, rfl⟩ := List.mem_map.mp hb
      obtain ⟨hx, hlive⟩ := List.mem_filter.mp hx
      obtain ⟨o, ho, hid⟩ := List.mem_map.mp (of_decide_eq_true hlive)
      have hwaits := hstart.waits hT ho (decide_eq_true (List.mem_map.mpr ⟨x, hin hx, hid.symm⟩))
      have hage := hy x.1 (hstart.birth hwaits (hin hx) hid.symm)
      have hborn := hL.born x (hin hx)
      have hnew : x.1 ≠ EP.env.stepIdx := fun he => by
        have hnone := List.countP_eq_zero.mp (Nat.le_zero.mp hL.present) x (hin hx)
        exact hnone (decide_eq_true he)
      change EP.env.stepIdx < x.1 + 3 at hage
      rw [List.mem_cons, List.mem_singleton]
      omega
    have hnodup := hstamps.sublist ((List.filter_sublist (p := fun x => decide (x.2.id ∈ p.book.ids))).map
      Prod.fst)
    rw [← List.length_map Prod.fst]
    exact (List.subperm_of_subset hnodup hages).length_le
  · have hids : p.book.ids.Sublist EP.env.publisher.book.ids := hsub.map Resting.id
    refine (length_filter_le_filter hids fun id hid hout => ?_).trans h.spare
    rw [decide_eq_true_iff] at hout ⊢
    refine ⟨hout.1, fun hmem => hout.2 ?_⟩
    obtain ⟨x, hx, rfl⟩ := List.mem_map.mp hmem
    exact List.mem_map.mpr ⟨x, List.mem_filter.mpr ⟨hx, decide_eq_true hid⟩, rfl⟩

/-- An episode in which every order was accepted, and whose book the guard still controls: the
orders that it has lost sight of were the last of their steps, and are three at most. -/
structure Admitted (EP : Episode RefBook Unit Unit F) : Prop where
  flow : ∀ x ∈ EP.flow, x.2.accepted = true
  children : ∀ c ∈ EP.children, c.accepted = true ∧ Banded EP.env.arrivalMid c.price
  young : ∃ young : List (Nat × Submission), young ⊆ EP.flow ∧ (young.map Prod.fst).Nodup ∧ young.length ≤ 3 ∧
    Guarded (young.map fun x => x.2.id) EP.env

theorem Admitted.opened {seed : BitVec 64} {E : SimEnv RefBook Unit Unit F} (h : Opened seed E) :
    Admitted (start E) := by
  refine ⟨by simp [start], by simp [start], [], by simp, List.nodup_nil, by simp, ?_, fun o ho => ?_⟩
  · have hnone : (start E).env.publisher.book.ids = [] := by
      change E.orders.map Resting.id = []
      rw [h.orders]
      rfl
    rw [hnone]
    exact Nat.zero_le _
  · change o ∈ E.orders at ho
    rw [h.orders] at ho
    cases ho

variable [MachineFloat F] [MachineFloat D] {cast : Casts F D}

theorem Admitted.writeState (h : Admitted EP) (cast : Casts F D) :
    Admitted { EP with env := EP.env.writeState cast } where
  flow := h.flow
  children := h.children
  young := h.young.imp fun _ ⟨hin, hstamps, hlen, hg⟩ => ⟨hin, hstamps, hlen, { hg with }⟩

/-- A live step keeps every order admitted. -/
theorem Admitted.stepImpl {x y : F} {E' : SimEnv RefBook Unit Unit F} {report : StepReport F}
    (h : Admitted EP) (hT : EP.env.Tracked 0) (hL : Ledger 0 EP.env EP.flow EP.children)
    (hd : EP.env.done = false) (hlow : 0 ≤ EP.env.arrivalMid - 5)
    (hhigh : EP.env.arrivalMid + 5 ≤ 16383) (he : EP.env.stepImpl cast x y = some (E', report)) :
    Admitted (EP.record E' (.ok report)) := by
  obtain ⟨young, hin, hstamps, -, hg⟩ := h.young
  obtain ⟨p, head, he1, h1, hy1, hsub⟩ := hT.expire (Nat.lt_succ_of_le (Nat.sub_le ..))
  obtain ⟨young1, hsub1, hlen1, hg1⟩ := hg.churn hL hin hstamps h1 hy1 hsub
  obtain ⟨mid, flow, bgFills, he2, h2, hy2, hflow⟩ := h1.backgroundFlow 12 hy1
  have hlen1' : (young1.map fun x => x.2.id).length ≤ 2 := by rwa [List.length_map]
  obtain ⟨hoks, htop, ids2, hsub2, hg2⟩ := hg1.backgroundFlow h1 hy1 hlen1' hlow hhigh he2
  obtain ⟨young2, hyoung2, rfl⟩ := List.sublist_map_iff.mp hsub2
  obtain ⟨top, htopmem, htop⟩ : ∃ s ∈ flow, mid.restingIds.getLast? = some s.id :=
    htop.resolve_left fun hc => absurd hc.1 (by decide)
  have hlen2 : young2.length ≤ 2 := hyoung2.length_le.trans hlen1
  have hin2 : ∀ z ∈ young2, z ∈ EP.flow := fun z hz => hin (hsub1.subset (hyoung2.subset hz))
  have hstamps2 : (young2.map Prod.fst).Nodup := hstamps.sublist ((hyoung2.trans hsub1).map Prod.fst)
  have hmidPx : mid.arrivalMid = EP.env.arrivalMid := hflow.account.arrivalMid
  rw [SimEnv.stepImpl, hd, he1] at he
  simp only [Option.bind_eq_bind, Option.bind_some, he2] at he
  have hflows : report.flow = flow → ∀ z ∈ (EP.record E' (.ok report)).flow, z.2.accepted = true := by
    intro hrep z hz
    rcases List.mem_append.mp hz with hz | hz
    · exact h.flow z hz
    · obtain ⟨s, hs, rfl⟩ := List.mem_map.mp hz
      exact hoks s (hrep ▸ hs)
  have hold : ∀ z ∈ young2, z ∈ (EP.record E' (.ok report)).flow :=
    fun z hz => List.mem_append_left _ (hin2 z hz)
  change (if mid.childQty cast x = 0 then some (mid.idleStep flow bgFills)
    else mid.childStep cast y (mid.childQty cast x) flow bgFills) = some (E', report) at he
  split_ifs at he with hz
  · -- nothing is sent
    obtain ⟨rfl, rfl⟩ := Prod.mk.inj (Option.some.inj he)
    refine ⟨hflows rfl, fun c hc => ?_, young2, hold, hstamps2, hlen2.trans (by decide), ?_⟩
    · rw [show (EP.record _ _).children = EP.children ++ [] from rfl, List.append_nil] at hc
      change _ ∧ Banded (SimEnv.idleStep mid flow bgFills).1.arrivalMid c.price
      rw [SimEnv.idleStep, maybeCloseOut_eq]
      exact hmidPx ▸ h.children c hc
    · change Guarded _ (SimEnv.idleStep mid flow bgFills).1
      rw [SimEnv.idleStep, maybeCloseOut_eq]
      exact { hg2 with }
  · obtain ⟨hrep, hchild, hg3⟩ := hg2.childStep h2 (by rwa [List.length_map]) htop (hmidPx ▸ hlow)
      (hmidPx ▸ hhigh) he
    obtain ⟨-, -, -, -, -, hPx, -⟩ := childStep_book he
    have hbefore : ∀ z ∈ young2, z.1 ≠ EP.env.stepIdx := fun z hz hc =>
      List.countP_eq_zero.mp (Nat.le_zero.mp hL.present) z (hin2 z hz) (decide_eq_true hc)
    refine ⟨hflows hrep, fun c hc => ?_, (EP.env.stepIdx, top) :: young2, ?_, ?_, ?_, hg3⟩
    · change _ ∧ Banded E'.arrivalMid c.price
      rcases List.mem_append.mp hc with hc | hc
      · rw [hPx, hmidPx]
        exact h.children c hc
      · exact hchild c (Option.mem_toList.mp hc)
    · intro z hz
      rcases List.mem_cons.mp hz with rfl | hz
      · exact List.mem_append_right _ (List.mem_map_of_mem (hrep ▸ htopmem))
      · exact hold z hz
    · rw [List.map_cons, List.nodup_cons]
      refine ⟨fun hc => ?_, hstamps2⟩
      obtain ⟨z, hz, he⟩ := List.mem_map.mp hc
      exact hbefore z hz he
    · exact Nat.succ_le_succ hlen2

end Boundary

section Runs
variable {Ring Clock F D : Type} [EventRing Ring] [ClockFn Clock] [MachineFloat F] [MachineFloat D]
  {cast : Casts F D} {parentQty horizonSteps : Nat} {arrivalMid : Price}

theorem reachable_admitted (hlow : 0 ≤ arrivalMid - 5) (hhigh : arrivalMid + 5 ≤ 16383)
    {ok : Episode RefBook Unit Unit F → Call F → Prop} {EP : Episode RefBook Unit Unit F}
    (h : (refEpisodes cast parentQty horizonSteps arrivalMid).ReachableVia ok EP) : Admitted EP := by
  induction h with
  | init hinit =>
    obtain ⟨seed, E, hnew, rfl⟩ := hinit
    obtain ⟨E0, rfl, hshape, hempty, hrng, -⟩ := ref_new hnew
    exact .opened (opened_cleared cast hshape hempty hrng)
  | @step EP EP' c hreach hok hcall ih =>
    obtain ⟨hT, hparams⟩ := reachable_params hreach
    have hL := reachable_ledger hreach
    rcases call_cases hcall with ⟨action, rfl, -, rfl⟩ |
      ⟨sizeFrac, aggression, rest, E1, report, rfl, hE1, rfl⟩ | ⟨seed, env, rfl, hreset, rfl⟩
    · exact ih
    · by_cases hd : EP.env.done = true
      · rw [stepImpl_done hd] at hE1
        obtain ⟨rfl, rfl⟩ := Prod.mk.inj (Option.some.inj hE1)
        simp only [Episode.record, List.map_nil, List.append_nil, Option.toList_none]
        exact ih.writeState cast
      · have hA := ih.stepImpl hT hL (by simpa using hd) (hparams.arrivalMid.symm ▸ hlow)
          (hparams.arrivalMid.symm ▸ hhigh) hE1
        exact hA.writeState cast
    · obtain ⟨E', hE, hopened, -⟩ := ref_reset_opened hT hparams cast seed
      obtain rfl := Option.some.inj (hE.symm.trans hreset)
      exact .opened hopened

/-- The slab-eviction guard does its job: whatever is called, every order is priced inside the
band and accepted, and four slots of the book are free between any two calls. -/
theorem slab_guard {checked : Bool} (hlow : 0 ≤ arrivalMid - 5) (hhigh : arrivalMid + 5 ≤ 16383)
    {ep : Episode OrderBook Ring Clock F}
    (h : (episodes cast parentQty horizonSteps arrivalMid checked).Reachable ep) :
    (∀ c, ∃ ep', ep.call cast c = some ep') ∧
    (∀ x ∈ ep.flow, x.2.accepted = true ∧ OrderBook.defaultMinPrice ≤ x.2.price ∧
      x.2.price ≤ OrderBook.defaultMaxPrice) ∧
    (∀ c ∈ ep.children, c.accepted = true ∧ OrderBook.defaultMinPrice ≤ c.price ∧
      c.price ≤ OrderBook.defaultMaxPrice) ∧
    MatchingBook.openOrderCount ep.env.publisher.book + 4 ≤ kBookCapacity := by
  obtain ⟨EP, hreach, hf, hT⟩ := reachable_follows (P := fun _ _ => True) (fun _ _ _ => trivial) h
  have hA := reachable_admitted hlow hhigh hreach
  have hL := reachable_ledger hreach
  have hmid := (reachable_params hreach).2.arrivalMid
  have hband : ∀ px, Banded arrivalMid px →
      OrderBook.defaultMinPrice ≤ px ∧ px ≤ OrderBook.defaultMaxPrice :=
    fun px hpx => ⟨hlow.trans hpx.1, hpx.2.trans hhigh⟩
  refine ⟨fun c => ?_, fun x hx => ?_, fun c hc => ?_, ?_⟩
  · obtain ⟨ep', -, hcall, -⟩ := hf.call hT cast c
    exact ⟨ep', hcall⟩
  · rw [hf.flow] at hx
    obtain ⟨rng, hdraw⟩ := hL.drawn x hx
    have hpx := drawOrder_banded EP.env.arrivalMid rng
    rw [← hdraw, hmid] at hpx
    exact ⟨hA.flow x hx, hband x.2.price hpx⟩
  · rw [hf.children] at hc
    obtain ⟨hok, hpx⟩ := hA.children c hc
    rw [hmid] at hpx
    exact ⟨hok, hband c.price hpx⟩
  · obtain ⟨rs, hr⟩ := hf.env.book
    obtain ⟨young, -, -, hlen, hg⟩ := hA.young
    have hcount := hg.length_le hT
    rw [List.length_map] at hcount
    rw [hr.observers.1]
    change EP.env.publisher.book.orders.length + 4 ≤ kBookCapacity
    change EP.env.publisher.book.orders.length ≤ _ at hcount
    rw [kBookCapacity] at hcount ⊢
    omega

/-- With the mid as low as the band allows, two steps send 24 synthetic orders and a child, and
a reset later one more step sends its own. -/
theorem slab_guard_lowest_mid : ∃ ep : Episode OrderBook Unit Unit ℚ,
    (episodes exactCasts 1000 32 5 true).Reachable ep ∧ ep.flow.length = 12 ∧ ep.children.length = 1 ∧
    (∀ x ∈ ep.flow, x.2.accepted = true) ∧
    MatchingBook.openOrderCount ep.env.publisher.book + 4 ≤ kBookCapacity := by
  obtain ⟨ep, EP, hreach, hrun, hf⟩ := exists_run exactCasts () () 1000 32 5 true 2
    [.step [(1 : ℚ), 0], .step [1, 1], .reset 7, .step [1, 0]] (P := fun _ => True) fun _ _ => trivial
  have hval : (refRun exactCasts 1000 32 5 2 [.step [(1 : ℚ), 0], .step [1, 1], .reset 7, .step [1, 0]]).map
      (fun EP => (EP.flow.length, EP.children.length)) = some (12, 1) := by decide +kernel
  rw [hrun] at hval
  obtain ⟨hflow, hchildren⟩ := Prod.mk.inj (Option.some.inj hval)
  rw [← hf.flow] at hflow
  rw [← hf.children] at hchildren
  obtain ⟨-, hok, -, hcount⟩ := slab_guard (by decide) (by decide) hreach
  exact ⟨ep, hreach, hflow, hchildren, fun x hx => (hok x hx).1, hcount⟩

end Runs
end ExecutionPlatform.Bindings
