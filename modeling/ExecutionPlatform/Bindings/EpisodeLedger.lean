import ExecutionPlatform.Bindings.EpisodeAccount

/-! The record of an episode's orders: each was sent once, and every resting order is what
is left of one of them. -/
namespace ExecutionPlatform.Bindings
open ExecutionPlatform.Core External Exec Foundations Episode SimEnv

/-- What is known of the orders sent so far, k synthetic ones of them in the present step. -/
structure Ledger {F : Type} (k : Nat) (env : SimEnv RefBook Unit Unit F)
    (flow : List (Nat × Submission)) (children : List Submission) : Prop where
  nodup : (flow.map fun x => x.2.id).Nodup
  flow_issued : ∀ x ∈ flow, x.2.id < env.nextId
  children_issued : ∀ c ∈ children, c.id < env.nextId
  apart : ∀ x ∈ flow, ∀ c ∈ children, x.2.id ≠ c.id
  sells : ∀ c ∈ children, c.side = .sell
  drawn : ∀ x ∈ flow, ∃ rng, x.2.draw = (drawOrder env.arrivalMid rng).1
  born : ∀ x ∈ flow, x.1 ≤ env.stepIdx
  present : flow.countP (fun x => x.1 = env.stepIdx) ≤ k
  perStep : ∀ n, flow.countP (fun x => x.1 = n) ≤ 12
  bgIds : env.bgIds = (flow.filter fun x => x.2.accepted).map fun x => x.2.id
  bgBirth : env.bgBirth = (flow.filter fun x => x.2.accepted).map fun x => x.1
  orders : ∀ o ∈ env.orders, (∃ x ∈ flow, x.2.accepted = true ∧ o.PartOf x.2.order) ∨
    ∃ c ∈ children, o.PartOf c.order

namespace Ledger
variable {F D : Type} {k : Nat} {env env' start mid : SimEnv RefBook Unit Unit F}
  {flow : List (Nat × Submission)} {children : List Submission}

theorem opened {seed : BitVec 64} (h : Opened seed env) : Ledger 0 env [] [] := by
  refine ⟨List.nodup_nil, by simp, by simp, by simp, by simp, by simp, by simp, by simp, by simp, h.bgIds,
    h.bgBirth, fun o ho => ?_⟩
  rw [h.orders] at ho
  cases ho

theorem churned (h : Ledger k env flow children)
    (hs : start = { env with publisher := start.publisher, bgHead := start.bgHead })
    (hsub : start.orders.Sublist env.orders) : Ledger k start flow children := by
  have horders : ∀ o ∈ start.orders, _ := fun o ho => h.orders o (hsub.subset ho)
  rw [hs] at horders ⊢
  exact { h with orders := horders }

/-- Orders stamped with one step index count for that step only. -/
private theorem countP_stamped (t n : Nat) (new : List Submission) :
    (new.map fun s => (t, s)).countP (fun x => decide (x.1 = n)) =
      if t = n then new.length else 0 := by
  rw [List.countP_map]
  split_ifs with hn
  · exact List.countP_eq_length.mpr fun _ _ => decide_eq_true hn
  · exact List.countP_eq_zero.mpr fun _ _ hs => hn (of_decide_eq_true hs)

theorem flowed {new : List Submission} {fills : List Fill} (h : Ledger 0 start flow children)
    (hk : k ≤ 12) (hflow : FlowEffect k start mid new fills) :
    Ledger k mid (flow ++ new.map fun s => (start.stepIdx, s)) children := by
  have hnew : ∀ s ∈ new, start.nextId ≤ s.id ∧ s.id < start.nextId + k := fun s hs => by
    have hid : s.id ∈ List.range' start.nextId k := hflow.ids ▸ List.mem_map_of_mem hs
    obtain ⟨hle, hlt⟩ := List.mem_range'_1.mp hid
    exact ⟨hle, hlt⟩
  have hlen : new.length = k := by
    rw [← List.length_map Submission.id, hflow.ids, List.length_range']
  have hnext := hflow.nextId
  have hidx := hflow.account.stepIdx
  have hpresent := h.present
  refine ⟨?_, ?_, ?_, ?_, h.sells, ?_, ?_, ?_, ?_, ?_, ?_, ?_⟩
  · rw [List.map_append, List.map_map, List.nodup_append]
    refine ⟨h.nodup, ?_, ?_⟩
    · change (new.map Submission.id).Nodup
      rw [hflow.ids]
      exact List.nodup_range'
    · intro a ha b hb
      obtain ⟨x, hx, rfl⟩ := List.mem_map.mp ha
      obtain ⟨s, hs, rfl⟩ := List.mem_map.mp hb
      exact ((h.flow_issued x hx).trans_le (hnew s hs).1).ne
  · intro x hx
    rcases List.mem_append.mp hx with hx | hx
    · exact (h.flow_issued x hx).trans_le (hnext ▸ Nat.le_add_right ..)
    · obtain ⟨s, hs, rfl⟩ := List.mem_map.mp hx
      exact hnext ▸ (hnew s hs).2
  · exact fun c hc => (h.children_issued c hc).trans_le (hnext ▸ Nat.le_add_right ..)
  · intro x hx c hc
    rcases List.mem_append.mp hx with hx | hx
    · exact h.apart x hx c hc
    · obtain ⟨s, hs, rfl⟩ := List.mem_map.mp hx
      exact ((h.children_issued c hc).trans_le (hnew s hs).1).ne'
  · intro x hx
    rw [hflow.account.arrivalMid]
    rcases List.mem_append.mp hx with hx | hx
    · exact h.drawn x hx
    · obtain ⟨s, hs, rfl⟩ := List.mem_map.mp hx
      have hdraw : s.draw ∈ flowDraws start.arrivalMid k start.rng :=
        hflow.draws ▸ List.mem_map_of_mem hs
      exact flowDraws_drawn hdraw
  · intro x hx
    rw [hidx]
    rcases List.mem_append.mp hx with hx | hx
    · exact h.born x hx
    · obtain ⟨s, hs, rfl⟩ := List.mem_map.mp hx
      exact le_rfl
  · rw [hidx, List.countP_append, countP_stamped, if_pos rfl, hlen]
    omega
  · intro n
    rw [List.countP_append, countP_stamped]
    split_ifs with hn
    · subst hn
      omega
    · exact h.perStep n
  · rw [hflow.bgIds, h.bgIds, List.filter_append, List.map_append, List.filter_map, List.map_map]
    rfl
  · rw [hflow.bgBirth, h.bgBirth, List.filter_append, List.map_append, List.filter_map, List.map_map]
    rfl
  · intro o ho
    rcases hflow.orders o ho with ⟨m, hm, hpart⟩ | ⟨s, hs, hacc, hpart⟩
    · rcases h.orders m hm with ⟨x, hx, hacc, hpart'⟩ | ⟨c, hc, hpart'⟩
      · exact .inl ⟨x, List.mem_append_left _ hx, hacc, hpart.trans hpart'⟩
      · exact .inr ⟨c, hc, hpart.trans hpart'⟩
    · exact .inl ⟨_, List.mem_append_right _ (List.mem_map_of_mem hs), hacc, hpart⟩

/-- The next step has sent nothing yet. -/
theorem tick (h : Ledger k env flow children) :
    Ledger 0 { env with stepIdx := env.stepIdx + 1 } flow children :=
  { h with
    born := fun x hx => Nat.le_succ_of_le (h.born x hx)
    present := (List.countP_eq_zero.mpr fun x hx => by
      simpa using (Nat.lt_succ_of_le (h.born x hx)).ne).le }

variable [MachineFloat F] [MachineFloat D] {cast : Casts F D}

theorem sold {aggression : F} {s : Submission} {new : List Submission} {bgFills fills : List Fill}
    {report : StepReport F} (h : Ledger k mid flow children)
    (hchild : ChildEffect cast aggression mid env s new bgFills fills report) :
    Ledger 0 env flow (children ++ [s]) := by
  have ht := h.tick
  have hidx : env.stepIdx = mid.stepIdx + 1 := hchild.stepIdx
  refine ⟨h.nodup, ?_, ?_, ?_, ?_, ?_, ?_, ?_, h.perStep, hchild.bgIds.trans h.bgIds,
    hchild.bgBirth.trans h.bgBirth, ?_⟩
  · exact fun x hx => (h.flow_issued x hx).trans (hchild.nextId ▸ Nat.lt_succ_self _)
  · intro c hc
    rw [hchild.nextId]
    rcases List.mem_append.mp hc with hc | hc
    · exact Nat.lt_succ_of_lt (h.children_issued c hc)
    · obtain rfl := List.mem_singleton.mp hc
      exact Nat.lt_succ_of_le hchild.id.le
  · intro x hx c hc
    rcases List.mem_append.mp hc with hc | hc
    · exact h.apart x hx c hc
    · obtain rfl := List.mem_singleton.mp hc
      exact (hchild.id ▸ h.flow_issued x hx).ne
  · intro c hc
    rcases List.mem_append.mp hc with hc | hc
    · exact h.sells c hc
    · obtain rfl := List.mem_singleton.mp hc
      exact hchild.side
  · exact hchild.arrivalMid ▸ h.drawn
  · exact hidx ▸ ht.born
  · exact hidx ▸ ht.present
  · intro o ho
    rcases hchild.orders o ho with ⟨m, hm, hpart⟩ | hpart
    · rcases h.orders m hm with ⟨x, hx, hacc, hpart'⟩ | ⟨c, hc, hpart'⟩
      · exact .inl ⟨x, hx, hacc, hpart.trans hpart'⟩
      · exact .inr ⟨c, List.mem_append_left _ hc, hpart.trans hpart'⟩
    · exact .inr ⟨s, List.mem_append_right _ (List.mem_singleton_self s), hpart⟩

/-- The ledger through a whole live step. -/
theorem stepped {sizeFrac aggression : F} {EP : Episode RefBook Unit Unit F}
    {E' : SimEnv RefBook Unit Unit F} {report : StepReport F} {bgFills : List Fill}
    (h : Ledger 0 EP.env EP.flow EP.children)
    (heffect : StepEffect cast sizeFrac aggression EP.env E' report start mid bgFills) :
    Ledger 0 start EP.flow EP.children ∧
      Ledger 12 mid (EP.record E' (.ok report)).flow EP.children ∧
      Ledger 0 E' (EP.record E' (.ok report)).flow (EP.record E' (.ok report)).children := by
  have hstart := h.churned heffect.churn heffect.kept
  have hidx : start.stepIdx = EP.env.stepIdx := by
    rw [heffect.churn]
  have hmid := hstart.flowed le_rfl heffect.flow
  rw [hidx] at hmid
  refine ⟨hstart, hmid, ?_⟩
  rcases heffect.branch with ⟨-, hidle⟩ | ⟨-, s, fills, -, hchild⟩
  · obtain ⟨rfl, hreport⟩ := Prod.mk.inj hidle
    have hnone : report.child = none := by rw [hreport]
    rw [maybeCloseOut_eq]
    simp only [Episode.record, hnone, Option.toList_none, List.append_nil]
    exact { hmid.tick with }
  · simp only [Episode.record, hchild.child, Option.toList_some]
    exact hmid.sold hchild

end Ledger

/-- Every reachable reference episode has a ledger. -/
theorem reachable_ledger {F D : Type} [MachineFloat F] [MachineFloat D] {cast : Casts F D}
    {parentQty horizonSteps : Nat} {arrivalMid : Price}
    {ok : Episode RefBook Unit Unit F → Call F → Prop} {EP : Episode RefBook Unit Unit F}
    (h : (refEpisodes cast parentQty horizonSteps arrivalMid).ReachableVia ok EP) :
    Ledger 0 EP.env EP.flow EP.children := by
  refine (ref_invariant (I := fun EP => Ledger 0 EP.env EP.flow EP.children) ?_ ?_ ?_ h).1
  · exact fun seed E hopen _ => .opened hopen
  · exact fun EP hI => { hI with }
  · intro EP E' report start mid bgFills x y rest _ _ _ _ _ heffect hI
    exact (hI.stepped heffect).2.2

end ExecutionPlatform.Bindings
