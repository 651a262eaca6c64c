import AsmTree.Proofs.Table.Cells

/-!
# Tables without fault

In a table without fault every number names something that exists. **Main statements:**

* `check_eq_true_iff`: the check of a table looks for exactly that;
* `Faultless.closed`: what the lookups of such a table lead to exists.
-/

namespace AsmTree

namespace ParseTable

/-- Every number of the table names something that exists. -/
structure Faultless (t : ParseTable) : Prop where
  terminalCount : t.terminalCount = Kind.tokenCount
  actionsSize : t.actions.size = t.stateCount * t.terminalCount
  gotosSize : t.gotos.size = t.stateCount * t.nonterminalCount
  contextsSize : t.contexts.size = t.stateCount
  states : t.stateCount ≠ 0
  shifts : ∀ a ∈ t.actions, ∀ state, a.move = .shift state → state < t.stateCount
  reductions : ∀ a ∈ t.actions, ∀ p, a.move = .reduce p → p < t.productionCount
  gotos : ∀ state, some state ∈ t.gotos → state < t.stateCount
  defaults : ∀ p, some p ∈ t.defaults → p < t.productionCount
  /-- Productions form nonterminals that have a column. -/
  lhs : ∀ r ∈ t.productions, r.lhs < t.nonterminalCount
  nodes : ∀ r ∈ t.productions, ∀ k, r.kind = some k → k.isNode = true
  resumeState : ∀ state, t.resumeState = some state → state < t.stateCount
  extras : ∀ k ∈ t.extras, k.isToken = true ∧ k ≠ .newline ∧ k ≠ .eof ∧ k ≠ .error

variable {t : ParseTable} {states productions nonterminals bound : Nat} {a : Action}
  {r : Reduction} {k : Kind} {targets : List (Option Nat)}

theorem actionFault?_eq_none : actionFault? states productions a = none ↔
    (∀ state, a.move = .shift state → state < states) ∧
      ∀ p, a.move = .reduce p → p < productions := by
  unfold actionFault?
  cases a.move <;> simp

theorem productionFault?_eq_none : productionFault? nonterminals r = none ↔
    r.lhs < nonterminals ∧ ∀ k, r.kind = some k → k.isNode = true := by
  unfold productionFault?
  rw [ite_eq_iff, ← Nat.not_le]
  cases r.kind <;> simp

theorem extraFault?_eq_none : extraFault? k = none ↔
    k.isToken = true ∧ k ≠ .newline ∧ k ≠ .eof ∧ k ≠ .error := by
  simp [extraFault?, and_assoc]

theorem outside?_eq_none :
    outside? bound targets = none ↔ ∀ n, some n ∈ targets → n < bound := by
  rw [outside?, List.findSome?_eq_none_iff]
  constructor
  · intro h n hn
    simpa using h _ hn
  · intro h target htarget
    cases target with
    | none => rfl
    | some n => exact if_pos (h n htarget)

/-- **The check of a table finds every fault and no other.** -/
theorem check_eq_true_iff : t.check = true ↔ t.Faultless := by
  rw [check, Option.isNone_iff_eq_none, fault?]
  simp only [ite_eq_iff, reduceCtorEq, and_false, false_or, not_not, ne_eq, Option.orElse_eq_orElse,
    Option.orElse_eq_or, Option.or_eq_none_iff, Option.map_eq_none_iff, outside?_eq_none,
    SparseArray.mem_toList, Array.mem_toList_iff,
    Array.findSome?_eq_none_iff, List.findSome?_eq_none_iff, actionFault?_eq_none,
    productionFault?_eq_none, extraFault?_eq_none]
  constructor
  · rintro ⟨hterminals, hactions, hgotos, hcontexts, hstates, hmoves, htargets, hdefaults,
      hproductions, hstate, hextras⟩
    exact {
      terminalCount := hterminals
      actionsSize := hactions
      gotosSize := hgotos
      contextsSize := hcontexts
      states := hstates
      shifts := fun a ha => (hmoves a ha).1
      reductions := fun a ha => (hmoves a ha).2
      gotos := htargets
      defaults := hdefaults
      lhs := fun r hr => (hproductions r hr).1
      nodes := fun r hr => (hproductions r hr).2
      resumeState := fun state hs => by
        rw [hs] at hstate
        simpa using hstate
      extras := hextras }
  · intro h
    refine ⟨h.terminalCount, h.actionsSize, h.gotosSize, h.contextsSize, h.states,
      fun a ha => ⟨h.shifts a ha, h.reductions a ha⟩, h.gotos, h.defaults,
      fun r hr => ⟨h.lhs r hr, h.nodes r hr⟩, ?_, h.extras⟩
    cases hs : t.resumeState with
    | none => rfl
    | some state => exact if_pos (h.resumeState state hs)

/-! ## What lookups lead to -/

/-- Where the lookups of a table lead, exists. -/
structure Closed (t : ParseTable) : Prop where
  shift : ∀ {state k target}, (t.explicitAction state k).move = .shift target →
    target < t.stateCount
  reduce : ∀ {state k p}, (t.explicitAction state k).move = .reduce p → p < t.productionCount
  default : ∀ {state p}, t.default? state = some p → p < t.productionCount
  lhs : ∀ {p}, p < t.productionCount → (t.production p).lhs < t.nonterminalCount
  goto : ∀ {state id target}, t.goto? state id = some target → target < t.stateCount

theorem mem_actions_of_move (state : Nat) (k : Kind)
    (h : (t.explicitAction state k).move ≠ .error) : t.explicitAction state k ∈ t.actions := by
  unfold explicitAction at h ⊢
  split at h
  · next hk =>
    rw [if_pos hk]
    rw [Array.getD_eq_getD_getElem?] at h ⊢
    cases hcell : t.actions[cellNumber t.terminalCount state k.index]? with
    | none =>
      rw [hcell] at h
      exact absurd rfl h
    | some a => exact Array.mem_of_getElem? hcell
  · exact absurd rfl h

theorem production_mem {p : Nat} (h : p < t.productionCount) : t.production p ∈ t.productions := by
  rw [production, Array.getD_eq_getD_getElem?, Array.getElem?_eq_getElem h]
  exact Array.getElem_mem h

/-- **What the lookups of a table without fault lead to exists.** -/
theorem Faultless.closed (h : t.Faultless) : t.Closed where
  shift {state k target} hm :=
    h.shifts _ (mem_actions_of_move state k (by rw [hm]; exact Move.noConfusion)) target hm
  reduce {state k p} hm :=
    h.reductions _ (mem_actions_of_move state k (by rw [hm]; exact Move.noConfusion)) p hm
  default {state p} hd := h.defaults p (Array.mem_of_getElem? (Option.join_eq_some_iff.1 hd))
  lhs hp := h.lhs _ (production_mem hp)
  goto {state id target} hg :=
    h.gotos target (SparseArray.mem_iff.2 ⟨_, Option.join_eq_some_iff.1 hg⟩)

/-- Production of an action, a default reduction included. The word of an action may have lost the
upper bits of its number. -/
theorem Closed.action (h : t.Closed) {state p : Nat} (hm : (t.action state k).move = .reduce p) :
    p < t.productionCount := by
  unfold ParseTable.action at hm
  split at hm
  · next q hd =>
    rw [Action.move_reduce] at hm
    cases hm
    exact Nat.lt_of_le_of_lt (Nat.mod_le q _) (h.default hd)
  · exact h.reduce hm

end ParseTable

end AsmTree
