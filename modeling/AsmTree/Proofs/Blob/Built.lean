import AsmTree.Proofs.Assembly.Grammar
import AsmTree.Proofs.Blob.RoundTrip
import AsmTree.Proofs.Table.Faultless

/-!
# Tables that are built

Every number of a table that is built comes from the automaton or the grammar, so it names something
that exists and fits where it is kept. **Main statement (`ofBlob_toBlob_of_build`):** such a table
passes its own check and is read back from its blob.
-/

namespace AsmTree

namespace Grammar

variable {g : Grammar} {t : ParseTable}

/-! ## Targets -/

theorem exists_of_mem_actions (hg : g.WellFormed) (h : ParseTable.build g = .ok t) {a : Action}
    (ha : a ∈ t.actions) : ∃ state k, g.Permits state k a := by
  have hmem := ha
  rw [(build_eq_ok h).1, Construction.toTable, List.mem_toArray, List.mem_flatMap] at hmem
  obtain ⟨row, hrow, haction⟩ := hmem
  obtain ⟨state, hstate, rfl⟩ := List.mem_map.1 hrow
  obtain ⟨cell, hcell, rfl⟩ := List.mem_map.1 haction
  obtain ⟨k, hk, rfl⟩ := List.mem_map.1 hcell
  exact ⟨state, k, permits_cell hg (List.mem_range.1 hstate) k⟩

/-- The only move of a row stands in one of its cells. -/
theorem exists_of_mem_defaults (h : ParseTable.build g = .ok t) {p : Nat}
    (hp : some p ∈ t.defaults) : ∃ a ∈ t.actions, a.move = .reduce p := by
  have hmem := hp
  rw [(build_eq_ok h).1, Construction.toTable, List.mem_toArray, List.mem_map] at hmem
  obtain ⟨row, hrow, hdefault⟩ := hmem
  obtain ⟨first, hfirst, hmove, -⟩ := defaultOf?_eq_some hdefault
  refine ⟨first, ?_, hmove⟩
  rw [(build_eq_ok h).1, Construction.toTable, List.mem_toArray]
  exact List.mem_flatMap.2 ⟨row, hrow, hfirst⟩

theorem exists_of_mem_productions (h : ParseTable.build g = .ok t) {r : Reduction}
    (hr : r ∈ t.productions) : ∃ p < g.augmented.productions.size, r =
      ⟨g.augmented.lhs p, Reduction.lengthOf (g.augmented.rhs p),
        g.kindOf? (g.augmented.lhs p)⟩ := by
  obtain ⟨p, hp, rfl⟩ := Array.mem_iff_getElem.1 hr
  have hlt : p < g.augmented.productions.size := by
    rw [size_productions, ← productionCount_eq h]
    exact hp
  refine ⟨p, hlt, ?_⟩
  rw [← production_eq h hlt, ParseTable.production, Array.getD_eq_getD_getElem?,
    Array.getElem?_eq_getElem hp]
  rfl

theorem shift_lt (hg : g.WellFormed) (hf : g.Fits) (h : ParseTable.build g = .ok t) {a : Action}
    (ha : a ∈ t.actions) {target : Nat} (hm : a.move = .shift target) :
    target < g.automaton.size := by
  obtain ⟨state, k, hcell⟩ := exists_of_mem_actions hg h ha
  exact (lt_of_next? hg (hcell.next? hg hf hm)).2

theorem reduction_lt (hg : g.WellFormed) (hf : g.Fits) (h : ParseTable.build g = .ok t)
    {a : Action} (ha : a ∈ t.actions) {p : Nat} (hm : a.move = .reduce p) :
    p < g.productions.size + 1 := by
  obtain ⟨state, k, hcell⟩ := exists_of_mem_actions hg h ha
  obtain ⟨item, hc, -, rfl, -⟩ := hcell.complete hg hf hm
  exact Nat.lt_succ_of_le (hc.production_le hg)

theorem default_lt (hg : g.WellFormed) (hf : g.Fits) (h : ParseTable.build g = .ok t) {p : Nat}
    (hp : some p ∈ t.defaults) : p < g.productions.size + 1 := by
  obtain ⟨a, ha, hm⟩ := exists_of_mem_defaults h hp
  exact reduction_lt hg hf h ha hm

theorem resumeState_lt (hg : g.WellFormed) (h : ParseTable.build g = .ok t) {state : Nat}
    (hs : t.resumeState = some state) : state < g.automaton.size := by
  rw [resumeState_eq h] at hs
  obtain ⟨id, -, hm⟩ := Option.bind_eq_some_iff.1 hs
  exact (lt_of_next? hg hm).2

/-! ## The whole table -/

/-- **A table that is built has no fault**, if its nodes and extras are of the kinds that a table
may have for them. -/
theorem faultless_of_build (hg : g.WellFormed) (hf : g.Fits) (h : ParseTable.build g = .ok t)
    (hnodes : ∀ id k, g.kindOf? id = some k → k.isNode = true)
    (hextras : ∀ k ∈ g.extras, k.isToken = true ∧ k ≠ .newline ∧ k ≠ .eof ∧ k ≠ .error) :
    t.Faultless where
  terminalCount := terminalCount_eq h
  actionsSize := by rw [size_actions h, stateCount_eq h, terminalCount_eq h]
  gotosSize := by rw [size_gotos h, stateCount_eq h, nonterminalCount_eq h]
  contextsSize := by rw [size_contexts h, stateCount_eq h]
  states := by
    rw [stateCount_eq h]
    exact Nat.ne_of_gt (size_pos g)
  shifts := fun a ha state hm => by
    rw [stateCount_eq h]
    exact shift_lt hg hf h ha hm
  reductions := fun a ha p hm => by
    rw [productionCount_eq h]
    exact reduction_lt hg hf h ha hm
  gotos := fun state hs => by
    rw [stateCount_eq h]
    exact goto_lt hg h hs
  defaults := fun p hp => by
    rw [productionCount_eq h]
    exact default_lt hg hf h hp
  lhs := fun r hr => by
    obtain ⟨p, hp, rfl⟩ := exists_of_mem_productions h hr
    rw [nonterminalCount_eq h]
    exact lhs_lt hg hp
  nodes := fun r hr k hk => by
    obtain ⟨p, -, rfl⟩ := exists_of_mem_productions h hr
    exact hnodes _ k hk
  resumeState := fun state hs => by
    rw [stateCount_eq h]
    exact resumeState_lt hg h hs
  extras := by
    rw [extras_eq h]
    exact hextras

/-- The numbers of a table that is built fit into the words of a blob. -/
theorem sized_of_build (hg : g.WellFormed) (hf : g.Fits) (h : ParseTable.build g = .ok t)
    (hnonterminals : g.nonterminals.size < 2 ^ 16) (hextras : g.extras.length < 2 ^ 64) :
    t.Sized := by
  have hstates := hf.states
  have hproductions := hf.productions
  have htokens : Kind.tokenCount < 2 ^ 16 := by decide
  have hcolumns : g.augmented.nonterminalCount ≤ 2 ^ 16 := by
    rw [nonterminalCount_augmented hg]
    exact hnonterminals
  exact {
    grammarVersion := by
      rw [grammarVersion_eq h]
      decide
    terminalCount := by
      rw [terminalCount_eq h]
      decide
    nonterminalCount := by
      rw [nonterminalCount_eq h]
      omega
    gotos := fun n hn => by
      have hlt := goto_lt hg h hn
      omega
    defaults := fun n hn => by
      have hlt := default_lt hg hf h hn
      omega
    productions := fun r hr => by
      obtain ⟨p, hp, rfl⟩ := exists_of_mem_productions h hr
      exact ⟨Nat.lt_of_lt_of_le (lhs_lt hg hp) hcolumns, Nat.mod_lt _ (by decide)⟩
    resumeState := fun n hn => by
      have hlt := resumeState_lt hg h hn
      omega
    actionsSize := by
      rw [size_actions h]
      exact Nat.lt_of_le_of_lt (Nat.mul_le_mul hstates htokens.le) (by decide)
    gotosSize := by
      rw [size_gotos h]
      exact Nat.lt_of_le_of_lt (Nat.mul_le_mul hstates hcolumns) (by decide)
    defaultsSize := by
      have hsize := stateCount_eq h
      rw [ParseTable.stateCount] at hsize
      omega
    productionsSize := by
      have hsize := productionCount_eq h
      rw [ParseTable.productionCount] at hsize
      omega
    contextsSize := by
      rw [size_contexts h]
      omega
    extrasLength := by
      rw [extras_eq h]
      exact hextras }

end Grammar

namespace RuleSet

/-- **A table that is built passes its own check and is read back from its blob**, if its nodes and
extras are of the kinds that a table may have for them. -/
theorem ofBlob_toBlob_of_build {rules : RuleSet} {g : Grammar} {t : ParseTable}
    (hg : rules.toGrammar = .ok g)
    (hnodes : ∀ d ∈ rules.definitions, ∀ k, d.kind = some k → k.isNode = true)
    (hextras : ∀ k ∈ rules.extras, k.isToken = true ∧ k ≠ .newline ∧ k ≠ .eof ∧ k ≠ .error)
    (hlength : rules.extras.length < 2 ^ 64) (hnonterminals : g.nonterminals.size < 2 ^ 16)
    (hf : g.Fits) (h : ParseTable.build g = .ok t) :
    t.check = true ∧ ParseTable.ofBlob t.toBlob = .ok t := by
  have hw := toGrammar_wellFormed hg hnonterminals
  rw [← (declared_of_toGrammar hg).2] at hextras hlength
  have hcheck : t.check = true := by
    refine ParseTable.check_eq_true_iff.2 (Grammar.faultless_of_build hw hf h ?_ hextras)
    intro id k hk
    obtain ⟨d, hd, hkind⟩ := exists_of_kindOf? hg hk
    exact hnodes d hd k hkind
  have hread := ParseTable.ofBlob_toBlob_append
    (Grammar.sized_of_build hw hf h hnonterminals hlength) []
  rw [List.append_nil] at hread
  exact ⟨hcheck, hread.trans (ParseTable.accept_eq_ok (Grammar.grammarVersion_eq h) hcheck)⟩

/-- The table of the assembly language is read back. -/
theorem ofBlob_toBlob_shipped :
    (∀ d ∈ Assembly.rules.definitions, ∀ k, d.kind = some k → k.isNode = true) ∧
    (∀ k ∈ Assembly.rules.extras, k.isToken = true ∧ k ≠ .newline ∧ k ≠ .eof ∧ k ≠ .error) ∧
    Assembly.rules.extras.length < 2 ^ 64 ∧ ∃ g t, Assembly.rules.toGrammar = .ok g ∧
      g.nonterminals.size < 2 ^ 16 ∧ g.Fits ∧ ParseTable.build g = .ok t ∧ t.check = true ∧
        ParseTable.ofBlob t.toBlob = .ok t := by
  have hnodes : ∀ d ∈ Assembly.rules.definitions, ∀ k, d.kind = some k → k.isNode = true := by
    decide +kernel
  have hextras : ∀ k ∈ Assembly.rules.extras,
      k.isToken = true ∧ k ≠ .newline ∧ k ≠ .eof ∧ k ≠ .error := by
    decide +kernel
  have hlength : Assembly.rules.extras.length < 2 ^ 64 := by decide
  have hsize : (Assembly.grammar.toOption.any (·.nonterminals.size < 2 ^ 16)) = true := by
    decide +kernel
  obtain ⟨g, t, w, h⟩ := Assembly.exists_shipped
  rw [h.grammar] at hsize
  have hnonterminals : g.nonterminals.size < 2 ^ 16 := of_decide_eq_true hsize
  exact ⟨hnodes, hextras, hlength, g, t, h.grammar, hnonterminals, h.fits, h.build,
    ofBlob_toBlob_of_build h.grammar hnodes hextras hlength hnonterminals h.fits h.build⟩

end RuleSet

end AsmTree
