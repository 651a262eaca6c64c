import AsmTree.Proofs.Machine.Stacks
import AsmTree.Proofs.Table.Settled

/-!
# Grammars that are seen to have a table

A check by computation: the kernels of a small grammar are found and have no conflicts. **Main
statement (`exists_hasTable`):** a grammar that passes it has a table that all its numbers fit into.
-/

namespace AsmTree

namespace Grammar

variable {g : Grammar}

/-- Whether a search of the kernels ends without a conflict, and the grammar is small. The bounds on
what follows take some rounds to compute. -/
def tabulates (g : Grammar) (rounds kernels : Nat) : Bool :=
  (Bounds.ofGrammar g rounds).closed g &&
    edgesClosed g.coded g.augmented.nonterminalCount
      (g.chart (Bounds.ofGrammar g rounds) rounds).edges &&
    (match g.search (Bounds.ofGrammar g rounds) rounds kernels with
      | some found => Nat.ble found.length 1024
      | none => false) &&
    Nat.ble g.nonterminals.size 1024 &&
    Nat.ble g.productions.size 1024 &&
    g.productions.toList.all fun p => Nat.ble p.rhs.length 1024

theorem exists_searched {rules : RuleSet} {rounds kernels : Nat} (hg : rules.toGrammar = .ok g)
    (h : g.tabulates rounds kernels = true) : ∃ found,
      g.Searched (Bounds.ofGrammar g rounds) rounds kernels found ∧ found.length ≤ 1024 := by
  simp only [tabulates, Bool.and_eq_true] at h
  obtain ⟨⟨⟨⟨⟨hbounds, hedges⟩, hsearch⟩, hnonterminals⟩, -⟩, -⟩ := h
  have hw := RuleSet.toGrammar_wellFormed hg
    (Nat.lt_of_le_of_lt (Nat.le_of_ble_eq_true hnonterminals) (by decide))
  split at hsearch
  · next found hfound =>
    exact ⟨found, ⟨hw, Bounds.closed_of_check hbounds, hedges, hfound⟩,
      Nat.le_of_ble_eq_true hsearch⟩
  · cases hsearch

/-- **A grammar that passes the check has a table.** -/
theorem exists_hasTable {rules : RuleSet} {rounds kernels : Nat} (hg : rules.toGrammar = .ok g)
    (h : g.tabulates rounds kernels = true) : ∃ t, g.HasTable t := by
  obtain ⟨found, hsearched, hlength⟩ := exists_searched hg h
  simp only [tabulates, Bool.and_eq_true, List.all_eq_true, Array.mem_toList_iff,
    Nat.ble_eq] at h
  obtain ⟨⟨⟨-, hnonterminals⟩, hsize⟩, hsymbols⟩ := h
  have hstates := Nat.le_trans hsearched.size_le hlength
  obtain ⟨t, ht⟩ := hsearched.build
  refine ⟨t, hsearched.wellFormed, ⟨fun p hp => ?_, ?_, ?_⟩, ht, ⟨?_, ?_⟩⟩
  · exact Nat.lt_of_le_of_lt (hsymbols p hp) (by decide)
  · exact Nat.lt_of_le_of_lt hsize (by decide)
  · exact Nat.le_trans hstates (by decide)
  · rw [size_actions ht]
    exact Nat.le_trans (Nat.mul_le_mul_right _ hstates) (by decide)
  · rw [size_gotos ht, nonterminalCount_augmented hsearched.wellFormed]
    exact Nat.le_trans (Nat.mul_le_mul hstates (Nat.succ_le_succ hnonterminals)) (by decide)

end Grammar

end AsmTree
