import AsmTree.Proofs.Machine.Regions
import AsmTree.Proofs.Parser.Consistency
import AsmTree.Proofs.Parser.Exact

/-!
# Diagnostics and recovered regions go together

**Main statement (`exists_table_reported_iff`):** a text of the assembly language is parsed with a
diagnostic exactly if its tree has a recovered region, and every unreadable token lies in one.
-/

namespace AsmTree

open Machine AsmTree.Tree

theorem SyntaxTree.errorRanges_of_lacks {tree : SyntaxTree}
    (h : lacksAll .error tree.children = true) : tree.errorRanges = [] := by
  have hroot : tree.root.lacks .error = true := by
    rw [root, lacks, h]
    decide
  refine List.filterMap_eq_nil_iff.2 fun e he => ?_
  have hne := (ne_of_lacks 0 0 _ hroot [] e he).resolve_right List.not_mem_nil
  simp [hne]

namespace Parser

variable {g : Grammar} {t : ParseTable} {w : Nat → Nat} {out : Output}

theorem contained_fresh (h : Assembly.Shipped g t w) (options : ParseOptions) (text : String)
    (hrun : (fresh ⟨t, options⟩ text).run = some out) : Contained out.children out.errors := by
  obtain ⟨-, hextras⟩ := RuleSet.declared_of_toGrammar h.grammar
  have hextra {k : Kind} (hk : k ∉ g.extras) := Grammar.isExtra_eq_false h.build hk
  have heof := hextra h.lines.extras.2
  have hcontains : (fresh ⟨t, options⟩ text).machine.Contains :=
    ⟨fun _ => rfl, fun tree htree => by cases htree⟩
  exact hcontains.run (hextra (by rw [hextras]; decide)) rfl
    (Grammar.move_ne_shift h.wellFormed h.build h.indexed.actions
      (Assembly.unknown_not_mem_rhs h.grammar)) heof
    (sorted_group (by simp) heof) hrun

/-- A parse from scratch without a diagnostic lacks recovered regions. -/
theorem lacks_of_quiet (h : Assembly.Shipped g t w) (options : ParseOptions) (text : String)
    (hrun : (fresh ⟨t, options⟩ text).run = some out) (hquiet : out.errors = []) :
    lacksAll .error out.children = true :=
  have hparses := parses_of_run rfl
    (Grammar.acceptsAtEof_of_build h.wellFormed h.build h.indexed.actions) rfl
    (Or.inr (live_fresh (g := g) ⟨t, options⟩ text).ends) hrun hquiet
  hparses.lacks (lacks_fresh ⟨t, options⟩ text) Kind.noConfusion
    (kind_production_ne h.build h.lines.visible)

/-- **Nothing is recovered silently, and nothing is reported without a recovery:** a parse from
scratch has a diagnostic exactly if its tree has a recovered region, and each unreadable token lies
in one. -/
theorem exists_table_reported_iff : ∃ t, Assembly.table = .ok t ∧
    ∀ (options : ParseOptions) (text : String), ∃ tree,
      parse ⟨t, options⟩ text none = .ok tree ∧
      (tree.errors ≠ [] ↔ tree.errorRanges ≠ []) ∧
      ∀ x ∈ (⟨0, tree.root⟩ : Located).subtrees, x.isToken = true → x.kind = .unknown →
        x.InRegion (⟨0, tree.root⟩ : Located).subtrees := by
  obtain ⟨g, t, w, h⟩ := Assembly.exists_shipped
  refine ⟨t, h.table, fun options text => ?_⟩
  obtain ⟨m, -, -, hrun⟩ := run_fresh (p := ⟨t, options⟩) h text
  obtain ⟨tree, hparse, hout⟩ : ∃ tree, parse ⟨t, options⟩ text none = .ok tree ∧
    tree.output = _ := exists_parse_of_run hrun
  have hcontained := contained_fresh h options text hrun
  have hlacks := lacks_of_quiet h options text hrun
  rw [← hout] at hcontained hlacks
  refine ⟨tree, hparse, not_congr ⟨fun hquiet => ?_, fun hnone => ?_⟩, fun x hx htoken hk => ?_⟩
  · exact SyntaxTree.errorRanges_of_lacks (hlacks hquiet)
  · exact hcontained.reported (SyntaxTree.errorRanges_eq_nil.1 hnone)
  · exact Tree.Sheltered.inRegion (e := ⟨0, tree.root⟩)
      (sheltered_node.2 (Or.inr hcontained.sheltered)) hx htoken hk

end Parser

end AsmTree
