import AsmTree.Proofs.Assembly.Rows
import AsmTree.Proofs.Parser.Regions
import AsmTree.Proofs.Tree.Outline

/-!
# The outline of a file is complete

**Main statement (`exists_table_outline`):** the outline of a text of the assembly language that is
parsed without a diagnostic lists the labels and statements of its tree, each once and in the order
of the text.
-/

namespace AsmTree

open Machine AsmTree.Tree

namespace Parser

variable {g : Grammar} {t : ParseTable} {w : Nat → Nat} {out : Output}

/-- A parse without a diagnostic has the shape of a derivation. -/
theorem exists_derivation_of_quiet (h : Assembly.Shipped g t w) (options : ParseOptions)
    (text : String) (hrun : (fresh ⟨t, options⟩ text).run = some out) (hquiet : out.errors = []) :
    ∃ d : Derivation g (.nonterminal g.start), shapeAll t.isExtra out.children = d.skeleton := by
  have heof : t.isExtra .eof = false := Grammar.isExtra_eq_false h.build h.lines.extras.2
  have hparses := parses_of_run rfl
    (Grammar.acceptsAtEof_of_build h.wellFormed h.build h.indexed.actions) rfl
    (Or.inr (live_fresh (g := g) ⟨t, options⟩ text).ends) hrun hquiet
  exact hparses.skeleton h.hasTable heof h.lines.visible (sound_fresh heof text)

/-- **The outline of a file misses nothing and repeats nothing.** If a text of the assembly language
is parsed without a diagnostic, its outline, from items to items, is the list of all labels and
statements in the tree, in the order of the text. -/
theorem exists_table_outline : ∃ t, Assembly.table = .ok t ∧
    ∀ (options : ParseOptions) (text : String), ∃ tree,
      parse ⟨t, options⟩ text none = .ok tree ∧
      (tree.errors = [] → (⟨0, tree.root⟩ : Located).fileOutline =
        (⟨0, tree.root⟩ : Located).allNodes.filter fun l =>
          l.kind == .label || l.kind.isStatement) := by
  obtain ⟨g, t, w, h⟩ := Assembly.exists_shipped
  refine ⟨t, h.table, fun options text => ?_⟩
  obtain ⟨m, -, -, hrun⟩ := run_fresh (p := ⟨t, options⟩) h text
  obtain ⟨tree, hparse, hout⟩ : ∃ tree, parse ⟨t, options⟩ text none = .ok tree ∧
    tree.output = _ := exists_parse_of_run hrun
  refine ⟨tree, hparse, fun hquiet => ?_⟩
  have hquiet : tree.output.errors = [] := hquiet
  rw [← hout] at hrun
  have hlacks : lacksAll .error tree.children = true := lacks_of_quiet h options text hrun hquiet
  obtain ⟨d, hd⟩ : ∃ d : Derivation g _, shapeAll t.isExtra tree.children = d.skeleton :=
    exists_derivation_of_quiet h options text hrun hquiet
  obtain ⟨-, hextras⟩ := RuleSet.declared_of_toGrammar h.grammar
  have hnewline : t.isExtra .newline = false :=
    Grammar.isExtra_eq_false h.build (by rw [hextras]; decide)
  have hrows := Assembly.hasRows h.grammar
  obtain ⟨hstages, hrowed⟩ := Grammar.Derivation.row hrows d
  rw [← hd] at hrowed hstages
  have hall := everywhereAll_iff.1 (everywhereAll_inRow hnewline tree.children hlacks hrowed)
  have hstart : g.stage? (Assembly.within g) .lines (.nonterminal g.start) = some .lines := by
    rw [Grammar.stage?, hrows.start.1]
    exact hrows.start.2
  have hlines := hstages _ _ hstart
  rw [foldlM_shapeAll hnewline hlacks] at hlines
  exact (Located.listed_file hall hlines).symm

end Parser

end AsmTree
