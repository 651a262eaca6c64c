import AsmTree.Proofs.Machine.Skeletons
import AsmTree.Proofs.Parser.Totality

/-!
# Accepted trees are derived

**Main statement (`shape_root`):** a tree that a parse accepts has the shape of a derivation of the
grammar, recovered regions standing for terminals, if the numbers of the grammar fit into its table
and its cells have numbers of their own.
-/

namespace AsmTree

namespace Parser

variable {g : Grammar} {t : ParseTable}

/-- **What a parse from scratch accepts, with or without recovery, is a tree of the grammar**, if
every number of the grammar fits where the table keeps it. -/
theorem shape_root (ht : g.HasTable t) (hvisible : ∀ id, g.kindOf? id ≠ some .error)
    (heof : .eof ∉ g.extras) (options : ParseOptions) (text : String)
    (ha : Accepts ⟨t, options⟩ text) {fuel : Nat} {out : Output}
    (hrun : (fresh ⟨t, options⟩ text).machine.run (fresh ⟨t, options⟩ text).setup fuel =
      some out) :
    ∃ d : Derivation g (.nonterminal g.start),
      (Tree.node .sourceFile out.children).shape t.isExtra = [.node .sourceFile d.skeleton] := by
  have hextra : t.isExtra .eof = false := by
    rw [ParseTable.isExtra, Grammar.extras_eq ht.build]
    simpa using heof
  obtain ⟨d, hd⟩ := shape_of_accepts (p := ⟨t, options⟩) ht hextra hvisible ha hrun
  refine ⟨d, ?_⟩
  rw [Tree.shape, if_neg (by decide), hd]

/-- A parse with a recovered region. -/
theorem shape_root_lines : ∃ g t out, ParseTable.build g = .ok t ∧
    (fresh ⟨t, {}⟩ "nop\n) )\n").run = some out ∧ ∃ d : Derivation g (.nonterminal g.start),
      (Tree.node .sourceFile out.children).shape t.isExtra = [.node .sourceFile d.skeleton] := by
  obtain ⟨g, t, w, h⟩ := Assembly.exists_shipped
  obtain ⟨m, hreach, hacc, hrun⟩ := run_fresh (p := ⟨t, {}⟩) h "nop\n) )\n"
  exact ⟨g, t, _, h.build, hrun,
    shape_root h.hasTable h.lines.visible h.lines.extras.2 {} _ ⟨m, hreach, hacc⟩ hrun⟩

end Parser

end AsmTree
