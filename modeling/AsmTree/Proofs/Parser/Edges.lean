import AsmTree.Proofs.Machine.Edges
import AsmTree.Proofs.Parser.Totality

/-!
# Nodes begin and end with tokens of the grammar

**Main statement (`not_extra_of_edge`):** in a parse from scratch, no node but the root begins or
ends with an extra token, for every grammar that has a table.
-/

namespace AsmTree

open Machine AsmTree.Tree

theorem Located.not_extra_of_trimmed {t : ParseTable} {l c : Located}
    (h : l.tree.Everywhere (Trimmed t))
    (hc : l.children.head? = some c ∨ l.children.getLast? = some c) :
    isExtraTree t c.tree = false := by
  obtain ⟨start, tree⟩ := l
  cases tree with
  | token k text => rcases hc with hc | hc <;> cases hc
  | node k cs =>
    refine (everywhere_node.1 h).1 c.tree ?_
    rw [← Located.map_tree_row start cs, List.head?_map, List.getLast?_map]
    exact hc.imp (congrArg (Option.map tree)) (congrArg (Option.map tree))

namespace Parser

variable {g : Grammar} {t : ParseTable}

theorem edged_fresh (p : Parser) (heof : p.table.isExtra .eof = false) (text : String) :
    (p.fresh text).machine.Edged (p.fresh text).setup where
  firm f hf := by
    obtain rfl := List.mem_singleton.1 hf
    exact firm_nil
  trimmed _ htree := by cases htree
  input := sorted_group (by simp) heof

/-- **Extras stay outside of nodes.** The tokens of extra kinds that stand in front of a node, or
behind one, are children of a node above it; only the root may begin or end with them. The end of
the text is not an extra: behind it there would be no other token to go on with, and no parse would
return. -/
theorem not_extra_of_edge (hbuild : ParseTable.build g = .ok t) (heof : .eof ∉ g.extras)
    (options : ParseOptions) (text : String) {fuel : Nat} {out : Output}
    (hrun : (fresh ⟨t, options⟩ text).machine.run (fresh ⟨t, options⟩ text).setup fuel =
      some out) :
    ∀ e ∈ (⟨0, .node .sourceFile out.children⟩ : Located).children, ∀ l ∈ e.subtrees, ∀ c,
      l.children.head? = some c ∨ l.children.getLast? = some c → c.isToken = true →
      c.kind ∉ g.extras := by
  intro e he l hl c hc htoken hextra
  have hstop : t.isExtra .eof = false := Grammar.isExtra_eq_false hbuild heof
  have htrimmed := (edged_invariant hstop rfl).run (edged_fresh ⟨t, options⟩ hstop text) hrun
  have hmem : e.tree ∈ out.children := by
    rw [← Located.map_tree_row 0 out.children]
    exact List.mem_map_of_mem he
  have hnode := Located.everywhere_of_mem_subtrees (htrimmed _ hmem) hl
  have hnot : isExtraTree t c.tree = false := Located.not_extra_of_trimmed hnode hc
  rw [isExtraTree, show c.tree.isToken = true from htoken,
    show t.isExtra c.tree.kind = true from (Grammar.isExtra_iff hbuild).2 hextra] at hnot
  cases hnot

/-- A parse of two lines with extras around their nodes, the second with an error on it. -/
theorem not_extra_of_edge_lines : ∃ g t out, ParseTable.build g = .ok t ∧ .eof ∉ g.extras ∧
    (fresh ⟨t, {}⟩ "  ld a, b ; c\n ) )\n").run = some out ∧
    ∀ e ∈ (⟨0, .node .sourceFile out.children⟩ : Located).children, ∀ l ∈ e.subtrees, ∀ c,
      l.children.head? = some c ∨ l.children.getLast? = some c → c.isToken = true →
      c.kind ∉ g.extras := by
  obtain ⟨g, t, w, h⟩ := Assembly.exists_shipped
  obtain ⟨m, -, -, hrun⟩ := run_fresh (p := ⟨t, {}⟩) h "  ld a, b ; c\n ) )\n"
  exact ⟨g, t, _, h.build, h.lines.extras.2, hrun,
    not_extra_of_edge h.build h.lines.extras.2 {} _ hrun⟩

end Parser

end AsmTree
