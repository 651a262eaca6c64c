import AsmTree.Proofs.Parser.Totality

/-!
# Trees hold the tokens of their text

**Main statement (`leaves_root`):** the leaves of a parse from scratch are the tokens of the text,
for every grammar that has a table and does not read the end of the text.
-/

namespace AsmTree

namespace Parser

variable {g : Grammar} {t : ParseTable}

/-- **No token is lost, added, moved or changed by a parse.** The end of the text is not in the
tree, and the text of the tree is the text. -/
theorem leaves_root (hg : g.WellFormed) (hbuild : ParseTable.build g = .ok t)
    (hactions : t.actions.size ≤ 2 ^ 32) (heof : ∀ p ∈ g.productions, .terminal .eof ∉ p.rhs)
    (options : ParseOptions) (text : String) {fuel : Nat} {out : Output}
    (hrun : (fresh ⟨t, options⟩ text).machine.run (fresh ⟨t, options⟩ text).setup fuel =
      some out) :
    let root := Tree.node .sourceFile out.children
    root.leaves = (tokenize text).map Token.leaf ∧ (∀ l ∈ root.leaves, l.kind ≠ .eof) ∧
      root.text = text := by
  have hleaves : (Tree.node .sourceFile out.children).leaves = (tokenize text).map Token.leaf :=
    leaves_of_run ⟨t, options⟩ (Grammar.eofOnly_of_build hg hbuild hactions heof) text hrun
  refine ⟨hleaves, fun l hl he => ?_, ?_⟩
  · rw [hleaves] at hl
    obtain ⟨token, htoken, rfl⟩ := List.mem_map.1 hl
    exact Lexer.tokens_kind _ token htoken (Or.inl he)
  · rw [Tree.text, hleaves, List.map_map]
    have hjoin := Lexer.join_tokens (.ofText text)
    rw [show (Lexer.ofText text).rest = text.toList from rfl, String.ofList_toList] at hjoin
    exact hjoin

/-- A parse of two lines, the second with an error on it. -/
theorem leaves_root_lines : ∃ g t out, ParseTable.build g = .ok t ∧
    (fresh ⟨t, {}⟩ "nop\n) )\n").run = some out ∧
    (Tree.node .sourceFile out.children).leaves = (tokenize "nop\n) )\n").map Token.leaf := by
  obtain ⟨g, t, w, h⟩ := Assembly.exists_shipped
  obtain ⟨m, -, -, hrun⟩ := run_fresh (p := ⟨t, {}⟩) h "nop\n) )\n"
  exact ⟨g, t, _, h.build, hrun,
    (leaves_root h.wellFormed h.build h.indexed.actions h.lines.eof {} _ hrun).1⟩

end Parser

end AsmTree
