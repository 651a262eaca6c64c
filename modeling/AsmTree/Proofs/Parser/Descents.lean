import AsmTree.Proofs.Parser.OpenBlocks
import AsmTree.Proofs.Tree.Descents

/-!
# The token at an offset

**Main statement (`exists_table_descent`):** in every tree that a parse makes, the way down to an
offset ends on the token that covers it. The tree of a parse from scratch is as long as the text,
and what is found is a token of the text.
-/

namespace AsmTree

open AsmTree.Tree

namespace Parser

variable {text : String} {tree : SyntaxTree} {offset : Nat} {place : Cursor}

theorem exists_lands_ofRoot (tree : SyntaxTree) (h : offset < tree.length) :
    ∃ place, (Walker.ofRoot tree).Lands offset place :=
  Walker.exists_lands (Located.covers_iff.2
    ⟨Nat.zero_le _, Nat.lt_of_lt_of_eq h (Nat.zero_add _).symm⟩)

/-- What is found in a tree that holds the tokens of a text is one of them, in its place. -/
theorem exists_token_of_lands (hleaves : leavesAll tree.children = (tokenize text).map Token.leaf)
    (h : (Walker.ofRoot tree).Lands offset place) : ∃ token ∈ tokenize text,
      place.focus = ⟨token.offset, .token token.kind token.text⟩ ∧
        token.range.contains offset = true := by
  have hcovers := h.covers_token
  obtain ⟨path, hpath⟩ := h.below
  have hpart := Cursor.focus_mem_subtrees hpath
  obtain ⟨⟨start, t⟩, above⟩ := place
  cases t with
  | node k cs => cases h.isToken
  | token k word =>
    rcases Located.mem_subtrees_node.1 hpart with hroot | hpart
    · cases hroot
    · obtain ⟨token, htoken, rfl, rfl, rfl⟩ := exists_token_of_mem_parts hleaves hpart
      exact ⟨token, htoken, rfl, hcovers⟩

/-- **The way down to an offset of a text ends on the only token that covers it.** This holds for
every tree that a parse makes, with errors or without, from scratch or with any other tree and edit.
-/
theorem exists_table_descent : ∃ t, Assembly.table = .ok t ∧
    (∀ (options : ParseOptions) (text : String), ∃ tree,
      parse ⟨t, options⟩ text none = .ok tree ∧ tree.length = text.utf8ByteSize ∧
      ∀ offset < text.utf8ByteSize, ∃ place, (Walker.ofRoot tree).Lands offset place ∧
        ∃ token ∈ tokenize text, place.focus = ⟨token.offset, .token token.kind token.text⟩ ∧
          token.range.contains offset = true) ∧
    ∀ (options : ParseOptions) (text : String) (earlier : Option (SyntaxTree × InputEdit))
      (tree : SyntaxTree), parse ⟨t, options⟩ text earlier = .ok tree →
        ∀ offset < tree.length, ∃ place, (Walker.ofRoot tree).Lands offset place := by
  obtain ⟨g, t, w, h⟩ := Assembly.exists_shipped
  refine ⟨t, h.table, fun options text => ?_, fun _ _ _ tree _ offset => exists_lands_ofRoot tree⟩
  obtain ⟨out, hrun, hout⟩ := run_fresh_consistent (p := ⟨t, options⟩) h text
  obtain ⟨tree, hparse, rfl⟩ : ∃ tree, parse ⟨t, options⟩ text none = .ok tree ∧
    tree.output = out := exists_parse_of_run hrun
  have hleaves := leaves_of_run ⟨t, options⟩ h.eofOnly text hrun
  have hlength : tree.length = text.utf8ByteSize := hout.length_eq
  refine ⟨tree, hparse, hlength, fun offset hoffset => ?_⟩
  obtain ⟨place, hplace⟩ := exists_lands_ofRoot tree (hlength ▸ hoffset)
  exact ⟨place, hplace, exists_token_of_lands hleaves hplace⟩

end Parser

end AsmTree
