import AsmTree.Proofs.Machine.Order
import AsmTree.Proofs.Parser.Totality
import AsmTree.Proofs.Token.Partition

/-!
# Diagnostics come in order

**Main statement (`errors_in_order`):** the diagnostics of a parse from scratch come in the order of
the text, each at a token or at the end of the text, and no two at the same place unless one of them
is about an unreadable token.
-/

namespace AsmTree

open Lookahead Machine

theorem Lookahead.token_group (isExtra : Kind → Bool) (stop : Token) (waiting ts : List Token) :
    ((group isExtra stop waiting ts).map Lookahead.token).Sublist (ts ++ [stop]) := by
  induction ts generalizing waiting with
  | nil => exact List.Sublist.refl _
  | cons t ts ih =>
    rw [group]
    split
    · exact (ih _).cons t
    · exact (ih _).cons_cons t

theorem Token.ascending_tokenize (text : String) :
    Token.Ascending (tokenize text ++ [Parser.stopToken (.ofText text)]) where
  pairwise := Lexer.pairwise_offset (.ofText text)
  stop t ht heof := by
    rcases List.mem_append.1 ht with ht | ht
    · exact absurd (Or.inl heof) (Lexer.tokens_kind _ t ht)
    · rw [List.mem_singleton.1 ht]
      rfl

namespace Parser

variable {g : Grammar} {t : ParseTable}

theorem orderly_fresh (p : Parser) (text : String) :
    Orderly (tokenize text ++ [stopToken (.ofText text)]) (p.fresh text).setup
      (p.fresh text).machine :=
  ⟨Lookahead.token_group _ _ _ _, .nil _, fun d hd => by cases hd⟩

/-- **The diagnostics of a parse from scratch come in the order of the text**, each at a token or at
the end of the text, and those that are not about unreadable tokens never twice at one place, if
every number of the grammar fits where the table keeps it. -/
theorem errors_in_order (ht : g.HasTable t) (heof : ∀ p ∈ g.productions, .terminal .eof ∉ p.rhs)
    (options : ParseOptions) (text : String)
    {fuel : Nat} {out : Output}
    (hrun : (fresh ⟨t, options⟩ text).machine.run (fresh ⟨t, options⟩ text).setup fuel =
      some out) :
    (out.errors.map (·.range.start)).Pairwise (· ≤ ·) ∧
      (∀ d ∈ out.errors, (∃ token ∈ tokenize text, d.range = token.range) ∨
        d.range = .point text.utf8ByteSize) ∧
      ((out.errors.filter (!·.code.isLexical)).map (·.range.start)).Nodup := by
  have horder := (orderly_fresh ⟨t, options⟩ text).run ht rfl
    (Grammar.eofOnly_of_build ht.wellFormed ht.build ht.indexed.actions heof)
    (Token.ascending_tokenize text)
    (live_fresh (g := g) ⟨t, options⟩ text) (Or.inl fun d hd => by cases hd) hrun
  refine ⟨?_, fun d hd => ?_, ?_⟩
  · exact List.pairwise_map.2 (horder.pairwise.imp Diagnostic.Precedes.le)
  · obtain ⟨token, htoken, hrange⟩ := horder.placed d hd
    rcases List.mem_append.1 htoken with htoken | htoken
    · exact Or.inl ⟨token, htoken, hrange⟩
    · rw [List.mem_singleton.1 htoken, Lexer.stopToken_ofText] at hrange
      exact Or.inr hrange
  · rw [List.nodup_iff_pairwise_ne, List.pairwise_map, List.pairwise_filter]
    exact horder.pairwise.imp fun h hd hd' => h.ne (by simpa using hd) (by simpa using hd')

/-- Two tokens on one line that cannot be used, an unreadable one, and a block that is not closed. -/
theorem errors_in_order_lines : ∃ g t out, ParseTable.build g = .ok t ∧
    (fresh ⟨t, {}⟩ "if 1\nnop ) ?\n)").run = some out ∧
    (out.errors.map (·.range.start)).Pairwise (· ≤ ·) ∧
    (∀ d ∈ out.errors, (∃ token ∈ tokenize "if 1\nnop ) ?\n)", d.range = token.range) ∨
      d.range = .point 14) ∧
    ((out.errors.filter (!·.code.isLexical)).map (·.range.start)).Nodup := by
  obtain ⟨g, t, w, h⟩ := Assembly.exists_shipped
  obtain ⟨m, -, -, hrun⟩ := run_fresh (p := ⟨t, {}⟩) h "if 1\nnop ) ?\n)"
  exact ⟨g, t, _, h.build, hrun,
    errors_in_order h.hasTable h.lines.eof {} "if 1\nnop ) ?\n)" hrun⟩

end Parser

end AsmTree
