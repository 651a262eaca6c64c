import AsmTree.Proofs.Assembly.Operators
import AsmTree.Proofs.Machine.Grouping
import AsmTree.Proofs.Parser.Yields

/-!
# Expressions are grouped by their operators

**Main statement (`exists_table_groups`):** in every tree of the assembly language each operator has
its operands, and what it groups is what the binding strengths say, in broken texts too. The levels
that the grammar declares are those strengths.
-/

namespace AsmTree

open Machine AsmTree.Tree View

namespace Parser

variable {g : Grammar} {t : ParseTable} {w : Nat → Nat} {tree : SyntaxTree}

theorem not_isOperand_lines (h : Assembly.Shipped g t w) :
    ¬ g.IsOperand Assembly.expr Assembly.lines := by
  rintro (heq | ⟨k, hk, -⟩)
  · cases heq
  · rw [h.lines.hidden.2] at hk
    cases hk

/-- **Parses keep the bonds**: an empty stack has them, and so has one of earlier lines. -/
theorem keeps_bonded (h : Assembly.Shipped g t w) : Keeps t Grouped fun s m =>
    ∃ read, Bonded g Assembly.expr Assembly.binary Assembly.unary s m read where
  moves := by
    rintro s rfl hstop htakes
    exact bonded_invariant (Assembly.hasOperators h.grammar) h.hasTable
      (fun _ => Assembly.subsingleton_finished h.grammar) (hstop ▸ isExtra_eof h) htakes
  empty := by
    rintro p lexer splice rfl
    exact ⟨[], .start, .bottom _, fun _ _ _ hhead => (by cases hhead), fun _ ht => (by cases ht),
      sorted_lookaheads h lexer⟩
  resumed := by
    rintro p text splice point state rfl hstate hpoint
    refine ⟨[.nonterminal Assembly.lines], path_resumed h hstate,
      .other (not_isOperand_lines h) (.bottom _), ?_, fun t ht => hpoint t ?_,
      sorted_lookaheads h _⟩
    · rintro id _ _ hhead hid
      obtain rfl := Symbol.nonterminal.inj (Option.some.inj hhead)
      exact absurd hid (not_isOperand_lines h)
    · rw [joined_resumed] at ht
      exact List.mem_reverse.1 ht

/-! ## Trees -/

/-- **All trees that parses make are grouped.** -/
theorem Yields.grouped (h : Assembly.Shipped g t w) (hyields : Yields t tree) :
    tree.root.Everywhere Grouped :=
  everywhere_node.2 ⟨.other (by decide) (by decide), hyields.everywhere (keeps_bonded h)⟩

/-- **Expressions are grouped as the binding strengths of their operators say**, in every tree that
parses of the assembly language make, and the strengths are the levels of the grammar. -/
theorem exists_table_groups : ∃ g t, Assembly.grammar = .ok g ∧ Assembly.table = .ok t ∧
    (∀ k o, BinaryOp.ofKind? k = some o →
      g.tokenPrecedence? k = some (.ofNat o.precedence, o.assoc)) ∧
    (∀ (options : ParseOptions) (text : String), ∃ tree,
      parse ⟨t, options⟩ text none = .ok tree) ∧
    ∀ tree, Yields t tree → ∀ e ∈ (⟨0, tree.root⟩ : Located).subtrees, Groups e := by
  obtain ⟨g, t, w, h⟩ := Assembly.exists_shipped
  refine ⟨g, t, h.grammar, h.table, (Assembly.hasOperators h.grammar).tokens,
    fun options text => ?_, fun tree hyields e he => ?_⟩
  · obtain ⟨tree, hparse, -⟩ := exists_parse_scratch h options text
    exact ⟨tree, hparse⟩
  · have hgrouped := Located.everywhere_of_mem_subtrees (x := ⟨0, tree.root⟩) (hyields.grouped h) he
    exact hgrouped.groups

end Parser

end AsmTree
