import AsmTree.Proofs.Machine.Limits
import AsmTree.Proofs.Parser.Consistency
import AsmTree.Proofs.Parser.Exact

/-!
# Short lines do not meet the recovery limit

**Main statement (`exists_table_unlimited`):** a text of the assembly language is parsed in the same
way with any two limits that no line of it exceeds.
-/

namespace AsmTree

open Machine Lookahead

/-! ## Pieces of a list -/

section Pieces

variable {α : Type*} {p : α → Bool}

theorem head?_splitOnP (xs : List α) : (xs.splitOnP p).head? = some (xs.takeWhile (!p ·)) := by
  induction xs with
  | nil => rfl
  | cons x xs ih =>
    rw [List.splitOnP_cons_eq_if_modifyHead]
    cases hx : p x with
    | true => rw [if_pos rfl, List.takeWhile_cons_of_neg (by simp [hx])]; rfl
    | false =>
      rw [if_neg Bool.false_ne_true, List.head?_modifyHead, ih,
        List.takeWhile_cons_of_pos (by simp [hx])]
      rfl

/-- What comes next of a piece, wherever one stands in the list, is no longer than the piece. -/
theorem exists_mem_splitOnP (xs : List α) (n : Nat) :
    ∃ piece ∈ xs.splitOnP p, ((xs.drop n).takeWhile (!p ·)).length ≤ piece.length := by
  induction xs generalizing n with
  | nil => exact ⟨[], List.mem_singleton_self _, by simp⟩
  | cons x xs ih =>
    cases n with
    | zero => exact ⟨_, List.mem_of_head? (head?_splitOnP (x :: xs)), Nat.le_refl _⟩
    | succ n =>
      obtain ⟨piece, hpiece, hle⟩ := ih n
      rw [List.splitOnP_cons_eq_if_modifyHead]
      split
      · exact ⟨piece, List.mem_cons_of_mem _ hpiece, hle⟩
      · cases hsplit : xs.splitOnP p with
        | nil => exact absurd hsplit (List.splitOnP_ne_nil p xs)
        | cons first rest =>
          rw [hsplit] at hpiece
          rcases List.mem_cons.1 hpiece with rfl | hpiece
          · exact ⟨x :: piece, List.mem_cons_self, Nat.le_succ_of_le hle⟩
          · exact ⟨piece, List.mem_cons_of_mem _ hpiece, hle⟩

end Pieces

namespace Parser

variable {g : Grammar} {t : ParseTable}

/-! ## Lines of a text -/

/-- The kinds of the tokens on each line of a text, extras aside. The newlines that end the lines
are left out. -/
def lineWords (p : Parser) (text : String) : List (List Kind) :=
  (p.word text).splitOnP (· = .newline)

/-- From wherever a parse stands, the rest of the line is on a line of the text. -/
theorem exists_lineWord (p : Parser) (text : String) (n : Nat) : ∃ line ∈ p.lineWords text,
    (beforeEnd ((p.fresh text).machine.input.drop n)).length ≤ line.length := by
  obtain ⟨line, hline, hle⟩ := exists_mem_splitOnP (p := (· = .newline)) (p.word text) n
  refine ⟨line, hline, Nat.le_trans (Nat.le_of_eq ?_) hle⟩
  have hword : ∀ k ∈ (p.word text).drop n, k ≠ .eof := by
    rintro k hk rfl
    exact (lexical_of_mem_word (List.mem_of_mem_drop hk)).2 (Or.inl rfl)
  have hkinds : ((p.fresh text).machine.input.drop n).map (·.token.kind) =
      (p.word text).drop n ++ [Kind.eof].drop (n - (p.word text).length) := by
    rw [List.map_drop, ← List.drop_append, ← kinds_fresh p text]
    rfl
  -- the end of the text is behind all of the tokens, so they end where newlines are
  have hends : ((p.word text).drop n ++ [Kind.eof].drop (n - (p.word text).length)).takeWhile
      (· ≠ .eof) = (p.word text).drop n := by
    rw [List.takeWhile_append_of_pos (by simpa using hword)]
    cases n - (p.word text).length <;> simp
  rw [← hends, List.takeWhile_takeWhile, ← hkinds, List.takeWhile_map, List.length_map, beforeEnd]
  congr 2
  funext l
  simp [endsLine]

/-- **A limit that no line of a text exceeds is not noticed.** The tokens of a line are counted
without extras, and with the newline at its end or the end of the text. -/
theorem exists_table_unlimited : ∃ t, Assembly.table = .ok t ∧
    ∀ (options : ParseOptions) (text : String) (limit limit' : Nat),
      (∀ line ∈ lineWords ⟨t, options⟩ text,
        line.length + 1 ≤ limit ∧ line.length + 1 ≤ limit') →
      ∃ tree, parse ⟨t, { options with recoveryLimit := limit }⟩ text none = .ok tree ∧
        parse ⟨t, { options with recoveryLimit := limit' }⟩ text none =
          .ok { tree with recoveryLimit := limit' } := by
  obtain ⟨g, t, w, h⟩ := Assembly.exists_shipped
  refine ⟨t, h.table, fun options text limit limit' hfits => ?_⟩
  obtain ⟨tree, hparse, -⟩ := exists_parse_scratch h { options with recoveryLimit := limit } text
  refine ⟨tree, hparse, ?_⟩
  have hruns : (fresh ⟨t, { options with recoveryLimit := limit }⟩ text).run =
      (fresh ⟨t, { options with recoveryLimit := limit' }⟩ text).run := by
    refine run_limited (s := (fresh ⟨t, options⟩ text).setup) rfl (fun n => ?_) _
    obtain ⟨line, hline, hle⟩ := exists_lineWord ⟨t, options⟩ text n
    exact (hfits line hline).imp (Nat.lt_of_lt_of_le (Nat.lt_succ_of_le hle))
      (Nat.lt_of_lt_of_le (Nat.lt_succ_of_le hle))
  unfold parse start at hparse ⊢
  dsimp only at hparse ⊢
  rw [← hruns]
  cases hrun : (fresh ⟨t, { options with recoveryLimit := limit }⟩ text).run with
  | none =>
    rw [hrun] at hparse
    cases hparse
  | some out =>
    rw [hrun] at hparse
    cases hparse
    rfl

/-- A line of two tokens, the second of which cannot stand there. With the newline they fit limits
of three and of four. -/
theorem exists_table_unlimited_line : ∃ t tree, Assembly.table = .ok t ∧
    lineWords ⟨t, {}⟩ "ld )\n" = [[.mnemonic, .rParen], []] ∧
    parse ⟨t, { recoveryLimit := 3 }⟩ "ld )\n" none = .ok tree ∧
    parse ⟨t, { recoveryLimit := 4 }⟩ "ld )\n" none = .ok { tree with recoveryLimit := 4 } := by
  obtain ⟨t, ht, hparse⟩ := exists_table_unlimited
  have hlines : lineWords ⟨t, {}⟩ "ld )\n" = [[.mnemonic, .rParen], []] := by
    obtain ⟨g, t', w, h⟩ := Assembly.exists_shipped
    obtain rfl := Except.ok.inj (ht.symm.trans h.table)
    have htokens : (tokenize "ld )\n").map Token.kind =
        [.mnemonic, .whitespace, .rParen, .newline] := by
      rw [tokenize, Lexer.tokens_of_ne_nil (by decide), Lexer.tokens_of_ne_nil (by decide +kernel),
        Lexer.tokens_of_ne_nil (by decide +kernel), Lexer.tokens_of_ne_nil (by decide +kernel),
        Lexer.tokens_of_nil (by decide +kernel)]
      decide +kernel
    have hextra (k : Kind) : t.isExtra k = Assembly.rules.extras.contains k := by
      rw [ParseTable.isExtra, Grammar.extras_eq h.build,
        (RuleSet.declared_of_toGrammar h.grammar).2]
    rw [lineWords, word, htokens]
    simp only [hextra]
    decide
  obtain ⟨tree, hshort, hlong⟩ := hparse {} "ld )\n" 3 4 (by rw [hlines]; decide)
  exact ⟨t, tree, ht, hlines, hshort, hlong⟩

end Parser

end AsmTree
