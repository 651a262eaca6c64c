import AsmTree.Token.Lexer

/-!
# Tokens of a text

**Main statements:** every token that is read is of a token kind (`tokens_lexical`), and none is the
end of the text or a recovered region (`tokens_kind`); the texts of the tokens are the text
(`join_tokens`).
-/

namespace AsmTree

/-! ## Kinds -/

/-- The kinds that the lexer leaves to the parser. -/
def Kind.Synthetic (k : Kind) : Prop := k = .eof ∨ k = .error

instance (k : Kind) : Decidable k.Synthetic := inferInstanceAs (Decidable (_ ∨ _))

/-- The kinds that the lexer gives to tokens. -/
def Kind.Lexical (k : Kind) : Prop := k.index < Kind.tokenCount ∧ ¬k.Synthetic

instance (k : Kind) : Decidable k.Lexical := inferInstanceAs (Decidable (_ ∧ _))

/-- A match is found by one of the rules, and is as long as that rule says. -/
theorem longestMatch_spec {rules : List LexRule} {cs : List Char} {r : LexResult} {n : Nat}
    (h : longestMatch rules cs = some (r, n)) :
    ∃ rule ∈ rules, rule.result = r ∧ rule.pattern.longest cs = some n := by
  have hfold : ∀ x ∈ longestMatch rules cs, ∃ rule ∈ rules, rule.result = x.1 ∧
      rule.pattern.longest cs = some x.2 := by
    unfold longestMatch
    refine List.foldlRecOn (motive := fun best : Option (LexResult × Nat) =>
      ∀ x ∈ best, ∃ rule ∈ rules, rule.result = x.1 ∧ rule.pattern.longest cs = some x.2)
      rules _ ?_ ?_
    · intro x hx
      cases hx
    · intro best hbest rule hrule x hx
      split at hx
      · next n r m hn =>
        split at hx
        · cases hx
          exact ⟨rule, hrule, rfl, hn⟩
        · exact hbest x hx
      · next n hn =>
        cases hx
        exact ⟨rule, hrule, rfl, hn⟩
      · exact hbest x hx
  exact hfold _ h

theorem nameKind_lexical (name : String) : (Lexical.nameKind name).Lexical := by
  have hwords : ∀ x ∈ Lexical.reservedWords, x.1.Lexical := by decide
  unfold Lexical.nameKind
  dsimp only
  split
  · next kind words hfind => exact hwords _ (List.mem_of_find?_eq_some hfind)
  · decide

/-- What a rule answers, if it is a kind, is one of the lexer. -/
def LexResult.Lexical : LexResult → Prop
  | .token k => k.Lexical
  | .opens _ => True

instance : (r : LexResult) → Decidable r.Lexical
  | .token k => inferInstanceAs (Decidable k.Lexical)
  | .opens _ => inferInstanceAs (Decidable True)

theorem rules_lexical : ∀ rule ∈ Lexical.rules, rule.result.Lexical := by
  have h : ∀ r ∈ Lexical.rules.map LexRule.result, r.Lexical := by decide
  exact fun rule hrule => h _ (List.mem_map_of_mem hrule)

theorem firstToken_lexical (cs : List Char) : (firstToken cs).1.Lexical := by
  unfold firstToken
  split
  · exact nameKind_lexical _
  · next kind n _ hm =>
    obtain ⟨rule, hrule, hr, -⟩ := longestMatch_spec hm
    have hlexical := rules_lexical rule hrule
    rw [hr] at hlexical
    exact hlexical
  · next form n hm =>
    dsimp only
    split
    · cases form <;> decide
    · decide
  · show Kind.unknown.Lexical
    decide

namespace Lexer

/-! ## Reading tokens -/

theorem tokens_of_nil {lexer : Lexer} (h : lexer.rest = []) : lexer.tokens = [] := by
  rw [tokens, dif_pos h]

theorem tokens_of_ne_nil {lexer : Lexer} (h : lexer.rest ≠ []) :
    lexer.tokens = lexer.next.1 :: lexer.next.2.tokens := by
  rw [tokens, dif_neg h]

theorem next_of_cons {lexer : Lexer} {c : Char} {cs : List Char} (h : lexer.rest = c :: cs) :
    lexer.next =
      (⟨(scan c cs).kind, String.ofList (scan c cs).lexeme, lexer.offset, lexer.position⟩,
        ⟨(scan c cs).rest, lexer.offset + byteLength (scan c cs).lexeme,
          lexer.position.advance (scan c cs).lexeme⟩) := by
  unfold next
  rw [h]

theorem tokens_induction {P : Lexer → List Token → Prop}
    (nil : ∀ lexer : Lexer, lexer.rest = [] → P lexer [])
    (cons : ∀ lexer : Lexer, lexer.rest ≠ [] → P lexer.next.2 lexer.next.2.tokens →
      P lexer (lexer.next.1 :: lexer.next.2.tokens)) (lexer : Lexer) : P lexer lexer.tokens := by
  fun_induction tokens lexer with
  | case1 lexer h => exact nil lexer h
  | case2 lexer h ih => exact cons lexer h ih

/-- **Every token that is read is of a kind of the lexer.** -/
theorem tokens_lexical (lexer : Lexer) : ∀ t ∈ lexer.tokens, t.kind.Lexical := by
  refine tokens_induction (P := fun _ ts => ∀ t ∈ ts, t.kind.Lexical) ?_ ?_ lexer
  · intro lexer _ t ht
    cases ht
  · intro lexer hne ih t ht
    rcases List.mem_cons.1 ht with rfl | ht
    · obtain ⟨c, cs, hrest⟩ := List.exists_cons_of_ne_nil hne
      rw [next_of_cons hrest]
      exact firstToken_lexical _
    · exact ih t ht

/-- **No token that is read is the end of the text or a recovered region.** -/
theorem tokens_kind (lexer : Lexer) : ∀ t ∈ lexer.tokens, ¬t.kind.Synthetic := fun t ht =>
  (tokens_lexical lexer t ht).2

/-- **The texts of the tokens are the text.** -/
theorem join_tokens (lexer : Lexer) :
    String.join (lexer.tokens.map Token.text) = String.ofList lexer.rest := by
  refine tokens_induction
    (P := fun lexer ts => String.join (ts.map Token.text) = String.ofList lexer.rest) ?_ ?_ lexer
  · intro lexer h
    rw [h]
    rfl
  · intro lexer hne ih
    obtain ⟨c, cs, hrest⟩ := List.exists_cons_of_ne_nil hne
    rw [List.map_cons, String.join_cons, ih, next_of_cons hrest, hrest,
      ← scan_lexeme_append_rest c cs, String.ofList_append]

end Lexer

end AsmTree
