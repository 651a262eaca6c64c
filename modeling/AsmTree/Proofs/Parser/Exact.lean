import AsmTree.Proofs.Machine.Complete
import AsmTree.Proofs.Machine.Sentences
import AsmTree.Proofs.Parser.Defaults
import AsmTree.Proofs.Table.Certificate

/-!
# Grammars without precedence are parsed exactly

**Main statement (`quiet_iff_mem_language`):** for a grammar without precedence a text is parsed
without a diagnostic and without a recovered region exactly if the kinds of its tokens, extras
aside, are derived from the start, if every number of the grammar fits where the table keeps it.
-/

namespace AsmTree

open Machine

namespace Lookahead

theorem kinds_group (isExtra : Kind → Bool) (stop : Token) (waiting ts : List Token) :
    (group isExtra stop waiting ts).map (fun l => l.token.kind) =
      (ts.map Token.kind).filter (!isExtra ·) ++ [stop.kind] := by
  induction ts generalizing waiting with
  | nil => rfl
  | cons t ts ih =>
    rw [group, List.map_cons]
    cases ht : isExtra t.kind with
    | true => rw [if_pos rfl, ih, List.filter_cons_of_neg (by simp [ht])]
    | false =>
      rw [if_neg Bool.false_ne_true, List.map_cons, ih, List.filter_cons_of_pos (by simp [ht])]
      rfl

end Lookahead

namespace Parser

variable {g : Grammar} {t : ParseTable}

/-- The kinds of the tokens of a text, extras aside. -/
def word (p : Parser) (text : String) : List Kind :=
  ((tokenize text).map Token.kind).filter (!p.table.isExtra ·)

theorem kinds_fresh (p : Parser) (text : String) :
    (p.fresh text).machine.kinds = p.word text ++ [.eof] :=
  Lookahead.kinds_group _ _ _ _

theorem lexical_of_mem_word {p : Parser} {text : String} {k : Kind} (h : k ∈ p.word text) :
    k.Lexical := by
  obtain ⟨token, htoken, rfl⟩ := List.mem_map.1 (List.mem_filter.1 h).1
  exact Lexer.tokens_lexical _ token htoken

/-- No token of a text is a recovered region. -/
theorem lacks_fresh (p : Parser) (text : String) :
    Lacks (p.fresh text).setup (p.fresh text).machine .error where
  stack := by
    rintro t ht
    cases ht
  input := by
    have htokens : ∀ (waiting ts : List Token), (∀ t ∈ waiting ++ ts, t.kind ≠ .error) →
        ∀ l ∈ Lookahead.group p.table.isExtra (stopToken (.ofText text)) waiting ts,
          ∀ t ∈ l.trivia ++ [l.token], t.kind ≠ .error := by
      intro waiting ts
      induction ts generalizing waiting with
      | nil =>
        intro h l hl t ht
        rw [Lookahead.group, List.mem_singleton] at hl
        rw [hl] at ht
        rcases List.mem_append.1 ht with ht | ht
        · exact h t (List.mem_append_left _ (List.mem_reverse.1 ht))
        · rw [List.mem_singleton.1 ht]
          exact Kind.noConfusion
      | cons t₀ ts ih =>
        intro h l hl
        rw [Lookahead.group] at hl
        split at hl
        · refine ih (t₀ :: waiting) (fun t ht => h t ?_) l hl
          simp only [List.mem_append, List.mem_cons] at ht ⊢
          tauto
        · rcases List.mem_cons.1 hl with rfl | hl
          · intro t ht
            refine h t ?_
            simp only [List.mem_append, List.mem_reverse, List.mem_cons, List.not_mem_nil,
              or_false] at ht ⊢
            tauto
          · exact ih [] (fun t ht => h t (List.mem_append_right _ (List.mem_cons_of_mem _ ht))) l hl
    intro l hl t ht
    have hkinds : ∀ t ∈ l.trivia ++ [l.token], t.kind ≠ .error := by
      refine htokens [] (Lexer.ofText text).tokens (fun t ht => ?_) l hl
      exact fun he => Lexer.tokens_kind _ t ht (Or.inr he)
    obtain ⟨token, htoken, rfl⟩ : ∃ token ∈ l.trivia ++ [l.token],
        Tree.token token.kind token.text = t := by
      rw [Lookahead.trees, Lookahead.triviaTrees] at ht
      rcases List.mem_append.1 ht with ht | ht
      · obtain ⟨token, htoken, he⟩ := List.mem_map.1 ht
        exact ⟨token, List.mem_append_left _ htoken, he⟩
      · exact ⟨l.token, by simp, (List.mem_singleton.1 ht).symm⟩
    rw [Tree.lacks]
    simpa using hkinds token htoken

theorem kind_production_ne (hbuild : ParseTable.build g = .ok t) {k : Kind}
    (hvisible : ∀ id, g.kindOf? id ≠ some k) (p : Nat) : (t.production p).kind ≠ some k := by
  by_cases hp : p < g.augmented.productions.size
  · rw [Grammar.production_eq hbuild hp]
    exact hvisible _
  · have hsize : t.productions.size ≤ p := by
      have hcount := Grammar.productionCount_eq hbuild
      rw [Grammar.size_productions] at hp
      rw [ParseTable.productionCount] at hcount
      omega
    rw [ParseTable.production, Array.getD_eq_getD_getElem?, Array.getElem?_eq_none hsize]
    intro h
    cases h

/-- **A grammar without precedence whose numbers fit is parsed exactly.** -/
theorem quiet_iff_mem_language (ht : g.HasTable t) (hlevels : g.levels = [])
    (hvisible : ∀ id, g.kindOf? id ≠ some .error)
    (hrhs : ∀ p ∈ g.productions, .terminal .unknown ∉ p.rhs ∧ .terminal .eof ∉ p.rhs)
    (heof : .eof ∉ g.extras) (options : ParseOptions) (text : String) :
    (∃ ts, FinishesQuietly ⟨t, options⟩ text ts ∧
      ∀ e ∈ (Tree.node .sourceFile ts).elements 0, e.kind ≠ .error) ↔
        ((tokenize text).map Token.kind).filter (· ∉ g.extras) ∈ g.language g.start := by
  have hacc := Grammar.acceptsAtEof_of_build ht.wellFormed ht.build ht.indexed.actions
  have hextra : t.isExtra .eof = false := by
    rw [ParseTable.isExtra, Grammar.extras_eq ht.build]
    simpa using heof
  have hword : ((tokenize text).map Token.kind).filter (· ∉ g.extras) =
      word ⟨t, options⟩ text := by
    refine List.filter_congr fun k _ => ?_
    rw [ParseTable.isExtra, Grammar.extras_eq ht.build]
    simp
  rw [hword]
  constructor
  · rintro ⟨ts, hquiet, -⟩
    have hparses := (finishesQuietly_iff _ hacc text ts).1 hquiet
    have hlacks := hparses.lacks (lacks_fresh ⟨t, options⟩ text) Kind.noConfusion
      (kind_production_ne ht.build hvisible)
    have hleaves := hparses.leaves (Grammar.eofOnly_of_build ht.wellFormed ht.build
      ht.indexed.actions fun p hp => (hrhs p hp).2) (balanced_fresh ⟨t, options⟩ text)
    obtain ⟨d, hd⟩ := hparses.exists_derivation ht hextra hvisible
      (sound_fresh (p := ⟨t, options⟩) hextra text) hlacks
    refine ⟨d, ?_⟩
    rw [hd, Tree.wordAll, hleaves, List.map_map]
    rfl
  · rintro ⟨d, hd⟩
    have hkinds := kinds_fresh ⟨t, options⟩ text
    rw [← hd] at hkinds
    have hlegible : (fresh ⟨t, options⟩ text).machine.Legible := by
      intro k hk
      rw [hkinds] at hk
      rcases List.mem_append.1 hk with hk | hk
      · have hword : k ∈ word ⟨t, options⟩ text := hd ▸ hk
        have hlexical := lexical_of_mem_word hword
        refine ⟨hlexical.1, fun he => hlexical.2 (Or.inr he), ?_⟩
        rintro rfl
        exact d.not_mem_yield (fun p hp => (hrhs p hp).1) Symbol.noConfusion hk
      · rw [List.mem_singleton.1 hk]
        decide
    obtain ⟨ts, hparses⟩ := Parses.of_derivation (s := (fresh ⟨t, options⟩ text).setup)
      ⟨ht, hlevels⟩ d rfl hlegible hkinds
    refine ⟨ts, (finishesQuietly_iff _ hacc text ts).2 hparses, fun e he => ?_⟩
    have hlacks := hparses.lacks (lacks_fresh ⟨t, options⟩ text) Kind.noConfusion
      (kind_production_ne ht.build hvisible)
    have hroot : (Tree.node .sourceFile ts).lacks .error = true := by
      rw [Tree.lacks, hlacks]
      decide
    exact (Tree.ne_of_lacks 0 0 _ hroot [] e he).resolve_right List.not_mem_nil

end Parser

/-- Names and nested lists of them in parentheses. -/
def RuleSet.tuples : RuleSet where
  name := "tuples"
  extras := [.whitespace]
  start := "_tree"
  definitions := [.hidden "_tree" (.choice [.token .ident, .node .parenExpr]),
    .visible .parenExpr (.seq [.token .lParen, .many (.rule "_tree"), .token .rParen])]

namespace Parser

/-- Nested lists of names are parsed exactly. -/
theorem quiet_iff_mem_language_tuples : ∃ g t, RuleSet.tuples.toGrammar = .ok g ∧
    ParseTable.build g = .ok t ∧ ∀ text,
      ((∃ ts, FinishesQuietly ⟨t, {}⟩ text ts ∧
        ∀ e ∈ (Tree.node .sourceFile ts).elements 0, e.kind ≠ .error) ↔
          ((tokenize text).map Token.kind).filter (· ∉ [Kind.whitespace]) ∈
            g.language g.start) := by
  have hcheck : (RuleSet.tuples.toGrammar.toOption.any fun g =>
      g.tabulates 4 100 && g.nonterminals.toList.all (·.kind ≠ some .error) &&
        g.productions.toList.all fun p =>
          .terminal .unknown ∉ p.rhs ∧ .terminal .eof ∉ p.rhs) = true := by
    decide +kernel
  cases hg : RuleSet.tuples.toGrammar with
  | error e =>
    rw [hg] at hcheck
    cases hcheck
  | ok g =>
    rw [hg] at hcheck
    simp only [Except.toOption, Option.any_some, Bool.and_eq_true, List.all_eq_true,
      Array.mem_toList_iff, decide_eq_true_eq] at hcheck
    obtain ⟨⟨htabulates, hkinds⟩, hrhs⟩ := hcheck
    obtain ⟨t, ht⟩ := Grammar.exists_hasTable hg htabulates
    obtain ⟨hlevels, hextras⟩ := RuleSet.declared_of_toGrammar hg
    refine ⟨g, t, rfl, ht.build, fun text => ?_⟩
    have hvisible : ∀ id, g.kindOf? id ≠ some .error := by
      intro id he
      obtain ⟨n, hn, hkind⟩ := Option.bind_eq_some_iff.1 he
      exact hkinds n (Array.mem_of_getElem? hn) hkind
    have hexact := quiet_iff_mem_language ht hlevels hvisible hrhs
      (by rw [hextras]; decide) {} text
    rwa [hextras] at hexact

end Parser

end AsmTree
