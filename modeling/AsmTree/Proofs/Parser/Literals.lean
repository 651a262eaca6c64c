import AsmTree.Proofs.Parser.Edges
import AsmTree.Proofs.Parser.Foreign
import AsmTree.Proofs.Parser.OpenBlocks
import AsmTree.Proofs.Parser.Slots
import AsmTree.Proofs.Token.Numbers
import AsmTree.Proofs.View.Numbers
import AsmTree.Proofs.View.Strings

/-!
# Literals and their values

A literal of a tree is a node over one token of the text. The lexer has found where the token ends,
and the value is read from its text alone, so the two have to agree on what a number or a string is.

**Main statements:** whole numbers have the value of their digits (`exists_table_intValue`), and
strings hold what stands between the marks at which the lexer stopped (`exists_table_stringValue`).
-/

namespace AsmTree

open Machine AsmTree.Tree AsmTree.View

theorem Assembly.rhs_of_literal {g : Grammar} (hg : grammar = .ok g) : ∀ p ∈ g.productions,
    g.kindOf? p.lhs = some .literal → ∃ k ∈ literals, p.rhs = [.terminal k] := by
  have hcheck : grammar.toOption.any (fun g => g.productions.toList.all fun p =>
      g.kindOf? p.lhs ≠ some .literal || literals.any fun k => p.rhs = [.terminal k]) = true := by
    decide +kernel
  rw [hg] at hcheck
  intro p hp hkind
  have hrhs := List.all_eq_true.1 hcheck p (Array.mem_toList_iff.2 hp)
  simpa [hkind] using hrhs

/-! ## Nodes over one token -/

variable {t : ParseTable} {k : Kind} {cs : List Tree}

theorem exists_shape {c : Tree} (h : isExtraTree t c = false) :
    ∃ s, c.shape t.isExtra = [s] ∧ (k ≠ .error → s = .leaf k → ∃ word, c = .token k word) := by
  cases c with
  | token k' word =>
    have hextra : t.isExtra k' = false := h
    refine ⟨.leaf k', by rw [shape, hextra]; rfl, fun _ hs => ⟨word, ?_⟩⟩
    rw [Shape.leaf.inj hs]
  | node k' cs =>
    rw [shape]
    split
    · exact ⟨_, rfl, fun hk hs => absurd (Shape.leaf.inj hs).symm hk⟩
    · exact ⟨_, rfl, fun _ hs => by cases hs⟩

/-- A token is all that is below a node without extras at its edges that shows nothing else. -/
theorem exists_token_of_shapeAll {node : Kind} (hk : k ≠ .error) (htrimmed : Trimmed t node cs)
    (h : shapeAll t.isExtra cs = [.leaf k]) : ∃ word, cs = [.token k word] := by
  cases cs with
  | nil => cases h
  | cons c cs =>
    obtain ⟨s, hs, htoken⟩ := exists_shape (htrimmed c (Or.inl rfl))
    rw [shapeAll_cons, hs, List.singleton_append] at h
    obtain ⟨hleaf, hrest⟩ := List.cons.inj h
    obtain ⟨word, rfl⟩ := htoken hk hleaf
    refine ⟨word, congrArg (Tree.token k word :: ·) ?_⟩
    -- the last tree shows something too, so it is the first
    by_contra hne
    obtain ⟨s', hs', -⟩ := exists_shape (k := k) (htrimmed (cs.getLast hne)
      (Or.inr (by rw [List.getLast?_cons, List.getLast?_eq_some_getLast hne]; rfl)))
    rw [← List.dropLast_append_getLast hne, shapeAll_append, shapeAll_cons, hs'] at hrest
    cases (List.append_eq_nil_iff.1 hrest).2

namespace Parser

variable {g : Grammar} {w : Nat → Nat} {text : String} {tree : SyntaxTree}

theorem Makes.trimmed (h : Assembly.Shipped g t w) (hmakes : Makes t text tree) :
    ∀ child ∈ tree.children, child.Everywhere (Trimmed t) := by
  obtain ⟨options, hparse⟩ := hmakes.of_shipped h
  obtain ⟨out, hrun⟩ := exists_run (p := ⟨t, options⟩) h text
  obtain rfl := Except.ok.inj ((parse_of_run hrun).symm.trans hparse)
  exact (edged_invariant (isExtra_eof h) rfl).run (edged_fresh ⟨t, options⟩ (isExtra_eof h) text)
    hrun

/-- **A literal is a node over one token of the text.** -/
theorem exists_token_of_literal (h : Assembly.Shipped g t w) (hmakes : Makes t text tree)
    {l : Located} (hl : l ∈ (⟨0, tree.root⟩ : Located).subtrees) (hnode : l.isToken = false)
    (hk : l.kind = .literal) : ∃ token ∈ tokenize text, token.kind ∈ Assembly.literals ∧
      l = ⟨token.offset, .node .literal [.token token.kind token.text]⟩ := by
  obtain ⟨options, hparse⟩ := hmakes.of_shipped h
  have hproduced := (Yields.scratch hparse).produced h hl hnode (by rw [hk]; decide)
  obtain ⟨p, hp, hkind, ds, hds⟩ := hproduced.resolve_left (by rw [hk]; decide)
  obtain ⟨k, hliteral, hrhs⟩ := Assembly.rhs_of_literal h.grammar p hp (by rw [hkind, hk])
  rcases Located.mem_subtrees_node.1 hl with rfl | hpart
  · cases hk
  have htrimmed := Located.everywhere_of_mem_subtreesOntoAll
    (everywhereAll_iff.2 (hmakes.trimmed h)) hpart
  obtain ⟨start, tree'⟩ := l
  cases tree' with
  | token k' word => cases hnode
  | node k' cs =>
    obtain rfl : k' = .literal := hk
    have herror : ∀ k ∈ Assembly.literals, k ≠ .error := by decide
    obtain ⟨word, rfl⟩ := exists_token_of_shapeAll (herror k hliteral) htrimmed.1 (by
      rw [show shapeAll t.isExtra cs = ds.skeleton from hds]
      clear hds
      generalize p.rhs = rhs at ds hrhs
      subst hrhs
      cases ds with
      | cons first rest =>
        cases first with
        | leaf k =>
          cases rest
          rfl)
    have htoken : ⟨start, .token k word⟩ ∈ Located.parts 0 tree.children :=
      Located.parts_trans rfl (Located.mem_parts_of_mem_row List.mem_cons_self) 0 _ hpart
    obtain ⟨token, hmem, rfl, rfl, rfl⟩ := exists_token_of_mem_parts (hmakes.leaves h) htoken
    exact ⟨token, hmem, hliteral, rfl⟩

end Parser

/-! ## Looking into literals -/

namespace View.Literal

variable {k : Kind} {form : LiteralKind} {start : Nat} {word : String}

theorem of_token (h : LiteralKind.ofKind? k = some form) :
    of ⟨start, .node .literal [.token k word]⟩ = ⟨some ⟨start, .token k word⟩, some form⟩ := by
  rw [of, Located.meaning?, Located.tokens,
    show Located.children ⟨start, .node .literal [.token k word]⟩ = [⟨start, .token k word⟩] from rfl,
    List.filter_cons_of_pos rfl, List.findSome?_cons,
    show (⟨start, .token k word⟩ : Located).kind = k from rfl, h]
  rfl

theorem intValue?_of_token (h : LiteralKind.ofKind? k = some form) :
    (of ⟨start, .node .literal [.token k word]⟩).intValue? =
      (View.intValue? form word).map BitVec.toNat := by
  rw [of_token h, intValue?]
  simp only [Option.bind_eq_bind, Option.bind_some, Located.text_token]
  cases View.intValue? form word <;> rfl

theorem stringValue?_of_token (h : LiteralKind.ofKind? k = some .string) :
    (of ⟨start, .node .literal [.token k word]⟩).stringValue? = View.stringValue? word := by
  rw [of_token h, stringValue?, if_pos rfl, Option.bind_some, Located.text_token]

theorem isSome_ofKind? : ∀ k ∈ Assembly.literals, (LiteralKind.ofKind? k).isSome = true := by
  decide

theorem exists_numeration {base : Nat} {marks : List String}
    (h : LiteralKind.ofKind? k = some form)
    (hform : form.numeration? = some (base, marks) ∨
      form = .gfx ∧ base = 4 ∧ marks = pixelMarks) :
    ∃ x ∈ numerations, x.kind = k ∧ x.base = base ∧ x.marks = marks := by
  rcases hform with hform | ⟨rfl, rfl, rfl⟩
  · cases k <;> cases h <;> cases hform <;> decide
  · cases k <;> cases h
    decide

end View.Literal

namespace Parser

variable {g : Grammar} {t : ParseTable} {w : Nat → Nat} {text : String} {tree : SyntaxTree}
  {token : Token}

/-- **The text of a token that is a literal stands for a whole number, or for none.** -/
theorem exists_intValue (h : token ∈ tokenize text) {form : LiteralKind}
    (hform : LiteralKind.ofKind? token.kind = some form) :
    ∃ value, IntValue form token.text value := by
  have hnumeral {base : Nat} {marks : List String} (hx : form.numeration? = some (base, marks) ∨
      form = .gfx ∧ base = 4 ∧ marks = pixelMarks) :
      ∃ ds, Numeral base marks token.text ds := by
    obtain ⟨x, hmem, hkind, rfl, rfl⟩ := Literal.exists_numeration hform hx
    exact exists_numeral hmem h hkind.symm
  cases hnumeration : form.numeration? with
  | some x =>
    obtain ⟨ds, hds⟩ := hnumeral (Or.inl hnumeration)
    exact ⟨_, .number hnumeration hds⟩
  | none =>
    by_cases hgfx : form = .gfx
    · obtain ⟨ds, hds⟩ := hnumeral (Or.inr ⟨hgfx, rfl, rfl⟩)
      subst hgfx
      exact ⟨_, .pixels hds⟩
    · exact ⟨_, .other hnumeration hgfx⟩

/-- **Whole numbers have the value of their digits**, in every tree that the assembly language makes
of a text. A literal holds one token of the text. The value of a decimal, hexadecimal, binary or
octal number is that of its digits, without the mark and the underscores, if it fits in 32 bits, and
a row of pixels has the value of its planes if it has eight digits at most. No other literal is a
whole number. -/
theorem exists_table_intValue : ∃ t, Assembly.table = .ok t ∧
    (∀ (options : ParseOptions) (text : String), ∃ tree,
      parse ⟨t, options⟩ text none = .ok tree) ∧
    ∀ (text : String) (tree : SyntaxTree), Makes t text tree →
      ∀ l ∈ (⟨0, tree.root⟩ : Located).subtrees, l.isToken = false → l.kind = .literal →
        ∃ token ∈ tokenize text, ∃ form, LiteralKind.ofKind? token.kind = some form ∧
          (Literal.of l).token = some ⟨token.offset, .token token.kind token.text⟩ ∧
          (Literal.of l).kind = some form ∧
          IntValue form token.text (Literal.of l).intValue? := by
  obtain ⟨g, t, w, h⟩ := Assembly.exists_shipped
  refine ⟨t, h.table, fun options text => ?_, fun text tree hmakes l hl hnode hk => ?_⟩
  · obtain ⟨tree, hparse, -⟩ := exists_parse_scratch h options text
    exact ⟨tree, hparse⟩
  · obtain ⟨token, htoken, hliteral, rfl⟩ := exists_token_of_literal h hmakes hl hnode hk
    obtain ⟨form, hform⟩ := Option.isSome_iff_exists.1 (Literal.isSome_ofKind? _ hliteral)
    obtain ⟨value, hvalue⟩ := exists_intValue htoken hform
    refine ⟨token, htoken, form, hform, by rw [Literal.of_token hform],
      by rw [Literal.of_token hform], ?_⟩
    rw [Literal.intValue?_of_token hform, intValue?_of_intValue hvalue]
    exact hvalue

/-- **Strings hold what stands between the marks at which the lexer stopped**, in every tree that the
assembly language makes of a text. The token of a string reaches from its opening, one quote or three
with a `#` in front if it is raw, to the first mark of as many quotes that closes it. A raw string
holds the text between the two, and any other string that text with its escapes resolved. -/
theorem exists_table_stringValue : ∃ t, Assembly.table = .ok t ∧
    (∀ (options : ParseOptions) (text : String), ∃ tree,
      parse ⟨t, options⟩ text none = .ok tree) ∧
    ∀ (text : String) (tree : SyntaxTree), Makes t text tree →
      ∀ l ∈ (⟨0, tree.root⟩ : Located).subtrees, l.isToken = false → l.kind = .literal →
        ∃ token ∈ tokenize text,
          (Literal.of l).token = some ⟨token.offset, .token token.kind token.text⟩ ∧
          (token.kind = .string → ∃ raw quotes body behind contents,
            StringAt (dropBytes token.offset text.toList) raw quotes body behind ∧
            token.text.toList = stringOpening raw quotes ++ body ++ quoteMark quotes ∧
            (Literal.of l).stringValue? = some (.ofList contents) ∧
            (if raw then contents = body else Unescapes body contents)) := by
  obtain ⟨g, t, w, h⟩ := Assembly.exists_shipped
  refine ⟨t, h.table, fun options text => ?_, fun text tree hmakes l hl hnode hk => ?_⟩
  · obtain ⟨tree, hparse, -⟩ := exists_parse_scratch h options text
    exact ⟨tree, hparse⟩
  · obtain ⟨token, htoken, hliteral, rfl⟩ := exists_token_of_literal h hmakes hl hnode hk
    obtain ⟨form, hform⟩ := Option.isSome_iff_exists.1 (Literal.isSome_ofKind? _ hliteral)
    refine ⟨token, htoken, by rw [Literal.of_token hform], fun hstring => ?_⟩
    obtain ⟨raw, quotes, body, behind, hat, htext⟩ := exists_stringAt htoken hstring
    refine ⟨raw, quotes, body, behind, if raw then body else unescape body, hat, htext, ?_, ?_⟩
    · rw [Literal.stringValue?_of_token (by rw [hstring]; rfl), stringValue?_eq hat.closes htext]
    · cases raw with
      | true => rfl
      | false => exact unescapes_iff.2 rfl

end Parser

end AsmTree
