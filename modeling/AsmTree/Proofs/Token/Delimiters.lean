import AsmTree.Diagnostic.Basic
import AsmTree.Proofs.Token.Reading

/-!
# Tokens that are not closed

A string or a block comment that is not closed is unreadable, like a character that begins no token.
The diagnostic of an unreadable token goes by the beginning of its text alone. **Main statement
(`tells_unreadable`):** that is enough to tell what the lexer has found, since what opens a string
or a comment is never read as anything else.
-/

namespace AsmTree

/-! ## Delimiters -/

theorem Extent.closed_upTo {d : List Char} (hd : d ≠ []) (cs : List Char) :
    (upTo d cs).closed = true ↔ d <:+: cs := by
  induction cs with
  | nil => simp [upTo, hd]
  | cons c cs ih =>
    rw [upTo, List.infix_cons_iff, ← List.isPrefixOf_iff_prefix]
    split
    · next h => simp [h]
    · next h =>
      rw [show ((upTo d cs).shift 1).closed = (upTo d cs).closed from rfl, ih]
      simp [h]

namespace Delimited

/-- The characters that open a token of the form. -/
def opening : Delimited → List Char
  | .plainString => ['"']
  | .rawString => ['#', '"']
  | .blockComment => ['/', '*']

/-- **What opens a delimited token is not read as anything else.** -/
theorem longestMatch_opening (form : Delimited) (body : List Char) :
    longestMatch Lexical.rules (form.opening ++ body) =
      some (.opens form, form.opening.length) := by
  cases form <;> cases body <;> rfl

theorem firstToken_opening (form : Delimited) (body : List Char) :
    firstToken (form.opening ++ body) =
      (if (form.extent body).closed then form.kind else .unknown,
        form.opening.length + (form.extent body).length) := by
  unfold firstToken
  rw [longestMatch_opening]
  dsimp only
  rw [List.drop_left]

theorem kind_ne_unknown (form : Delimited) : form.kind ≠ .unknown := by
  cases form <;> exact Kind.noConfusion

/-- A token begins with an opening exactly if the text does where it stands. -/
theorem opening_prefix_lexeme (form : Delimited) {c : Char} {cs : List Char} :
    form.opening <+: (scan c cs).lexeme ↔ form.opening <+: c :: cs := by
  have hsplit := scan_lexeme_append_rest c cs
  constructor
  · intro h
    rw [← hsplit]
    exact h.trans (List.prefix_append _ _)
  · rintro ⟨body, hbody⟩
    have hlexeme : (scan c cs).lexeme <+: c :: cs := ⟨_, hsplit⟩
    refine List.prefix_of_prefix_length_le ⟨body, hbody⟩ hlexeme ?_
    have hlen := congrArg List.length hbody
    rw [List.length_append, List.length_cons] at hlen
    unfold scan
    rw [← hbody, firstToken_opening]
    simp only [List.length_cons, List.length_take]
    omega

end Delimited

/-! ## Unreadable tokens -/

/-- A token of the form begins where the token stands, and the text behind its opening does not
close it. -/
def Token.Unclosed (t : Token) (text : String) (form : Delimited) : Prop :=
  ∃ body, dropBytes t.offset text.toList = form.opening ++ body ∧
    (form.extent body).closed = false

/-- A block comment begins where the token stands, and nothing closes it. -/
def Token.OpenComment (t : Token) (text : String) : Prop :=
  ∃ body, dropBytes t.offset text.toList = '/' :: '*' :: body ∧ ¬ ['*', '/'] <:+: body

/-- A string begins where the token stands, and the lexer has not found its end. -/
def Token.OpenString (t : Token) (text : String) : Prop :=
  t.Unclosed text .plainString ∨ t.Unclosed text .rawString

variable {text : String} {t : Token}

theorem Token.unclosed_blockComment : t.Unclosed text .blockComment ↔ t.OpenComment text := by
  refine exists_congr fun body => and_congr_right fun _ => ?_
  rw [← Extent.closed_upTo (by decide), Bool.not_eq_true]
  rfl

/-- Where a token of a text stands, and how it was read there. -/
theorem exists_scan_of_mem (h : t ∈ tokenize text) : ∃ c cs,
    dropBytes t.offset text.toList = c :: cs ∧ t.kind = (scan c cs).kind ∧
      t.text.toList = (scan c cs).lexeme := by
  obtain ⟨ts, ts', hts⟩ := List.append_of_mem h
  obtain ⟨behind, hreads, htokens⟩ := Lexer.exists_reads hts
  obtain ⟨a, hrest, hoffset, -, -⟩ := hreads.text
  have hne : behind.rest ≠ [] := by
    intro hnil
    rw [Lexer.tokens_of_nil hnil] at htokens
    cases htokens
  obtain ⟨c, cs, hcs⟩ := List.exists_cons_of_ne_nil hne
  rw [Lexer.tokens_of_ne_nil hne, Lexer.next_of_cons hcs] at htokens
  obtain ⟨rfl, -⟩ := List.cons.inj htokens
  refine ⟨c, cs, ?_, rfl, String.toList_ofList⟩
  dsimp only
  rw [hoffset, show (Lexer.ofText text).offset = 0 from rfl, Nat.zero_add, dropBytes,
    show text.toList = a ++ behind.rest from hrest, splitBytes?_byteLength]
  exact hcs

/-- **An unreadable token that begins like a delimited one is not closed.** -/
theorem prefix_iff_unclosed (h : t ∈ tokenize text) (hk : t.kind = .unknown) (form : Delimited) :
    form.opening <+: t.text.toList ↔ t.Unclosed text form := by
  obtain ⟨c, cs, hplace, hkind, htext⟩ := exists_scan_of_mem h
  rw [htext, form.opening_prefix_lexeme, Token.Unclosed, hplace]
  refine exists_congr fun body => ⟨fun hbody => ⟨hbody.symm, ?_⟩, fun hbody => hbody.1.symm⟩
  have hfirst : (firstToken (c :: cs)).1 = .unknown := hkind.symm.trans hk
  rw [← hbody, form.firstToken_opening] at hfirst
  by_contra hclosed
  rw [Bool.not_eq_false] at hclosed
  rw [hclosed] at hfirst
  exact form.kind_ne_unknown hfirst

/-! ## Their diagnostics -/

/-- The code goes by what the text of the token begins with. -/
theorem Diagnostic.code_unreadable (t : Token) :
    Delimited.blockComment.opening <+: t.text.toList ∧
        (unreadable t).code = .unterminatedComment ∨
      ¬ Delimited.blockComment.opening <+: t.text.toList ∧
        (Delimited.plainString.opening <+: t.text.toList ∨
          Delimited.rawString.opening <+: t.text.toList) ∧
        (unreadable t).code = .unterminatedString ∨
      ¬ Delimited.blockComment.opening <+: t.text.toList ∧
        ¬ (Delimited.plainString.opening <+: t.text.toList ∨
          Delimited.rawString.opening <+: t.text.toList) ∧
        (unreadable t).code = .invalidCharacter := by
  have hstarts : ∀ w : String, t.text.startsWith w = true ↔ w.toList <+: t.text.toList :=
    fun _ => String.startsWith_string_iff
  unfold unreadable
  split
  · next h => exact Or.inl ⟨(hstarts "/*").1 h, rfl⟩
  · next h =>
    have hcomment := mt (hstarts "/*").2 h
    split
    · next h => exact Or.inr (Or.inl ⟨hcomment,
        (Bool.or_eq_true_iff.1 h).imp (hstarts "\"").1 (hstarts "#\"").1, rfl⟩)
    · next h =>
      refine Or.inr (Or.inr ⟨hcomment, fun hstring => h (Bool.or_eq_true_iff.2 ?_), rfl⟩)
      exact hstring.imp (hstarts "\"").2 (hstarts "#\"").2

/-- What a diagnostic says of an unreadable token of a text: its range, and what was found there. -/
structure Diagnostic.Tells (d : Diagnostic) (text : String) (t : Token) : Prop where
  range : d.range = t.range
  comment : d.code = .unterminatedComment ↔ t.OpenComment text
  string : d.code = .unterminatedString ↔ t.OpenString text
  character : d.code = .invalidCharacter ↔ ¬ t.OpenComment text ∧ ¬ t.OpenString text

theorem Token.OpenString.not_openComment (h : t.OpenString text) : ¬ t.OpenComment text := by
  rintro ⟨body, hbody, -⟩
  rcases h with ⟨body', hbody', -⟩ | ⟨body', hbody', -⟩ <;>
  · rw [hbody] at hbody'
    cases hbody'

theorem Diagnostic.range_unreadable (t : Token) : (unreadable t).range = t.range := by
  unfold unreadable
  split
  · rfl
  · split <;> rfl

theorem Diagnostic.related_unreadable (t : Token) : (unreadable t).related = [] := by
  unfold unreadable
  split
  · rfl
  · split <;> rfl

/-- **The diagnostic of an unreadable token says what the lexer has found.** -/
theorem tells_unreadable (h : t ∈ tokenize text) (hk : t.kind = .unknown) :
    (Diagnostic.unreadable t).Tells text t := by
  have hcode := Diagnostic.code_unreadable t
  simp only [prefix_iff_unclosed h hk, Token.unclosed_blockComment] at hcode
  have hexclude : t.OpenString text → ¬ t.OpenComment text := Token.OpenString.not_openComment
  rcases hcode with ⟨hcomment, hc⟩ | ⟨hcomment, hstring, hc⟩ | ⟨hcomment, hstring, hc⟩
  · have hstring : ¬ t.OpenString text := fun hs => hexclude hs hcomment
    exact ⟨Diagnostic.range_unreadable t, by simp [hc, hcomment], by simp [hc, hstring],
      by simp [hc, hcomment]⟩
  · replace hstring : t.OpenString text := hstring
    exact ⟨Diagnostic.range_unreadable t, by simp [hc, hcomment], by simp [hc, hstring],
      by simp [hc, hstring]⟩
  · replace hstring : ¬ t.OpenString text := hstring
    exact ⟨Diagnostic.range_unreadable t, by simp [hc, hcomment], by simp [hc, hstring],
      by simp [hc, hcomment, hstring]⟩

end AsmTree
