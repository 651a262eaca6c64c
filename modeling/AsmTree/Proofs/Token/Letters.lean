import AsmTree.Proofs.Text.Letters
import AsmTree.Proofs.Token.Reading

/-!
# Tokens in capital and small letters

No lexical class tells a capital from its small letter, and none of the marks that open or close a
token is a letter. **Main statement (`tokenize_toLower`):** the tokens of a text in small letters
are the tokens of the text in small letters, of the same kinds and in the same places.
-/

namespace AsmTree

/-! ## Closing delimiters -/

namespace Extent

theorem upTo_toLower {d : List Char} (hd : d.all (Caseless ·) = true) (cs : List Char) :
    upTo d (cs.map Char.toLower) = upTo d cs := by
  induction cs with
  | nil => rfl
  | cons c cs ih =>
    have hprefix : d.isPrefixOf ((c :: cs).map Char.toLower) = d.isPrefixOf (c :: cs) := by
      rw [Bool.eq_iff_iff, List.isPrefixOf_iff_prefix, List.isPrefixOf_iff_prefix,
        prefix_map_toLower hd]
    rw [List.map_cons] at hprefix ⊢
    rw [upTo, upTo, hprefix, ih]

theorem rawLine_toLower (cs : List Char) : rawLine (cs.map Char.toLower) = rawLine cs := by
  induction cs with
  | nil => rfl
  | cons c cs ih =>
    by_cases hq : c = '"'
    · rw [hq]
      rfl
    by_cases hn : c = '\n'
    · rw [hn]
      rfl
    · have hq' := mt ((by decide : Caseless '"').toLower_eq_iff c).1 hq
      have hn' := mt ((by decide : Caseless '\n').toLower_eq_iff c).1 hn
      rw [List.map_cons, rawLine_cons hq' hn', rawLine_cons hq hn, ih]

theorem escapedLine_toLower : ∀ cs : List Char,
    escapedLine (cs.map Char.toLower) = escapedLine cs
  | [] => rfl
  | c :: cs => by
    by_cases hq : c = '"'
    · rw [hq]
      rfl
    by_cases hn : c = '\n'
    · rw [hn]
      rfl
    by_cases hb : c = '\\'
    · subst hb
      cases cs with
      | nil => rfl
      | cons d cs =>
        show (escapedLine (cs.map Char.toLower)).shift 2 = (escapedLine cs).shift 2
        rw [escapedLine_toLower cs]
    · have hq' := mt ((by decide : Caseless '"').toLower_eq_iff c).1 hq
      have hn' := mt ((by decide : Caseless '\n').toLower_eq_iff c).1 hn
      have hb' := mt ((by decide : Caseless '\\').toLower_eq_iff c).1 hb
      rw [List.map_cons, escapedLine_cons hq' hn' hb', escapedLine_cons hq hn hb,
        escapedLine_toLower cs]

theorem string_eq_line {line : List Char → Extent} {cs : List Char} (h : ¬ ['"', '"'] <+: cs) :
    string line cs = line cs := by
  rw [string.eq_def]
  split
  · exact absurd ⟨_, rfl⟩ h
  · rfl

theorem string_toLower {line : List Char → Extent} {cs : List Char}
    (hline : line (cs.map Char.toLower) = line cs) :
    string line (cs.map Char.toLower) = string line cs := by
  by_cases h : ['"', '"'] <+: cs
  · obtain ⟨cs, rfl⟩ := h
    show (upTo _ (cs.map Char.toLower)).shift 2 = (upTo _ cs).shift 2
    rw [upTo_toLower (by decide)]
  · rw [string_eq_line h, string_eq_line (mt (prefix_map_toLower (by decide) cs).1 h), hline]

end Extent

theorem Delimited.extent_toLower (form : Delimited) (cs : List Char) :
    form.extent (cs.map Char.toLower) = form.extent cs := by
  cases form with
  | plainString => exact Extent.string_toLower (Extent.escapedLine_toLower cs)
  | rawString => exact Extent.string_toLower (Extent.rawLine_toLower cs)
  | blockComment => exact Extent.upTo_toLower (by decide) cs

/-! ## The first token -/

theorem caseless_rules : ∀ rule ∈ Lexical.rules, rule.pattern.caseless = true := by
  have h : (Lexical.rules.map LexRule.pattern).all Pattern.caseless = true := by decide +kernel
  intro rule hrule
  exact List.all_eq_true.1 h _ (List.mem_map_of_mem hrule)

theorem caseless_unfinished : ∀ p ∈ Lexical.unfinished, p.caseless = true := by decide +kernel

theorem longestMatch_toLower (cs : List Char) :
    longestMatch Lexical.rules (cs.map Char.toLower) = longestMatch Lexical.rules cs := by
  unfold longestMatch
  exact List.foldl_ext _ _ _ fun best rule hrule => by
    rw [Pattern.longest_toLower (caseless_rules rule hrule)]

theorem unreadableLength_toLower (cs : List Char) :
    unreadableLength (cs.map Char.toLower) = unreadableLength cs := by
  unfold unreadableLength
  exact List.foldl_ext _ _ _ fun best p hp => by
    rw [Pattern.longest_toLower (caseless_unfinished p hp)]

theorem nameKind_toLower (name : String) : Lexical.nameKind name.toLower = Lexical.nameKind name := by
  have hname : name.toLower.map Char.toLower = name.map Char.toLower := by
    rw [← String.toList_inj, String.toList_map, String.toList_map, toList_toLower, List.map_map]
    exact List.map_congr_left fun c _ => toLower_toLower c
  unfold Lexical.nameKind
  rw [hname]

/-- **The first token in small letters is the first token.** -/
theorem firstToken_toLower (cs : List Char) : firstToken (cs.map Char.toLower) = firstToken cs := by
  unfold firstToken
  rw [longestMatch_toLower, unreadableLength_toLower]
  split
  · rw [← List.map_take, ← toLower_ofList, nameKind_toLower]
  · rfl
  · rw [← List.map_drop, Delimited.extent_toLower]
  · rfl

theorem scan_toLower (c : Char) (cs : List Char) : scan c.toLower (cs.map Char.toLower) =
    ⟨(scan c cs).kind, (scan c cs).lexeme.map Char.toLower,
      (scan c cs).rest.map Char.toLower⟩ := by
  have hfirst := firstToken_toLower (c :: cs)
  rw [List.map_cons] at hfirst
  simp only [scan, hfirst, List.map_cons, List.map_take, List.map_drop]

/-! ## All tokens -/

def Token.lower (t : Token) : Token := { t with text := t.text.toLower }

@[simp] theorem Token.length_lower (t : Token) : t.lower.length = t.length :=
  utf8ByteSize_toLower t.text

theorem Token.range_lower (t : Token) : t.lower.range = t.range := by
  rw [range, length_lower]
  rfl

theorem Token.stop_lower (t : Token) : t.lower.stop = t.stop := by
  rw [stop, length_lower]
  rfl

def Lexer.lower (lexer : Lexer) : Lexer := { lexer with rest := lexer.rest.map Char.toLower }

theorem Lexer.next_lower (lexer : Lexer) :
    lexer.lower.next = (lexer.next.1.lower, lexer.next.2.lower) := by
  cases h : lexer.rest with
  | nil =>
    have h' : lexer.lower.rest = [] := congrArg (List.map Char.toLower) h
    unfold next
    rw [h, h']
    exact congrArg (Prod.mk · _) (congrArg (Token.mk .eof · _ _) (toLower_ofList []).symm)
  | cons c cs =>
    have h' : lexer.lower.rest = c.toLower :: cs.map Char.toLower :=
      congrArg (List.map Char.toLower) h
    rw [next_of_cons h, next_of_cons h', scan_toLower]
    simp [lower, Token.lower]

theorem Lexer.tokens_lower (lexer : Lexer) :
    lexer.lower.tokens = lexer.tokens.map Token.lower := by
  refine tokens_induction (P := fun lexer ts => lexer.lower.tokens = ts.map Token.lower) ?_ ?_ lexer
  · intro lexer h
    exact tokens_of_nil (congrArg (List.map Char.toLower) h)
  · intro lexer h ih
    have h' : lexer.lower.rest ≠ [] := mt List.map_eq_nil_iff.1 h
    rw [tokens_of_ne_nil h', next_lower, ih, List.map_cons]

theorem Lexer.lower_ofText (text : String) : (ofText text).lower = ofText text.toLower := by
  rw [ofText, ofText, toList_toLower]
  rfl

/-- **The tokens of a text in small letters are its tokens in small letters.** -/
theorem tokenize_toLower (text : String) :
    tokenize text.toLower = (tokenize text).map Token.lower := by
  rw [tokenize, ← Lexer.lower_ofText, Lexer.tokens_lower, tokenize]

end AsmTree
