import AsmTree.Proofs.Text.Bytes
import AsmTree.Proofs.Text.Positions
import AsmTree.Proofs.Token.Reading

/-!
# Reading a text in pieces

The tokens of a text lie side by side and cover it, and a lexer may start where any of them begins.
Both follow from one fact about a lexer that has read some tokens (`startingAt_of_reads`): it is the
lexer that starts there, with the position that the line index gives.

**Main statements:** `answer_eq`, what a lexer answers when it is asked on and on;
`pairwise_offset`, the order of the tokens; `tokenize_partition`; and `tokens_before_newline`, that
the tokens of a line do not depend on the lines below it.
-/

namespace AsmTree

namespace Lexer

/-! ## Asking on and on -/

/-- The lexer behind its next `n` answers. -/
def after (lexer : Lexer) : Nat → Lexer
  | 0 => lexer
  | n + 1 => lexer.next.2.after n

/-- What a lexer answers when it is asked for a token the `n`-th time, from zero. -/
def answer (lexer : Lexer) (n : Nat) : Token := (lexer.after n).next.1

theorem next_of_nil {lexer : Lexer} (h : lexer.rest = []) :
    lexer.next = (Parser.stopToken lexer, lexer) := by
  unfold next Parser.stopToken
  rw [h]
  rfl

/-- **A lexer answers the tokens that are left, then the end of the text every time.** -/
theorem answer_eq (lexer : Lexer) (n : Nat) :
    lexer.answer n = lexer.tokens.getD n (Parser.stopToken lexer) := by
  induction n generalizing lexer with
  | zero =>
    by_cases h : lexer.rest = []
    · rw [tokens_of_nil h, List.getD_nil, answer, after, next_of_nil h]
    · rw [tokens_of_ne_nil h, List.getD_cons_zero]
      rfl
  | succ n ih =>
    have hnext : lexer.answer (n + 1) = lexer.next.2.answer n := rfl
    rw [hnext, ih]
    by_cases h : lexer.rest = []
    · rw [next_of_nil h, tokens_of_nil h, List.getD_nil, List.getD_nil]
    · rw [tokens_of_ne_nil h, List.getD_cons_succ,
        Parser.stopToken_of_reads (.cons h .nil : Reads lexer [_] _)]

/-! ## Starting where a token begins -/

variable {text : String} {lexer behind : Lexer} {ts ts' : List Token} {t : Token}

theorem Reads.beginning (h : Reads (.ofText text) ts lexer) : ∃ a, text.toList = a ++ lexer.rest ∧
    lexer.offset = byteLength a ∧ lexer.position = Position.origin.advance a := by
  obtain ⟨a, hrest, hoffset, hposition, -⟩ := h.text
  exact ⟨a, hrest, hoffset.trans (Nat.zero_add _), hposition⟩

theorem position_of_reads (h : Reads (.ofText text) ts lexer) :
    lexer.position = (LineIndex.ofText text).position lexer.offset := by
  obtain ⟨a, hrest, hoffset, hposition⟩ := h.beginning
  rw [← String.ofList_toList (s := text), hrest, hoffset, LineIndex.position_ofText, hposition]

/-- **A lexer that has read some tokens is the lexer that starts there.** -/
theorem startingAt_of_reads (h : Reads (.ofText text) ts lexer) :
    startingAt text lexer.offset ((LineIndex.ofText text).position lexer.offset) = lexer := by
  rw [← position_of_reads h]
  obtain ⟨a, hrest, hoffset, -⟩ := h.beginning
  have hdrop : dropBytes lexer.offset text.toList = lexer.rest := by
    rw [dropBytes, hrest, hoffset, splitBytes?_byteLength]
    rfl
  have hmin : min lexer.offset text.utf8ByteSize = lexer.offset := by
    rw [utf8ByteSize_eq_byteLength, hrest, byteLength_append, hoffset]
    exact Nat.min_eq_left (Nat.le_add_right _ _)
  rw [startingAt, hdrop, hmin]

theorem stopToken_ofText (text : String) : Parser.stopToken (.ofText text) =
    ⟨.eof, "", text.utf8ByteSize, (LineIndex.ofText text).position text.utf8ByteSize⟩ := by
  have hposition := LineIndex.position_ofText text.toList []
  rw [List.append_nil, String.ofList_toList, ← utf8ByteSize_eq_byteLength] at hposition
  rw [hposition, utf8ByteSize_eq_byteLength, Parser.stopToken]
  exact congrArg (Token.mk _ _ · _) (Nat.zero_add _)

/-- A token that is read begins where the lexer stands, and its range names its text. -/
theorem Reads.next_token (h : Reads (.ofText text) ts lexer) (htokens : lexer.tokens = t :: ts') :
    t.text ≠ "" ∧ t.offset = lexer.offset ∧ t.position = lexer.position ∧
      t.range.slice? text = some t.text := by
  obtain ⟨a, hrest, hoffset, -⟩ := h.beginning
  have hne : lexer.rest ≠ [] := fun hnil => by
    rw [tokens_of_nil hnil] at htokens
    cases htokens
  obtain ⟨c, cs, hcs⟩ := List.exists_cons_of_ne_nil hne
  rw [tokens_of_ne_nil hne] at htokens
  obtain ⟨rfl, -⟩ := List.cons.inj htokens
  rw [next_of_cons hcs]
  refine ⟨?_, rfl, rfl, ?_⟩
  · exact fun hempty => scan_lexeme_ne_nil c cs (by simpa using congrArg String.toList hempty)
  · have htext : text.toList = a ++ ((scan c cs).lexeme ++ (scan c cs).rest) := by
      rw [scan_lexeme_append_rest, ← hcs, hrest]
    simp [Token.range, Token.length, TextRange.ofLength, TextRange.slice?, htext, hoffset,
      splitBytes?_byteLength, utf8ByteSize_ofList]

theorem offset_next (h : lexer.rest ≠ []) : lexer.next.1.offset = lexer.offset := by
  obtain ⟨c, cs, hrest⟩ := List.exists_cons_of_ne_nil h
  rw [next_of_cons hrest]

theorem offset_lt_next (h : lexer.rest ≠ []) : lexer.offset < lexer.next.2.offset := by
  have hreads : Reads lexer [lexer.next.1] lexer.next.2 := .cons h .nil
  have hstop := Reads.stop (show Reads lexer ([] ++ [lexer.next.1]) lexer.next.2 from hreads)
  rw [← hstop, Token.stop, offset_next h]
  exact Nat.lt_add_of_pos_right (hreads.length_pos (List.mem_singleton_self _))

theorem le_offset (lexer : Lexer) :
    ∀ t ∈ lexer.tokens ++ [Parser.stopToken lexer], lexer.offset ≤ t.offset := by
  refine tokens_induction (P := fun lexer ts =>
    ∀ t ∈ ts ++ [Parser.stopToken lexer], lexer.offset ≤ t.offset) ?_ ?_ lexer
  · intro lexer _
    simp [Parser.stopToken]
  · intro lexer hne ih t ht
    rw [← Parser.stopToken_of_reads (.cons hne .nil : Reads lexer [_] _), List.cons_append] at ht
    rcases List.mem_cons.1 ht with rfl | ht
    · exact (offset_next hne).ge
    · exact Nat.le_of_lt (Nat.lt_of_lt_of_le (offset_lt_next hne) (ih t ht))

/-- **Each token begins behind the ones before it**, and so does the end of the text. -/
theorem pairwise_offset (lexer : Lexer) :
    (lexer.tokens ++ [Parser.stopToken lexer]).Pairwise (·.offset < ·.offset) := by
  refine tokens_induction (P := fun lexer ts =>
    (ts ++ [Parser.stopToken lexer]).Pairwise (·.offset < ·.offset)) ?_ ?_ lexer
  · intro lexer _
    exact List.pairwise_singleton _ _
  · intro lexer hne ih
    rw [← Parser.stopToken_of_reads (.cons hne .nil : Reads lexer [_] _), List.cons_append]
    refine List.pairwise_cons.2 ⟨fun t ht => ?_, ih⟩
    rw [offset_next hne]
    exact Nat.lt_of_lt_of_le (offset_lt_next hne) (le_offset _ t ht)

theorem Reads.filter_offset_lt (h : Reads lexer ts behind) :
    lexer.tokens.filter (·.offset < behind.offset) = ts := by
  induction h with
  | @nil lexer =>
    refine List.filter_eq_nil_iff.2 fun t ht => ?_
    simpa using le_offset lexer t (List.mem_append_left _ ht)
  | @cons lexer behind ts hne h ih =>
    obtain ⟨a, -, hoffset, -⟩ := h.text
    have hlt := offset_lt_next hne
    rw [tokens_of_ne_nil hne, List.filter_cons_of_pos, ih]
    rw [decide_eq_true_eq, offset_next hne]
    omega

end Lexer

/-! ## The tokens of a text -/

/-- Where the `n`-th token of a text begins, from zero. Behind the last token this is the end of the
text. -/
def boundary (text : String) (n : Nat) : Nat := (((tokenize text).take n).map Token.length).sum

theorem exists_reads_of_tokenize {text : String} {ts ts' : List Token}
    (h : tokenize text = ts ++ ts') :
    ∃ behind, Lexer.Reads (.ofText text) ts behind ∧ behind.tokens = ts' :=
  Lexer.exists_reads h

theorem reads_boundary (text : String) (n : Nat) : ∃ lexer : Lexer,
    Lexer.Reads (.ofText text) ((tokenize text).take n) lexer ∧
      lexer.offset = boundary text n ∧ lexer.tokens = (tokenize text).drop n := by
  obtain ⟨lexer, hreads, htokens⟩ := exists_reads_of_tokenize (List.take_append_drop n _).symm
  obtain ⟨a, -, hoffset, -, hlength⟩ := hreads.text
  exact ⟨lexer, hreads, by rw [hoffset, hlength]; exact Nat.zero_add _, htokens⟩

/-- **The tokens of a text are nonempty parts of it, side by side, each where the line index says,
and together they are the text. A lexer that starts where one of them begins, or at the end, answers
the tokens that are left and then the end of the text.** -/
theorem tokenize_partition (text : String) :
    String.join ((tokenize text).map Token.text) = text ∧
      (∀ n t, (tokenize text)[n]? = some t → t.text ≠ "" ∧ t.offset = boundary text n ∧
        t.range.slice? text = some t.text ∧
        t.position = (LineIndex.ofText text).position t.offset) ∧
      ∀ n k, (Lexer.startingAt text (boundary text n)
          ((LineIndex.ofText text).position (boundary text n))).answer k =
        ((tokenize text).drop n).getD k
          ⟨.eof, "", text.utf8ByteSize, (LineIndex.ofText text).position text.utf8ByteSize⟩ := by
  refine ⟨?_, fun n t ht => ?_, fun n k => ?_⟩
  · rw [tokenize, Lexer.join_tokens]
    exact String.ofList_toList
  · obtain ⟨lexer, hreads, hoffset, htokens⟩ := reads_boundary text n
    obtain ⟨hn, rfl⟩ := List.getElem?_eq_some_iff.1 ht
    rw [List.drop_eq_getElem_cons hn] at htokens
    obtain ⟨hne, ht, hposition, hslice⟩ := hreads.next_token htokens
    refine ⟨hne, ht.trans hoffset, hslice, ?_⟩
    rw [hposition, ht, Lexer.position_of_reads hreads]
  · obtain ⟨lexer, hreads, hoffset, htokens⟩ := reads_boundary text n
    rw [← hoffset, Lexer.startingAt_of_reads hreads, Lexer.answer_eq, htokens,
      Parser.stopToken_of_reads hreads, Lexer.stopToken_ofText]

/-- An instruction on the second line, behind a letter of two bytes. -/
theorem tokenize_partition_second_line :
    (tokenize "é\nld")[2]? = some ⟨.mnemonic, "ld", 3, ⟨1, 0⟩⟩ ∧
      (⟨3, 5⟩ : TextRange).slice? "é\nld" = some "ld" ∧
      (LineIndex.ofText "é\nld").position 3 = ⟨1, 0⟩ := by
  have htokens : (tokenize "é\nld")[2]? = some ⟨.mnemonic, "ld", 3, ⟨1, 0⟩⟩ := by
    rw [tokenize, Lexer.tokens_of_ne_nil (by decide), Lexer.tokens_of_ne_nil (by decide +kernel),
      Lexer.tokens_of_ne_nil (by decide +kernel)]
    decide +kernel
  obtain ⟨-, -, hslice, hposition⟩ := (tokenize_partition "é\nld").2.1 2 _ htokens
  exact ⟨htokens, hslice, hposition.symm⟩

/-! ## Texts that begin alike -/

section

variable {text u : String} {t : Token}

/-- **Tokens up to the end of a line do not depend on what follows the line.** A text that agrees
with another up to the end of one of its lines has the same tokens before the end of the line, and
no token of it reaches across. -/
theorem tokens_before_newline (ht : t ∈ tokenize text) (hkind : t.kind = .newline)
    (hu : u.toByteArray.extract 0 t.stop = text.toByteArray.extract 0 t.stop) :
    (tokenize u).filter (·.offset < t.stop) = (tokenize text).filter (·.offset < t.stop) ∧
      t ∈ tokenize u ∧ ∃ n ≤ (tokenize u).length, boundary u n = t.stop := by
  obtain ⟨ts, ts', hsplit⟩ := List.append_of_mem ht
  obtain ⟨behind, hreads, -⟩ :=
    exists_reads_of_tokenize (hsplit.trans (List.append_cons ts t ts'))
  obtain ⟨w, hw, hline⟩ := hreads.newline hkind
  -- the lines end at the same place in both texts
  have hstop : t.stop = byteLength (w ++ ['\n']) := by
    obtain ⟨a, hrest, hoffset, -⟩ := hreads.beginning
    rw [hreads.stop, hoffset]
    have ha : a ++ behind.rest = (w ++ ['\n']) ++ behind.rest := by
      rw [← hrest, ← List.append_cons]
      exact hw
    rw [List.append_cancel_right ha]
  rw [hstop] at hu
  obtain ⟨b, hb⟩ := exists_append_of_extract (hw.trans (List.append_cons w _ _)) hu
  have hreads' : Lexer.Reads (.ofText u) (ts ++ [t]) (behind.withRest b) := by
    rw [Lexer.ofText, hb, ← List.append_cons]
    exact hline b
  have htokens := hreads'.tokens
  refine ⟨?_, ?_, (ts ++ [t]).length, ?_, ?_⟩
  · rw [hreads.stop]
    exact hreads'.filter_offset_lt.trans hreads.filter_offset_lt.symm
  · rw [tokenize, htokens]
    exact List.mem_append_left _ (List.mem_append_right _ List.mem_cons_self)
  · rw [tokenize, htokens]
    exact (List.prefix_append _ _).length_le
  · obtain ⟨a, -, hoffset, -, hlength⟩ := hreads'.text
    rw [boundary, tokenize, htokens, List.take_left, ← hlength, hreads.stop]
    exact (hoffset.trans (Nat.zero_add _)).symm

/-- A string goes on behind the end of its first line. Behind that of its second line one text opens
a comment and the other text a string. -/
theorem tokens_before_newline_string :
    (⟨.newline, "\n", 7, ⟨1, 1⟩⟩ : Token) ∈ tokenize "db \"\\\n\"\n/*" ∧
      "db \"\\\n\"\n\"x".toByteArray.extract 0 8 = "db \"\\\n\"\n/*".toByteArray.extract 0 8 ∧
      (tokenize "db \"\\\n\"\n\"x").filter (·.offset < 8) =
        (tokenize "db \"\\\n\"\n/*").filter (·.offset < 8) := by
  have htoken : (⟨.newline, "\n", 7, ⟨1, 1⟩⟩ : Token) ∈ tokenize "db \"\\\n\"\n/*" := by
    rw [tokenize, Lexer.tokens_of_ne_nil (by decide), Lexer.tokens_of_ne_nil (by decide +kernel),
      Lexer.tokens_of_ne_nil (by decide +kernel), Lexer.tokens_of_ne_nil (by decide +kernel)]
    refine List.mem_cons_of_mem _ (List.mem_cons_of_mem _ (List.mem_cons_of_mem _ ?_))
    refine List.mem_cons.2 (Or.inl ?_)
    decide +kernel
  have hbytes : "db \"\\\n\"\n\"x".toByteArray.extract 0 8 =
      "db \"\\\n\"\n/*".toByteArray.extract 0 8 := by decide +kernel
  exact ⟨htoken, hbytes, (tokens_before_newline htoken rfl hbytes).1⟩

end

end AsmTree
