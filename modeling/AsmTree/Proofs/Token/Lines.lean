import AsmTree.Proofs.Token.Patterns
import AsmTree.Proofs.Token.Tokens
import Mathlib.Data.List.Basic

/-!
# Tokens of a line

A token that ends before the end of a line is the same whatever follows the line, and so is the end
of the line itself. **Main statements:** `firstToken_line` for the first, `firstToken_newline` for
the second, and `eq_of_firstToken_newline`: the end of a line is a newline character and nothing
else.
-/

namespace AsmTree

/-! ## Delimited tokens -/

namespace Extent

theorem isPrefixOf_line {d : List Char} (hd : '\n' ∉ d) (w a b : List Char) :
    d.isPrefixOf (w ++ '\n' :: a) = d.isPrefixOf (w ++ '\n' :: b) := by
  induction d generalizing w with
  | nil => simp
  | cons c d ih =>
    have hc : c ≠ '\n' := fun h => hd (h ▸ List.mem_cons_self)
    cases w with
    | nil => simp [List.isPrefixOf, beq_eq_false_iff_ne.2 hc]
    | cons e w =>
      rw [List.cons_append, List.cons_append, List.isPrefixOf_cons_cons, List.isPrefixOf_cons_cons,
        ih fun h => hd (List.mem_cons_of_mem _ h)]

theorem upTo_line {d : List Char} (hd : '\n' ∉ d) {w a : List Char}
    (h : (upTo d (w ++ '\n' :: a)).length ≤ w.length) (hne : d ≠ []) (b : List Char) :
    upTo d (w ++ '\n' :: b) = upTo d (w ++ '\n' :: a) := by
  induction w with
  | nil =>
    rw [List.nil_append, upTo] at h
    split at h
    · exact absurd h (by simpa using hne)
    · simp [shift] at h
  | cons c w ih =>
    have hprefix := isPrefixOf_line hd (c :: w) b a
    rw [List.cons_append, List.cons_append] at hprefix
    rw [List.cons_append, upTo] at h
    rw [List.cons_append, List.cons_append, upTo, upTo, hprefix]
    split
    · rfl
    · next hno =>
      rw [if_neg hno] at h
      rw [ih (by simpa [shift] using h)]

theorem rawLine_cons {c : Char} (hq : c ≠ '"') (hn : c ≠ '\n') (cs : List Char) :
    rawLine (c :: cs) = (rawLine cs).shift 1 := by
  rw [rawLine.eq_def]
  split <;> simp_all

theorem rawLine_line (w a b : List Char) : rawLine (w ++ '\n' :: b) = rawLine (w ++ '\n' :: a) := by
  induction w with
  | nil => rfl
  | cons c w ih =>
    rw [List.cons_append, List.cons_append]
    by_cases hq : c = '"'
    · rw [hq]
      rfl
    by_cases hn : c = '\n'
    · rw [hn]
      rfl
    · rw [rawLine_cons hq hn, rawLine_cons hq hn, ih]

theorem escapedLine_cons {c : Char} (hq : c ≠ '"') (hn : c ≠ '\n') (hb : c ≠ '\\')
    (cs : List Char) : escapedLine (c :: cs) = (escapedLine cs).shift 1 := by
  rw [escapedLine.eq_def]
  split <;> simp_all

/-- A backslash may protect the end of the line. Then the string goes on behind it. -/
theorem escapedLine_line (a b : List Char) : ∀ w : List Char,
    (escapedLine (w ++ '\n' :: a)).length ≤ w.length →
      escapedLine (w ++ '\n' :: b) = escapedLine (w ++ '\n' :: a)
  | [], _ => rfl
  | c :: w, h => by
    by_cases hq : c = '"'
    · rw [hq]
      rfl
    by_cases hn : c = '\n'
    · rw [hn]
      rfl
    by_cases hb : c = '\\'
    · subst hb
      cases w with
      | nil =>
        have hlong : 2 ≤ (escapedLine ('\\' :: '\n' :: a)).length := Nat.le_add_left _ _
        exact absurd (Nat.le_trans hlong h) (by decide)
      | cons d w =>
        have hrest : (escapedLine (w ++ '\n' :: a)).length + 2 ≤ w.length + 2 := h
        show (escapedLine (w ++ '\n' :: b)).shift 2 = (escapedLine (w ++ '\n' :: a)).shift 2
        rw [escapedLine_line a b w (by omega)]
    · rw [List.cons_append, escapedLine_cons hq hn hb] at h
      rw [List.cons_append, List.cons_append, escapedLine_cons hq hn hb, escapedLine_cons hq hn hb,
        escapedLine_line a b w (Nat.le_of_succ_le_succ h)]

/-- A string of one line begins with one quote that two others do not follow. -/
theorem string_cases (line : List Char → Extent) (w : List Char) :
    (∃ v, w = '"' :: '"' :: v) ∨ ∀ a, string line (w ++ '\n' :: a) = line (w ++ '\n' :: a) := by
  by_cases hw : ∃ v, w = '"' :: '"' :: v
  · exact Or.inl hw
  · refine Or.inr fun a => ?_
    rw [string.eq_def]
    split
    · next cs hcs =>
      cases w with
      | nil => cases hcs
      | cons c w =>
        cases w with
        | nil => cases hcs
        | cons d w =>
          cases hcs
          exact absurd ⟨w, rfl⟩ hw
    · rfl

theorem string_line {line : List Char → Extent} {a b w : List Char}
    (hline : (line (w ++ '\n' :: a)).length ≤ w.length →
      line (w ++ '\n' :: b) = line (w ++ '\n' :: a))
    (h : (string line (w ++ '\n' :: a)).length ≤ w.length) :
    string line (w ++ '\n' :: b) = string line (w ++ '\n' :: a) := by
  rcases string_cases line w with ⟨v, rfl⟩ | hstring
  · have hrest : (upTo ['"', '"', '"'] (v ++ '\n' :: a)).length + 2 ≤ v.length + 2 := h
    show (upTo _ (v ++ '\n' :: b)).shift 2 = (upTo _ (v ++ '\n' :: a)).shift 2
    rw [upTo_line (by decide) (Nat.le_of_add_le_add_right hrest) (by decide)]
  · rw [hstring] at h
    rw [hstring, hstring, hline h]

end Extent

theorem Delimited.extent_line (form : Delimited) {w a : List Char}
    (h : (form.extent (w ++ '\n' :: a)).length ≤ w.length) (b : List Char) :
    form.extent (w ++ '\n' :: b) = form.extent (w ++ '\n' :: a) := by
  cases form with
  | plainString => exact Extent.string_line (Extent.escapedLine_line a b w) h
  | rawString => exact Extent.string_line (fun _ => Extent.rawLine_line w a b) h
  | blockComment => exact Extent.upTo_line (by decide) h (by decide) b

/-! ## The first token -/

theorem lineBound_rules : ∀ rule ∈ Lexical.rules, rule.pattern.lineBound = true := by
  have h : (Lexical.rules.map LexRule.pattern).all Pattern.lineBound = true := by decide
  intro rule hrule
  exact List.all_eq_true.1 h _ (List.mem_map_of_mem hrule)

theorem lineBound_unfinished : ∀ p ∈ Lexical.unfinished, p.lineBound = true := by decide

theorem longestMatch_line {rules : List LexRule}
    (h : ∀ rule ∈ rules, rule.pattern.lineBound = true) (w a b : List Char) :
    longestMatch rules (w ++ '\n' :: b) = longestMatch rules (w ++ '\n' :: a) := by
  unfold longestMatch
  exact List.foldl_ext _ _ _ fun best rule hrule => by
    rw [Pattern.longest_line (h rule hrule) w b a]

theorem unreadableLength_line (w a b : List Char) :
    unreadableLength (w ++ '\n' :: b) = unreadableLength (w ++ '\n' :: a) := by
  unfold unreadableLength
  exact List.foldl_ext _ _ _ fun best p hp => by
    rw [Pattern.longest_line (lineBound_unfinished p hp) w b a]

/-- **A token that ends before the end of its line does not depend on what follows the line.** -/
theorem firstToken_line {w a : List Char} (h : (firstToken (w ++ '\n' :: a)).2 ≤ w.length)
    (b : List Char) : firstToken (w ++ '\n' :: b) = firstToken (w ++ '\n' :: a) := by
  have hmatch := longestMatch_line lineBound_rules w a b
  unfold firstToken at h ⊢
  rw [hmatch]
  split
  · next n hn =>
    rw [hn] at h
    rw [Pattern.take_line (by exact Nat.le_succ_of_le h) b,
      Pattern.take_line (by exact Nat.le_succ_of_le h) a]
  · rfl
  · next form n hn =>
    rw [hn] at h
    dsimp only at h ⊢
    have hn : n ≤ w.length := Nat.le_trans (Nat.le_add_right _ _) h
    rw [List.drop_append_of_le_length hn] at h ⊢
    rw [List.drop_append_of_le_length hn]
    have hrest : (form.extent (w.drop n ++ '\n' :: a)).length ≤ (w.drop n).length := by
      rw [List.length_drop]
      omega
    rw [form.extent_line hrest b]
  · exact congrArg _ (unreadableLength_line w a b)

/-- **The end of a line is a token of its own.** -/
theorem firstToken_newline (a : List Char) : firstToken ('\n' :: a) = (.newline, 1) := by
  have hmatch := longestMatch_line lineBound_rules [] [] a
  have hnewline : longestMatch Lexical.rules ['\n'] = some (.token .newline, 1) := by decide
  unfold firstToken
  rw [show longestMatch Lexical.rules ('\n' :: a) = _ from hmatch.trans hnewline]

theorem nameKind_ne_newline (name : String) : Lexical.nameKind name ≠ .newline := by
  have hwords : ∀ x ∈ Lexical.reservedWords, x.1 ≠ .newline := by decide
  unfold Lexical.nameKind
  dsimp only
  split
  · next kind words hfind => exact hwords _ (List.mem_of_find?_eq_some hfind)
  · decide

theorem pattern_of_newline : ∀ rule ∈ Lexical.rules, rule.result = .token .newline →
    rule.pattern = .one (.only '\n') := by
  have h : (Lexical.rules.map fun rule => (rule.result, rule.pattern)).all (fun x =>
      x.1 ≠ .token .newline || x.2 = .one (.only '\n')) = true := by decide
  intro rule hrule hr
  have hp := List.all_eq_true.1 h _ (List.mem_map_of_mem hrule)
  simpa [hr] using hp

theorem eq_of_firstToken_newline {c : Char} {cs : List Char}
    (h : (firstToken (c :: cs)).1 = .newline) : c = '\n' := by
  unfold firstToken at h
  split at h
  · exact absurd h (nameKind_ne_newline _)
  · next kind n _ hm =>
    obtain ⟨rule, hrule, hr, hlong⟩ := longestMatch_spec hm
    rw [show kind = .newline from h] at hr
    rw [pattern_of_newline rule hrule hr] at hlong
    have hspec := Pattern.longest_spec (.one (.only '\n')) (c :: cs)
    rw [hlong] at hspec
    obtain ⟨d, hd, htake⟩ := Pattern.matches_one_iff.1 hspec.1.2
    obtain ⟨m, rfl⟩ : ∃ m, n = m + 1 := by
      cases n with
      | zero => cases htake
      | succ m => exact ⟨m, rfl⟩
    obtain rfl : c = d := (List.cons.inj htake).1
    exact CharClass.contains_only.1 hd
  · next form n hm =>
    dsimp only at h
    split at h
    · cases form <;> cases h
    · cases h
  · cases h

end AsmTree
