import AsmTree.Proofs.Token.Delimiters
import AsmTree.Proofs.Token.Letters

/-!
# Tokens are longest matches

The lexical classes are the rules of the lexer and one class for each reserved word, which spells it
in capital or small letters. A rule that only opens a token reads up to its delimiter. **Main
statement (`tokens_are_longest`):** a token is read by one of the classes, none of them reads more
of the text there, and it is unreadable only where none reads anything or the longest match opens a
token that is not closed.
-/

namespace AsmTree

/-! ## Classes -/

namespace Pattern

def anyCase (w : String) : Pattern := all (w.toList.map fun c => .one (.ofChars [c, c.toUpper]))

end Pattern

namespace Lexical

def keywords : List LexRule :=
  reservedWords.flatMap fun (kind, words) => words.map fun w => ⟨.anyCase w, .token kind⟩

def classes : List LexRule := rules ++ keywords

end Lexical

/-- The class reads the first `n` characters of an input as a token of a kind. A token that is
opened is read with its delimiter. -/
inductive LexRule.Reads (rule : LexRule) (cs : List Char) : Kind → Nat → Prop where
  | whole {k : Kind} {n : Nat} : rule.result = .token k → rule.pattern.Begins cs n →
    Reads rule cs k n
  | delimited {form : Delimited} {n : Nat} : rule.result = .opens form →
    rule.pattern.Begins cs n → (form.extent (cs.drop n)).closed = true →
    Reads rule cs form.kind (n + (form.extent (cs.drop n)).length)

/-! ## Patterns of words -/

namespace Pattern

/-- A row of classes describes words with a character of each. -/
theorem matches_all_one {cls : List CharClass} {w : List Char} :
    Matches (all (cls.map .one)) w ↔ List.Forall₂ (fun cl c => cl.contains c = true) cls w := by
  induction cls generalizing w with
  | nil => simp [all, matches_empty_iff]
  | cons cl cls ih =>
    have hseq : Matches (all ((cl :: cls).map .one)) w ↔
        Matches (.seq (.one cl) (all (cls.map .one))) w := by
      cases cls with
      | nil => simp [all, matches_seq_iff, matches_empty_iff]
      | cons cl' cls => exact Iff.rfl
    rw [hseq, matches_seq_iff, List.forall₂_cons_left_iff]
    constructor
    · rintro ⟨a, b, rfl, ha, hb⟩
      obtain ⟨c, hc, rfl⟩ := matches_one_iff.1 ha
      exact ⟨c, b, hc, ih.1 hb, rfl⟩
    · rintro ⟨c, b, hc, hb, rfl⟩
      exact ⟨[c], b, rfl, matches_one_iff.2 ⟨c, hc, rfl⟩, ih.2 hb⟩

end Pattern

theorem CharClass.contains_ofChars {cs : List Char} {d : Char} :
    (ofChars cs).contains d = true ↔ d ∈ cs := by
  have hany : (ofChars cs).contains d = cs.any fun c => (only c).contains d := by
    simp [ofChars, only, contains, inRanges, Function.comp_def]
  simp [hany, contains_only]

/-- A small letter or a character without case, and its capital. -/
theorem CharClass.contains_anyCase {c : Char} (hc : c.toUpper.toLower = c) (d : Char) :
    (ofChars [c, c.toUpper]).contains d = true ↔ d.toLower = c := by
  have hlower : c.toLower = c := by rw [← hc, toLower_toLower]
  rw [contains_ofChars, List.mem_pair]
  constructor
  · rintro (rfl | rfl)
    · exact hlower
    · exact hc
  · refine capital_cases (P := fun d => d.toLower = c → d = c ∨ d = c.toUpper) ?_ ?_ d
    · have hupper : ∀ d ∈ capitals, d.toLower.toUpper = d := by decide
      rintro d hd rfl
      exact Or.inr (hupper d hd).symm
    · rintro d hd rfl
      exact Or.inl hd.symm

/-- **The word in any case is what is the word in small letters.** -/
theorem Pattern.matches_anyCase {w : String} (hw : ∀ c ∈ w.toList, c.toUpper.toLower = c)
    {v : List Char} : Matches (anyCase w) v ↔ v.map Char.toLower = w.toList := by
  have hmap : (w.toList.map fun c => Pattern.one (.ofChars [c, c.toUpper])) =
      (w.toList.map fun c => CharClass.ofChars [c, c.toUpper]).map .one := by
    rw [List.map_map]
    rfl
  rw [anyCase, hmap, matches_all_one, List.forall₂_map_left_iff]
  generalize w.toList = cs at hw
  induction cs generalizing v with
  | nil => simp
  | cons c cs ih =>
    obtain ⟨hc, hcs⟩ := List.forall_mem_cons.1 hw
    cases v with
    | nil => simp
    | cons d v =>
      rw [List.forall₂_cons, CharClass.contains_anyCase hc, List.map_cons, List.cons.injEq]
      exact and_congr_right' (ih hcs)

/-! ## The longest match -/

/-- The best match so far is at least this long. -/
def Covers (best : Option (LexResult × Nat)) (n : Nat) : Prop := ∃ x ∈ best, n ≤ x.2

/-- **No rule matches more than the longest match.** -/
theorem covers_longestMatch {rules : List LexRule} {rule : LexRule} (hrule : rule ∈ rules)
    {cs : List Char} {n : Nat} (h : rule.pattern.Begins cs n) :
    Covers (longestMatch rules cs) n := by
  have hlongest : ∃ m, rule.pattern.longest cs = some m ∧ n ≤ m := by
    have hspec := rule.pattern.longest_spec cs
    cases hm : rule.pattern.longest cs with
    | none =>
      rw [hm] at hspec
      exact absurd h (hspec n)
    | some m =>
      rw [hm] at hspec
      exact ⟨m, rfl, hspec.2 n h⟩
  obtain ⟨m, hm, hle⟩ := hlongest
  obtain ⟨before, behind, rfl⟩ := List.append_of_mem hrule
  unfold longestMatch
  rw [List.foldl_append, List.foldl_cons]
  refine List.foldlRecOn (motive := (Covers · n)) behind _ ?_ ?_
  · generalize before.foldl _ _ = best
    rw [hm]
    cases best with
    | none => exact ⟨_, rfl, hle⟩
    | some x =>
      dsimp only
      split
      · exact ⟨_, rfl, hle⟩
      · exact ⟨x, rfl, by omega⟩
  · rintro best ⟨⟨r, k⟩, hbest, hle⟩ rule -
    obtain rfl : best = some (r, k) := hbest
    cases rule.pattern.longest cs with
    | none => exact ⟨_, rfl, hle⟩
    | some m =>
      have hle : n ≤ k := hle
      dsimp only
      split
      · exact ⟨_, rfl, by dsimp only; omega⟩
      · exact ⟨_, rfl, hle⟩

/-! ## Delimited tokens -/

namespace Extent

theorem length_upTo_le (d cs : List Char) : (upTo d cs).length ≤ cs.length := by
  induction cs with
  | nil => exact Nat.le_refl 0
  | cons c cs ih =>
    rw [upTo]
    split
    · next h => exact (List.isPrefixOf_iff_prefix.1 h).length_le
    · exact Nat.succ_le_succ ih

theorem length_escapedLine_le (cs : List Char) : (escapedLine cs).length ≤ cs.length := by
  fun_induction escapedLine cs <;> simp_all [shift]

theorem length_rawLine_le (cs : List Char) : (rawLine cs).length ≤ cs.length := by
  fun_induction rawLine cs <;> simp_all [shift]

theorem length_string_le {line : List Char → Extent} {cs : List Char}
    (hline : (line cs).length ≤ cs.length) : (string line cs).length ≤ cs.length := by
  rw [string.eq_def]
  split
  · exact Nat.add_le_add_right (length_upTo_le _ _) 2
  · exact hline

end Extent

theorem Delimited.length_extent_le (form : Delimited) (cs : List Char) :
    (form.extent cs).length ≤ cs.length := by
  cases form with
  | plainString => exact Extent.length_string_le (Extent.length_escapedLine_le cs)
  | rawString => exact Extent.length_string_le (Extent.length_rawLine_le cs)
  | blockComment => exact Extent.length_upTo_le _ cs

namespace Lexical

theorem pattern_of_opens : ∀ rule ∈ rules, ∀ form, rule.result = .opens form →
    rule.pattern = .all ((form.opening.map CharClass.only).map .one) := by
  have h (form : Delimited) : (rules.map fun rule => (rule.result, rule.pattern)).all (fun x =>
      x.1 ≠ .opens form || x.2 = .all ((form.opening.map CharClass.only).map .one)) = true := by
    cases form <;> decide
  intro rule hrule form hr
  have hp := List.all_eq_true.1 (h form) _ (List.mem_map_of_mem hrule)
  simpa [hr] using hp

theorem eq_of_begins_opens {rule : LexRule} (hrule : rule ∈ rules) {form : Delimited}
    (hr : rule.result = .opens form) {cs : List Char} {n : Nat} (h : rule.pattern.Begins cs n) :
    n = form.opening.length ∧ cs = form.opening ++ cs.drop n := by
  have hall : List.Forall₂ (fun c d => d = c) form.opening (cs.take n) := by
    have hmatches := h.2
    rw [pattern_of_opens rule hrule form hr, Pattern.matches_all_one,
      List.forall₂_map_left_iff] at hmatches
    exact hmatches.imp fun c d hd => CharClass.contains_only.1 hd
  have htake : cs.take n = form.opening := by
    rw [← List.forall₂_eq_eq_eq]
    exact hall.flip
  constructor
  · rw [← htake, List.length_take_of_le h.1]
  · rw [← htake, List.take_append_drop]

/-! ## Reserved words -/

/-- The rule for names. -/
def name : LexRule where
  pattern := .all [.opt (.word "#"), .one nameStart, .star (.one nameRest)]
  result := .token .ident

theorem name_mem : name ∈ rules := by simp [rules, name]

/-- Whether a word is in small letters, is a name and nothing else, and is reserved for a kind. -/
def reserves (k : Kind) (w : String) : Bool :=
  w.toList.all (fun c => c.toUpper.toLower == c) && nameKind w == k &&
    rules.all fun rule =>
      (rule.pattern.longest w.toList == some w.toList.length) == (rule.result == .token .ident)

theorem reserves_reservedWords : ∀ x ∈ reservedWords, ∀ w ∈ x.2, reserves x.1 w = true := by
  decide +kernel

theorem mem_keywords {rule : LexRule} : rule ∈ keywords ↔
    ∃ x ∈ reservedWords, ∃ w ∈ x.2, rule = ⟨.anyCase w, .token x.1⟩ := by
  simp [keywords, eq_comm]

end Lexical

theorem Pattern.longest_eq_length {p : Pattern} {v : List Char} :
    p.longest v = some v.length ↔ Matches p v := by
  have hspec := p.longest_spec v
  constructor
  · intro h
    rw [h] at hspec
    simpa using hspec.1.2
  · intro h
    refine hspec.unique ⟨⟨Nat.le_refl _, by simpa using h⟩, fun m hm => hm.1⟩

namespace Lexical

variable {rule : LexRule} {v : List Char}

/-- What is known of a text that a reserved word spells. -/
structure Spells (k : Kind) (v : List Char) : Prop where
  kind : nameKind (.ofList v) = k
  /-- It is a name, and no rule but that for names matches it as a whole. -/
  name (rule : LexRule) (hrule : rule ∈ rules) :
    rule.pattern.Matches v ↔ rule.result = .token .ident

/-- **What a reserved word spells in any case is a name.** -/
theorem spells_of_matches (hrule : rule ∈ keywords) (h : rule.pattern.Matches v) :
    ∃ k, rule.result = .token k ∧ Spells k v := by
  obtain ⟨⟨k, words⟩, hx, w, hw, rfl⟩ := mem_keywords.1 hrule
  have hreserves := reserves_reservedWords _ hx w hw
  simp only [reserves, Bool.and_eq_true, List.all_eq_true, beq_iff_eq] at hreserves
  obtain ⟨⟨hsmall, hkind⟩, hrules⟩ := hreserves
  have hspell : v.map Char.toLower = w.toList := (Pattern.matches_anyCase hsmall).1 h
  refine ⟨k, rfl, ?_, fun rule hrule => ?_⟩
  · rw [← nameKind_toLower, toLower_ofList, hspell, String.ofList_toList, hkind]
  · have hlength : v.length = w.toList.length := by rw [← hspell, List.length_map]
    have hword := hrules rule hrule
    rw [← hlength, ← hspell, Pattern.longest_toLower (caseless_rules rule hrule)] at hword
    rw [← Pattern.longest_eq_length, ← beq_iff_eq, hword, beq_iff_eq]

/-- A name that is not an identifier is spelled by a reserved word. -/
theorem exists_keyword_of_nameKind {k : Kind} (h : nameKind (.ofList v) = k) (hk : k ≠ .ident) :
    ∃ rule ∈ keywords, rule.result = .token k ∧ rule.pattern.Matches v := by
  unfold nameKind at h
  dsimp only at h
  split at h
  · next kind words hfind =>
    subst h
    have hx := List.mem_of_find?_eq_some hfind
    have hw : (String.ofList v).map Char.toLower ∈ words := by
      simpa using List.find?_some hfind
    have hreserves := reserves_reservedWords _ hx _ hw
    simp only [reserves, Bool.and_eq_true, List.all_eq_true, beq_iff_eq] at hreserves
    refine ⟨_, mem_keywords.2 ⟨_, hx, _, hw, rfl⟩, rfl, ?_⟩
    rw [Pattern.matches_anyCase hreserves.1.1, String.toList_map, String.toList_ofList]
  · exact absurd h.symm hk

theorem nullable_rules : ∀ rule ∈ rules, rule.pattern.nullable = false := by
  have h : (rules.map LexRule.pattern).all (!·.nullable) = true := by decide
  intro rule hrule
  simpa using List.all_eq_true.1 h _ (List.mem_map_of_mem hrule)

theorem result_rules_ne_unknown : ∀ rule ∈ rules, rule.result ≠ .token .unknown := by
  have h : (rules.map LexRule.result).all (· ≠ .token .unknown) = true := by decide
  intro rule hrule
  simpa using List.all_eq_true.1 h _ (List.mem_map_of_mem hrule)

theorem nameKind_ne_unknown (name : String) : nameKind name ≠ .unknown := by
  have hwords : ∀ x ∈ reservedWords, x.1 ≠ .unknown := by decide
  unfold nameKind
  dsimp only
  split
  · next kind words hfind => exact hwords _ (List.mem_of_find?_eq_some hfind)
  · decide

theorem begins_name_of_keyword (hrule : rule ∈ keywords) {cs : List Char} {n : Nat}
    (h : rule.pattern.Begins cs n) : name.pattern.Begins cs n := by
  obtain ⟨k, -, hspells⟩ := spells_of_matches hrule h.2
  exact ⟨h.1, (hspells.name name name_mem).2 rfl⟩

end Lexical

/-! ## The first token -/

open Lexical

theorem firstToken_of_ident {cs : List Char} {n : Nat}
    (h : longestMatch rules cs = some (.token .ident, n)) :
    firstToken cs = (nameKind (.ofList (cs.take n)), n) := by
  unfold firstToken
  rw [h]

theorem firstToken_of_token {cs : List Char} {k : Kind} {n : Nat}
    (h : longestMatch rules cs = some (.token k, n)) (hk : k ≠ .ident) :
    firstToken cs = (k, n) := by
  unfold firstToken
  rw [h]
  split
  · next heq => cases heq; exact absurd rfl hk
  · next heq => cases heq; rfl
  · next heq => cases heq
  · next heq => cases heq

theorem firstToken_of_opens {cs : List Char} {form : Delimited} {n : Nat}
    (h : longestMatch rules cs = some (.opens form, n)) : firstToken cs =
      (if (form.extent (cs.drop n)).closed then form.kind else .unknown,
        n + (form.extent (cs.drop n)).length) := by
  unfold firstToken
  rw [h]

theorem firstToken_of_none {cs : List Char} (h : longestMatch rules cs = none) :
    (firstToken cs).1 = .unknown := by
  unfold firstToken
  rw [h]

section Scan

variable {c : Char} {cs : List Char} {rule : LexRule} {k : Kind} {m n : Nat} {r : LexResult}

/-- The longest match is found by a rule, and the token is at least as long. -/
theorem exists_rule_of_longestMatch (h : longestMatch rules (c :: cs) = some (r, n)) :
    (∃ rule ∈ rules, rule.result = r ∧ rule.pattern.Begins (c :: cs) n) ∧ 0 < n ∧
      n ≤ (firstToken (c :: cs)).2 ∧
      (scan c cs).lexeme.length = (firstToken (c :: cs)).2 := by
  obtain ⟨rule, hrule, hr, hlongest⟩ := longestMatch_spec h
  have hspec := rule.pattern.longest_spec (c :: cs)
  rw [hlongest] at hspec
  have hpos : 0 < n := by
    refine Nat.pos_of_ne_zero ?_
    rintro rfl
    have hnullable := Pattern.begins_zero.1 hspec.1
    rw [nullable_rules rule hrule] at hnullable
    cases hnullable
  have hbounds : n ≤ (firstToken (c :: cs)).2 ∧ (firstToken (c :: cs)).2 ≤ (c :: cs).length := by
    cases r with
    | token k =>
      by_cases hk : k = .ident
      · subst hk
        rw [firstToken_of_ident h]
        exact ⟨Nat.le_refl n, hspec.1.1⟩
      · rw [firstToken_of_token h hk]
        exact ⟨Nat.le_refl n, hspec.1.1⟩
    | opens form =>
      have hextent := form.length_extent_le ((c :: cs).drop n)
      rw [List.length_drop] at hextent
      have hn := hspec.1.1
      rw [firstToken_of_opens h]
      exact ⟨Nat.le_add_right _ _, by dsimp only; omega⟩
  refine ⟨⟨rule, hrule, hr, hspec.1⟩, hpos, hbounds.1, ?_⟩
  obtain ⟨hle, hlength⟩ := hbounds
  rw [List.length_cons] at hlength
  simp only [scan, List.length_cons, List.length_take]
  omega

/-- **A token that is not unreadable is read by one of the classes.** -/
theorem exists_reads_scan (h : (scan c cs).kind ≠ .unknown) : ∃ rule ∈ classes,
    rule.Reads (c :: cs) (scan c cs).kind (scan c cs).lexeme.length := by
  have hkind : (scan c cs).kind = (firstToken (c :: cs)).1 := rfl
  rw [hkind] at h ⊢
  cases hmatch : longestMatch rules (c :: cs) with
  | none => exact absurd (firstToken_of_none hmatch) h
  | some x =>
    obtain ⟨r, n⟩ := x
    obtain ⟨⟨rule, hrule, hr, hbegins⟩, -, -, hlength⟩ := exists_rule_of_longestMatch hmatch
    rw [hlength]
    cases r with
    | token k =>
      by_cases hk : k = .ident
      · subst hk
        rw [firstToken_of_ident hmatch]
        by_cases hident : nameKind (.ofList ((c :: cs).take n)) = .ident
        · rw [hident]
          exact ⟨rule, List.mem_append_left _ hrule, .whole hr hbegins⟩
        · obtain ⟨rule', hrule', hr', hword⟩ := exists_keyword_of_nameKind rfl hident
          exact ⟨rule', List.mem_append_right _ hrule', .whole hr' ⟨hbegins.1, hword⟩⟩
      · rw [firstToken_of_token hmatch hk]
        exact ⟨rule, List.mem_append_left _ hrule, .whole hr hbegins⟩
    | opens form =>
      rw [firstToken_of_opens hmatch] at h ⊢
      by_cases hclosed : (form.extent ((c :: cs).drop n)).closed = true
      · rw [if_pos hclosed]
        exact ⟨rule, List.mem_append_left _ hrule, .delimited hr hbegins hclosed⟩
      · exact absurd (if_neg hclosed) h

theorem exists_longestMatch (hrule : rule ∈ classes) (h : rule.pattern.Begins (c :: cs) m) :
    ∃ r n, longestMatch rules (c :: cs) = some (r, n) ∧ m ≤ n := by
  have hcovers : Covers (longestMatch rules (c :: cs)) m := by
    rcases List.mem_append.1 hrule with hrule | hrule
    · exact covers_longestMatch hrule h
    · exact covers_longestMatch name_mem (begins_name_of_keyword hrule h)
  obtain ⟨⟨r, n⟩, hmatch, hle⟩ := hcovers
  exact ⟨r, n, hmatch, hle⟩

/-- **No class reads more than the token.** -/
theorem le_scan_of_reads (hrule : rule ∈ classes) (h : rule.Reads (c :: cs) k m) :
    m ≤ (scan c cs).lexeme.length := by
  cases h with
  | whole _ hbegins =>
    obtain ⟨r, n, hmatch, hle⟩ := exists_longestMatch hrule hbegins
    obtain ⟨-, -, hfirst, hlength⟩ := exists_rule_of_longestMatch hmatch
    rw [hlength]
    exact Nat.le_trans hle hfirst
  | @delimited form n hr hbegins hclosed =>
    have hrule : rule ∈ rules := by
      rcases List.mem_append.1 hrule with hrule | hrule
      · exact hrule
      · obtain ⟨_, hr', -⟩ := spells_of_matches hrule hbegins.2
        rw [hr] at hr'
        cases hr'
    obtain ⟨hn, hcs⟩ := eq_of_begins_opens hrule hr hbegins
    have hmatch := form.longestMatch_opening ((c :: cs).drop n)
    rw [← hcs, ← hn] at hmatch
    obtain ⟨-, -, -, hlength⟩ := exists_rule_of_longestMatch hmatch
    rw [hlength, firstToken_of_opens hmatch]

/-- **What a reserved word spells has its kind.** -/
theorem kind_scan_of_keyword (hrule : rule ∈ keywords) (h : rule.Reads (c :: cs) k n)
    (hn : n = (scan c cs).lexeme.length) : (scan c cs).kind = k := by
  cases h with
  | whole hr hbegins =>
    obtain ⟨k', hr', hspells⟩ := spells_of_matches hrule hbegins.2
    obtain rfl : k = k' := LexResult.token.inj (hr.symm.trans hr')
    -- the longest match is as long as the word, so that only the rule for names can have found it
    obtain ⟨r, n', hmatch, hle⟩ := exists_longestMatch (List.mem_append_right _ hrule) hbegins
    obtain ⟨⟨rule', hrule', hresult, hbegins'⟩, -, hfirst, hlength⟩ :=
      exists_rule_of_longestMatch hmatch
    obtain rfl : n = n' := by omega
    rw [(hspells.name rule' hrule').1 hbegins'.2] at hresult
    subst hresult
    show (firstToken (c :: cs)).1 = k
    rw [firstToken_of_ident hmatch]
    exact hspells.kind
  | delimited hr hbegins _ =>
    obtain ⟨_, hr', -⟩ := spells_of_matches hrule hbegins.2
    rw [hr] at hr'
    cases hr'

/-- **Where a token is unreadable, no class matches anything, or the longest match opens a token
that is not closed.** -/
theorem kind_scan_eq_unknown : (scan c cs).kind = .unknown ↔
    (∀ rule ∈ classes, ∀ m, rule.pattern.Begins (c :: cs) m → m = 0) ∨
    ∃ form : Delimited, (∃ body, c :: cs = form.opening ++ body ∧
        (form.extent body).closed = false) ∧
      ∀ rule ∈ classes, ∀ m, rule.pattern.Begins (c :: cs) m → m ≤ form.opening.length := by
  have hkind : (scan c cs).kind = (firstToken (c :: cs)).1 := rfl
  rw [hkind]
  constructor
  · intro h
    cases hmatch : longestMatch rules (c :: cs) with
    | none =>
      refine Or.inl fun rule hrule m hm => ?_
      obtain ⟨_, _, hmatch', -⟩ := exists_longestMatch hrule hm
      rw [hmatch] at hmatch'
      cases hmatch'
    | some x =>
      obtain ⟨r, n⟩ := x
      obtain ⟨⟨rule, hrule, hr, hbegins⟩, -⟩ := exists_rule_of_longestMatch hmatch
      cases r with
      | token k =>
        by_cases hk : k = .ident
        · subst hk
          rw [firstToken_of_ident hmatch] at h
          exact absurd h (nameKind_ne_unknown _)
        · rw [firstToken_of_token hmatch hk] at h
          obtain rfl : k = .unknown := h
          exact absurd hr (result_rules_ne_unknown rule hrule)
      | opens form =>
        obtain ⟨hn, hcs⟩ := eq_of_begins_opens hrule hr hbegins
        refine Or.inr ⟨form, ⟨_, hcs, ?_⟩, fun rule' hrule' m hm => ?_⟩
        · rw [firstToken_of_opens hmatch] at h
          by_contra hclosed
          rw [Bool.not_eq_false] at hclosed
          rw [if_pos hclosed] at h
          exact form.kind_ne_unknown h
        · obtain ⟨_, _, hmatch', hle⟩ := exists_longestMatch hrule' hm
          rw [hmatch] at hmatch'
          cases hmatch'
          rwa [← hn]
  · rintro (hnone | ⟨form, ⟨body, hcs, hclosed⟩, -⟩)
    · cases hmatch : longestMatch rules (c :: cs) with
      | none => exact firstToken_of_none hmatch
      | some x =>
        obtain ⟨⟨rule, hrule, -, hbegins⟩, hpos, -⟩ := exists_rule_of_longestMatch hmatch
        have hzero := hnone rule (List.mem_append_left _ hrule) _ hbegins
        omega
    · rw [hcs, form.firstToken_opening, hclosed]
      rfl

end Scan

/-! ## The tokens of a text -/

/-- Where a token of a text stands, its text is what one of the classes reads there, unless the token
is unreadable. -/
theorem exists_reads_of_mem {text : String} {t : Token} (h : t ∈ tokenize text)
    (hk : t.kind ≠ .unknown) : ∃ rule ∈ classes, ∃ n,
      rule.Reads (dropBytes t.offset text.toList) t.kind n ∧
        t.text.toList = (dropBytes t.offset text.toList).take n := by
  obtain ⟨c, cs, hplace, hkind, htext⟩ := exists_scan_of_mem h
  obtain ⟨rule, hrule, hreads⟩ := exists_reads_scan (hkind ▸ hk)
  refine ⟨rule, hrule, _, by rw [hplace, hkind]; exact hreads, ?_⟩
  rw [htext, hplace]
  conv_rhs => rw [← scan_lexeme_append_rest c cs, List.take_left]

/-- **Tokens are longest matches.** At the place of a token, its text is what a class reads there,
unless the token is unreadable; no class reads more; what is spelled like a reserved word, in
capital or small letters, has the kind of the word; and the token is unreadable exactly if no class
matches any characters there or the longest match opens a string or a block comment that is not
closed. -/
theorem tokens_are_longest {text : String} {t : Token} (h : t ∈ tokenize text) :
    let rest := dropBytes t.offset text.toList
    let n := t.text.toList.length
    t.text.toList <+: rest ∧
      (t.kind ≠ .unknown → ∃ rule ∈ classes, rule.Reads rest t.kind n) ∧
      (∀ rule ∈ classes, ∀ k m, rule.Reads rest k m → m ≤ n) ∧
      (∀ rule ∈ keywords, ∀ k, rule.Reads rest k n → t.kind = k) ∧
      (t.kind = .unknown ↔
        (∀ rule ∈ classes, ∀ m, rule.pattern.Begins rest m → m = 0) ∨
        ∃ form, t.Unclosed text form ∧
          ∀ rule ∈ classes, ∀ m, rule.pattern.Begins rest m → m ≤ form.opening.length) := by
  obtain ⟨c, cs, hplace, hkind, htext⟩ := exists_scan_of_mem h
  simp only [Token.Unclosed, hplace, hkind, htext]
  exact ⟨⟨_, scan_lexeme_append_rest c cs⟩, exists_reads_scan,
    fun rule hrule k m hreads => le_scan_of_reads hrule hreads,
    fun rule hrule k hreads => kind_scan_of_keyword hrule hreads rfl, kind_scan_eq_unknown⟩

/-- A reserved word in capital and small letters. -/
theorem tokens_are_longest_word :
    (⟨.mnemonic, "Ld", 0, .origin⟩ : Token) ∈ tokenize "Ld x" ∧
      (∃ rule ∈ classes, rule.Reads "Ld x".toList .mnemonic 2) ∧
      ∀ rule ∈ classes, ∀ k m, rule.Reads "Ld x".toList k m → m ≤ 2 := by
  have htoken : (⟨.mnemonic, "Ld", 0, .origin⟩ : Token) ∈ tokenize "Ld x" := by
    rw [tokenize, Lexer.tokens_of_ne_nil (by decide)]
    exact List.mem_cons.2 (Or.inl (by decide +kernel))
  obtain ⟨-, hreads, hlongest, -⟩ := tokens_are_longest htoken
  have hplace : dropBytes 0 "Ld x".toList = "Ld x".toList := by decide
  dsimp only at hreads hlongest
  rw [hplace] at hreads hlongest
  exact ⟨htoken, hreads Kind.noConfusion, hlongest⟩

end AsmTree
