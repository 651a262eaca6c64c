import AsmTree.Proofs.Text.Digits
import AsmTree.Proofs.Token.Classes

/-!
# Tokens of numbers

**Main statement (`exists_numeral`):** the text of a number is one of the marks of its kind with
digits behind it, as many as there are, with underscores among them.
-/

namespace AsmTree

open Pattern

/-! ## Patterns of digits -/

namespace CharClass

theorem forall_contains {P : Char → Prop} {ranges : List (Char × Char)}
    (h : ∀ r ∈ ranges, ∀ n ∈ List.range' r.1.toNat (r.2.toNat + 1 - r.1.toNat), P (.ofNat n))
    (c : Char) (hc : (oneOf ranges).contains c = true) : P c := by
  obtain ⟨r, hr, hin⟩ := List.any_eq_true.1 (show inRanges ranges c = true from hc)
  obtain ⟨hlo, hhi⟩ : r.1 ≤ c ∧ c ≤ r.2 := by
    simpa only [Bool.and_eq_true, decide_eq_true_eq] using hin
  replace hlo : r.1.toNat ≤ c.toNat := hlo
  replace hhi : c.toNat ≤ r.2.toNat := hhi
  rw [← Char.ofNat_toNat c]
  exact h r hr _ (List.mem_range'_1.2 ⟨hlo, by omega⟩)

end CharClass

namespace Pattern

variable {p : Pattern} {P : Char → Prop} {d : CharClass} {w : List Char}

theorem forall_mem_of_star (h : ∀ w, Matches p w → ∀ c ∈ w, P c) (hw : Matches (.star p) w) :
    ∀ c ∈ w, P c := by
  generalize hs : Pattern.star p = s at hw
  induction hw with
  | stop => simp
  | more ha _ _ ih =>
    cases hs
    exact List.forall_mem_append.2 ⟨h _ ha, ih rfl⟩
  | _ => cases hs

theorem forall_mem_of_one (hw : Matches (.one d) w) : ∀ c ∈ w, d.contains c = true := by
  obtain ⟨c, hc, rfl⟩ := matches_one_iff.1 hw
  simpa using hc

theorem exists_of_matches_plus (hw : Matches (plus (.one d)) w) :
    w ≠ [] ∧ ∀ c ∈ w, d.contains c = true := by
  obtain ⟨a, b, rfl, ha, hb⟩ := matches_seq_iff.1 hw
  obtain ⟨c, hc, rfl⟩ := matches_one_iff.1 ha
  exact ⟨by simp, List.forall_mem_cons.2 ⟨hc, forall_mem_of_star (fun _ => forall_mem_of_one) hb⟩⟩

theorem matches_word_singleton {s : Char} :
    Matches (.one (.only s)) w ↔ w = [s] := by
  rw [matches_one_iff]
  simp [CharClass.contains_only]

/-- Groups of digits begin with a digit, and have digits and underscores only. -/
theorem exists_of_matches_digits (hw : Matches (Lexical.digits d) w) :
    (∃ c ∈ w, d.contains c = true) ∧ ∀ c ∈ w, d.contains c = true ∨ c = '_' := by
  obtain ⟨a, b, rfl, ha, hb⟩ := matches_seq_iff.1 hw
  obtain ⟨hne, hfirst⟩ := exists_of_matches_plus ha
  obtain ⟨c, a, rfl⟩ := List.exists_cons_of_ne_nil hne
  refine ⟨⟨c, by simp, hfirst c List.mem_cons_self⟩, List.forall_mem_append.2
    ⟨fun c hc => Or.inl (hfirst c hc), forall_mem_of_star (fun v hv => ?_) hb⟩⟩
  obtain ⟨mark, group, rfl, hmark, hgroup⟩ := matches_seq_iff.1 hv
  obtain rfl : mark = ['_'] := matches_word_singleton.1 hmark
  exact List.forall_mem_cons.2 ⟨Or.inr rfl, fun c hc => Or.inl ((exists_of_matches_plus hgroup).2 c hc)⟩

end Pattern

/-! ## Forms of numbers -/

/-- How numbers of a kind are written: the base, the marks in front, and the characters that are
digits. -/
structure Numeration where
  kind : Kind
  base : Nat
  marks : List String
  digits : List (Char × Char)

/-- The kinds of whole numbers, and that of rows of pixels. -/
def numerations : List Numeration := [
  ⟨.decNumber, 10, [""], [('0', '9')]⟩,
  ⟨.hexNumber, 16, ["$", "0x", "0X"], [('0', '9'), ('A', 'F'), ('a', 'f')]⟩,
  ⟨.binNumber, 2, ["%", "0b", "0B"], [('0', '1')]⟩,
  ⟨.octNumber, 8, ["&", "0o", "0O"], [('0', '7')]⟩,
  ⟨.gfxNumber, 4, ["\x60"], [('0', '3')]⟩]

namespace Numeration

variable {x : Numeration} {c : Char} {v w : List Char}

theorem exists_isDigit (hx : x ∈ numerations) (hc : (CharClass.oneOf x.digits).contains c = true) :
    c ≠ '_' ∧ ∃ d, IsDigit x.base c d := by
  have hranges : ∀ x ∈ numerations, ∀ r ∈ x.digits,
      ∀ n ∈ List.range' r.1.toNat (r.2.toNat + 1 - r.1.toNat),
        Char.ofNat n ≠ '_' ∧ (digit? x.base (.ofNat n)).isSome = true := by
    decide
  obtain ⟨hne, hdigit⟩ : c ≠ '_' ∧ (digit? x.base c).isSome = true :=
    CharClass.forall_contains (P := fun c => c ≠ '_' ∧ (digit? x.base c).isSome = true)
      (hranges x hx) c hc
  obtain ⟨d, hd⟩ := Option.isSome_iff_exists.1 hdigit
  exact ⟨hne, d, isDigit_iff.2 hd⟩

/-- What groups of digits write behind a mark is a numeral. -/
theorem exists_numeral_of_digits (hx : x ∈ numerations) {mark text : String}
    (hmark : mark ∈ x.marks) (htext : text.toList = mark.toList ++ v)
    (hv : Matches (Lexical.digits (.oneOf x.digits)) v) :
    ∃ ds, Numeral x.base x.marks text ds := by
  obtain ⟨⟨c, hc, hdigit⟩, hall⟩ := exists_of_matches_digits hv
  have hdigits : ∀ c ∈ v.filter (· != '_'), ∃ d, IsDigit x.base c d := by
    intro c hc
    obtain ⟨hmem, hne⟩ := List.mem_filter.1 hc
    exact (exists_isDigit hx ((hall c hmem).resolve_right (by simpa using hne))).2
  obtain ⟨ds, hds⟩ := exists_digits hdigits
  refine ⟨ds, ?_, mark, hmark, v, htext, hds⟩
  rintro rfl
  have hmem : c ∈ v.filter (· != '_') :=
    List.mem_filter.2 ⟨hc, by simpa using (exists_isDigit hx hdigit).1⟩
  rw [List.forall₂_nil_right_iff.1 hds] at hmem
  cases hmem

end Numeration

namespace Lexical

variable {d : CharClass} {w : List Char}

theorem exists_of_matches_marked {mark : Char} (h : Matches (marked mark d) w) :
    ∃ v, w = mark :: v ∧ Matches (digits d) v := by
  obtain ⟨a, v, rfl, ha, hv⟩ := matches_seq_iff.1 h
  obtain rfl := matches_word_singleton.1 ha
  exact ⟨v, rfl, hv⟩

theorem exists_of_matches_zeroMarked {letters : List Char} (h : Matches (zeroMarked letters d) w) :
    ∃ letter ∈ letters, ∃ v, w = '0' :: letter :: v ∧ Matches (digits d) v := by
  obtain ⟨a, b, rfl, ha, hb⟩ := matches_seq_iff.1 h
  obtain rfl : a = ['0'] := matches_word_singleton.1 ha
  obtain ⟨e, v, rfl, he, hv⟩ := matches_seq_iff.1 hb
  obtain ⟨letter, hletter, rfl⟩ := matches_one_iff.1 he
  exact ⟨letter, CharClass.contains_ofChars.1 hletter, v, rfl, hv⟩

def patternsOf (k : Kind) : List Pattern :=
  (rules.filter (·.result == .token k)).map LexRule.pattern

theorem exists_mark_of_pair (mark small capital : Char) {p : Pattern}
    (hp : p ∈ [marked mark d, zeroMarked [small, capital] d]) (h : Matches p w) :
    ∃ m ∈ [[mark], ['0', small], ['0', capital]], ∃ v, w = m ++ v ∧ Matches (digits d) v := by
  rcases List.mem_pair.1 hp with rfl | rfl
  · obtain ⟨v, rfl, hv⟩ := exists_of_matches_marked h
    exact ⟨[mark], by simp, v, rfl, hv⟩
  · obtain ⟨letter, hletter, v, rfl, hv⟩ := exists_of_matches_zeroMarked h
    rcases List.mem_pair.1 hletter with rfl | rfl
    · exact ⟨['0', letter], by simp, v, rfl, hv⟩
    · exact ⟨['0', letter], by simp, v, rfl, hv⟩

/-- What the rules for a kind of numbers match has a mark of the kind and digits behind it. -/
theorem exists_mark_of_matches {x : Numeration} (hx : x ∈ numerations) {p : Pattern}
    (hp : p ∈ patternsOf x.kind) (h : Matches p w) :
    ∃ mark ∈ x.marks, ∃ v, w = mark.toList ++ v ∧ Matches (digits (.oneOf x.digits)) v := by
  suffices hmark : ∃ m ∈ x.marks.map String.toList, ∃ v, w = m ++ v ∧
      Matches (digits (.oneOf x.digits)) v by
    obtain ⟨m, hm, hv⟩ := hmark
    obtain ⟨mark, hmark, rfl⟩ := List.mem_map.1 hm
    exact ⟨mark, hmark, hv⟩
  simp only [numerations, List.mem_cons, List.not_mem_nil, or_false] at hx
  rcases hx with rfl | rfl | rfl | rfl | rfl
  · obtain rfl : p = digits decimal := List.mem_singleton.1 hp
    exact ⟨[], by decide, w, rfl, h⟩
  · exact exists_mark_of_pair '$' 'x' 'X' hp h
  · exact exists_mark_of_pair '%' 'b' 'B' hp h
  · exact exists_mark_of_pair '&' 'o' 'O' hp h
  · obtain rfl : p = marked '\x60' graphics := List.mem_singleton.1 hp
    obtain ⟨v, rfl, hv⟩ := exists_of_matches_marked h
    exact ⟨['\x60'], by decide, v, rfl, hv⟩

/-- The kinds that no reserved word and no delimited token has. -/
def isPlain (k : Kind) : Bool :=
  k != .unknown && k != .string && k != .blockComment && reservedWords.all (·.1 != k)

end Lexical

open Lexical

variable {text : String} {t : Token}

/-- **A token of a plain kind is described by a rule for the kind.** -/
theorem exists_pattern_of_mem (h : t ∈ tokenize text) (hk : isPlain t.kind = true) :
    ∃ p ∈ patternsOf t.kind, p.Matches t.text.toList := by
  simp only [isPlain, Bool.and_eq_true, bne_iff_ne, List.all_eq_true] at hk
  obtain ⟨⟨⟨hunknown, hstring⟩, hcomment⟩, hreserved⟩ := hk
  obtain ⟨rule, hrule, n, hreads, htext⟩ := exists_reads_of_mem h hunknown
  rw [htext]
  generalize hk' : t.kind = k at hreads
  cases hreads with
  | whole hr hbegins =>
    rcases List.mem_append.1 hrule with hrule | hrule
    · refine ⟨rule.pattern, List.mem_map_of_mem (List.mem_filter.2 ⟨hrule, ?_⟩), hbegins.2⟩
      rw [hr, beq_self_eq_true]
    · obtain ⟨x, hx, w, -, rfl⟩ := mem_keywords.1 hrule
      exact absurd (LexResult.token.inj hr) (hk' ▸ hreserved x hx)
  | @delimited form _ _ _ _ =>
    cases form with
    | plainString | rawString => exact absurd hk' hstring
    | blockComment => exact absurd hk' hcomment

/-- **The text of a number is a numeral of its kind.** -/
theorem exists_numeral {x : Numeration} (hx : x ∈ numerations) (h : t ∈ tokenize text)
    (hk : t.kind = x.kind) : ∃ ds, Numeral x.base x.marks t.text ds := by
  have hplain : ∀ x ∈ numerations, isPlain x.kind = true := by decide
  obtain ⟨p, hp, hmatches⟩ := exists_pattern_of_mem h (hk ▸ hplain x hx)
  obtain ⟨mark, hmark, v, hv, hdigits⟩ := exists_mark_of_matches hx (hk ▸ hp) hmatches
  exact Numeration.exists_numeral_of_digits hx hmark hv hdigits

end AsmTree
