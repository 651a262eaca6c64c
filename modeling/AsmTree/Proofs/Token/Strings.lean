import AsmTree.Proofs.Token.Classes

/-!
# Tokens of strings

A string stands between quotes, one or three on each side, with a `#` in front if it is raw. Between
single quotes it is on one line, and unless it is raw, a backslash protects the next character.

**Main statement (`exists_stringAt`):** a token of a string reaches from its opening quotes to the
first quotes behind them that close it.
-/

namespace AsmTree

/-! ## Where strings end -/

/-- Text without a quote and without the end of a line, unless a backslash stands in front. -/
inductive Protected : List Char → Prop
  | nil : Protected []
  | escape {c : Char} {cs : List Char} : Protected cs → Protected ('\\' :: c :: cs)
  | plain {c : Char} {cs : List Char} : c ≠ '"' → c ≠ '\n' → c ≠ '\\' → Protected cs →
    Protected (c :: cs)

def quoteMark (quotes : Nat) : List Char := List.replicate quotes '"'

@[simp] theorem length_quoteMark (quotes : Nat) : (quoteMark quotes).length = quotes :=
  List.length_replicate

def stringOpening (raw : Bool) (quotes : Nat) : List Char :=
  (if raw then ['#'] else []) ++ quoteMark quotes

/-- The first closing mark of a string is the one between its contents and the text behind it. Three
quotes close only where no three quotes stand before. One quote opens a string only if not two more
follow it, and closes at the first quote, which no end of a line stands before. -/
inductive Closes : Bool → Nat → List Char → List Char → Prop
  | spanning {raw : Bool} {body behind : List Char} :
    (∀ a b, body ++ quoteMark 3 = a ++ quoteMark 3 ++ b → b = []) → Closes raw 3 body behind
  | rawLine {body behind : List Char} : '"' ∉ body → '\n' ∉ body →
    ¬quoteMark 2 <+: body ++ quoteMark 1 ++ behind → Closes true 1 body behind
  | line {body behind : List Char} : Protected body →
    ¬quoteMark 2 <+: body ++ quoteMark 1 ++ behind → Closes false 1 body behind

/-- A string stands at the beginning of a text: its opening, its contents and the first mark that
closes it. -/
structure StringAt (rest : List Char) (raw : Bool) (quotes : Nat) (body behind : List Char) :
    Prop where
  text : rest = stringOpening raw quotes ++ body ++ quoteMark quotes ++ behind
  closes : Closes raw quotes body behind

namespace Extent

variable {d cs : List Char}

/-- What is closed by a delimiter is closed by its first occurrence. -/
theorem exists_of_closed_upTo (h : (upTo d cs).closed = true) : ∃ body behind,
    cs = body ++ d ++ behind ∧ (upTo d cs).length = body.length + d.length ∧
      ∀ a b, body ++ d = a ++ d ++ b → b = [] := by
  induction cs with
  | nil => cases h
  | cons c cs ih =>
    rw [upTo] at h ⊢
    by_cases hprefix : d.isPrefixOf (c :: cs) = true
    · rw [if_pos hprefix]
      obtain ⟨behind, hbehind⟩ := List.isPrefixOf_iff_prefix.1 hprefix
      refine ⟨[], behind, hbehind.symm, (Nat.zero_add _).symm, fun a b hab => ?_⟩
      have hlength := congrArg List.length hab
      simp only [List.nil_append, List.length_append] at hlength
      exact List.eq_nil_of_length_eq_zero (by omega)
    · rw [if_neg hprefix] at h ⊢
      obtain ⟨body, behind, rfl, hlength, hfirst⟩ := ih h
      refine ⟨c :: body, behind, rfl, ?_, fun a b hab => ?_⟩
      · rw [shift, hlength, List.length_cons, Nat.add_right_comm]
      · cases a with
        | nil =>
          -- an occurrence at the beginning would be the first
          refine absurd (List.isPrefixOf_iff_prefix.2 ⟨b ++ behind, ?_⟩) hprefix
          rw [← List.append_assoc, ← List.cons_append, ← List.cons_append, hab, List.nil_append]
        | cons x a => exact hfirst a b (List.cons.inj hab).2

/-- A line is closed by the first quote that is not protected. -/
theorem exists_of_closed_escapedLine (h : (escapedLine cs).closed = true) : ∃ body behind,
    cs = body ++ quoteMark 1 ++ behind ∧ (escapedLine cs).length = body.length + 1 ∧
      Protected body := by
  fun_induction escapedLine cs with
  | case1 => cases h
  | case2 cs => exact ⟨[], cs, rfl, rfl, .nil⟩
  | case3 => cases h
  | case4 => cases h
  | case5 c cs ih =>
    obtain ⟨body, behind, rfl, hlength, hbody⟩ := ih h
    exact ⟨'\\' :: c :: body, behind, rfl, congrArg (· + 2) hlength, .escape hbody⟩
  | case6 c cs hquote hnewline hlast hescape ih =>
    obtain ⟨body, behind, rfl, hlength, hbody⟩ := ih h
    refine ⟨c :: body, behind, rfl, congrArg (· + 1) hlength, .plain ?_ ?_ ?_ hbody⟩
    · exact fun hc => hquote hc
    · exact fun hc => hnewline hc
    · rintro rfl
      cases body with
      | nil => exact hescape _ _ rfl rfl
      | cons x body => exact hescape _ _ rfl rfl

theorem exists_of_closed_rawLine (h : (rawLine cs).closed = true) : ∃ body behind,
    cs = body ++ quoteMark 1 ++ behind ∧ (rawLine cs).length = body.length + 1 ∧
      '"' ∉ body ∧ '\n' ∉ body := by
  fun_induction rawLine cs with
  | case1 => cases h
  | case2 cs => exact ⟨[], cs, rfl, rfl, by simp, by simp⟩
  | case3 => cases h
  | case4 c cs hquote hnewline ih =>
    obtain ⟨body, behind, rfl, hlength, hbody, hbody'⟩ := ih h
    refine ⟨c :: body, behind, rfl, congrArg (· + 1) hlength, ?_, ?_⟩
    · exact List.not_mem_cons_of_ne_of_not_mem (fun hc => hquote hc.symm) hbody
    · exact List.not_mem_cons_of_ne_of_not_mem (fun hc => hnewline hc.symm) hbody'

theorem string_eq_spanning_or_line (line : List Char → Extent) (cs : List Char) :
    (∃ rest, cs = '"' :: '"' :: rest ∧ string line cs = (upTo (quoteMark 3) rest).shift 2) ∨
      ¬quoteMark 2 <+: cs ∧ string line cs = line cs := by
  rw [string.eq_def]
  split
  · exact Or.inl ⟨_, rfl, rfl⟩
  · next hquotes =>
    refine Or.inr ⟨?_, rfl⟩
    rintro ⟨rest, hrest⟩
    exact hquotes rest hrest.symm

end Extent

variable {cs : List Char} {raw : Bool}

/-- **A string that is closed ends at the first mark that closes it**, if a line does. -/
theorem exists_stringAt_of_closed (line : List Char → Extent) {first : List Char}
    (hfirst : first = stringOpening raw 1)
    (hline : (line cs).closed = true → ∃ body behind, cs = body ++ quoteMark 1 ++ behind ∧
      (line cs).length = body.length + 1 ∧
        (¬quoteMark 2 <+: body ++ quoteMark 1 ++ behind → Closes raw 1 body behind))
    (h : (Extent.string line cs).closed = true) : ∃ quotes body behind,
      StringAt (first ++ cs) raw quotes body behind ∧
        first.length + (Extent.string line cs).length =
          (stringOpening raw quotes ++ body ++ quoteMark quotes).length := by
  subst hfirst
  rcases Extent.string_eq_spanning_or_line line cs with ⟨rest, rfl, hextent⟩ | ⟨hquotes, hextent⟩
  · rw [hextent] at h ⊢
    obtain ⟨body, behind, rfl, hlength, hbody⟩ := Extent.exists_of_closed_upTo h
    refine ⟨3, body, behind, ⟨by simp [stringOpening, quoteMark], .spanning hbody⟩, ?_⟩
    simp only [Extent.shift, hlength, stringOpening, List.length_append, length_quoteMark]
    omega
  · rw [hextent] at h ⊢
    obtain ⟨body, behind, rfl, hlength, hcloses⟩ := hline h
    refine ⟨1, body, behind, ⟨by simp, hcloses hquotes⟩, ?_⟩
    simp only [hlength, List.length_append, length_quoteMark]
    omega

theorem Delimited.exists_stringAt {form : Delimited} (hk : form.kind = .string)
    (h : (form.extent cs).closed = true) : ∃ raw quotes body behind,
      StringAt (form.opening ++ cs) raw quotes body behind ∧
        form.opening.length + (form.extent cs).length =
          (stringOpening raw quotes ++ body ++ quoteMark quotes).length := by
  cases form with
  | plainString =>
    refine ⟨false, exists_stringAt_of_closed Extent.escapedLine rfl (fun hline => ?_) h⟩
    obtain ⟨body, behind, hcs, hlength, hbody⟩ := Extent.exists_of_closed_escapedLine hline
    exact ⟨body, behind, hcs, hlength, .line hbody⟩
  | rawString =>
    refine ⟨true, exists_stringAt_of_closed Extent.rawLine rfl (fun hline => ?_) h⟩
    obtain ⟨body, behind, hcs, hlength, hquote, hnewline⟩ := Extent.exists_of_closed_rawLine hline
    exact ⟨body, behind, hcs, hlength, .rawLine hquote hnewline⟩
  | blockComment => cases hk

open Lexical

variable {text : String} {t : Token}

/-- A token of a string is read by a rule that opens one. -/
theorem exists_form_of_mem (h : t ∈ tokenize text) (hk : t.kind = .string) :
    ∃ form : Delimited, form.kind = .string ∧ ∃ cs,
      dropBytes t.offset text.toList = form.opening ++ cs ∧ (form.extent cs).closed = true ∧
      t.text.toList = (form.opening ++ cs).take (form.opening.length + (form.extent cs).length) := by
  have hresults : ∀ rule ∈ classes, rule.result ≠ .token .string := by
    have hrules : (rules.map LexRule.result).all (· ≠ .token .string) = true := by decide
    have hwords : ∀ x ∈ reservedWords, x.1 ≠ .string := by decide
    intro rule hrule
    rcases List.mem_append.1 hrule with hrule | hrule
    · simpa using List.all_eq_true.1 hrules _ (List.mem_map_of_mem hrule)
    · obtain ⟨x, hx, w, -, rfl⟩ := mem_keywords.1 hrule
      exact fun hr => hwords x hx (LexResult.token.inj hr)
  obtain ⟨rule, hrule, n, hreads, htext⟩ := exists_reads_of_mem h (by rw [hk]; decide)
  rw [hk] at hreads
  rw [htext]
  generalize hstring : Kind.string = k at hreads
  cases hreads with
  | whole hr _ => exact absurd (hstring ▸ hr) (hresults rule hrule)
  | @delimited form n hr hbegins hclosed =>
    have hmem : rule ∈ rules := by
      refine (List.mem_append.1 hrule).resolve_right fun hrule => ?_
      obtain ⟨_, hr', -⟩ := spells_of_matches hrule hbegins.2
      cases hr.symm.trans hr'
    obtain ⟨rfl, hcs⟩ := eq_of_begins_opens hmem hr hbegins
    exact ⟨form, rfl, _, hcs, hclosed, by rw [← hcs]⟩

/-- **A token of a string is a string, from its opening to the first mark that closes it.** -/
theorem exists_stringAt (h : t ∈ tokenize text) (hk : t.kind = .string) :
    ∃ raw quotes body behind,
      StringAt (dropBytes t.offset text.toList) raw quotes body behind ∧
        t.text.toList = stringOpening raw quotes ++ body ++ quoteMark quotes := by
  obtain ⟨form, hform, cs, hplace, hclosed, htext⟩ := exists_form_of_mem h hk
  obtain ⟨raw, quotes, body, behind, hstring, hlength⟩ := Delimited.exists_stringAt hform hclosed
  refine ⟨raw, quotes, body, behind, hplace ▸ hstring, ?_⟩
  rw [htext, hlength, hstring.text, List.take_left]

end AsmTree
