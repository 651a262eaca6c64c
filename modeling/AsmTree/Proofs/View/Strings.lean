import AsmTree.Proofs.Token.Strings
import AsmTree.View.Literal

/-!
# Contents of strings

**Main statement (`stringValue?_eq`):** the contents of a string are what stands between the marks at
which the lexer has found that it begins and ends. Unless the string is raw its escapes are resolved,
from left to right.
-/

namespace AsmTree.View

variable {cs v body behind : List Char} {raw : Bool} {quotes : Nat}

/-! ## Escapes -/

def controls : List (Char × Char) := [('n', '\n'), ('r', '\r'), ('t', '\t'), ('0', '\x00')]

/-- The characters that a backslash protects. -/
def protectedChars : List Char := ['\\', '"', '\'', '{', '}', ',', '(', ')']

/-- Resolving the escapes of a text, in one pass from left to right. A backslash and a letter for a
control character become that character, a backslash in front of a protected character is dropped,
and in front of others it stays, as it does at the end. All else is copied. -/
inductive Unescapes : List Char → List Char → Prop
  | nil : Unescapes [] []
  | copied {c : Char} {cs v : List Char} : c ≠ '\\' → Unescapes cs v → Unescapes (c :: cs) (c :: v)
  | control {c d : Char} {cs v : List Char} : (c, d) ∈ controls → Unescapes cs v →
    Unescapes ('\\' :: c :: cs) (d :: v)
  | dropped {c : Char} {cs v : List Char} : c ∈ protectedChars →
    Unescapes cs v → Unescapes ('\\' :: c :: cs) (c :: v)
  | kept {c : Char} {cs v : List Char} : c ∉ controls.map Prod.fst →
    c ∉ protectedChars → Unescapes cs v →
    Unescapes ('\\' :: c :: cs) ('\\' :: c :: v)
  | last : Unescapes ['\\'] ['\\']

theorem escaped_of_control {c d : Char} (h : (c, d) ∈ controls) : escaped c = [d] := by
  have hall : ∀ x ∈ controls, escaped x.1 = [x.2] := by decide
  exact hall _ h

theorem escaped_of_protected {c : Char} (h : c ∈ protectedChars) : escaped c = [c] := by
  simp only [protectedChars, List.mem_cons, List.not_mem_nil, or_false] at h
  rcases h with rfl | rfl | rfl | rfl | rfl | rfl | rfl | rfl <;> rfl

theorem escaped_of_other {c : Char} (hcontrol : c ∉ controls.map Prod.fst)
    (h : c ∉ protectedChars) : escaped c = ['\\', c] := by
  simp only [controls, List.map_cons, List.map_nil, List.mem_cons, List.not_mem_nil, or_false,
    not_or] at hcontrol
  obtain ⟨hn, hr, ht, hzero⟩ := hcontrol
  unfold escaped
  split
  · exact absurd rfl hn
  · exact absurd rfl hr
  · exact absurd rfl ht
  · exact absurd rfl hzero
  · rw [if_neg]
    simpa [isProtected, protectedChars] using h

theorem unescape_of_copied {c : Char} (hc : c ≠ '\\') (cs : List Char) :
    unescape (c :: cs) = c :: unescape cs := by
  rw [unescape]
  rintro _ _ rfl
  exact absurd rfl hc

/-- **Escapes are resolved by one pass**, and in one way only. -/
theorem unescapes_iff : Unescapes cs v ↔ v = unescape cs := by
  constructor
  · intro h
    induction h with
    | nil => rfl
    | copied hc _ ih => rw [unescape_of_copied hc, ih]
    | control hc _ ih => rw [unescape, escaped_of_control hc, ih, List.singleton_append]
    | dropped hc _ ih => rw [unescape, escaped_of_protected hc, ih, List.singleton_append]
    | kept hcontrol hc _ ih => rw [unescape, escaped_of_other hcontrol hc, ih]; rfl
    | last => rfl
  · rintro rfl
    fun_induction unescape cs with
    | case1 => exact .nil
    | case2 c cs ih =>
      by_cases hcontrol : c ∈ controls.map Prod.fst
      · obtain ⟨⟨c, d⟩, hmem, rfl⟩ := List.mem_map.1 hcontrol
        rw [escaped_of_control hmem]
        exact .control hmem ih
      by_cases hprotected : c ∈ protectedChars
      · rw [escaped_of_protected hprotected]
        exact .dropped hprotected ih
      · rw [escaped_of_other hcontrol hprotected]
        exact .kept hcontrol hprotected ih
    | case3 c cs hescape ih =>
      by_cases hc : c = '\\'
      · subst hc
        cases cs with
        | nil => exact .last
        | cons d cs => exact absurd rfl (hescape d cs rfl)
      · exact .copied hc ih

/-! ## Marks -/

theorem between?_eq (quotes : Nat) (body : List Char) :
    between? quotes (quoteMark quotes ++ body ++ quoteMark quotes) = some body := by
  have hlength : (quoteMark quotes ++ body ++ quoteMark quotes).length =
      body.length + 2 * quotes := by
    simp only [List.length_append, length_quoteMark]
    omega
  have hprefix : (quoteMark quotes).isPrefixOf (quoteMark quotes ++ body ++ quoteMark quotes) := by
    rw [List.isPrefixOf_iff_prefix, List.append_assoc]
    exact List.prefix_append _ _
  have hsuffix : (quoteMark quotes).isSuffixOf (quoteMark quotes ++ body ++ quoteMark quotes) :=
    List.isSuffixOf_iff_suffix.2 (List.suffix_append _ _)
  have hinner : ((quoteMark quotes ++ body ++ quoteMark quotes).drop quotes).take body.length =
      body := by
    rw [List.append_assoc, List.drop_left' (length_quoteMark quotes), List.take_left' rfl]
  rw [between?, show List.replicate quotes '"' = quoteMark quotes from rfl, hprefix, hsuffix,
    hlength, Nat.add_sub_cancel, hinner, decide_eq_true (Nat.le_add_left _ _)]
  rfl

/-- What stands between single quotes does not begin with a quote. -/
theorem head?_of_closes (h : Closes raw 1 body behind) : body.head? ≠ some '"' := by
  intro hhead
  obtain ⟨rest, rfl⟩ : ∃ rest, body = '"' :: rest := by
    cases body with
    | nil => cases hhead
    | cons c rest =>
      obtain rfl := Option.some.inj hhead
      exact ⟨rest, rfl⟩
  cases h with
  | rawLine hquote _ _ => exact hquote List.mem_cons_self
  | line hbody _ =>
    cases hbody with
    | plain hquote _ _ _ => exact hquote rfl

theorem between?_three_of_closes (h : Closes raw 1 body behind) :
    between? 3 (quoteMark 1 ++ body ++ quoteMark 1) = none := by
  have hhead := head?_of_closes h
  rw [between?, if_neg]
  simp only [Bool.and_eq_true, decide_eq_true_eq, not_and]
  rintro ⟨hlength, hprefix⟩ -
  cases body with
  | nil => exact absurd hlength (by decide)
  | cons c rest =>
    obtain ⟨rest', hrest⟩ := List.isPrefixOf_iff_prefix.1 hprefix
    replace hrest : '"' :: '"' :: '"' :: rest' = '"' :: c :: (rest ++ quoteMark 1) := hrest
    exact hhead (congrArg some (List.cons.inj (List.cons.inj hrest).2).1.symm)

/-- The contents are what stands between three quotes, or else between two. -/
theorem stringValue?_of_between {text : String} (htext : text.toList = if raw then '#' :: cs else cs)
    (hhash : cs.head? ≠ some '#')
    (hbody : between? 3 cs = some body ∨ between? 3 cs = none ∧ between? 1 cs = some body) :
    stringValue? text = some (.ofList (if raw then body else unescape body)) := by
  rw [stringValue?, htext]
  cases raw with
  | true =>
    rcases hbody with h | ⟨h, h'⟩
    · simp [h]
    · simp [h, h']
  | false =>
    split
    next cs' raw' cs'' hsplit =>
    split at hsplit
    · next hcs =>
      rw [if_neg Bool.false_ne_true] at hcs
      exact absurd (congrArg List.head? hcs) hhash
    · cases hsplit
      rcases hbody with h | ⟨h, h'⟩
      · simp [h]
      · simp [h, h']

/-- **The contents of a string are what stands between its marks.** -/
theorem stringValue?_eq {text : String} (h : Closes raw quotes body behind)
    (htext : text.toList = stringOpening raw quotes ++ body ++ quoteMark quotes) :
    stringValue? text = some (.ofList (if raw then body else unescape body)) := by
  have hstrip : text.toList = if raw then '#' :: (quoteMark quotes ++ body ++ quoteMark quotes)
      else quoteMark quotes ++ body ++ quoteMark quotes := by
    rw [htext, stringOpening]
    cases raw <;> simp
  refine stringValue?_of_between hstrip ?_ ?_
  · cases h <;> exact fun hhead => absurd (Option.some.inj hhead) (by decide)
  · cases h with
    | spanning _ => exact Or.inl (between?_eq 3 body)
    | rawLine hquote hnewline hnot =>
      exact Or.inr ⟨between?_three_of_closes (.rawLine hquote hnewline hnot), between?_eq 1 body⟩
    | line hprotected hnot =>
      exact Or.inr ⟨between?_three_of_closes (.line hprotected hnot), between?_eq 1 body⟩

/-- A backslash at the end of a raw string, and a quote between three quotes. -/
example : stringValue? "#\"a\\\"" = some "a\\" ∧
    stringValue? "\"\"\"\\n\"b\"\"\"" = some "\n\"b" := by
  decide

end AsmTree.View
