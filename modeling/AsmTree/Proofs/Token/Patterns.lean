import AsmTree.Text.Pattern

/-!
# Longest matches

**Main statement (`longest_spec`):** `Pattern.longest` finds the longest beginning of an input that
the pattern describes. Derivatives say what is left of a word (`matches_derive`).

A pattern is *bound to a line* if no word that it describes goes on behind a newline. How far such a
pattern reaches does not depend on what follows the line (`longest_line`).
-/

namespace AsmTree

theorem CharClass.contains_only {c d : Char} : (only c).contains d = true ↔ d = c := by
  rw [only, contains, inRanges]
  simp only [List.any_cons, List.any_nil, Bool.or_false, Bool.and_eq_true, decide_eq_true_eq]
  constructor
  · rintro ⟨h, h'⟩
    exact Char.le_antisymm h' h
  · rintro rfl
    exact ⟨Char.le_refl d, Char.le_refl d⟩

namespace Pattern

variable {p q : Pattern} {c : Char} {w : List Char}

/-! ## Words of patterns -/

theorem not_matches_void : ¬Matches .void w := by
  intro h
  cases h

theorem matches_empty_iff : Matches .empty w ↔ w = [] := by
  constructor
  · intro h
    cases h
    rfl
  · rintro rfl
    exact .empty

theorem matches_one_iff {cls : CharClass} :
    Matches (.one cls) w ↔ ∃ c, cls.contains c = true ∧ w = [c] := by
  constructor
  · intro h
    cases h with
    | @one _ c hc => exact ⟨c, hc, rfl⟩
  · rintro ⟨c, hc, rfl⟩
    exact .one hc

theorem matches_seq_iff : Matches (.seq p q) w ↔ ∃ a b, w = a ++ b ∧ Matches p a ∧ Matches q b := by
  constructor
  · intro h
    cases h with
    | @seq _ _ a b ha hb => exact ⟨a, b, rfl, ha, hb⟩
  · rintro ⟨a, b, rfl, ha, hb⟩
    exact .seq ha hb

theorem matches_alt_iff : Matches (.alt p q) w ↔ Matches p w ∨ Matches q w := by
  constructor
  · intro h
    cases h with
    | left ha => exact Or.inl ha
    | right hb => exact Or.inr hb
  · rintro (h | h)
    · exact .left h
    · exact .right h

/-- A word of a repetition begins with a nonempty word of the body. -/
theorem matches_star_cons : Matches (.star p) (c :: w) ↔
    ∃ a b, w = a ++ b ∧ Matches p (c :: a) ∧ Matches (.star p) b := by
  constructor
  · intro h
    generalize hs : Pattern.star p = s at h
    generalize hv : c :: w = v at h
    induction h with
    | stop => cases hv
    | @more r a b ha hb _ ih =>
      cases hs
      cases a with
      | nil => exact ih rfl hv
      | cons d a =>
        cases hv
        exact ⟨a, b, rfl, ha, hb⟩
    | _ => cases hs
  · rintro ⟨a, b, rfl, ha, hb⟩
    exact .more ha hb

/-- **Whether a pattern describes the empty word.** -/
theorem nullable_iff : p.nullable = true ↔ Matches p [] := by
  induction p with
  | void => simp [nullable, not_matches_void]
  | empty => simp [nullable, matches_empty_iff]
  | one cls => simp [nullable, matches_one_iff]
  | seq p q ihp ihq =>
    rw [nullable, Bool.and_eq_true, ihp, ihq, matches_seq_iff]
    constructor
    · rintro ⟨ha, hb⟩
      exact ⟨[], [], rfl, ha, hb⟩
    · rintro ⟨a, b, hw, ha, hb⟩
      obtain ⟨rfl, rfl⟩ := List.append_eq_nil_iff.1 hw.symm
      exact ⟨ha, hb⟩
  | alt p q ihp ihq => rw [nullable, Bool.or_eq_true, ihp, ihq, matches_alt_iff]
  | star p _ => simp [nullable, Matches.stop]

/-! ## Derivatives -/

theorem matches_andThen : Matches (andThen p q) w ↔ Matches (.seq p q) w := by
  unfold andThen
  split
  · simp [matches_seq_iff, not_matches_void]
  · simp [matches_seq_iff, not_matches_void]
  · simp only [matches_seq_iff, matches_empty_iff]
    constructor
    · intro h
      exact ⟨[], w, rfl, rfl, h⟩
    · rintro ⟨_, b, rfl, rfl, h⟩
      exact h
  · exact Iff.rfl

theorem matches_orElse : Matches (orElse p q) w ↔ Matches (.alt p q) w := by
  unfold orElse
  split
  · simp [matches_alt_iff, not_matches_void]
  · simp [matches_alt_iff, not_matches_void]
  · split
    · next h => simp [matches_alt_iff, h]
    · exact Iff.rfl

/-- **The derivative describes what is left of the words that begin with the character.** -/
theorem matches_derive : Matches (p.derive c) w ↔ Matches p (c :: w) := by
  induction p generalizing w with
  | void => simp [derive, not_matches_void]
  | empty => simp [derive, not_matches_void, matches_empty_iff]
  | one cls =>
    rw [derive, matches_one_iff]
    by_cases h : cls.contains c = true
    · rw [if_pos h, matches_empty_iff]
      constructor
      · rintro rfl
        exact ⟨c, h, rfl⟩
      · rintro ⟨d, -, hw⟩
        exact (List.cons.inj hw).2
    · rw [if_neg h]
      constructor
      · intro hv
        exact absurd hv not_matches_void
      · rintro ⟨d, hd, hw⟩
        cases hw
        exact absurd hd h
  | seq p q ihp ihq =>
    -- a word of the sequence begins with the character in its first part, or that part is empty
    have hfirst : Matches (andThen (derive c p) q) w ↔
        ∃ a b, w = a ++ b ∧ Matches p (c :: a) ∧ Matches q b := by
      rw [matches_andThen, matches_seq_iff]
      simp only [ihp]
    have hsplit : Matches (.seq p q) (c :: w) ↔
        (∃ a b, w = a ++ b ∧ Matches p (c :: a) ∧ Matches q b) ∨
          Matches p [] ∧ Matches q (c :: w) := by
      rw [matches_seq_iff]
      constructor
      · rintro ⟨a, b, hw, ha, hb⟩
        cases a with
        | nil =>
          rw [List.nil_append] at hw
          exact Or.inr ⟨ha, hw ▸ hb⟩
        | cons d a =>
          cases hw
          exact Or.inl ⟨a, b, rfl, ha, hb⟩
      · rintro (⟨a, b, rfl, ha, hb⟩ | ⟨ha, hb⟩)
        · exact ⟨c :: a, b, rfl, ha, hb⟩
        · exact ⟨[], c :: w, rfl, ha, hb⟩
    rw [derive, hsplit]
    by_cases h : p.nullable = true
    · rw [if_pos h, matches_orElse, matches_alt_iff, hfirst, ihq]
      simp [nullable_iff.1 h]
    · rw [if_neg h, hfirst]
      simp [mt nullable_iff.2 h]
  | alt p q ihp ihq =>
    rw [derive, matches_orElse, matches_alt_iff, ihp, ihq, matches_alt_iff]
  | star p ih =>
    rw [derive, matches_andThen, matches_seq_iff, matches_star_cons]
    simp only [ih]

/-! ## The longest match -/

/-- The pattern describes the first `n` characters of an input. -/
def Begins (p : Pattern) (cs : List Char) (n : Nat) : Prop := n ≤ cs.length ∧ Matches p (cs.take n)

/-- The longest beginning of an input that a pattern describes, if there is one. -/
def IsLongest (p : Pattern) (cs : List Char) : Option Nat → Prop
  | some n => p.Begins cs n ∧ ∀ m, p.Begins cs m → m ≤ n
  | none => ∀ m, ¬p.Begins cs m

theorem begins_zero {cs : List Char} : p.Begins cs 0 ↔ p.nullable = true := by
  simp [Begins, nullable_iff]

theorem begins_succ {cs : List Char} {n : Nat} :
    p.Begins (c :: cs) (n + 1) ↔ (p.derive c).Begins cs n := by
  simp [Begins, matches_derive]

theorem IsLongest.unique {cs : List Char} {r r' : Option Nat} (h : p.IsLongest cs r)
    (h' : p.IsLongest cs r') : r = r' := by
  cases r with
  | none =>
    cases r' with
    | none => rfl
    | some n => exact absurd h'.1 (h n)
  | some n =>
    cases r' with
    | none => exact absurd h.1 (h' n)
    | some n' => rw [Nat.le_antisymm (h'.2 n h.1) (h.2 n' h'.1)]

theorem IsLongest.congr {cs cs' : List Char} {r : Option Nat}
    (hb : ∀ n, p.Begins cs n ↔ p.Begins cs' n) (h : p.IsLongest cs r) : p.IsLongest cs' r := by
  cases r with
  | none => exact fun m hm => h m ((hb m).2 hm)
  | some n => exact ⟨(hb n).1 h.1, fun m hm => h.2 m ((hb m).2 hm)⟩

/-- No character is read. -/
theorem isLongest_stop {cs : List Char} (h : ∀ n, ¬p.Begins cs (n + 1)) :
    p.IsLongest cs (if p.nullable then some 0 else none) := by
  by_cases hn : p.nullable = true
  · rw [if_pos hn]
    refine ⟨begins_zero.2 hn, fun m hm => ?_⟩
    cases m with
    | zero => exact Nat.le_refl 0
    | succ m => exact absurd hm (h m)
  · rw [if_neg hn]
    intro m hm
    cases m with
    | zero => exact hn (begins_zero.1 hm)
    | succ m => exact h m hm

/-- **The longest match is found.** -/
theorem longest_spec (p : Pattern) (cs : List Char) : p.IsLongest cs (p.longest cs) := by
  induction cs generalizing p with
  | nil =>
    rw [longest]
    exact isLongest_stop fun n h => Nat.not_succ_le_zero n h.1
  | cons c cs ih =>
    have hrest := ih (p.derive c)
    rw [longest]
    split
    · next hvoid =>
      refine isLongest_stop fun n h => ?_
      rw [begins_succ, hvoid] at h
      exact not_matches_void h.2
    · split
      · next n hn =>
        rw [hn] at hrest
        refine ⟨begins_succ.2 hrest.1, fun m hm => ?_⟩
        cases m with
        | zero => exact Nat.zero_le _
        | succ m => exact Nat.succ_le_succ (hrest.2 m (begins_succ.1 hm))
      · next hnone =>
        rw [hnone] at hrest
        exact isLongest_stop fun n h => hrest n (begins_succ.1 h)

/-! ## Patterns that are bound to a line -/

/-- Whether no word of the pattern has a newline. -/
def inLine : Pattern → Bool
  | void | empty => true
  | one cls => !cls.contains '\n'
  | seq p q => p.inLine && q.inLine
  | alt p q => p.inLine && q.inLine
  | star p => p.inLine

/-- Whether no word of the pattern goes on behind a newline. -/
def lineBound : Pattern → Bool
  | void | empty | one _ => true
  | seq p q => p.inLine && q.lineBound
  | alt p q => p.lineBound && q.lineBound
  | star p => p.inLine

theorem not_mem_of_inLine (h : p.inLine = true) (hw : Matches p w) : '\n' ∉ w := by
  induction hw with
  | empty => exact List.not_mem_nil
  | @one cls c hc =>
    intro hmem
    obtain rfl := List.mem_singleton.1 hmem
    simp [inLine, hc] at h
  | seq _ _ iha ihb =>
    rw [inLine, Bool.and_eq_true] at h
    intro hmem
    rcases List.mem_append.1 hmem with hmem | hmem
    · exact iha h.1 hmem
    · exact ihb h.2 hmem
  | left _ ih =>
    rw [inLine, Bool.and_eq_true] at h
    exact ih h.1
  | right _ ih =>
    rw [inLine, Bool.and_eq_true] at h
    exact ih h.2
  | stop => exact List.not_mem_nil
  | more _ _ iha ihb =>
    intro hmem
    rcases List.mem_append.1 hmem with hmem | hmem
    · exact iha h hmem
    · exact ihb h hmem

/-- Nothing of a word stands behind a newline in it. -/
theorem eq_nil_of_lineBound (h : p.lineBound = true) {a b : List Char}
    (hw : Matches p (a ++ '\n' :: b)) : b = [] := by
  induction p generalizing a with
  | void => exact absurd hw not_matches_void
  | empty => simpa using matches_empty_iff.1 hw
  | one cls =>
    obtain ⟨c, -, heq⟩ := matches_one_iff.1 hw
    have hlen := congrArg List.length heq
    rw [List.length_append, List.length_cons, List.length_singleton] at hlen
    exact List.eq_nil_of_length_eq_zero (by omega)
  | seq p q _ ihq =>
    rw [lineBound, Bool.and_eq_true] at h
    obtain ⟨x, y, heq, hx, hy⟩ := matches_seq_iff.1 hw
    -- the first part has no newline, so that the newline stands in the second
    obtain ⟨z, rfl, hz⟩ | ⟨z, -, rfl⟩ := List.append_eq_append_iff.1 heq
    · cases z with
      | nil => exact ihq h.2 (a := []) (by rwa [List.nil_append, hz])
      | cons d z =>
        cases hz
        exact absurd (by simp) (not_mem_of_inLine h.1 hx)
    · exact ihq h.2 hy
  | alt p q ihp ihq =>
    rw [lineBound, Bool.and_eq_true] at h
    rcases matches_alt_iff.1 hw with hw | hw
    · exact ihp h.1 hw
    · exact ihq h.2 hw
  | star p _ => exact absurd (by simp) (not_mem_of_inLine (p := .star p) h hw)

theorem take_line {w : List Char} {n : Nat} (h : n ≤ w.length + 1) (b : List Char) :
    (w ++ '\n' :: b).take n = (w ++ ['\n']).take n := by
  rw [show w ++ '\n' :: b = (w ++ ['\n']) ++ b by simp, List.take_append_of_le_length (by simpa)]

/-- **How far a pattern reaches on a line does not depend on what follows the line.** -/
theorem longest_line (h : p.lineBound = true) (w a b : List Char) :
    p.longest (w ++ '\n' :: a) = p.longest (w ++ '\n' :: b) := by
  have hbegins : ∀ a b n, p.Begins (w ++ '\n' :: a) n → p.Begins (w ++ '\n' :: b) n := by
    intro a b n ⟨hn, hw⟩
    have hle : n ≤ w.length + 1 := by
      refine Nat.le_of_not_lt fun hlt => ?_
      obtain ⟨m, rfl⟩ := Nat.exists_eq_add_of_lt hlt
      have htake : (w ++ '\n' :: a).take (w.length + 1 + m + 1) = w ++ '\n' :: a.take (m + 1) := by
        rw [show w.length + 1 + m + 1 = w.length + (m + 2) by omega, List.take_length_add_append,
          List.take_succ_cons]
      rw [htake] at hw
      have hnil := eq_nil_of_lineBound h hw
      rw [List.length_append, List.length_cons] at hn
      have hlen := congrArg List.length hnil
      rw [List.length_take, List.length_nil] at hlen
      omega
    refine ⟨?_, by rwa [take_line hle b, ← take_line hle a]⟩
    rw [List.length_append, List.length_cons]
    omega
  exact ((longest_spec p _).congr fun n => ⟨hbegins a b n, hbegins b a n⟩).unique
    (longest_spec p _)

end Pattern

end AsmTree
