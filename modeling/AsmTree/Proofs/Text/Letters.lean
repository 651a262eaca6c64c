import AsmTree.Text.Pattern
import AsmTree.Text.Position
import AsmTree.Text.Quoted
import Mathlib.Tactic.IntervalCases

/-!
# Capital and small letters

Only the letters of ASCII have a case here. A text in small letters takes as many bytes as the text,
has its lines where the text has them, and is quoted as the text is.

**Main statements:** a pattern that never tells a capital from its small letter reaches equally far
in both (`Pattern.longest_toLower`); quoting commutes with small letters (`inMessage_toLower`).
-/

namespace AsmTree

/-! ## Characters -/

def capitals : List Char := "ABCDEFGHIJKLMNOPQRSTUVWXYZ".toList

/-- Evaluation goes through the capitals, not through every character there is. -/
instance (p : Char → Prop) [DecidablePred p] : Decidable (∀ c ∈ capitals, p c) :=
  List.decidableBAll p capitals

theorem toLower_of_not_mem {c : Char} (h : c ∉ capitals) : c.toLower = c := by
  unfold Char.toLower
  refine dif_neg fun hc => h ?_
  have hlo : 65 ≤ c.toNat := hc.1
  have hhi : c.toNat ≤ 90 := hc.2
  rw [← Char.ofNat_toNat c]
  generalize c.toNat = n at hlo hhi
  interval_cases n <;> decide

theorem capital_cases {P : Char → Prop} (capital : ∀ c ∈ capitals, P c)
    (other : ∀ c, c.toLower = c → P c) (c : Char) : P c := by
  by_cases h : c ∈ capitals
  · exact capital c h
  · exact other c (toLower_of_not_mem h)

@[simp] theorem toLower_toLower (c : Char) : c.toLower.toLower = c.toLower := by
  refine capital_cases (P := fun c => c.toLower.toLower = c.toLower) (by decide) ?_ c
  intro c h
  rw [h, h]

@[simp] theorem utf8Size_toLower (c : Char) : c.toLower.utf8Size = c.utf8Size := by
  refine capital_cases (P := fun c => c.toLower.utf8Size = c.utf8Size) (by decide +kernel) ?_ c
  intro c h
  rw [h]

/-- The character is neither a capital nor the small form of one. -/
def Caseless (d : Char) : Prop := ∀ c ∈ capitals, c ≠ d ∧ c.toLower ≠ d

instance (d : Char) : Decidable (Caseless d) := inferInstanceAs (Decidable (∀ c ∈ capitals, _))

theorem Caseless.toLower_eq_iff {d : Char} (h : Caseless d) (c : Char) :
    c.toLower = d ↔ c = d := by
  refine capital_cases (P := fun c => c.toLower = d ↔ c = d) (fun c hc => ?_) ?_ c
  · simp [h c hc]
  · intro c hc
    rw [hc]

/-! ## Texts -/

@[simp] theorem toList_toLower (s : String) : s.toLower.toList = s.toList.map Char.toLower :=
  String.toList_map

@[simp] theorem toLower_ofList (cs : List Char) :
    (String.ofList cs).toLower = String.ofList (cs.map Char.toLower) := by
  rw [← String.toList_inj, toList_toLower, String.toList_ofList, String.toList_ofList]

@[simp] theorem byteLength_map_toLower (cs : List Char) :
    byteLength (cs.map Char.toLower) = byteLength cs := by
  induction cs with
  | nil => rfl
  | cons c cs ih => rw [List.map_cons, byteLength_cons, ih, utf8Size_toLower, byteLength_cons]

@[simp] theorem utf8ByteSize_toLower (s : String) : s.toLower.utf8ByteSize = s.utf8ByteSize := by
  rw [utf8ByteSize_eq_byteLength, toList_toLower, byteLength_map_toLower,
    ← utf8ByteSize_eq_byteLength]

theorem Position.step_toLower (p : Position) (c : Char) : p.step c.toLower = p.step c := by
  have hnewline : Caseless '\n' := by decide
  rw [step, step, utf8Size_toLower]
  simp only [hnewline.toLower_eq_iff]

@[simp] theorem Position.advance_map_toLower (p : Position) (cs : List Char) :
    p.advance (cs.map Char.toLower) = p.advance cs := by
  rw [advance, List.foldl_map]
  simp only [step_toLower]
  rfl

/-- What begins with characters that have no case does so in small letters too. -/
theorem prefix_map_toLower {d : List Char} (hd : d.all (Caseless ·) = true) (cs : List Char) :
    d <+: cs.map Char.toLower ↔ d <+: cs := by
  induction d generalizing cs with
  | nil => simp
  | cons c d ih =>
    cases cs with
    | nil => rfl
    | cons e cs =>
      obtain ⟨hc, hd⟩ := Bool.and_eq_true_iff.1 hd
      have hc : Caseless c := of_decide_eq_true hc
      rw [List.map_cons, List.cons_prefix_cons, List.cons_prefix_cons, eq_comm,
        hc.toLower_eq_iff e, eq_comm, ih hd]

/-! ## Patterns -/

/-- Whether the class holds a capital exactly if it holds its small letter. -/
def CharClass.caseless (cls : CharClass) : Bool :=
  capitals.all fun c => cls.contains c.toLower == cls.contains c

theorem CharClass.contains_toLower {cls : CharClass} (h : cls.caseless = true) (c : Char) :
    cls.contains c.toLower = cls.contains c := by
  refine capital_cases (P := fun c => cls.contains c.toLower = cls.contains c) ?_ ?_ c
  · exact fun c hc => eq_of_beq (List.all_eq_true.1 h c hc)
  · intro c hc
    rw [hc]

namespace Pattern

/-- Whether no class of the pattern tells a capital from its small letter. -/
def caseless : Pattern → Bool
  | void | empty => true
  | one cls => cls.caseless
  | seq p q | alt p q => p.caseless && q.caseless
  | star p => p.caseless

variable {p q : Pattern}

theorem caseless_andThen (hp : p.caseless = true) (hq : q.caseless = true) :
    (andThen p q).caseless = true := by
  unfold andThen
  split
  · rfl
  · rfl
  · exact hq
  · exact Bool.and_eq_true_iff.2 ⟨hp, hq⟩

theorem caseless_orElse (hp : p.caseless = true) (hq : q.caseless = true) :
    (orElse p q).caseless = true := by
  unfold orElse
  split
  · exact hq
  · exact hp
  · split
    · exact hp
    · exact Bool.and_eq_true_iff.2 ⟨hp, hq⟩

theorem caseless_derive (h : p.caseless = true) (c : Char) : (p.derive c).caseless = true := by
  induction p with
  | void | empty => rfl
  | one cls =>
    rw [derive]
    split <;> rfl
  | seq p q ihp ihq =>
    obtain ⟨hp, hq⟩ := Bool.and_eq_true_iff.1 h
    rw [derive]
    split
    · exact caseless_orElse (caseless_andThen (ihp hp) hq) (ihq hq)
    · exact caseless_andThen (ihp hp) hq
  | alt p q ihp ihq =>
    obtain ⟨hp, hq⟩ := Bool.and_eq_true_iff.1 h
    exact caseless_orElse (ihp hp) (ihq hq)
  | star p ih => exact caseless_andThen (ih h) h

theorem derive_toLower (h : p.caseless = true) (c : Char) : p.derive c.toLower = p.derive c := by
  induction p with
  | void | empty => rfl
  | one cls => rw [derive, derive, CharClass.contains_toLower h]
  | seq p q ihp ihq =>
    obtain ⟨hp, hq⟩ := Bool.and_eq_true_iff.1 h
    rw [derive, derive, ihp hp, ihq hq]
  | alt p q ihp ihq =>
    obtain ⟨hp, hq⟩ := Bool.and_eq_true_iff.1 h
    rw [derive, derive, ihp hp, ihq hq]
  | star p ih => rw [derive, derive, ih h]

/-- **A pattern that does not mind the case of letters reaches as far in small letters.** -/
theorem longest_toLower (h : p.caseless = true) (cs : List Char) :
    p.longest (cs.map Char.toLower) = p.longest cs := by
  induction cs generalizing p with
  | nil => rfl
  | cons c cs ih =>
    have hrest := ih (caseless_derive h c)
    rw [List.map_cons, longest, longest, derive_toLower h]
    split
    · rfl
    · rw [hrest]

end Pattern

/-! ## Quoting -/

namespace Quoted

/-- Hexadecimal digits are written in small letters. -/
theorem toLower_of_mem_toDigits (n : Nat) : ∀ c ∈ Nat.toDigits 16 n, c.toLower = c := by
  have hdigit : ∀ k < 16, (Nat.digitChar k).toLower = Nat.digitChar k := by decide
  induction n using Nat.strong_induction_on with
  | _ n ih =>
    intro c hc
    rw [Nat.toDigits_eq_if (by decide)] at hc
    split at hc
    · next hn =>
      obtain rfl := List.mem_singleton.1 hc
      exact hdigit n hn
    · next hn =>
      rcases List.mem_append.1 hc with hc | hc
      · exact ih (n / 16) (Nat.div_lt_self (by omega) (by decide)) c hc
      · obtain rfl := List.mem_singleton.1 hc
        exact hdigit _ (Nat.mod_lt n (by decide))

theorem map_toLower_codePoint (c : Char) : (codePoint c).map Char.toLower = codePoint c := by
  have hdigits : (Nat.toDigits 16 c.toNat).map Char.toLower = Nat.toDigits 16 c.toNat :=
    (List.map_congr_left (toLower_of_mem_toDigits c.toNat)).trans (List.map_id _)
  rw [codePoint, List.map_append, List.map_append, hdigits]
  rfl

theorem char_toLower (style : Style) (c : Char) :
    char style c.toLower = (char style c).map Char.toLower := by
  refine capital_cases (P := fun c => char style c.toLower = (char style c).map Char.toLower)
    ?_ (fun c hc => ?_) c
  · obtain ⟨marks, quotes⟩ := style
    revert marks quotes
    decide +kernel
  · have hcode := map_toLower_codePoint c
    rw [hc]
    unfold char
    split_ifs <;> simp [hc, hcode]

/-- **A text in small letters is quoted in small letters.** -/
theorem inMessage_toLower (text : String) : inMessage text.toLower = (inMessage text).toLower := by
  rw [inMessage, inMessage, toList_toLower]
  cases text.toList with
  | nil => exact (toLower_ofList []).symm
  | cons c cs =>
    simp only [List.map_cons, toLower_ofList, List.map_append, char_toLower, List.flatMap_map,
      List.map_flatMap]

end Quoted

end AsmTree
