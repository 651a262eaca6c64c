import AsmTree.Proofs.Text.Letters
import AsmTree.Text.Digits
import Mathlib.Data.Nat.Digits.Lemmas
import Mathlib.Tactic.Ring

/-!
# Digits and what they write

A digit is one of the characters from `0` to `9` and from `a` to `z`, at the place of its value, and
letters count in both cases. A numeral is a mark with digits behind it, underscores among them.

**Main statement (`wordValue?_eq`):** digits that are read in words of a width, with a check at every
step, give the number that they write if it is below the bound of the words, and nothing otherwise.
-/

namespace AsmTree

variable {base width d : Nat} {c : Char} {cs : List Char} {ds : List Nat}

/-! ## Digits -/

def digitChars : List Char := "0123456789abcdefghijklmnopqrstuvwxyz".toList

/-- The character is the digit of a value below the base, a letter in any case. -/
def IsDigit (base : Nat) (c : Char) (d : Nat) : Prop :=
  d < base ∧ digitChars[d]? = some c.toLower

/-- A text is one of some marks and, behind it, at least one digit. Underscores among the digits do
not count. -/
structure Numeral (base : Nat) (marks : List String) (text : String) (ds : List Nat) : Prop where
  ne_nil : ds ≠ []
  spells : ∃ mark ∈ marks, ∃ cs, text.toList = mark.toList ++ cs ∧
    List.Forall₂ (IsDigit base) (cs.filter (· != '_')) ds

theorem digitValue_toLower (c : Char) : digitValue c.toLower = digitValue c := by
  refine capital_cases (P := fun c => digitValue c.toLower = digitValue c) (by decide) ?_ c
  intro c hc
  rw [hc]

theorem toNat_lt_of_digitValue (h : digitValue c = some d) : c.toNat < 128 := by
  unfold digitValue at h
  split at h
  · next hc => exact Nat.lt_of_le_of_lt (show c.toNat ≤ 57 from hc.2) (by decide)
  split at h
  · next hc => exact Nat.lt_of_le_of_lt (show c.toNat ≤ 122 from hc.2) (by decide)
  split at h
  · next hc => exact Nat.lt_of_le_of_lt (show c.toNat ≤ 90 from hc.2) (by decide)
  · cases h

theorem digitValue_eq_some : digitValue c = some d ↔ digitChars[d]? = some c.toLower := by
  constructor
  · intro h
    have hall : (List.range 128).all (fun n => (digitValue (.ofNat n)).all fun d =>
        digitChars[d]? == some (Char.ofNat n).toLower) = true := by
      decide
    have hc := List.all_eq_true.1 hall c.toNat (List.mem_range.2 (toNat_lt_of_digitValue h))
    rw [Char.ofNat_toNat, h] at hc
    exact eq_of_beq hc
  · intro h
    have hd : d < 36 := (List.getElem?_eq_some_iff.1 h).1
    rw [← digitValue_toLower]
    generalize c.toLower = c at h
    interval_cases d <;> cases h <;> decide

theorem isDigit_iff : IsDigit base c d ↔ digit? base c = some d := by
  rw [IsDigit, digit?, Option.filter_eq_some_iff, digitValue_eq_some, decide_eq_true_eq, and_comm]

theorem digits?_of_forall₂ (h : List.Forall₂ (IsDigit base) cs ds) : digits? base cs = some ds := by
  induction h with
  | nil => rfl
  | cons hd _ ih =>
    rw [digits?] at ih ⊢
    rw [List.mapM_cons, isDigit_iff.1 hd, ih]
    rfl

theorem exists_digits (h : ∀ c ∈ cs, ∃ d, IsDigit base c d) :
    ∃ ds, List.Forall₂ (IsDigit base) cs ds := by
  induction cs with
  | nil => exact ⟨[], .nil⟩
  | cons c cs ih =>
    obtain ⟨⟨d, hd⟩, hrest⟩ := List.forall_mem_cons.1 h
    obtain ⟨ds, hds⟩ := ih hrest
    exact ⟨d :: ds, .cons hd hds⟩

theorem isEmpty_of_forall₂ (h : List.Forall₂ (IsDigit base) cs ds) (hne : ds ≠ []) :
    cs.isEmpty = false := by
  cases h with
  | nil => exact absurd rfl hne
  | cons _ _ => rfl

/-! ## In words -/

/-- A digit is put behind what a word holds, unless the number becomes too large. -/
theorem pushDigit?_eq (hbase : base < 2 ^ width) (h : IsDigit base c d) (n : BitVec width) :
    pushDigit? base n c =
      if d + base * n.toNat < 2 ^ width then some (.ofNat width (d + base * n.toNat)) else none := by
  have hd : d % 2 ^ width = d := Nat.mod_eq_of_lt (h.1.trans hbase)
  have hb : base % 2 ^ width = base := Nat.mod_eq_of_lt hbase
  simp only [pushDigit?, isDigit_iff.1 h, Option.bind_eq_bind, Option.bind_some,
    BitVec.umulOverflow, BitVec.uaddOverflow, BitVec.toNat_mul, BitVec.toNat_ofNat, hd, hb,
    decide_eq_true_eq]
  rw [Nat.mul_comm n.toNat]
  by_cases hmul : base * n.toNat < 2 ^ width
  · rw [if_neg (Nat.not_le.2 hmul), Nat.mod_eq_of_lt hmul]
    by_cases hadd : d + base * n.toNat < 2 ^ width
    · rw [if_neg (by omega), if_pos hadd]
      refine congrArg some (BitVec.eq_of_toNat_eq ?_)
      simp [Nat.mul_comm n.toNat, Nat.add_comm d]
    · rw [if_pos (by omega), if_neg hadd]
  · rw [if_pos (Nat.not_lt.1 hmul), if_neg (by omega)]

theorem ofDigits_reverse_cons_add (base d n : Nat) (ds : List Nat) :
    Nat.ofDigits base (d :: ds).reverse + base ^ (d :: ds).length * n =
      Nat.ofDigits base ds.reverse + base ^ ds.length * (d + base * n) := by
  rw [Nat.ofDigits_reverse_cons, List.length_cons]
  ring

/-- Digits are put behind what a word holds as long as the number fits. -/
theorem foldlM_pushDigit? (hpos : 0 < base) (hbase : base < 2 ^ width)
    (h : List.Forall₂ (IsDigit base) cs ds) (n : BitVec width) :
    (cs.foldlM (pushDigit? base) n).map BitVec.toNat =
      if Nat.ofDigits base ds.reverse + base ^ ds.length * n.toNat < 2 ^ width
      then some (Nat.ofDigits base ds.reverse + base ^ ds.length * n.toNat) else none := by
  induction h generalizing n with
  | nil => simp [n.isLt]
  | @cons c d cs ds hd _ ih =>
    rw [List.foldlM_cons, pushDigit?_eq hbase hd, ofDigits_reverse_cons_add]
    by_cases hfits : d + base * n.toNat < 2 ^ width
    · have hrest := ih (.ofNat width (d + base * n.toNat))
      rw [BitVec.toNat_ofNat, Nat.mod_eq_of_lt hfits] at hrest
      rw [if_pos hfits]
      exact hrest
    · -- what does not fit now does not fit with more digits behind it
      have hle := Nat.le_mul_of_pos_left (d + base * n.toNat) (Nat.pow_pos hpos (n := ds.length))
      rw [if_neg hfits, if_neg (by omega)]
      rfl

/-- **Digits are read as the number that they write, if it fits in a word.** -/
theorem wordValue?_eq (hpos : 0 < base) (hbase : base < 2 ^ width)
    (h : List.Forall₂ (IsDigit base) cs ds) (hne : ds ≠ []) :
    (wordValue? width base cs).map BitVec.toNat =
      if Nat.ofDigits base ds.reverse < 2 ^ width then some (Nat.ofDigits base ds.reverse)
      else none := by
  have hplus : cs.head? ≠ some '+' := by
    intro hhead
    cases h with
    | nil => cases hhead
    | cons hd _ =>
      obtain rfl := Option.some.inj hhead
      cases digitValue_eq_some.2 hd.2
  have hzero : Nat.ofDigits base ds.reverse + base ^ ds.length * (0 : BitVec width).toNat =
      Nat.ofDigits base ds.reverse := by simp
  simp only [wordValue?, if_neg hplus, isEmpty_of_forall₂ h hne, Bool.false_eq_true, if_false]
  rw [foldlM_pushDigit? hpos hbase h, hzero]

/-- The largest number of eight bits has two digits to the base sixteen, and one more does not
fit. -/
example : wordValue? 8 16 "fF".toList = some 255 ∧ wordValue? 8 16 "100".toList = none := by
  decide

end AsmTree
