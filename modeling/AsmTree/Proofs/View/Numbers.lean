import AsmTree.Proofs.Text.Digits
import AsmTree.View.Literal

/-!
# Values of numbers

**Main statement (`intValue?_of_intValue`):** the value that is read from the text of a literal is the
one that its digits stand for. Whole numbers have it if it fits in a word of 32 bits, and rows of
pixels if they are not longer than a byte.
-/

namespace AsmTree.View

variable {base : Nat} {marks : List String} {mark text : String} {cs : List Char} {ds : List Nat}
  {k : LiteralKind} {value : Option Nat}

/-! ## What literals stand for -/

/-- The base of the whole numbers of a form, and the marks that they begin with. -/
def LiteralKind.numeration? : LiteralKind → Option (Nat × List String)
  | .decimal => some (10, [""])
  | .hex => some (16, ["$", "0x", "0X"])
  | .binary => some (2, ["%", "0b", "0B"])
  | .octal => some (8, ["&", "0o", "0O"])
  | _ => none

def pixelMarks : List String := ["\x60"]

/-- The whole number that the text of a literal stands for: the value of its digits, if that is below
the bound of words of 32 bits. The digits of a row of pixels have two bits each. The low bits make
the low byte, and the high bits the next one, the first digit foremost in both. -/
inductive IntValue : LiteralKind → String → Option Nat → Prop
  | number {k : LiteralKind} {base : Nat} {marks : List String} {text : String} {ds : List Nat} :
    k.numeration? = some (base, marks) → Numeral base marks text ds →
    IntValue k text (if Nat.ofDigits base ds.reverse ≤ 2 ^ 32 - 1
      then some (Nat.ofDigits base ds.reverse) else none)
  | pixels {text : String} {ds : List Nat} : Numeral 4 pixelMarks text ds →
    IntValue .gfx text (if ds.length ≤ 8
      then some (2 ^ 8 * Nat.ofDigits 2 (ds.map (· / 2)).reverse +
        Nat.ofDigits 2 (ds.map (· % 2)).reverse)
      else none)
  | other {k : LiteralKind} {text : String} : k.numeration? = none → k ≠ .gfx →
    IntValue k text none

/-! ## Marks -/

/-- The marks can be told apart: none has an underscore in it or begins another one. -/
def Separate (marks : List String) : Prop :=
  ∀ m ∈ marks, '_' ∉ m.toList ∧ ∀ m' ∈ marks, m.toList <+: m'.toList → m = m'

theorem LiteralKind.separate (h : k.numeration? = some (base, marks)) : Separate marks := by
  cases k <;> cases h <;> unfold Separate <;> decide

theorem separate_pixelMarks : Separate pixelMarks := by
  unfold Separate
  decide

/-- The mark of a text is found. -/
theorem behindMark?_append (h : Separate marks) (hm : mark ∈ marks) :
    behindMark? marks (mark.toList ++ cs) = some cs := by
  obtain ⟨before, behind, rfl⟩ := List.append_of_mem hm
  have hfound : (if mark.toList.isPrefixOf (mark.toList ++ cs)
      then some ((mark.toList ++ cs).drop mark.length) else none) = some cs := by
    rw [if_pos (List.isPrefixOf_iff_prefix.2 (List.prefix_append _ _)), ← String.length_toList,
      List.drop_left]
  induction before with
  | nil => rw [behindMark?, List.nil_append, List.findSome?_cons, hfound]
  | cons m before ih =>
    rw [behindMark?, List.cons_append, List.findSome?_cons]
    by_cases hprefix : m.toList <+: mark.toList ++ cs
    · -- of two marks that a text begins with, one begins with the other
      have hsame : m = mark := by
        rcases List.prefix_or_prefix_of_prefix hprefix (List.prefix_append mark.toList cs) with
          hle | hle
        · exact (h m List.mem_cons_self).2 mark (by simp) hle
        · exact ((h mark (by simp)).2 m List.mem_cons_self hle).symm
      rw [hsame, hfound]
    · rw [if_neg (mt List.isPrefixOf_iff_prefix.1 hprefix)]
      refine ih ?_ (by simp)
      exact fun m hm => ⟨(h m (List.mem_cons_of_mem _ hm)).1, fun m' hm' =>
        (h m (List.mem_cons_of_mem _ hm)).2 m' (List.mem_cons_of_mem _ hm')⟩

theorem exists_digits_of_numeral (h : Numeral base marks text ds) (hmarks : Separate marks) :
    ∃ cs, behindMark? marks (text.toList.filter (· != '_')) = some cs ∧
      List.Forall₂ (IsDigit base) cs ds := by
  obtain ⟨mark, hm, cs, htext, hdigits⟩ := h.spells
  refine ⟨_, ?_, hdigits⟩
  have hmark : mark.toList.filter (· != '_') = mark.toList := by
    refine List.filter_eq_self.2 fun c hc => ?_
    have hne : c ≠ '_' := fun he => (hmarks mark hm).1 (he ▸ hc)
    simpa using hne
  rw [htext, List.filter_append, hmark]
  exact behindMark?_append hmarks hm

/-! ## Whole numbers -/

theorem intValue?_of_numeration (h : k.numeration? = some (base, marks)) (text : String) :
    intValue? k text =
      (behindMark? marks (text.toList.filter (· != '_'))).bind (wordValue? 32 base) := by
  cases k <;> cases h <;> rfl

theorem LiteralKind.base_pos (h : k.numeration? = some (base, marks)) :
    0 < base ∧ base < 2 ^ 32 := by
  cases k <;> cases h <;> decide

/-! ## Rows of pixels -/

/-- The word that the bits are put behind, one after the other. -/
def pushBits (n : BitVec 32) (bits : List Nat) : BitVec 32 :=
  bits.foldl (fun n b => n <<< 1 ||| .ofNat 32 b) n

theorem foldl_push (h : ∀ d ∈ ds, d < 4) (p : Planes) : ds.foldl Planes.push p =
    ⟨pushBits p.low (ds.map (· % 2)), pushBits p.high (ds.map (· / 2))⟩ := by
  induction ds generalizing p with
  | nil => rfl
  | cons d ds ih =>
    obtain ⟨hd, hds⟩ := List.forall_mem_cons.1 h
    have hpush : p.push d =
        ⟨p.low <<< 1 ||| .ofNat 32 (d % 2), p.high <<< 1 ||| .ofNat 32 (d / 2)⟩ := by
      rw [Planes.push]
      interval_cases d <;> rfl
    rw [List.foldl_cons, ih hds, hpush]
    rfl

theorem toNat_shiftLeft_or {n : BitVec 32} (hn : 2 * n.toNat < 2 ^ 32) {b : Nat} (hb : b < 2) :
    (n <<< 1 ||| .ofNat 32 b).toNat = b + 2 * n.toNat := by
  have hor := Nat.two_pow_add_eq_or_of_lt (i := 1) (b := b) (by omega) n.toNat
  rw [BitVec.toNat_or, BitVec.toNat_shiftLeft, Nat.shiftLeft_eq, BitVec.toNat_ofNat,
    Nat.mod_eq_of_lt (by omega), Nat.mod_eq_of_lt (by omega), Nat.mul_comm, ← hor]
  omega

/-- Bits are put behind a word as digits to the base two. -/
theorem toNat_pushBits {bits : List Nat} (h : ∀ b ∈ bits, b < 2) {n : BitVec 32} {i : Nat}
    (hn : n.toNat < 2 ^ i) (hi : i + bits.length ≤ 32) :
    (pushBits n bits).toNat =
      Nat.ofDigits 2 bits.reverse + 2 ^ bits.length * n.toNat := by
  induction bits generalizing n i with
  | nil => simp [pushBits]
  | cons b bits ih =>
    obtain ⟨hb, hbits⟩ := List.forall_mem_cons.1 h
    rw [List.length_cons] at hi
    have hpow : 2 * 2 ^ i ≤ 2 ^ 32 := by
      rw [← Nat.pow_succ']
      exact Nat.pow_le_pow_right (by decide) (by omega)
    have hpush := toNat_shiftLeft_or (n := n) (by omega) hb
    rw [ofDigits_reverse_cons_add, ← hpush]
    refine ih hbits (i := i + 1) ?_ (by omega)
    rw [hpush, Nat.pow_succ']
    omega

theorem toNat_plane {bits : List Nat} (h : ∀ b ∈ bits, b < 2) (hlength : bits.length ≤ 8) :
    (pushBits 0 bits).toNat = Nat.ofDigits 2 bits.reverse ∧
      Nat.ofDigits 2 bits.reverse < 2 ^ 8 := by
  constructor
  · rw [toNat_pushBits h (i := 0) (by decide) (by omega)]
    simp
  · refine Nat.lt_of_lt_of_le (Nat.ofDigits_lt_base_pow_length (by decide) ?_)
      (Nat.pow_le_pow_right (by decide) ?_)
    · exact fun b hb => h b (List.mem_reverse.1 hb)
    · rwa [List.length_reverse]

/-- **A row of pixels has the value of its planes**, the high one in the next byte. -/
theorem toNat_value_foldl_push (h : ∀ d ∈ ds, d < 4) (hlength : ds.length ≤ 8) :
    (ds.foldl Planes.push {}).value.toNat =
      2 ^ 8 * Nat.ofDigits 2 (ds.map (· / 2)).reverse +
        Nat.ofDigits 2 (ds.map (· % 2)).reverse := by
  have hlow : ∀ b ∈ ds.map (· % 2), b < 2 := by
    simp only [List.mem_map]
    rintro _ ⟨d, -, rfl⟩
    exact Nat.mod_lt d (by decide)
  have hhigh : ∀ b ∈ ds.map (· / 2), b < 2 := by
    simp only [List.mem_map]
    rintro _ ⟨d, hd, rfl⟩
    have := h d hd
    omega
  obtain ⟨hlowValue, hlowLt⟩ := toNat_plane hlow (by rwa [List.length_map])
  obtain ⟨hhighValue, hhighLt⟩ := toNat_plane hhigh (by rwa [List.length_map])
  rw [foldl_push h, Planes.value, BitVec.toNat_or, BitVec.toNat_shiftLeft, Nat.shiftLeft_eq]
  dsimp only
  rw [hlowValue, hhighValue, Nat.mod_eq_of_lt (by omega), Nat.mul_comm _ (2 ^ 8),
    ← Nat.two_pow_add_eq_or_of_lt hlowLt]

theorem byteLength_of_forall₂ (h : List.Forall₂ (IsDigit base) cs ds) :
    byteLength cs = ds.length := by
  have hsize : digitChars.all (·.utf8Size == 1) = true := by decide
  induction h with
  | nil => rfl
  | @cons c d cs ds hd _ ih =>
    have hone := List.all_eq_true.1 hsize _ (List.mem_of_getElem? hd.2)
    rw [byteLength_cons, ih, ← utf8Size_toLower, eq_of_beq hone, List.length_cons, Nat.add_comm]

theorem pixels?_eq (h : List.Forall₂ (IsDigit 4) cs ds) (hne : ds ≠ []) :
    (pixels? cs).map BitVec.toNat = if ds.length ≤ 8
      then some (2 ^ 8 * Nat.ofDigits 2 (ds.map (· / 2)).reverse +
        Nat.ofDigits 2 (ds.map (· % 2)).reverse)
      else none := by
  have hdigit : ∀ d ∈ ds, d < 4 := by
    intro d hd
    obtain ⟨i, hi, rfl⟩ := List.getElem_of_mem hd
    exact (List.forall₂_iff_get.1 h).2 i (by rw [h.length_eq]; exact hi) hi |>.1
  rw [pixels?, isEmpty_of_forall₂ h hne, Bool.false_or, byteLength_of_forall₂ h, maxPixels,
    digits?_of_forall₂ h, Option.map_some]
  by_cases hlength : ds.length ≤ 8
  · rw [if_neg (by simpa using hlength), if_pos hlength, Option.map_some,
      toNat_value_foldl_push hdigit hlength]
  · rw [if_pos (by simpa using hlength), if_neg hlength]
    rfl

/-! ## All forms -/

/-- **The value that is read is the one that the text stands for.** So it stands for one only. -/
theorem intValue?_of_intValue (h : IntValue k text value) :
    (intValue? k text).map BitVec.toNat = value := by
  cases h with
  | @number k base marks text ds hk hnumeral =>
    obtain ⟨cs, hbehind, hdigits⟩ := exists_digits_of_numeral hnumeral (LiteralKind.separate hk)
    obtain ⟨hpos, hbase⟩ := LiteralKind.base_pos hk
    rw [intValue?_of_numeration hk, hbehind, Option.bind_some,
      wordValue?_eq hpos hbase hdigits hnumeral.ne_nil]
    simp only [Nat.le_sub_one_iff_lt (Nat.two_pow_pos 32)]
  | @pixels text ds hnumeral =>
    obtain ⟨cs, hbehind, hdigits⟩ := exists_digits_of_numeral hnumeral separate_pixelMarks
    rw [intValue?, show ["\x60"] = pixelMarks from rfl, hbehind, Option.bind_some,
      pixels?_eq hdigits hnumeral.ne_nil]
  | other hk hgfx =>
    cases k with
    | decimal | hex | binary | octal => cases hk
    | gfx => exact absurd rfl hgfx
    | fixed | string | char => rfl

/-- The largest number, one more, and a row of pixels. -/
example : intValue? .hex "$FFFF_ffff" = some (2 ^ 32 - 1) ∧ intValue? .hex "0x1_0000_0000" = none ∧
    intValue? .gfx "\x600123" = some 0x0305 := by
  decide

end AsmTree.View
