import AsmTree.Proofs.Text.Positions
import AsmTree.Text.WordPosition
import Mathlib.Algebra.Group.Nat.Defs

/-!
# Positions agree

**Main statement (`lineCol_eq_advance`):** for a text whose length fits in a word, looking an offset
up and moving over the text in front of it give the same line and column, in words and in unbounded
numbers. Looking up is monotone, stays at the end behind it, and the line that it gives starts as
many bytes before the offset as the column says. Moving over two texts is moving over them at once.
-/

namespace AsmTree

/-! ## Moving in words -/

namespace WordPosition

variable {width : Nat} {p q : WordPosition width} {a b cs : List Char} {last : Nat}

theorem advance_of_some (p : WordPosition width) (h : lastNewline? cs = some last) :
    p.advance cs = ⟨p.line + .ofNat width (cs.count '\n'),
      .ofNat width (byteLength cs - last - 1)⟩ := by
  rw [advance, h]

theorem advance_of_none (p : WordPosition width) (h : lastNewline? cs = none) :
    p.advance cs = ⟨p.line, p.column + .ofNat width (byteLength cs)⟩ := by
  rw [advance, h]

/-- With a newline or without, the line moves by the number of newlines. -/
theorem line_advance (p : WordPosition width) (cs : List Char) :
    (p.advance cs).line = p.line + .ofNat width (cs.count '\n') := by
  cases h : lastNewline? cs with
  | some last => rw [advance_of_some p h]
  | none => simp [advance_of_none p h, count_of_lastNewline?_eq_none h]

theorem advance_append (p : WordPosition width) (a b : List Char) :
    p.advance (a ++ b) = (p.advance a).advance b := by
  cases hb : lastNewline? b with
  | some last =>
    have hab : lastNewline? (a ++ b) = some (byteLength a + last) := by
      rw [lastNewline?_append, hb]
      rfl
    rw [advance_of_some _ hab, advance_of_some _ hb, line_advance, List.count_append,
      byteLength_append, Nat.add_sub_add_left, BitVec.ofNat_add, BitVec.add_assoc]
  | none =>
    have hab : lastNewline? (a ++ b) = lastNewline? a := by rw [lastNewline?_append, hb]; rfl
    have hcount : (a ++ b).count '\n' = a.count '\n' := by
      rw [List.count_append, count_of_lastNewline?_eq_none hb, Nat.add_zero]
    cases ha : lastNewline? a with
    | some last =>
      have hlt := lastNewline?_lt ha
      have hcolumn : byteLength (a ++ b) - last - 1 = byteLength a - last - 1 + byteLength b := by
        rw [byteLength_append]
        omega
      rw [advance_of_some _ (hab.trans ha), advance_of_some _ ha, advance_of_none _ hb, hcount,
        hcolumn, BitVec.ofNat_add]
    | none =>
      rw [advance_of_none _ (hab.trans ha), advance_of_none _ ha, advance_of_none _ hb,
        byteLength_append, BitVec.ofNat_add, BitVec.add_assoc]

/-- If a sum overflows, it does so when its parts are added one after the other. -/
theorem uaddOverflow_add {x : BitVec width} {m n : Nat}
    (h : x.uaddOverflow (.ofNat width (m + n)) = true) :
    x.uaddOverflow (.ofNat width m) = true ∨
      (x + .ofNat width m).uaddOverflow (.ofNat width n) = true := by
  simp only [BitVec.uaddOverflow, BitVec.toNat_add, BitVec.toNat_ofNat, decide_eq_true_eq] at h ⊢
  rcases Nat.lt_or_ge (x.toNat + m % 2 ^ width) (2 ^ width) with hfirst | hfirst
  · rw [Nat.mod_eq_of_lt hfirst]
    have hle := Nat.mod_le (m % 2 ^ width + n % 2 ^ width) (2 ^ width)
    rw [Nat.add_mod] at h
    exact Or.inr (by omega)
  · exact Or.inl hfirst

theorem uaddOverflow_zero (x : BitVec width) : x.uaddOverflow (.ofNat width 0) = false := by
  simp [BitVec.uaddOverflow, x.isLt]

/-- If a sum overflows on the way over two texts at once, then one does on the way over one of them
after the other. -/
theorem overflows_append (h : p.overflows (a ++ b) = true) :
    p.overflows a = true ∨ (p.advance a).overflows b = true := by
  rw [overflows, lastNewline?_append] at h
  cases hb : lastNewline? b with
  | some last =>
    rw [hb, List.count_append] at h
    have hsum := uaddOverflow_add h
    rw [← line_advance] at hsum
    have hlast : (p.advance a).overflows b =
        (p.advance a).line.uaddOverflow (.ofNat width (b.count '\n')) := by rw [overflows, hb]
    rw [hlast]
    refine hsum.imp_left fun hfirst => ?_
    rw [overflows]
    cases ha : lastNewline? a with
    | some last' => exact hfirst
    | none =>
      -- no newline, so nothing is added to the line
      rw [count_of_lastNewline?_eq_none ha] at hfirst
      cases (uaddOverflow_zero p.line).symm.trans hfirst
  | none =>
    have hcount := count_of_lastNewline?_eq_none hb
    cases ha : lastNewline? a with
    | some last =>
      rw [hb, ha, List.count_append, hcount] at h
      left
      rw [overflows, ha]
      exact h
    | none =>
      rw [hb, ha, byteLength_append] at h
      have hsum := uaddOverflow_add h
      rw [overflows, ha, overflows, hb, advance_of_none p ha]
      exact hsum

/-- As long as no sum overflows, words say what unbounded numbers do. -/
theorem toPosition_advance (hlength : byteLength cs < 2 ^ width) (h : p.overflows cs = false) :
    (p.advance cs).toPosition = p.toPosition.advance cs := by
  rw [Position.advance_eq]
  cases hlast : lastNewline? cs with
  | some last =>
    have hcount := LineIndex.count_newline_le cs
    rw [overflows, hlast] at h
    have hline := BitVec.toNat_add_of_not_uaddOverflow (Bool.eq_false_iff.1 h)
    rw [BitVec.toNat_ofNat, Nat.mod_eq_of_lt (Nat.lt_of_le_of_lt hcount hlength)] at hline
    rw [advance_of_some p hlast, toPosition, hline, BitVec.toNat_ofNat, Nat.mod_eq_of_lt (by omega)]
    rfl
  | none =>
    rw [overflows, hlast] at h
    have hcolumn := BitVec.toNat_add_of_not_uaddOverflow (Bool.eq_false_iff.1 h)
    rw [BitVec.toNat_ofNat, Nat.mod_eq_of_lt hlength] at hcolumn
    rw [advance_of_none p hlast, toPosition, hcolumn]
    rfl

theorem overflows_origin (hlength : byteLength cs < 2 ^ width) :
    (origin : WordPosition width).overflows cs = false := by
  have hzero {n : Nat} (hn : n < 2 ^ width) :
      (0 : BitVec width).uaddOverflow (.ofNat width n) = false := by
    simp [BitVec.uaddOverflow, Nat.mod_eq_of_lt hn, hn]
  have hcount := LineIndex.count_newline_le cs
  rw [overflows]
  split
  · exact hzero (Nat.lt_of_le_of_lt hcount hlength)
  · exact hzero hlength

theorem toPosition_advance_origin (hlength : byteLength cs < 2 ^ width) :
    ((origin : WordPosition width).advance cs).toPosition = Position.origin.advance cs := by
  rw [toPosition_advance hlength (overflows_origin hlength)]
  simp [toPosition, origin, Position.origin]

@[simp] theorem toWords_toPosition (p : WordPosition width) : p.toPosition.toWords width = p := by
  simp [toPosition, Position.toWords]

theorem toPosition_toWords {p : Position} (hline : p.line < 2 ^ width)
    (hcolumn : p.column < 2 ^ width) : (p.toWords width).toPosition = p := by
  simp [toPosition, Position.toWords, Nat.mod_eq_of_lt hline, Nat.mod_eq_of_lt hcolumn]

theorem ble_eq (p q : WordPosition width) : p.ble q = p.toPosition.ble q.toPosition := by
  rw [ble, Position.ble, toPosition, toPosition, Bool.eq_iff_iff]
  simp [BitVec.lt_def, BitVec.le_def, BitVec.toNat_inj]

end WordPosition

/-! ## Looking up in words -/

namespace LineIndex

theorem toPosition_lineCol {text : String} (h : text.utf8ByteSize < 2 ^ 32) (offset : Nat) :
    ((ofText text).lineCol offset).toPosition = (ofText text).position offset :=
  WordPosition.toPosition_toWords (Nat.lt_of_le_of_lt (line_position_le text offset) h)
    (Nat.lt_of_le_of_lt (column_position_le text offset) h)

/-- **All ways to a position agree**, for a text of less than 4 GiB. At an edge of a character, the
index says what moving over the text in front of it gives, in words of 32 bits, where no sum
overflows, and in unbounded numbers. The line that it says starts as many bytes before the offset as
the column says. It keeps the order of all offsets, takes those behind the end for the end, and has
one line more than there are newlines. From any position, moving over two texts at once leads where
moving over one after the other does, and overflows only if that does. -/
theorem lineCol_eq_advance (text : String) (h : text.utf8ByteSize < 2 ^ 32) :
    let index := ofText text
    (∀ a b, text.toList = a ++ b →
      let p := index.lineCol (byteLength a)
      p = WordPosition.origin.advance a ∧ (WordPosition.origin : LineCol).overflows a = false ∧
        p.toPosition = Position.origin.advance a ∧
        index.lineStart? p.line.toNat = some (byteLength a - p.column.toNat) ∧
        p.column.toNat ≤ byteLength a) ∧
      (∀ offset offset', offset ≤ offset' →
        (index.lineCol offset).ble (index.lineCol offset') = true) ∧
      (∀ offset, text.utf8ByteSize ≤ offset →
        index.lineCol offset = index.lineCol text.utf8ByteSize) ∧
      index.lineCount = text.toList.count '\n' + 1 ∧
      (∀ (width : Nat) (p : WordPosition width) (a b : List Char),
        p.advance (a ++ b) = (p.advance a).advance b ∧
        (p.overflows (a ++ b) = true → p.overflows a = true ∨ (p.advance a).overflows b = true)) ∧
      ∀ (p : Position) (a b : List Char), p.advance (a ++ b) = (p.advance a).advance b := by
  intro index
  refine ⟨fun a b htext => ?_, fun offset offset' hle => ?_, fun offset hle => ?_,
    lineCount_ofText text,
    fun _ p a b => ⟨WordPosition.advance_append p a b, WordPosition.overflows_append⟩,
    Position.advance_append⟩
  · intro p
    have hle : byteLength a ≤ text.utf8ByteSize := by
      rw [utf8ByteSize_eq_byteLength, htext, byteLength_append]
      exact Nat.le_add_right _ _
    have hshort := Nat.lt_of_le_of_lt hle h
    have hposition : p.toPosition = Position.origin.advance a := by
      rw [toPosition_lineCol h, ← position_ofText a b, ← htext, String.ofList_toList]
    obtain ⟨hstart, hcolumn⟩ := lineStart?_position text (byteLength a) hle
    rw [← toPosition_lineCol h] at hstart hcolumn
    refine ⟨?_, WordPosition.overflows_origin hshort, hposition, hstart, hcolumn⟩
    rw [← WordPosition.toWords_toPosition p, hposition,
      ← WordPosition.toPosition_advance_origin hshort, WordPosition.toWords_toPosition]
  · rw [WordPosition.ble_eq, toPosition_lineCol h, toPosition_lineCol h]
    exact position_ble index hle
  · have hlength : index.length = text.utf8ByteSize := rfl
    rw [lineCol, lineCol, position, position, hlength, Nat.min_eq_right hle, Nat.min_self]

/-- Two lines, the first with a character of two bytes. -/
theorem lineCol_eq_advance_lines : "é\nb".utf8ByteSize < 2 ^ 32 ∧
    (ofText "é\nb").lineCol 4 = ⟨1, 1⟩ :=
  ⟨by decide, ((lineCol_eq_advance "é\nb" (by decide)).1 "é\nb".toList [] rfl).1.trans (by decide)⟩

end LineIndex

end AsmTree
