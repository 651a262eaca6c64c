import AsmTree.Text.Position

/-!
# Lines and columns in machine words

A position whose line and column are machine words is moved over a text at once: the column follows
from the last newline, the line from the number of newlines. Numbers that are too large for a word
are cut off, and so are sums, unless the arithmetic is checked: then the move stops where a sum
overflows. **Main statement here:** this way of moving is that of `Position`, if numbers are not
bounded (`Position.advance_eq`).
-/

namespace AsmTree

/-- Offset of the last newline of a run of characters. -/
def lastNewline? : List Char → Option Nat
  | [] => none
  | c :: cs =>
    match lastNewline? cs with
    | some last => some (c.utf8Size + last)
    | none => if c = '\n' then some 0 else none

/-- A line and a column, both from zero, in words of some width. Columns count bytes. -/
structure WordPosition (width : Nat) where
  line : BitVec width
  column : BitVec width
deriving DecidableEq, Repr

/-- A position in words of 32 bits. -/
abbrev LineCol := WordPosition 32

/-- The words that begin with the low bits of a line and a column. -/
def Position.toWords (width : Nat) (p : Position) : WordPosition width :=
  ⟨.ofNat width p.line, .ofNat width p.column⟩

namespace WordPosition

variable {width : Nat}

/-- The start of a text. -/
def origin : WordPosition width := ⟨0, 0⟩

/-- The line and the column that the words say. -/
def toPosition (p : WordPosition width) : Position := ⟨p.line.toNat, p.column.toNat⟩

/-- Positions are ordered by line, then by column. -/
def ble (p q : WordPosition width) : Bool :=
  p.line < q.line || (p.line == q.line && p.column ≤ q.column)

/-- The position after a run of characters that begins at `p`. -/
def advance (p : WordPosition width) (cs : List Char) : WordPosition width :=
  match lastNewline? cs with
  | some last => ⟨p.line + .ofNat width (cs.count '\n'), .ofNat width (byteLength cs - last - 1)⟩
  | none => ⟨p.line, p.column + .ofNat width (byteLength cs)⟩

/-- Whether a sum on the way over a run of characters does not fit in a word. -/
def overflows (p : WordPosition width) (cs : List Char) : Bool :=
  match lastNewline? cs with
  | some _ => p.line.uaddOverflow (.ofNat width (cs.count '\n'))
  | none => p.column.uaddOverflow (.ofNat width (byteLength cs))

end WordPosition

/-- The position of an offset in words. An offset past the end counts as the end. -/
def LineIndex.lineCol (index : LineIndex) (offset : Nat) : LineCol :=
  (index.position offset).toWords 32

/-! ## The last newline -/

variable {cs a b : List Char} {last : Nat}

theorem lastNewline?_append (a b : List Char) :
    lastNewline? (a ++ b) = ((lastNewline? b).map (byteLength a + ·)).or (lastNewline? a) := by
  induction a with
  | nil => cases hb : lastNewline? b <;> simp [lastNewline?, hb]
  | cons c a ih =>
    rw [List.cons_append, lastNewline?, ih]
    cases lastNewline? b with
    | none => rfl
    | some last => simp [Nat.add_assoc]

theorem lastNewline?_lt (h : lastNewline? cs = some last) : last < byteLength cs := by
  induction cs generalizing last with
  | nil => cases h
  | cons c cs ih =>
    have hc := Char.utf8Size_pos c
    rw [lastNewline?] at h
    rw [byteLength_cons]
    split at h
    · next last' hlast =>
      cases h
      have := ih hlast
      omega
    · split at h
      · cases h
        omega
      · cases h

theorem count_of_lastNewline?_eq_none (h : lastNewline? cs = none) : cs.count '\n' = 0 := by
  induction cs with
  | nil => rfl
  | cons c cs ih =>
    rw [lastNewline?] at h
    split at h
    · cases h
    · next hcs =>
      split at h
      · cases h
      · next hc => rw [List.count_cons_of_ne hc, ih hcs]

/-- A position is moved over a text as the last newline and the number of newlines say. -/
theorem Position.advance_eq (p : Position) (cs : List Char) : p.advance cs =
    match lastNewline? cs with
    | some last => ⟨p.line + cs.count '\n', byteLength cs - last - 1⟩
    | none => ⟨p.line, p.column + byteLength cs⟩ := by
  induction cs generalizing p with
  | nil => rfl
  | cons c cs ih =>
    rw [advance, List.foldl_cons, ← advance, ih, lastNewline?, byteLength_cons, step]
    by_cases hc : c = '\n'
    · subst hc
      rw [if_pos rfl, List.count_cons_self]
      cases hlast : lastNewline? cs with
      | some last =>
        simp only [mk.injEq]
        omega
      | none =>
        have hsize : '\n'.utf8Size = 1 := rfl
        simp [count_of_lastNewline?_eq_none hlast, hsize]
    · rw [if_neg hc, List.count_cons_of_ne hc]
      cases lastNewline? cs with
      | some last =>
        dsimp only
        rw [Nat.add_sub_add_left]
      | none => simp [hc, Nat.add_assoc]

end AsmTree
