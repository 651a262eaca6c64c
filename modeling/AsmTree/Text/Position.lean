import AsmTree.Text.Bytes

/-!
# Lines and columns

A position is a line and a column, both from zero, the column in bytes. `Position.advance` moves
a position over a text; `LineIndex` answers the same question for every offset of one text, and
back. **Main statement here:** moving over `a ++ b` is moving over `a`, then over `b`.
-/

namespace AsmTree

/-- A line and a column, both from zero. Columns count bytes. -/
structure Position where
  line : Nat := 0
  column : Nat := 0
deriving DecidableEq, Repr, Inhabited

namespace Position

/-- The position after one more character. -/
def step (p : Position) (c : Char) : Position :=
  if c = '\n' then ⟨p.line + 1, 0⟩ else ⟨p.line, p.column + c.utf8Size⟩

/-- The position after a run of characters that begins at `p`. -/
def advance (p : Position) (cs : List Char) : Position := cs.foldl step p

/-- Positions are ordered by line, then by column. -/
def ble (p q : Position) : Bool :=
  p.line < q.line || (p.line == q.line && p.column ≤ q.column)

/-- The start of a text. -/
def origin : Position := {}

@[simp] theorem advance_nil (p : Position) : p.advance [] = p := rfl

theorem advance_append (p : Position) (a b : List Char) :
    p.advance (a ++ b) = (p.advance a).advance b :=
  List.foldl_append

end Position

/-- Two positions, the second not before the first in a well-formed span. -/
structure Span where
  start : Position
  stop : Position
deriving DecidableEq, Repr, Inhabited

namespace Span

/-- Whether a position lies in the span, both ends included. -/
def contains (s : Span) (p : Position) : Bool := s.start.ble p && p.ble s.stop

/-- Whether the span covers no text. -/
def isEmpty (s : Span) : Bool := s.start == s.stop

end Span

/-- Where the lines of one text start, for moving between offsets and positions. -/
structure LineIndex where
  /-- Offset of the first byte of each line. -/
  lineStarts : Array Nat
  /-- Number of bytes of the text. -/
  length : Nat
deriving DecidableEq, Repr, Inhabited

namespace LineIndex

/-- Offsets just behind the newlines of a run of characters that begins at `offset`. -/
def startsFrom (offset : Nat) : List Char → List Nat
  | [] => []
  | c :: cs =>
    let next := offset + c.utf8Size
    if c = '\n' then next :: startsFrom next cs else startsFrom next cs

/-- The index of a text. -/
def ofText (text : String) : LineIndex :=
  ⟨(0 :: startsFrom 0 text.toList).toArray, text.utf8ByteSize⟩

/-- The line of an offset: the lines that start at or before it, less one. -/
def lineOf (index : LineIndex) (offset : Nat) : Nat :=
  index.lineStarts.countP (· ≤ offset) - 1

/-- The position of an offset. An offset past the end counts as the end. -/
def position (index : LineIndex) (offset : Nat) : Position :=
  let offset := min offset index.length
  let line := index.lineOf offset
  ⟨line, offset - index.lineStarts.getD line 0⟩

/-- The offset where a line starts. -/
def lineStart? (index : LineIndex) (line : Nat) : Option Nat := index.lineStarts[line]?

/-- The offset of a line and column, if it does not lie behind the end of the text. The sum has
thirty-two bits and starts over behind 4294967295. -/
def offset? (index : LineIndex) (p : Position) : Option Nat := do
  let start ← index.lineStart? p.line
  let offset := (start + p.column) % 4294967296
  if offset ≤ index.length then some offset else none

/-- The positions of the two ends of a range. -/
def span (index : LineIndex) (r : TextRange) : Span :=
  ⟨index.position r.start, index.position r.stop⟩

/-- Number of lines: one more than the newlines. -/
def lineCount (index : LineIndex) : Nat := index.lineStarts.size

end LineIndex

end AsmTree
