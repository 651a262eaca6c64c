import AsmTree.Text.Decimal
import AsmTree.View.Basic

/-!
# Values of literals

A literal is a node over one token. Whole numbers have a value if it fits into a word of 32 bits,
graphics constants pack two bits a digit into two bytes, fixed-point numbers have the nearest
double, and strings have their contents. Each value is read from the text of the token alone.
-/

namespace AsmTree.View

/-- The forms of literals. -/
inductive LiteralKind where
  | decimal | hex | binary | octal | gfx | fixed | string | char
deriving DecidableEq, Repr

/-- The form that a token gives to a literal. -/
def LiteralKind.ofKind? : Kind → Option LiteralKind
  | .decNumber => some .decimal
  | .hexNumber => some .hex
  | .binNumber => some .binary
  | .octNumber => some .octal
  | .gfxNumber => some .gfx
  | .fixedNumber => some .fixed
  | .string => some .string
  | .char => some .char
  | _ => none

/-! ## Whole numbers -/

/-- The text behind the first of some marks that it begins with. -/
def behindMark? (marks : List String) (cs : List Char) : Option (List Char) :=
  marks.findSome? fun m =>
    if m.toList.isPrefixOf cs then some (cs.drop m.length) else none

/-- The two bits of each pixel of a row, the low ones in one word and the high ones in another. -/
structure Planes where
  low : BitVec 32 := 0
  high : BitVec 32 := 0
deriving DecidableEq, Repr

namespace Planes

/-- The planes with one more pixel behind the others. -/
def push (p : Planes) (digit : Nat) : Planes :=
  let d := BitVec.ofNat 32 digit
  ⟨p.low <<< 1 ||| d &&& 1, p.high <<< 1 ||| d >>> 1⟩

/-- The planes as one number, the high plane in the next byte. -/
def value (p : Planes) : BitVec 32 := p.high <<< 8 ||| p.low

end Planes

/-- A row of pixels has at most this many digits. -/
def maxPixels : Nat := 8

/-- The value of a row of pixels behind its mark. -/
def pixels? (cs : List Char) : Option (BitVec 32) :=
  if cs.isEmpty || maxPixels < byteLength cs then none
  else (digits? 4 cs).map fun ds => (ds.foldl Planes.push {}).value

/-- The value of the text of a whole number. Underscores do not count. -/
def intValue? (kind : LiteralKind) (text : String) : Option (BitVec 32) :=
  let cs := text.toList.filter (· != '_')
  match kind with
  | .decimal => wordValue? 32 10 cs
  | .hex => (behindMark? ["$", "0x", "0X"] cs).bind (wordValue? 32 16)
  | .binary => (behindMark? ["%", "0b", "0B"] cs).bind (wordValue? 32 2)
  | .octal => (behindMark? ["&", "0o", "0O"] cs).bind (wordValue? 32 8)
  | .gfx => (behindMark? ["\x60"] cs).bind pixels?
  | _ => none

/-! ## Fixed-point numbers -/

/-- The value of the text of a fixed-point number, without its precision. -/
def fixedValue? (text : String) : Option Float :=
  (Decimal.read? (text.toList.takeWhile fun c => c != 'q' && c != 'Q')).map Decimal.toFloat

/-! ## Strings -/

/-- Characters that a backslash protects. -/
def isProtected (c : Char) : Bool := ['\\', '"', '\'', '{', '}', ',', '(', ')'].contains c

/-- What a backslash and a character stand for. Other escapes are left as they are. -/
def escaped (c : Char) : List Char :=
  match c with
  | 'n' => ['\n']
  | 'r' => ['\r']
  | 't' => ['\t']
  | '0' => ['\x00']
  | c => if isProtected c then [c] else ['\\', c]

/-- The text with its escapes resolved, from left to right. -/
def unescape : List Char → List Char
  | [] => []
  | '\\' :: c :: cs => escaped c ++ unescape cs
  | c :: cs => c :: unescape cs

/-- The text between two marks of some quotes, if it has both. -/
def between? (quotes : Nat) (cs : List Char) : Option (List Char) :=
  let mark := List.replicate quotes '"'
  if 2 * quotes ≤ cs.length && mark.isPrefixOf cs && mark.isSuffixOf cs then
    some ((cs.drop quotes).take (cs.length - 2 * quotes))
  else none

/-- The contents of the text of a string between three quotes or one. Without escapes if a `#`
stands in front. -/
def stringValue? (text : String) : Option String :=
  let (raw, cs) := match text.toList with
    | '#' :: cs => (true, cs)
    | cs => (false, cs)
  let body := match between? 3 cs with
    | some body => some body
    | none => between? 1 cs
  body.map fun body => String.ofList (if raw then body else unescape body)

/-! ## Literals -/

/-- The parts of a literal. -/
structure Literal where
  token : Option Located
  kind : Option LiteralKind
deriving Repr

namespace Literal

/-- A literal node. -/
def of (l : Located) : Literal := ⟨l.firstToken?, l.meaning? LiteralKind.ofKind?⟩

/-- The value, if the literal is a whole number that fits. -/
def intValue? (v : Literal) : Option Nat := do
  let n ← View.intValue? (← v.kind) (← v.token).text
  return n.toNat

/-- The value, if the literal is a fixed-point number. -/
def fixedValue? (v : Literal) : Option Float :=
  if v.kind = some .fixed then v.token.bind (View.fixedValue? ·.text) else none

/-- The contents, if the literal is a string. -/
def stringValue? (v : Literal) : Option String :=
  if v.kind = some .string then v.token.bind (View.stringValue? ·.text) else none

end Literal

/-- The contents of a node, if it is a literal string. -/
def stringOf? (l : Located) : Option String :=
  if l.kind = .literal then (Literal.of l).stringValue? else none

end AsmTree.View
