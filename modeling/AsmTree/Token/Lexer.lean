import AsmTree.Text.Position
import AsmTree.Token.Lexical

/-!
# Tokens

`Lexer.next` splits one token off the rest of a text. It never fails: what matches no lexical
class becomes a token of kind `unknown`, and so does a string or block comment that is not closed.
A lexer can start at any offset. **Main statement here:** a token and the rest are the input
(`scan_lexeme_append_rest`), and the rest is shorter (`scan_rest_length_lt`).
-/

namespace AsmTree

/-- A token with its text and its place. -/
structure Token where
  kind : Kind
  text : String
  offset : Nat
  position : Position
deriving DecidableEq, Repr, Inhabited

namespace Token

/-- Number of bytes of the token. -/
def length (t : Token) : Nat := t.text.utf8ByteSize

/-- The bytes that the token covers. -/
def range (t : Token) : TextRange := .ofLength t.offset t.length

/-- Offset just behind the token. -/
def stop (t : Token) : Nat := t.offset + t.length

end Token

/-! ## Closing delimiters -/

/-- How far a delimited token reaches behind its opening, in characters. -/
structure Extent where
  closed : Bool
  length : Nat
deriving DecidableEq, Repr

namespace Extent

/-- The extent `n` characters longer. -/
def shift (n : Nat) (e : Extent) : Extent := ⟨e.closed, e.length + n⟩

/-- Up to and including the first occurrence of a delimiter, or else to the end of the input. -/
def upTo (delimiter : List Char) : List Char → Extent
  | [] => ⟨false, 0⟩
  | c :: cs =>
    if delimiter.isPrefixOf (c :: cs) then ⟨true, delimiter.length⟩ else (upTo delimiter cs).shift 1

/-- Up to and including a quote on the same line. A backslash protects the next character, the end
of the line too. -/
def escapedLine : List Char → Extent
  | [] => ⟨false, 0⟩
  | '"' :: _ => ⟨true, 1⟩
  | '\n' :: _ => ⟨false, 0⟩
  | ['\\'] => ⟨false, 1⟩
  | '\\' :: _ :: cs => (escapedLine cs).shift 2
  | _ :: cs => (escapedLine cs).shift 1

/-- Up to and including a quote on the same line, without escapes. -/
def rawLine : List Char → Extent
  | [] => ⟨false, 0⟩
  | '"' :: _ => ⟨true, 1⟩
  | '\n' :: _ => ⟨false, 0⟩
  | _ :: cs => (rawLine cs).shift 1

/-- A string behind its first quote: two more quotes begin one that spans lines and ends at three
quotes. -/
def string (line : List Char → Extent) : List Char → Extent
  | '"' :: '"' :: cs => (upTo ['"', '"', '"'] cs).shift 2
  | cs => line cs

end Extent

/-- How far a delimited token reaches behind its opening. -/
def Delimited.extent : Delimited → List Char → Extent
  | .plainString => .string .escapedLine
  | .rawString => .string .rawLine
  | .blockComment => .upTo ['*', '/']

/-- The kind of a delimited token that is closed. -/
def Delimited.kind : Delimited → Kind
  | .plainString | .rawString => .string
  | .blockComment => .blockComment

/-! ## One token -/

/-- The longest match among the rules, and of equally long ones the first. -/
def longestMatch (rules : List LexRule) (cs : List Char) : Option (LexResult × Nat) :=
  rules.foldl (fun best rule =>
    match rule.pattern.longest cs, best with
    | some n, some (_, m) => if m < n then some (rule.result, n) else best
    | some n, none => some (rule.result, n)
    | none, _ => best) none

/-- Number of characters of an unreadable token: the longest unfinished beginning of one, or one
character. -/
def unreadableLength (cs : List Char) : Nat :=
  Lexical.unfinished.foldl (fun best p => max best ((p.longest cs).getD 0)) 1

/-- Kind and number of characters of the first token of a nonempty input. -/
def firstToken (cs : List Char) : Kind × Nat :=
  match longestMatch Lexical.rules cs with
  | some (.token .ident, n) => (Lexical.nameKind (String.ofList (cs.take n)), n)
  | some (.token kind, n) => (kind, n)
  | some (.opens form, n) =>
    let e := form.extent (cs.drop n)
    (if e.closed then form.kind else .unknown, n + e.length)
  | none => (.unknown, unreadableLength cs)

/-- The first token of a nonempty input, its characters, and the rest. -/
structure Scanned where
  kind : Kind
  lexeme : List Char
  rest : List Char
deriving DecidableEq, Repr

/-- Splits the first token off the input `c :: cs`. -/
def scan (c : Char) (cs : List Char) : Scanned :=
  let (kind, n) := firstToken (c :: cs)
  ⟨kind, c :: cs.take (n - 1), cs.drop (n - 1)⟩

theorem scan_lexeme_append_rest (c : Char) (cs : List Char) :
    (scan c cs).lexeme ++ (scan c cs).rest = c :: cs := by
  simp [scan]

theorem scan_rest_length_lt (c : Char) (cs : List Char) :
    (scan c cs).rest.length < (c :: cs).length := by
  simp only [scan, List.length_drop, List.length_cons]
  omega

theorem scan_lexeme_ne_nil (c : Char) (cs : List Char) : (scan c cs).lexeme ≠ [] := by
  simp [scan]

/-! ## The lexer -/

/-- A place in a text from which tokens are read. -/
structure Lexer where
  /-- The text that is left. -/
  rest : List Char
  /-- Offset of the rest. -/
  offset : Nat := 0
  /-- Line and column of the rest. -/
  position : Position := {}
deriving DecidableEq, Repr, Inhabited

namespace Lexer

/-- A lexer at the start of a text. -/
def ofText (text : String) : Lexer := { rest := text.toList }

/-- A lexer at an offset of a text, where the position of the offset is known. An offset past the
end counts as the end. -/
def startingAt (text : String) (offset : Nat) (position : Position) : Lexer :=
  { rest := dropBytes offset text.toList, offset := min offset text.utf8ByteSize, position }

/-- The next token and the lexer behind it. At the end of the text the token is an empty `eof`. -/
def next (lexer : Lexer) : Token × Lexer :=
  match lexer.rest with
  | [] => (⟨.eof, "", lexer.offset, lexer.position⟩, lexer)
  | c :: cs =>
    let s := scan c cs
    (⟨s.kind, String.ofList s.lexeme, lexer.offset, lexer.position⟩,
      ⟨s.rest, lexer.offset + byteLength s.lexeme, lexer.position.advance s.lexeme⟩)

theorem next_rest_length_lt {lexer : Lexer} (h : lexer.rest ≠ []) :
    lexer.next.2.rest.length < lexer.rest.length := by
  unfold next
  split
  · contradiction
  · next c cs he => rw [he]; exact scan_rest_length_lt c cs

/-- All tokens that are left, without the final `eof`. -/
def tokens (lexer : Lexer) : List Token :=
  if _h : lexer.rest = [] then [] else lexer.next.1 :: lexer.next.2.tokens
termination_by lexer.rest.length
decreasing_by exact next_rest_length_lt _h

end Lexer

/-- The tokens of a text, without the final `eof`. -/
def tokenize (text : String) : List Token := (Lexer.ofText text).tokens

end AsmTree
