import AsmTree.Text.CharRanges

/-!
# Text in messages

How a piece of source text is shown within a message or a dump. Characters that would break the
line or could not be seen are written as escapes: a letter behind a backslash where there is one,
the code point in braces otherwise.
-/

namespace AsmTree.Quoted

/-- Whether a character leaves a mark of its own. -/
def isPrintable (c : Char) : Bool := !CharRanges.covers CharRanges.unprintable c.toNat

/-- Whether a character joins the one before it. -/
def extendsGrapheme (c : Char) : Bool := CharRanges.covers CharRanges.graphemeExtend c.toNat

/-- A code point as an escape: `\u`, then hexadecimal digits in braces. -/
def codePoint (c : Char) : List Char :=
  ['\\', 'u', '\x7b'] ++ Nat.toDigits 16 c.toNat ++ ['\x7d']

/-- What a style of quoting escapes beyond the characters that every style does. -/
structure Style where
  /-- Marks that join the character before them. -/
  marks : Bool
  /-- Single quotes. -/
  singleQuotes : Bool
deriving DecidableEq, Repr

/-- One character in a style. -/
def char (style : Style) (c : Char) : List Char :=
  if c = '\x00' then ['\\', '0']
  else if c = '\t' then ['\\', 't']
  else if c = '\r' then ['\\', 'r']
  else if c = '\n' then ['\\', 'n']
  else if c = '"' then ['\\', '"']
  else if c = '\'' && style.singleQuotes then ['\\', '\'']
  else if c = '\\' then ['\\', '\\']
  else if style.marks && extendsGrapheme c then codePoint c
  else if isPrintable c then [c]
  else codePoint c

/-- A text within a message: a joining mark is escaped only in front, where nothing is there to
join. -/
def inMessage (text : String) : String :=
  match text.toList with
  | [] => ""
  | c :: cs =>
    String.ofList (char ⟨true, true⟩ c ++ cs.flatMap (char ⟨false, true⟩))

/-- A text in double quotes: every joining mark is escaped, single quotes are not. -/
def inQuotes (text : String) : String :=
  "\"" ++ String.ofList (text.toList.flatMap (char ⟨true, false⟩)) ++ "\""

end AsmTree.Quoted
