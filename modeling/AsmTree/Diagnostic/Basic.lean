import AsmTree.Diagnostic.Context
import AsmTree.Text.Bytes
import AsmTree.Text.Quoted
import AsmTree.Token.Lexer

/-!
# Diagnostics

What is reported about a text: where, with which code, in which words, and with which hint. The
wording is made here; where a diagnostic arises is the parser's business.
-/

namespace AsmTree

/-- How bad a problem is. -/
inductive Severity where
  | error | warning
deriving DecidableEq, Repr, Inhabited

/-- A second place that a diagnostic points at. -/
structure Related where
  message : String
  range : TextRange
deriving DecidableEq, Repr, Inhabited

/-- A problem with a text. -/
structure Diagnostic where
  code : Code
  range : TextRange
  message : String := code.defaultMessage
  severity : Severity := .error
  hint : Option String := none
  related : List Related := []
deriving DecidableEq, Repr, Inhabited

/-- An offset moved by a signed distance. It does not go below zero. -/
def shiftOffset (delta : Int) (offset : Nat) : Nat := (offset + delta).toNat

/-- A range moved by a signed distance. -/
def TextRange.shift (delta : Int) (r : TextRange) : TextRange :=
  ⟨shiftOffset delta r.start, shiftOffset delta r.stop⟩

namespace Diagnostic

/-- The diagnostic moved by a signed distance, with the places that it points at. -/
def shift (delta : Int) (d : Diagnostic) : Diagnostic :=
  { d with
    range := d.range.shift delta
    related := d.related.map fun r => { r with range := r.range.shift delta } }

/-! ## Unexpected tokens -/

/-- At most this many expected tokens are listed. -/
def maxListed : Nat := 6

/-- The wordings of some kinds, each once, in the order of their first. -/
def wordings (kinds : List Kind) : List String :=
  (kinds.foldl (fun names k =>
    let name := k.describe
    if names.contains name then names else name :: names) []).reverse

/-- A list in words: commas, and `or` before the last. Without entries the text is empty. -/
def orList : List String → String
  | [] => ""
  | [a] => a
  | names => ", ".intercalate names.dropLast ++ " or " ++ names.getLastD ""

/-- What was expected, in words. No tokens, or too many, leave it to the context. -/
def expectation (expected : List Kind) (context : Context) : String :=
  let names := wordings expected
  if names.isEmpty || maxListed < names.length then context.expectation else orList names

/-- A token that the parser cannot use. -/
def unexpected (found : Kind) (context : Context) (expected : List Kind) (range : TextRange) :
    Diagnostic where
  code := context.code found
  range := range
  message := "unexpected " ++ found.describe ++ " " ++ context.description
  hint := some ("expected " ++ expectation expected context)

/-! ## Unreadable tokens and open blocks -/

/-- A token that matches no lexical class, or a string or comment that is not closed. -/
def unreadable (t : Token) : Diagnostic :=
  if t.text.startsWith "/*" then
    { code := .unterminatedComment, range := t.range, hint := some "close the comment with '*/'" }
  else if t.text.startsWith "\"" || t.text.startsWith "#\"" then
    { code := .unterminatedString, range := t.range
      hint := some "close the string with a matching quote" }
  else
    { code := .invalidCharacter, range := t.range
      message := "invalid character '" ++ Quoted.inMessage t.text ++ "'" }

/-- A block whose opening word stands at `range` and which is not closed at the end of the text. -/
def openBlock (opener : Kind) (range : TextRange) (stop : Nat) : Diagnostic where
  code := .unterminatedBlock
  range := .point stop
  message := "unterminated " ++ opener.describe ++ " block"
  hint := opener.blockTerminator?.map fun k => "add " ++ k.describe ++ " to close the block"
  related := [⟨opener.describe ++ " opened here", range⟩]

/-- A table that lacks the entry for a formed nonterminal. -/
def internalError (offset : Nat) : Diagnostic where
  code := .internal
  range := .point offset

end Diagnostic

end AsmTree
