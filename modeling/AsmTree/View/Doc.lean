import AsmTree.Cursor
import AsmTree.Text.Blank

/-!
# Documentation

Comments right above a node document it: a run of line comments, each on a line of its own, or one
block comment. An empty line ends the run, and so does a comment behind code.
-/

namespace AsmTree.View

/-- Whether a place with some trees before it, the nearest first, is the first on its line. -/
def startsLine : List Located → Bool
  | [] => true
  | l :: before =>
    match l.kind with
    | .whitespace => startsLine before
    | .newline => true
    | _ => false

/-- The contents of a line comment. -/
def lineComment (text : String) : String :=
  String.ofList (trim (text.toList.dropWhile (· == ';')))

/-- A line of a block comment without blanks and without a leading asterisk. -/
def cleanLine (cs : List Char) : List Char :=
  match trim cs with
  | '*' :: rest => trimStart rest
  | cs => cs

/-- The lines of a text. -/
def linesOf (cs : List Char) : List (List Char) := cs.splitOn '\n'

/-- The text between the marks of a block comment, if it has both. -/
def blockBody? (text : String) : Option (List Char) :=
  match text.toList with
  | '/' :: '*' :: cs =>
    match cs.reverse with
    | '/' :: '*' :: body => some body.reverse
    | _ => none
  | _ => none

/-- The contents of a block comment: its lines, except the empty ones. -/
def blockComment (text : String) : String :=
  match blockBody? text with
  | some cs =>
    "\n".intercalate (((linesOf cs).map cleanLine).filter (!·.isEmpty) |>.map String.ofList)
  | none => ""

/-- The contents of the comments above, in source order, in front of those found so far.
`newlines` counts the line ends passed since the last comment. -/
def commentsAbove (newlines : Nat) (found : List String) : List Located → List String
  | [] => found
  | l :: before =>
    if !l.isToken then found
    else
      match l.kind with
      | .whitespace => commentsAbove newlines found before
      | .newline => if newlines = 0 then commentsAbove 1 found before else found
      | .comment =>
        if startsLine before then commentsAbove 0 (lineComment l.text :: found) before else found
      | .blockComment =>
        let content := blockComment l.text
        if content.isEmpty then found else content :: found
      | _ => found

/-- The documentation of a place in a tree, if it says anything. -/
def doc? (c : Cursor) : Option String :=
  let comments := commentsAbove 0 [] c.before
  if comments.all (·.isEmpty) then none else some ("\n".intercalate comments)

end AsmTree.View
