import AsmTree.Diagnostic.Basic
import AsmTree.Tree.Basic

/-!
# Parsed texts

The result of a parse: the tree, what was reported, and the places at which a later parse of a
changed text can be taken up again.
-/

namespace AsmTree

/-- The end of a line of the file, where nothing is open. -/
structure Checkpoint where
  /-- Offset of the next line. -/
  offset : Nat
  /-- Line and column of the offset. -/
  position : Position
  /-- Number of diagnostics reported before. -/
  errorCount : Nat
deriving DecidableEq, Repr, Inhabited

/-- The result of a parse. -/
structure SyntaxTree where
  /-- The trees below the root. -/
  children : List Tree
  /-- What was reported, in order. -/
  errors : List Diagnostic
  /-- Line ends at which a parse can be taken up again, in order. -/
  checkpoints : List Checkpoint
  lineIndex : LineIndex
  /-- Version of the grammar that the table was made for. -/
  grammarVersion : Nat
  /-- How many tokens recovery was allowed to skip. -/
  recoveryLimit : Nat
deriving Repr, Inhabited

namespace SyntaxTree

/-- The tree of the whole text. -/
def root (t : SyntaxTree) : Tree := .node .sourceFile t.children

/-- The text that was parsed. -/
def text (t : SyntaxTree) : String := t.root.text

/-- Number of bytes of the text. -/
def length (t : SyntaxTree) : Nat := t.root.length

/-- Every element, the root first. -/
def elements (t : SyntaxTree) : List Element := t.root.elements 0

/-- Places of the recovered regions. -/
def errorRanges (t : SyntaxTree) : List TextRange :=
  t.elements.filterMap fun e => if e.kind = .error && e.text.isNone then some e.range else none

/-- Whether something was reported or recovered. -/
def hasErrors (t : SyntaxTree) : Bool := !t.errors.isEmpty || !t.errorRanges.isEmpty

end SyntaxTree

end AsmTree
