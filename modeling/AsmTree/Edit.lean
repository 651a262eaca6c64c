import AsmTree.Machine.Basic

/-!
# Edits

An edit replaces one range of a text. A tree of the text before the edit can be used for the text
after it if the edit lies inside the old text, accounts for the new length, and tree and parser
agree on the grammar and on how far recovery may reach.
-/

namespace AsmTree

/-- One replacement in a text. The new end refers to the new text, all else to the old one. -/
structure InputEdit where
  start : Nat
  oldEnd : Nat
  newEnd : Nat
  startPoint : Position := {}
  oldEndPoint : Position := {}
  newEndPoint : Position := {}
deriving DecidableEq, Repr, Inhabited

namespace InputEdit

/-- The edit that replaces a range. Positions count what the text holds of the range: one that does
not name a part of the text holds nothing. -/
def replace (oldText : String) (range : TextRange) (replacement : String) : InputEdit :=
  let before := (TextRange.slice? ⟨0, range.start⟩ oldText).getD ""
  let removed := (range.slice? oldText).getD ""
  let startPoint := Position.origin.advance before.toList
  { start := range.start
    oldEnd := range.stop
    newEnd := range.start + replacement.utf8ByteSize
    startPoint
    oldEndPoint := startPoint.advance removed.toList
    newEndPoint := startPoint.advance replacement.toList }

/-- The edit that inserts a text. -/
def insert (oldText : String) (offset : Nat) (text : String) : InputEdit :=
  replace oldText (.point offset) text

/-- The edit that deletes a range. -/
def delete (oldText : String) (range : TextRange) : InputEdit := replace oldText range ""

/-- Change in length. -/
def delta (e : InputEdit) : Int := (e.newEnd : Int) - e.oldEnd

/-- The length that a text of some length has after the edit. It has thirty-two bits and starts over
behind 4294967295. -/
def expectedLength (e : InputEdit) (length : Nat) : Nat := shiftOffset e.delta length % 4294967296

end InputEdit

/-- Why a tree cannot be used for an edit. -/
inductive EditError where
  | grammarVersion (tree parser : Nat)
  | outOfBounds (start oldEnd length : Nat)
  | inverted (start newEnd : Nat)
  | lengthMismatch (found expected : Nat)
  | recoveryLimit (tree parser : Nat)
deriving DecidableEq, Repr

/-- The wording of an edit error. -/
def EditError.message : EditError → String
  | .grammarVersion tree parser =>
    s!"tree was built with grammar version {tree}, the parser uses version {parser}"
  | .outOfBounds start oldEnd length =>
    s!"edit range {start}..{oldEnd} is not inside the old text of length {length}"
  | .inverted start newEnd => s!"edit ends at {newEnd} before it starts at {start}"
  | .lengthMismatch found expected =>
    s!"text has length {found}, the edit implies {expected}"
  | .recoveryLimit tree parser =>
    s!"tree was built with a recovery limit of {tree} tokens, the parser uses {parser}"

/-- What keeps a tree from being used for an edit that leads to `text`, if anything does. -/
def InputEdit.fault? (e : InputEdit) (old : SyntaxTree) (text : String) (table : ParseTable)
    (options : ParseOptions) : Option EditError :=
  let expected := e.expectedLength old.length
  if old.grammarVersion ≠ table.grammarVersion then
    some (.grammarVersion old.grammarVersion table.grammarVersion)
  else if old.recoveryLimit ≠ options.recoveryLimit then
    some (.recoveryLimit old.recoveryLimit options.recoveryLimit)
  else if e.oldEnd < e.start || old.length < e.oldEnd then
    some (.outOfBounds e.start e.oldEnd old.length)
  else if e.newEnd < e.start then some (.inverted e.start e.newEnd)
  else if text.utf8ByteSize ≠ expected then
    some (.lengthMismatch text.utf8ByteSize expected)
  else none

end AsmTree
