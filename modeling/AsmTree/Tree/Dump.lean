import AsmTree.Text.Quoted
import AsmTree.Tree.Basic

/-!
# Dumps

A tree as lines of text, one an element: its kind and bytes, and for a token its text in quotes.
The line is indented by the depth of the element. A long text is cut short.
-/

namespace AsmTree

/-- A text of fewer bytes than this is shown whole. -/
def dumpLimit : Nat := 25

/-- The text of a token as a dump shows it: whole, or else its first 21 to 24 bytes up to the edge
of a character, and dots. -/
def dumpText (text : String) : String :=
  if text.utf8ByteSize < dumpLimit then Quoted.inQuotes text
  else
    let cut := [21, 22, 23, 24].findSome? fun n => splitBytes? n text.toList
    Quoted.inQuotes (String.ofList ((cut.map Prod.fst).getD []) ++ " ...")

/-- The line of an element. -/
def Element.dump (e : Element) : String :=
  let place := e.kind.name ++ "@" ++ toString e.range.start ++ ".." ++ toString e.range.stop
  String.ofList (List.replicate (2 * e.depth) ' ') ++ place ++
    (match e.text with
      | some text => " " ++ dumpText text
      | none => "") ++ "\n"

/-- The lines of all elements. -/
def Tree.dump (t : Tree) : String := String.join ((t.elements 0).map Element.dump)

end AsmTree
