import AsmTree.Tree.Basic

/-!
# Trees in their places

A tree does not know where it stands. A located tree adds the offset where it starts, and from it
its children find theirs. Every question about a part of a parsed text is asked of located trees.
-/

namespace AsmTree

/-- A tree and the offset where it starts. -/
structure Located where
  start : Nat
  tree : Tree
deriving Repr, Inhabited, BEq

namespace Located

/-! ## What stands here -/

/-- What the token or node is. -/
def kind (l : Located) : Kind := l.tree.kind

/-- Whether it is a token. -/
def isToken (l : Located) : Bool := l.tree.isToken

/-- Offset behind the last byte. -/
def stop (l : Located) : Nat := l.start + l.tree.length

/-- The bytes that it covers. -/
def range (l : Located) : TextRange := ⟨l.start, l.stop⟩

/-- The text that it covers. -/
def text (l : Located) : String := l.tree.text

/-! ## What stands below -/

/-- Neighbouring trees in their places, the first at an offset. -/
def row (start : Nat) : List Tree → List Located
  | [] => []
  | t :: ts => ⟨start, t⟩ :: row (start + t.length) ts

/-- The trees directly below in their places. -/
def children (l : Located) : List Located := row l.start l.tree.children

mutual

/-- Every tree in a tree at an offset, the tree itself first, in front of others. -/
def subtreesOnto (start : Nat) : Tree → List Located → List Located
  | .token k text, rest => ⟨start, .token k text⟩ :: rest
  | .node k cs, rest => ⟨start, .node k cs⟩ :: subtreesOntoAll start cs rest

/-- Every tree in neighbouring trees, in front of others. -/
def subtreesOntoAll (start : Nat) : List Tree → List Located → List Located
  | [], rest => rest
  | t :: ts, rest => subtreesOnto start t (subtreesOntoAll (start + t.length) ts rest)

end

/-- Every tree here and below, a node before what is below it. -/
def subtrees (l : Located) : List Located := subtreesOnto l.start l.tree []

/-- The token at the end of the way along first children. A node without children on the way means
that there is none. -/
def firstToken? (l : Located) : Option Located := l.tree.firstToken?.map (⟨l.start, ·⟩)

/-! ## Small facts -/

@[simp] theorem row_nil (start : Nat) : row start [] = [] := rfl

@[simp] theorem row_cons (start : Nat) (t : Tree) (ts : List Tree) :
    row start (t :: ts) = ⟨start, t⟩ :: row (start + t.length) ts := rfl

@[simp] theorem map_tree_row (start : Nat) (ts : List Tree) : (row start ts).map tree = ts := by
  induction ts generalizing start with
  | nil => rfl
  | cons t ts ih => simp [ih]

theorem map_tree_children (l : Located) : l.children.map tree = l.tree.children :=
  map_tree_row _ _

end Located

end AsmTree
