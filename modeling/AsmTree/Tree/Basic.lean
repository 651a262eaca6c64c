import AsmTree.Kind
import AsmTree.Text.Bytes

/-!
# Lossless trees

A leaf is a token with its text, blank space and comments included; a node has a kind and children.
Nothing else is stored, so the text of a tree is the text of its leaves in order, and an element's
place follows from what stands before it.
-/

namespace AsmTree

/-- A token, or a node over other trees. -/
inductive Tree where
  | token (kind : Kind) (text : String)
  | node (kind : Kind) (children : List Tree)
deriving Repr, Inhabited, BEq

/-- The kind and text of a token of a tree. -/
structure Leaf where
  kind : Kind
  text : String
deriving DecidableEq, Repr, Inhabited

/-- A node or token with its depth and place. Tokens carry their text. -/
structure Element where
  depth : Nat
  kind : Kind
  range : TextRange
  text : Option String
deriving DecidableEq, Repr, Inhabited

namespace Tree

/-- What the token or node is. -/
def kind : Tree → Kind
  | token k _ => k
  | node k _ => k

/-- Whether it is a token. -/
def isToken : Tree → Bool
  | token .. => true
  | node .. => false

/-- The trees directly below. A token has none. -/
def children : Tree → List Tree
  | token .. => []
  | node _ cs => cs

mutual

/-- Number of bytes of the text. -/
def length : Tree → Nat
  | token _ text => text.utf8ByteSize
  | node _ cs => lengthAll cs

/-- Number of bytes of the texts of several trees. -/
def lengthAll : List Tree → Nat
  | [] => 0
  | t :: ts => length t + lengthAll ts

end

mutual

/-- Number of tokens and nodes. -/
def size : Tree → Nat
  | token .. => 1
  | node _ cs => 1 + sizeAll cs

/-- Number of tokens and nodes of several trees. -/
def sizeAll : List Tree → Nat
  | [] => 0
  | t :: ts => size t + sizeAll ts

end

mutual

/-- The tokens in order, in front of others. -/
def leavesOnto : Tree → List Leaf → List Leaf
  | token k text, rest => ⟨k, text⟩ :: rest
  | node _ cs, rest => leavesOntoAll cs rest

/-- The tokens of several trees in order, in front of others. -/
def leavesOntoAll : List Tree → List Leaf → List Leaf
  | [], rest => rest
  | t :: ts, rest => leavesOnto t (leavesOntoAll ts rest)

end

/-- The tokens in order. -/
def leaves (t : Tree) : List Leaf := t.leavesOnto []

/-- The text: that of the tokens in order. -/
def text (t : Tree) : String := String.join (t.leaves.map Leaf.text)

mutual

/-- Every element with its place: a node first, then what is below it, in front of others. -/
def elementsOnto (depth start : Nat) : Tree → List Element → List Element
  | token k text, rest => ⟨depth, k, .ofLength start text.utf8ByteSize, some text⟩ :: rest
  | node k cs, rest =>
    ⟨depth, k, .ofLength start (lengthAll cs), none⟩ :: elementsOntoAll (depth + 1) start cs rest

/-- The elements of neighbouring trees, in front of others. -/
def elementsOntoAll (depth start : Nat) : List Tree → List Element → List Element
  | [], rest => rest
  | t :: ts, rest =>
    elementsOnto depth start t (elementsOntoAll depth (start + t.length) ts rest)

end

/-- The token at the end of the way along first children. -/
def firstToken? : Tree → Option Tree
  | token k text => some (token k text)
  | node _ [] => none
  | node _ (t :: _) => firstToken? t

/-- Every element of a tree that starts at an offset: a node first, then what is below it. -/
def elements (t : Tree) (start : Nat) : List Element := t.elementsOnto 0 start []

end Tree

end AsmTree
