import AsmTree.SyntaxTree
import AsmTree.Table.Basic

/-!
# The shift-reduce machine

A machine is a stack of frames and the tokens that are left. Each frame stands for one symbol and
holds the trees that the symbol covers, so the tree grows with the stack. This module has the
moves that a table names: shift, reduce, accept.
-/

namespace AsmTree

/-- How a text is parsed. -/
structure ParseOptions where
  /-- How many tokens recovery may skip in search of one to go on with. -/
  recoveryLimit : Nat := 1024
  /-- Whether places are recorded at which a later parse can be taken up again. -/
  recordCheckpoints : Bool := true
  /-- Whether the tree of the text before an edit is used. -/
  incremental : Bool := true
deriving DecidableEq, Repr, Inhabited

/-- Options for texts that are parsed once. -/
def ParseOptions.batch : ParseOptions := { recordCheckpoints := false, incremental := false }

/-- A token that the grammar knows, with the extras in front of it. -/
structure Lookahead where
  trivia : List Token
  token : Token
deriving DecidableEq, Repr, Inhabited

namespace Lookahead

/-- The first token, extras included. -/
def first (l : Lookahead) : Token := l.trivia.headD l.token

/-- The trees of the extras. -/
def triviaTrees (l : Lookahead) : List Tree := l.trivia.map fun t => .token t.kind t.text

/-- The trees of the extras and of the token. -/
def trees (l : Lookahead) : List Tree := l.triviaTrees ++ [.token l.token.kind l.token.text]

/-- Gives each token the extras in front of it. `waiting` are extras read so far, the last one
first; `stop` is the end of the text. -/
def group (isExtra : Kind → Bool) (stop : Token) (waiting : List Token) :
    List Token → List Lookahead
  | [] => [⟨waiting.reverse, stop⟩]
  | t :: ts =>
    if isExtra t.kind then group isExtra stop (t :: waiting) ts
    else ⟨waiting.reverse, t⟩ :: group isExtra stop [] ts

end Lookahead

/-- One symbol on the stack. -/
structure Frame where
  state : Nat
  /-- The trees that the symbol covers, the last one first. -/
  backward : List Tree
  /-- Offset behind the last of them. -/
  stop : Nat
deriving Repr, Inhabited

namespace Frame

/-- The trees of several frames, both the last one first. -/
def joined : List Frame → List Tree
  | [] => []
  | [f] => f.backward
  | f :: fs => f.backward ++ joined fs

end Frame

/-- The rest of an earlier tree, and how far it has moved. -/
structure Splice where
  old : SyntaxTree
  /-- Change in length by the edit. -/
  delta : Int
  /-- End of the edited text. Only lines behind it are as before. -/
  minOffset : Nat
deriving Repr, Inhabited

/-- What does not change during a parse. -/
structure Setup where
  table : ParseTable
  options : ParseOptions
  /-- The end of the text. -/
  stop : Token
  splice : Option Splice := none
deriving Repr, Inhabited

/-- A parse under way. -/
structure Machine where
  top : Frame
  /-- The frames below, the nearest first. -/
  below : List Frame
  /-- The tokens that are left, the end of the text last. -/
  input : List Lookahead
  /-- How many of the tokens that are left have been looked at. -/
  seen : Nat := 0
  errors : Array Diagnostic := #[]
  checkpoints : Array Checkpoint := #[]
  /-- The last token that went into the tree, extras aside. -/
  lastConsumed : Option Kind := none
deriving Repr, Inhabited

/-- The result of a parse, without the text. -/
structure Output where
  children : List Tree
  errors : List Diagnostic
  checkpoints : List Checkpoint
deriving Repr, Inhabited

namespace Machine

/-! ## Tokens -/

/-- The token that is `n` tokens ahead. Behind the end of the text there is only that end. -/
def ahead (s : Setup) (m : Machine) (n : Nat) : Lookahead := m.input.getD n ⟨[], s.stop⟩

/-- The machine after a look at the first `n` tokens. -/
def look (m : Machine) (n : Nat) : Machine := { m with seen := max m.seen n }

/-- Line and column of the first token that is left. -/
def position (s : Setup) (m : Machine) : Position := (m.ahead s 0).first.position

/-- Drops the next token after its trees have been put somewhere. An unreadable token is reported
now. -/
def consume (s : Setup) (m : Machine) : Machine :=
  let token := (m.ahead s 0).token
  { m with
    input := m.input.tail
    seen := m.seen - 1
    errors := if token.kind = .unknown then m.errors.push (.unreadable token) else m.errors
    lastConsumed := some token.kind }

/-! ## The stack -/

/-- All frames, the top first. -/
def frames (m : Machine) : List Frame := m.top :: m.below

/-- The trees of the whole stack in order. -/
def stackTrees (m : Machine) : List Tree := (Frame.joined m.frames).reverse

/-- Puts a frame on top. -/
def push (m : Machine) (f : Frame) : Machine := { m with top := f, below := m.frames }

/-- Whether a tree is an extra token. -/
def isExtraTree (t : ParseTable) (tree : Tree) : Bool := tree.isToken && t.isExtra tree.kind

/-- A node over some trees. Extras in front stay outside, so that the node begins with a token that
the grammar knows. Both lists have the last tree first. -/
def wrap (t : ParseTable) (kind : Kind) (backward : List Tree) : List Tree :=
  let (leading, inside) := backward.reverse.span (isExtraTree t)
  .node kind inside :: leading.reverse

/-- Moves the next token to the stack. -/
def shift (s : Setup) (m : Machine) (state : Nat) : Machine :=
  let next := m.ahead s 0
  (m.consume s).push ⟨state, next.trees.reverse, next.token.stop⟩

/-- Replaces the frames of a production by one of its nonterminal. There is none if the stack is too
short or the table has no state for the nonterminal. -/
def reduce? (s : Setup) (m : Machine) (production : Nat) : Option Machine :=
  let r := s.table.production production
  match m.frames.drop r.length with
  | [] => none
  | base :: rest =>
    match s.table.goto? base.state r.lhs with
    | none => none
    | some state =>
      let popped := m.frames.take r.length
      let trees := Frame.joined popped
      let frame : Frame :=
        { state
          backward := match r.kind with
            | some k => wrap s.table k trees
            | none => trees
          stop := match popped with
            | [] => base.stop
            | f :: _ => f.stop }
      some { m with top := frame, below := base :: rest }

/-! ## Results -/

/-- The result with given trees below the root. -/
def output (m : Machine) (children : List Tree) : Output :=
  ⟨children, m.errors.toList, m.checkpoints.toList⟩

/-- The result of a complete parse. Extras in front of the end of the text come last. -/
def accept (s : Setup) (m : Machine) : Output :=
  m.output (m.stackTrees ++ (m.ahead s 0).triviaTrees)

/-- Forgets the checkpoints behind an offset. -/
def dropCheckpoints (m : Machine) (offset : Nat) : Machine :=
  { m with checkpoints := m.checkpoints.filter (·.offset ≤ offset) }

end Machine

end AsmTree
