import AsmTree.Grammar.Basic
import AsmTree.Table.Sparse

/-!
# Parse tables

A table tells a shift-reduce parser what to do in each state: which token to shift, by which
production to reduce, where to go then. It is plain data; `ParseTable.check` says whether every
number in it names something that exists.
-/

namespace AsmTree

/-- What an action does. -/
inductive Move where
  | error
  | accept
  | shift (state : Nat)
  | reduce (production : Nat)
deriving DecidableEq, Repr, Inhabited

/-- An action as one machine word. Zero is an error and one accepts; of any other word the upper
bits are a target, and the two lowest are 2 for a shift. -/
structure Action where
  code : UInt32
deriving DecidableEq, Repr, Inhabited

namespace Action

/-- No move. -/
def error : Action := ⟨0⟩

/-- The input is complete. -/
def accept : Action := ⟨1⟩

/-- Shift a token and go to a state. -/
def shift (state : Nat) : Action := ⟨state.toUInt32 <<< 2 ||| 2⟩

/-- Reduce by a production. -/
def reduce (production : Nat) : Action := ⟨production.toUInt32 <<< 2 ||| 3⟩

/-- What the action does. -/
def move (a : Action) : Move :=
  if a.code = 0 then .error
  else if a.code = 1 then .accept
  else if a.code &&& 3 = 2 then .shift (a.code >>> 2).toNat
  else .reduce (a.code >>> 2).toNat

/-- Whether the action is no move. -/
def isError (a : Action) : Bool := a.code == 0

end Action

/-- What a reduction pops and makes. -/
structure Reduction where
  /-- The nonterminal that is formed. -/
  lhs : Nat
  /-- Number of stack entries that it takes. -/
  length : Nat
  /-- The kind of node that it makes, if it is visible. -/
  kind : Option Kind
deriving DecidableEq, Repr, Inhabited

/-- The number of stack entries for the symbols of a production. It has sixteen bits and starts over
behind 65535. -/
def Reduction.lengthOf (rhs : List Symbol) : Nat := rhs.length % 65536

/-- The moves of a parser, for every state and token. -/
structure ParseTable where
  grammarVersion : Nat
  /-- Number of token columns. -/
  terminalCount : Nat
  /-- Number of nonterminal columns. -/
  nonterminalCount : Nat
  /-- The actions, state by state. -/
  actions : Array Action
  /-- The states that follow a formed nonterminal, state by state. -/
  gotos : SparseArray Nat
  /-- For each state the production it reduces by whatever comes next, if there is one. -/
  defaults : Array (Option Nat)
  productions : Array Reduction
  /-- For each state the innermost visible construct in the making. -/
  contexts : Array (Option Kind)
  /-- The state behind a complete line at top level. -/
  resumeState : Option Nat
  /-- Tokens that may stand anywhere. -/
  extras : List Kind
deriving DecidableEq, Repr, Inhabited

namespace ParseTable

/-- The state in which every parse begins. -/
def startState : Nat := 0

/-- Number of states. -/
def stateCount (t : ParseTable) : Nat := t.defaults.size

/-- Number of productions, with that of the whole input. -/
def productionCount (t : ParseTable) : Nat := t.productions.size

/-- The production by which a state reduces whatever comes next. -/
def default? (t : ParseTable) (state : Nat) : Option Nat := (t.defaults[state]?).join

/-- The number of a cell in rows of one width. It has thirty-two bits and starts over behind
4294967295. -/
def cellNumber (width row column : Nat) : Nat := (row * width + column) % 4294967296

/-- The action of a table cell. A state without a row and a kind without a column have none. -/
def explicitAction (t : ParseTable) (state : Nat) (k : Kind) : Action :=
  if state < t.stateCount ∧ k.index < t.terminalCount then
    t.actions.getD (cellNumber t.terminalCount state k.index) .error
  else .error

/-- The action in a state before a token: the default reduction first, then the cell. -/
def action (t : ParseTable) (state : Nat) (k : Kind) : Action :=
  match t.default? state with
  | some production => .reduce production
  | none => t.explicitAction state k

/-- The state behind a formed nonterminal. -/
def goto? (t : ParseTable) (state nonterminal : Nat) : Option Nat :=
  (t.gotos[cellNumber t.nonterminalCount state nonterminal]?).join

/-- The innermost visible construct in the making. -/
def context? (t : ParseTable) (state : Nat) : Option Kind := (t.contexts[state]?).join

/-- What a reduction pops and makes. -/
def production (t : ParseTable) (i : Nat) : Reduction := t.productions.getD i default

/-- Whether a kind may stand anywhere. -/
def isExtra (t : ParseTable) (k : Kind) : Bool := t.extras.contains k

/-- The tokens that a state has a move for. The terminal of recovered regions is no token of the
input and is left out. -/
def expected (t : ParseTable) (state : Nat) : List Kind :=
  (Kind.all.toList.take t.terminalCount).filter fun k =>
    k != .error && !(t.explicitAction state k).isError

end ParseTable

/-! ## Consistency -/

/-- What can be wrong with the numbers of a table. -/
inductive TableFault where
  | terminalColumns (found : Nat)
  | actionCount
  | gotoCount
  | contextCount
  | noStates
  | shiftTarget (state : Nat)
  | reduceTarget (production : Nat)
  | gotoTarget (state : Nat)
  | defaultTarget (production : Nat)
  | nonterminal (id : Nat)
  | nodeKind (kind : Kind)
  | resumeState
  | extraKind (kind : Kind)
deriving DecidableEq, Repr

/-- The wording of a fault. -/
def TableFault.message : TableFault → String
  | .terminalColumns n => s!"table has {n} terminal columns, expected {Kind.tokenCount}"
  | .actionCount => "action table has the wrong size"
  | .gotoCount => "goto table has the wrong size"
  | .contextCount => "state context table has the wrong size"
  | .noStates => "table has no states"
  | .shiftTarget s => s!"shift to unknown state {s}"
  | .reduceTarget p => s!"reduction by unknown production {p}"
  | .gotoTarget s => s!"goto to unknown state {s}"
  | .defaultTarget p => s!"default reduction by unknown production {p}"
  | .nonterminal id => s!"production for unknown nonterminal {id}"
  | .nodeKind k => s!"production builds non-node kind Some({k.name})"
  | .resumeState => "resume state out of range"
  | .extraKind k => s!"{k.name} cannot be an extra"

namespace ParseTable

/-- The fault of an action, if its target does not exist. -/
def actionFault? (states productions : Nat) (a : Action) : Option TableFault :=
  match a.move with
  | .shift s => if s < states then none else some (.shiftTarget s)
  | .reduce p => if p < productions then none else some (.reduceTarget p)
  | _ => none

/-- The fault of a production, if it forms what does not exist. -/
def productionFault? (nonterminals : Nat) (r : Reduction) : Option TableFault :=
  if nonterminals ≤ r.lhs then some (.nonterminal r.lhs)
  else match r.kind with
    | some k => if k.isNode then none else some (.nodeKind k)
    | none => none

/-- The fault of an extra, if the parser needs its kind for something else. -/
def extraFault? (k : Kind) : Option TableFault :=
  if !k.isToken || k == .newline || k == .eof || k == .error then some (.extraKind k) else none

/-- The first number at or above a bound. -/
def outside? (bound : Nat) (targets : List (Option Nat)) : Option Nat :=
  targets.findSome? fun
    | some n => if n < bound then none else some n
    | none => none

/-- The first fault of a table: sizes, then targets in the order of the fields. -/
def fault? (t : ParseTable) : Option TableFault :=
  let states := t.stateCount
  if t.terminalCount ≠ Kind.tokenCount then some (.terminalColumns t.terminalCount)
  else if t.actions.size ≠ states * t.terminalCount then some .actionCount
  else if t.gotos.size ≠ states * t.nonterminalCount then some .gotoCount
  else if t.contexts.size ≠ states then some .contextCount
  else if states = 0 then some .noStates
  else (t.actions.findSome? (actionFault? states t.productionCount)) <|>
    ((outside? states t.gotos.toList).map .gotoTarget) <|>
    ((outside? t.productionCount t.defaults.toList).map .defaultTarget) <|>
    (t.productions.findSome? (productionFault? t.nonterminalCount)) <|>
    (match t.resumeState with
      | some s => if s < states then none else some .resumeState
      | none => none) <|>
    (t.extras.findSome? extraFault?)

/-- Whether every number of the table names something that exists. -/
def check (t : ParseTable) : Bool := t.fault?.isNone

end ParseTable

end AsmTree
