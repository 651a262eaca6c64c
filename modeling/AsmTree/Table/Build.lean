import AsmTree.Table.Basic
import AsmTree.Table.Lookahead

/-!
# Building parse tables

A cell of the table starts with the shift of its token, if the state has one. Each complete
production whose lookaheads contain the token then asks for the cell, in order. Precedence decides
between a shift and a reduction; a shift of a recovered region always wins; what nothing decides is
a conflict, and a grammar with conflicts has no table. Neither has one with a nonterminal for which
there is no row.
-/

namespace AsmTree

/-- How a shift and a reduction for one cell are settled. -/
inductive Resolution where
  | shift
  | reduce
  /-- Neither: the operator does not group with itself. -/
  | error
  | conflict
deriving DecidableEq, Repr

/-- Settles a shift of a token against a production of some level. -/
def resolve (g : Grammar) (k : Kind) (level : Option UInt8) : Resolution :=
  if k = .error then .shift
  else match level, g.tokenPrecedence? k with
    | some rule, some (token, assoc) =>
      if rule < token then .shift
      else if token < rule then .reduce
      else match assoc with
        | .left => .reduce
        | .right => .shift
        | .nonAssoc => .error
    | _, _ => .conflict

/-- A cell of the table in the making. -/
structure Cell where
  action : Action
  /-- Whether the cell has been settled as an error. -/
  barred : Bool := false
  /-- Conflicts found, each with the production that raised it. -/
  conflicts : List (Nat × Conflict) := []
deriving Repr, Inhabited

/-- A complete production of a state with its lookaheads. -/
structure Completed where
  production : Nat
  level : Option UInt8
  lookaheads : BitSet
deriving Repr, Inhabited

namespace Construction

/-- The action of a complete production. That of the whole input accepts. -/
def reduceAction (c : Construction) (production : Nat) : Action :=
  if production = c.analysis.augmented.acceptProduction then .accept else .reduce production

/-- Lets one complete production ask for a cell. -/
def fill (c : Construction) (state : Nat) (k : Kind) (cell : Cell) (p : Completed) : Cell :=
  let text := c.analysis.augmented.describe
  let raise (conflict : Conflict) : Cell :=
    { cell with conflicts := cell.conflicts ++ [(p.production, conflict)] }
  if cell.barred then cell
  else match cell.action.move with
    | .error => { cell with action := c.reduceAction p.production }
    | .shift _ =>
      match resolve c.analysis.augmented.grammar k p.level with
      | .shift => cell
      | .reduce => { cell with action := c.reduceAction p.production }
      | .error => { cell with action := .error, barred := true }
      | .conflict => raise (.shiftReduce state k (text p.production))
    | .reduce other =>
      if other = p.production then cell
      else raise (.reduceReduce state k (text other) (text p.production))
    | .accept => raise (.acceptReduce state k (text p.production))

/-- The cell of a state and a token. -/
def cell (c : Construction) (state : Nat) (completed : List Completed) (k : Kind) : Cell :=
  let start : Cell := match c.automaton.next? state (.terminal k) with
    | some target => { action := .shift target }
    | none => { action := .error }
  completed.foldl (fun cell p =>
    if p.lookaheads.contains k.index then c.fill state k cell p else cell) start

/-- The complete productions of a state in order. -/
def completedOf (c : Construction) (lookaheads : Array BitSet) (state : Nat) : List Completed :=
  let spread := c.spreadOf lookaheads state
  let items := (c.completed state).map fun item : Item =>
    let production := c.analysis.augmented.grammar.productions[item.production]?
    { production := item.production
      level := production.bind c.analysis.augmented.grammar.productionLevel?
      lookaheads := spread.lookaheads item : Completed }
  items.mergeSort fun a b => a.production ≤ b.production

/-- The cells of a state, token by token. -/
def row (c : Construction) (lookaheads : Array BitSet) (state : Nat) : List Cell :=
  let completed := c.completedOf lookaheads state
  Kind.tokens.map (c.cell state completed)

/-- The conflicts of a row: by production, then by token. -/
def rowConflicts (row : List Cell) : List Conflict :=
  ((row.flatMap Cell.conflicts).mergeSort fun a b => a.1 ≤ b.1).map Prod.snd

/-- The production that a row reduces by whatever comes next: the only move that it has. -/
def defaultOf? (row : List Action) : Option Nat :=
  match row.filter (!·.isError) with
  | [] => none
  | first :: rest =>
    match first.move with
    | .reduce production => if rest.all (· == first) then some production else none
    | _ => none

/-- The innermost visible construct in the making: that of the first kernel item with something
read whose nonterminal is visible. -/
def contextOf? (c : Construction) (state : Nat) : Option Kind :=
  (c.automaton.kernel state).findSome? fun item =>
    if 0 < item.dot then
      c.analysis.augmented.grammar.kindOf? (c.analysis.augmented.lhs item.production)
    else none

/-- The states behind nonterminals, each with the number of its cell. -/
def gotoEntries (c : Construction) (state : Nat) : List (Nat × Nat) :=
  (c.automaton.movesOf state).filterMap fun (s, target) =>
    match s with
    | .terminal _ => none
    | .nonterminal id => some (state * c.analysis.augmented.nonterminalCount + id, target)

/-- The table that the cells form. -/
def toTable (c : Construction) (rows : List (List Cell)) : ParseTable :=
  let g := c.analysis.augmented.grammar
  let states := List.range c.automaton.size
  { grammarVersion := Grammar.version
    terminalCount := Kind.tokenCount
    nonterminalCount := c.analysis.augmented.nonterminalCount
    actions := (rows.flatMap fun row => row.map Cell.action).toArray
    gotos := .ofEntries (c.automaton.size * c.analysis.augmented.nonterminalCount)
      (states.flatMap c.gotoEntries)
    defaults := (rows.map fun row => defaultOf? (row.map Cell.action)).toArray
    productions := c.analysis.augmented.productions.map fun p =>
      { lhs := p.lhs, length := Reduction.lengthOf p.rhs, kind := g.kindOf? p.lhs }
    contexts := (states.map c.contextOf?).toArray
    resumeState := g.resumePoint.bind fun id => c.automaton.next? 0 (.nonterminal id)
    extras := g.extras }

/-- The first nonterminal without a row that the construction meets: before there are states, or
else as what the first state that reads it reads next. -/
def missingRow? (c : Construction) : Option Nat :=
  c.analysis.augmented.missingRow? <|>
    c.automaton.kernels.findSome? fun kernel => kernel.findSome? fun item =>
      (c.analysis.remaining item).head?.bind c.analysis.augmented.withoutRow?

/-- The table of the construction, or its conflicts in the order of states. -/
def table (c : Construction) : Except GrammarError ParseTable :=
  match c.missingRow? with
  | some id => .error (.outOfBounds c.analysis.augmented.nonterminalCount id)
  | none =>
    let lookaheads := c.lookaheads
    let rows := (List.range c.automaton.size).map (c.row lookaheads)
    match rows.flatMap rowConflicts with
    | [] => .ok (c.toTable rows)
    | found => .error (.conflicts found)

end Construction

/-- The parse table of a grammar. -/
def ParseTable.build (g : Grammar) : Except GrammarError ParseTable :=
  (Construction.ofGrammar g).table

end AsmTree
