import AsmTree.Kind

/-!
# Grammars

A grammar in flat form: numbered nonterminals, productions over symbols, precedence of tokens, and
the tokens (extras) that may stand anywhere. A visible nonterminal has a kind and makes a node of
it; the children of a hidden one join those of its parent.
-/

namespace AsmTree

/-- How operators of one precedence level group. -/
inductive Assoc where
  | left | right | nonAssoc
deriving DecidableEq, Repr, Inhabited

/-- A terminal or a numbered nonterminal. -/
inductive Symbol where
  | terminal (kind : Kind)
  | nonterminal (id : Nat)
deriving DecidableEq, Repr, Inhabited

namespace Symbol

/-- Terminals come before nonterminals; each sort is ordered by number. -/
def ble : Symbol → Symbol → Bool
  | .terminal a, .terminal b => a.index ≤ b.index
  | .terminal _, .nonterminal _ => true
  | .nonterminal _, .terminal _ => false
  | .nonterminal a, .nonterminal b => a ≤ b

end Symbol

/-- One way to form a nonterminal. -/
structure Production where
  /-- The nonterminal that is formed. -/
  lhs : Nat
  /-- The symbols that form it. -/
  rhs : List Symbol
  /-- A precedence level of its own. Without one the last terminal that has a level decides. -/
  level : Option UInt8
deriving DecidableEq, Repr, Inhabited

/-- A named nonterminal. -/
structure Nonterminal where
  name : String
  /-- The kind of node it makes, if it is visible. -/
  kind : Option Kind
deriving DecidableEq, Repr, Inhabited

/-- The number of the nonterminal at a place among all of them. Numbers have sixteen bits and start
over behind 65535. -/
def Nonterminal.numberAt (place : Nat) : Nat := place % 65536

/-- A precedence level: its tokens and how they group. Later levels bind tighter. -/
structure Level where
  assoc : Assoc
  tokens : List Kind
deriving DecidableEq, Repr, Inhabited

/-- A grammar in flat form. -/
structure Grammar where
  name : String
  nonterminals : Array Nonterminal
  productions : Array Production
  /-- The nonterminal of a whole input. -/
  start : Nat
  /-- The nonterminal behind which a parse can be taken up again. -/
  resumePoint : Option Nat
  /-- Tokens that may stand anywhere. -/
  extras : List Kind
  /-- Precedence levels from the loosest, which is level 1. The number of a level is a byte, so the
  numbers start over behind 255. -/
  levels : List Level
deriving DecidableEq, Repr, Inhabited

namespace Grammar

/-- The version of the language that tables and trees are made for. -/
def version : Nat := 1

/-- Level and grouping of a token. A token named in several levels has the last. -/
def tokenPrecedence? (g : Grammar) (k : Kind) : Option (UInt8 × Assoc) :=
  (g.levels.zipIdx 1).foldl
    (fun found (level, n) =>
      if level.tokens.contains k then some (UInt8.ofNat n, level.assoc) else found) none

/-- How each level groups. Level 0, below all others, does not group. -/
def levelAssoc (g : Grammar) : List Assoc := .nonAssoc :: g.levels.map Level.assoc

/-- The kind of node that a nonterminal makes, if any. -/
def kindOf? (g : Grammar) (id : Nat) : Option Kind := g.nonterminals[id]?.bind Nonterminal.kind

/-- The name of a nonterminal. -/
def nonterminalName (g : Grammar) (id : Nat) : String :=
  (g.nonterminals[id]?.map Nonterminal.name).getD ""

/-- The number of the nonterminal with a given name. -/
def nonterminal? (g : Grammar) (name : String) : Option Nat :=
  (g.nonterminals.findIdx? (·.name == name)).map Nonterminal.numberAt

/-- The name of a symbol. -/
def symbolName (g : Grammar) : Symbol → String
  | .terminal k => k.name
  | .nonterminal id => g.nonterminalName id

/-- A production in the form `lhs → a b c`. -/
def describe (g : Grammar) (p : Production) : String :=
  g.nonterminalName p.lhs ++ " →" ++
    match p.rhs with
    | [] => " ε"
    | rhs => String.join (rhs.map fun s => " " ++ g.symbolName s)

/-- The level of a production: its own, or else that of its last terminal that has one. -/
def productionLevel? (g : Grammar) (p : Production) : Option UInt8 :=
  p.level.or (p.rhs.reverse.findSome? fun
    | .terminal k => (g.tokenPrecedence? k).map Prod.fst
    | .nonterminal _ => none)

end Grammar

/-! ## Errors -/

/-- Two moves of a parser that no precedence decides between. -/
inductive Conflict where
  | shiftReduce (state : Nat) (terminal : Kind) (production : String)
  | reduceReduce (state : Nat) (terminal : Kind) (first second : String)
  | acceptReduce (state : Nat) (terminal : Kind) (production : String)
deriving DecidableEq, Repr

/-- The wording of a conflict. -/
def Conflict.message : Conflict → String
  | .shiftReduce s t p => s!"state {s}: shift/reduce on {t.name} against `{p}`"
  | .reduceReduce s t p q => s!"state {s}: reduce/reduce on {t.name} between `{p}` and `{q}`"
  | .acceptReduce s t p => s!"state {s}: accept/reduce on {t.name} against `{p}`"

/-- Why rules do not form a grammar, or a grammar has no parse table. -/
inductive GrammarError where
  | undefinedRule (name : String)
  | duplicateRule (name : String)
  | noStart
  | invalidTerminal (kind : Kind)
  | conflicts (found : List Conflict)
  /-- Not refused but broken off: a nonterminal has no row in what the construction works with. -/
  | outOfBounds (rows index : Nat)
deriving DecidableEq, Repr

/-- The wording of a grammar error. -/
def GrammarError.message : GrammarError → String
  | .undefinedRule name => s!"rule `{name}` is referenced but never defined"
  | .duplicateRule name => s!"rule `{name}` is defined twice"
  | .noStart => "grammar has no start rule"
  | .invalidTerminal k => s!"token {k.name} cannot be used as a terminal"
  | .conflicts found =>
    s!"grammar has {found.length} unresolved conflicts:\n" ++
      "\n".intercalate (found.map Conflict.message)
  | .outOfBounds rows index =>
    s!"index out of bounds: the len is {rows} but the index is {index}"

end AsmTree
