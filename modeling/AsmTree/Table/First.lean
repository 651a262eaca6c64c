import AsmTree.Grammar.Basic
import AsmTree.Table.BitSet

/-!
# Nullable nonterminals and first sets

The grammar with one more production, that of the whole input. For each nonterminal: can it be
empty, which tokens can it begin with, and which nonterminals can stand at its left edge. The last
two are least solutions of inclusions between sets.
-/

namespace AsmTree

/-- All ends of a list, the longest first. -/
def suffixes {α : Type} : List α → List (List α)
  | [] => [[]]
  | x :: xs => (x :: xs) :: suffixes xs

/-- A grammar with the production of the whole input, `S' → start`, as its last one. -/
structure Augmented where
  grammar : Grammar
  /-- The productions, that of the whole input last. -/
  productions : Array Production
  /-- For each production what is left of its symbols behind each of them. -/
  endings : Array (Array (List Symbol))
  /-- For each nonterminal the numbers of its productions. -/
  byLhs : Array (List Nat)
deriving Repr, Inhabited

namespace Augmented

/-- Adds the production of the whole input. Its nonterminal takes the number behind those of the
grammar, which is that of another one where the numbers have started over. -/
def ofGrammar (g : Grammar) : Augmented :=
  let whole := Nonterminal.numberAt g.nonterminals.size
  let productions := g.productions.push ⟨whole, [.nonterminal g.start], none⟩
  let byLhs := productions.toList.zipIdx.foldr (fun (p, i) rows => rows.modify p.lhs (i :: ·))
    (Array.replicate (whole + 1) [])
  ⟨g, productions, productions.map fun p => (suffixes p.rhs).toArray, byLhs⟩

/-- The production of the whole input. -/
def acceptProduction (a : Augmented) : Nat := a.grammar.productions.size

/-- Number of nonterminals up to that of the whole input. -/
def nonterminalCount (a : Augmented) : Nat :=
  Nonterminal.numberAt a.grammar.nonterminals.size + 1

/-- The symbols of a production. -/
def rhs (a : Augmented) (p : Nat) : List Symbol := (a.productions[p]?.map Production.rhs).getD []

/-- The nonterminal of a production. -/
def lhs (a : Augmented) (p : Nat) : Nat := (a.productions[p]?.map Production.lhs).getD 0

/-- The productions of a nonterminal. -/
def productionsOf (a : Augmented) (id : Nat) : List Nat := a.byLhs.getD id []

/-- A production in words. -/
def describe (a : Augmented) (p : Nat) : String :=
  match a.grammar.productions[p]? with
  | some production => a.grammar.describe production
  | none => "S' → start"

end Augmented

/-! ## Nullable nonterminals -/

namespace Augmented

/-- Whether a symbol can be empty, given the nonterminals that are known to be. -/
def symbolNullable (nullable : BitSet) : Symbol → Bool
  | .terminal _ => false
  | .nonterminal id => nullable.contains id

/-- Adds the nonterminals that some production makes empty. -/
def nullableStep (a : Augmented) (nullable : BitSet) : BitSet :=
  a.productions.foldl (fun found p =>
    if p.rhs.all (symbolNullable found) then found ∪ .singleton p.lhs else found) nullable

/-- Repeats the step until nothing changes, `fuel` times at most. -/
def nullableFrom (a : Augmented) : Nat → BitSet → BitSet
  | 0, nullable => nullable
  | fuel + 1, nullable =>
    let next := a.nullableStep nullable
    if next = nullable then nullable else a.nullableFrom fuel next

/-- The nonterminals that can be empty. Each step but the last adds one. -/
def nullable (a : Augmented) : BitSet := a.nullableFrom (a.nonterminalCount + 1) ∅

/-! ## Left edges -/

/-- The symbols that can come first in a string of symbols, as far as all before them can be
empty. -/
def leading (nullable : BitSet) : List Symbol → List Symbol
  | [] => []
  | s :: rest => if symbolNullable nullable s then s :: leading nullable rest else [s]

/-! ## Nonterminals without a row

There are rows up to the nonterminal of the whole input. Where its number has started over, a
nonterminal of the grammar may be without one, and the construction breaks off where it meets it. -/

/-- The number of a symbol, if it is a nonterminal without a row. -/
def withoutRow? (a : Augmented) : Symbol → Option Nat
  | .terminal _ => none
  | .nonterminal id => if id < a.nonterminalCount then none else some id

/-- The first nonterminal without a row that productions are found to begin with, where each tells
those behind it whether its nonterminal can be empty. -/
def missingIn? (a : Augmented) (nullable : BitSet) : List Production → Option Nat
  | [] => none
  | p :: ps =>
    (leading nullable p.rhs).findSome? a.withoutRow? <|>
      a.missingIn?
        (if p.rhs.all (symbolNullable nullable) then nullable ∪ .singleton p.lhs else nullable) ps

/-- The same over rounds that are repeated until nothing changes, `fuel` of them at most. -/
def missingFrom? (a : Augmented) : Nat → BitSet → Option Nat
  | 0, _ => none
  | fuel + 1, nullable =>
    a.missingIn? nullable a.productions.toList <|>
      let next := a.nullableStep nullable
      if next = nullable then none else a.missingFrom? fuel next

/-- The first nonterminal without a row that is met before there are states: one that a production
forms, or else one that a production begins with. -/
def missingRow? (a : Augmented) : Option Nat :=
  (a.productions.findSome? fun p => a.withoutRow? (.nonterminal p.lhs)) <|>
    a.missingFrom? (a.nonterminalCount + 1) ∅

/-! ## Inclusions -/

/-- Inclusions for the tokens that each nonterminal can begin with. -/
def firstInclusions (a : Augmented) (nullable : BitSet) : Inclusions :=
  a.productions.foldl (fun sys p =>
    (leading nullable p.rhs).foldl (fun sys s =>
      match s with
      | .terminal k => sys.bound p.lhs (.singleton k.index)
      | .nonterminal id => sys.link id p.lhs) sys)
    (.ofSize a.nonterminalCount)

/-- Inclusions for the nonterminals that can stand at the left edge of each nonterminal. -/
def edgeInclusions (a : Augmented) : Inclusions :=
  let own := (List.range a.nonterminalCount).foldl (fun sys id => sys.bound id (.singleton id))
    (Inclusions.ofSize a.nonterminalCount)
  a.productions.foldl (fun sys p =>
    match p.rhs with
    | .nonterminal id :: _ => sys.link id p.lhs
    | _ => sys) own

end Augmented

/-- What table construction needs to know of a grammar. -/
structure Analysis where
  augmented : Augmented
  /-- Nonterminals that can be empty. -/
  nullable : BitSet
  /-- For each nonterminal the tokens that it can begin with. -/
  first : Array BitSet
  /-- For each nonterminal those at its left edge, itself among them. -/
  leftEdge : Array BitSet
deriving Repr, Inhabited

namespace Analysis

/-- Analyses a grammar. -/
def ofGrammar (g : Grammar) : Analysis :=
  let a := Augmented.ofGrammar g
  let nullable := a.nullable
  ⟨a, nullable, (a.firstInclusions nullable).solve, a.edgeInclusions.solve⟩

/-- Tokens that a string of symbols can begin with, and whether it can be empty. -/
def firstOf (an : Analysis) : List Symbol → BitSet × Bool
  | [] => (∅, true)
  | .terminal k :: _ => (.singleton k.index, false)
  | .nonterminal id :: rest =>
    let own := an.first.getD id ∅
    if an.nullable.contains id then
      let (more, empty) := an.firstOf rest
      (own ∪ more, empty)
    else (own, false)

end Analysis

end AsmTree
