import AsmTree.Table.First
import Std.Data.HashMap

/-!
# The automaton of a grammar

States are sets of items: productions with a dot that says how much of them has been read. Each
state is given by its kernel, the items with something read; the other items begin a nonterminal
at the left edge of what may come next. States are numbered in the order in which they are reached
from the start, each state's moves taken in the order of their symbols.
-/

namespace AsmTree

/-- A production and how many of its symbols have been read. -/
structure Item where
  production : Nat
  dot : Nat
deriving DecidableEq, Repr, Inhabited, Hashable

namespace Item

/-- The item with one more symbol read. -/
def advance (i : Item) : Item := ⟨i.production, i.dot + 1⟩

/-- Items are ordered by production, then by dot. -/
def ble (i j : Item) : Bool :=
  i.production < j.production || (i.production == j.production && i.dot ≤ j.dot)

end Item

/-- The core of a state: its items that do not begin a nonterminal, in order. -/
abbrev Kernel := List Item

namespace Analysis

/-- The symbols of an item that are still to be read. -/
def remaining (an : Analysis) (i : Item) : List Symbol :=
  ((an.augmented.endings[i.production]?).bind (·[i.dot]?)).getD []

/-- The nonterminals that may begin where the items of a kernel stand. -/
def openNonterminals (an : Analysis) (kernel : Kernel) : List Nat :=
  let set := kernel.foldl (fun set item =>
    match an.remaining item with
    | .nonterminal id :: _ => set ∪ an.leftEdge.getD id ∅
    | _ => set) (∅ : BitSet)
  set.members an.augmented.nonterminalCount

/-- The items that begin a nonterminal. -/
def initialItems (an : Analysis) (nonterminals : List Nat) : List Item :=
  nonterminals.flatMap fun id => (an.augmented.productionsOf id).map fun p => ⟨p, 0⟩

/-- All items of the state of a kernel. -/
def closure (an : Analysis) (kernel : Kernel) : List Item :=
  kernel ++ an.initialItems (an.openNonterminals kernel)

/-- What can be read next, each symbol with the item behind it. -/
def steps (an : Analysis) (items : List Item) : List (Symbol × Item) :=
  items.filterMap fun item => (an.remaining item).head?.map fun s => (s, item.advance)

/-- Splits sorted steps by their symbol and drops repeated items. -/
def group : List (Symbol × Item) → List (Symbol × Kernel)
  | [] => []
  | (s, item) :: rest =>
    match group rest with
    | (s', items) :: groups =>
      if s = s' then
        if items.head? = some item then (s', items) :: groups
        else (s, item :: items) :: groups
      else (s, [item]) :: (s', items) :: groups
    | [] => [(s, [item])]

/-- Steps are ordered by symbol, then by item. -/
def stepBle (a b : Symbol × Item) : Bool :=
  if a.1 = b.1 then a.2.ble b.2 else a.1.ble b.1

/-- The kernels that a state moves to, in the order of symbols. -/
def successors (an : Analysis) (kernel : Kernel) : List (Symbol × Kernel) :=
  group ((an.steps (an.closure kernel)).mergeSort stepBle)

end Analysis

/-- The states of a grammar and the moves between them. -/
structure Automaton where
  kernels : Array Kernel := #[]
  /-- The number of each kernel. -/
  numbers : Std.HashMap Kernel Nat := {}
  /-- For each state that has been left, its moves in the order of symbols. -/
  moves : Array (List (Symbol × Nat)) := #[]

namespace Automaton

/-- The number of a kernel. A new kernel gets the next one. -/
def number (m : Automaton) (kernel : Kernel) : Nat × Automaton :=
  match m.numbers[kernel]? with
  | some n => (n, m)
  | none =>
    let n := m.kernels.size
    (n, { m with kernels := m.kernels.push kernel, numbers := m.numbers.insert kernel n })

/-- Numbers the kernels that a state moves to. -/
def numberAll (m : Automaton) : List (Symbol × Kernel) → List (Symbol × Nat) × Automaton
  | [] => ([], m)
  | (s, kernel) :: rest =>
    let (n, m) := m.number kernel
    let (targets, m) := m.numberAll rest
    ((s, n) :: targets, m)

/-- Leaves the first state that has not been left. -/
def leaveNext (an : Analysis) (m : Automaton) : Automaton :=
  match m.kernels[m.moves.size]? with
  | none => m
  | some kernel =>
    let (targets, m) := m.numberAll (an.successors kernel)
    { m with moves := m.moves.push targets }

/-- Leaves states until all have been left, `fuel` of them at most. -/
def explore (an : Analysis) : Nat → Automaton → Automaton
  | 0, m => m
  | fuel + 1, m =>
    if m.moves.size < m.kernels.size then explore an fuel (m.leaveNext an) else m

/-- Number of items of a grammar. -/
def itemCount (an : Analysis) : Nat :=
  an.augmented.productions.foldl (fun n p => n + p.rhs.length + 1) 0

/-- The automaton of a grammar. A kernel is a set of items, so there are no more states than such
sets. -/
def ofAnalysis (an : Analysis) : Automaton :=
  let (_, m) := Automaton.number {} [⟨an.augmented.acceptProduction, 0⟩]
  explore an (Nat.pow 2 (itemCount an)) m

/-- Number of states. -/
def size (m : Automaton) : Nat := m.kernels.size

/-- The kernel of a state. -/
def kernel (m : Automaton) (state : Nat) : Kernel := m.kernels.getD state []

/-- The moves of a state in the order of symbols. -/
def movesOf (m : Automaton) (state : Nat) : List (Symbol × Nat) := m.moves.getD state []

/-- The state behind a symbol. -/
def next? (m : Automaton) (state : Nat) (s : Symbol) : Option Nat := (m.movesOf state).lookup s

end Automaton

end AsmTree
