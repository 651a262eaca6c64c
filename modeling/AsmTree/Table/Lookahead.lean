import AsmTree.Table.Automaton

/-!
# Lookaheads

With which tokens an item may be complete in a state. The items of a kernel hand their lookaheads
on to the items that begin a nonterminal in the state. Handing on a mark instead shows which
lookaheads arise in the state itself and which are those of the kernel item; where the mark comes
through, the items of two kernels are linked, and lookaheads move along the links until nothing
changes.
-/

namespace AsmTree

/-! ## Lookaheads within a state -/

/-- Items with their lookaheads, some of which have yet to be handed on. -/
structure Spread where
  sets : Std.HashMap Item BitSet := {}
  /-- The items that have lookaheads to hand on. -/
  work : List Item := []

namespace Spread

/-- Gives lookaheads to an item. One that is new, or gets more, has to hand them on. -/
def give (spread : Spread) (set : BitSet) (item : Item) : Spread :=
  match spread.sets[item]? with
  | some old =>
    if old ∪ set = old then spread
    else ⟨spread.sets.insert item (old ∪ set), item :: spread.work⟩
  | none => ⟨spread.sets.insert item set, item :: spread.work⟩

/-- Gives lookaheads to some items, one after the other. -/
def giveAll (spread : Spread) (gifts : List (Item × BitSet)) : Spread :=
  gifts.foldl (fun spread gift => spread.give gift.2 gift.1) spread

/-- The lookaheads of an item. -/
def lookaheads (spread : Spread) (item : Item) : BitSet := spread.sets.getD item ∅

/-- Tokens and the mark are numbered below this. -/
def width : Nat := 256

/-- What stands for the lookaheads of a kernel item. No token has this number. -/
def mark : Nat := 255

end Spread

namespace Analysis

/-- What can follow a nonterminal in an item: what the symbols behind it can begin with, and the
lookaheads of the item if they can be empty. -/
def followOf (an : Analysis) (rest : List Symbol) (own : BitSet) : BitSet :=
  let (first, empty) := an.firstOf rest
  if empty then first ∪ own else first

/-- Hands on the lookaheads of an item to the items that begin the nonterminal that it reads
next. -/
def handOn (an : Analysis) (item : Item) (spread : Spread) : Spread :=
  match an.remaining item with
  | .nonterminal id :: rest =>
    let follow := an.followOf rest (spread.lookaheads item)
    spread.giveAll ((an.augmented.productionsOf id).map fun p => (⟨p, 0⟩, follow))
  | _ => spread

/-- Hands lookaheads on until no item has any to hand on, `fuel` times at most. -/
def spreadFrom (an : Analysis) : Nat → Spread → Spread
  | 0, spread => spread
  | fuel + 1, spread =>
    match spread.work with
    | [] => spread
    | item :: work => an.spreadFrom fuel (an.handOn item { spread with work })

/-- The items of a state with their lookaheads, given those of its kernel. An item has to hand on
its lookaheads when it is new and when it gets more. -/
def spread (an : Analysis) (seeds : List (Item × BitSet)) : Spread :=
  let fuel := seeds.length + an.augmented.productions.size * (Spread.width + 1)
  an.spreadFrom fuel (Spread.giveAll {} seeds)

end Analysis

/-! ## Lookaheads of all states -/

/-- Numbers for the items of all kernels. -/
structure KernelPlan where
  /-- For each state the number of its first kernel item. -/
  bases : Array Nat
  /-- Number of kernel items of all states. -/
  size : Nat
deriving Repr, Inhabited

namespace KernelPlan

/-- Numbers the items in the order of states. -/
def ofKernels (kernels : Array Kernel) : KernelPlan :=
  let (bases, total) := kernels.foldl (fun (bases, n) kernel => (bases.push n, n + kernel.length))
    ((#[] : Array Nat), 0)
  ⟨bases, total⟩

/-- The number of the item at a place in the kernel of a state. -/
def number (plan : KernelPlan) (state i : Nat) : Nat := plan.bases.getD state 0 + i

end KernelPlan

/-- The analysis of a grammar with its automaton. -/
structure Construction where
  analysis : Analysis
  automaton : Automaton
  plan : KernelPlan

namespace Construction

/-- Analyses a grammar and builds its automaton. -/
def ofGrammar (g : Grammar) : Construction :=
  let an := Analysis.ofGrammar g
  let m := Automaton.ofAnalysis an
  ⟨an, m, .ofKernels m.kernels⟩

/-- The state behind a symbol, and the place in its kernel of an item. -/
def slot? (c : Construction) (state : Nat) (s : Symbol) (item : Item) : Option (Nat × Nat) := do
  let target ← c.automaton.next? state s
  let i ← (c.automaton.kernel target).findIdx? (· == item)
  return (target, i)

/-- The number of the kernel item that an item of a state becomes when its next symbol is read. -/
def goal? (c : Construction) (state : Nat) (item : Item) : Option Nat := do
  let s ← (c.analysis.remaining item).head?
  let (target, i) ← c.slot? state s item.advance
  return c.plan.number target i

/-- Passes on the lookaheads of an item of a state to where its next symbol has been read. The mark
stands for those of the kernel item `source`. -/
def passOn (c : Construction) (state source : Nat) (item : Item) (set : BitSet)
    (sys : Inclusions) : Inclusions :=
  match c.goal? state item with
  | none => sys
  | some goal =>
    let sys := sys.bound goal (set.below Spread.mark)
    if set.contains Spread.mark then sys.link source goal else sys

/-- What comes of the lookaheads of one kernel item of a state. -/
def itemInclusions (c : Construction) (state i : Nat) (item : Item) (sys : Inclusions) :
    Inclusions :=
  (c.analysis.spread [(item, .singleton Spread.mark)]).sets.toList.foldl
    (fun sys (closed, set) => c.passOn state (c.plan.number state i) closed set sys) sys

/-- All inclusions between the lookaheads of kernel items. The whole input is followed by its
end. -/
def inclusions (c : Construction) : Inclusions :=
  (List.range c.automaton.size).foldl (fun sys state =>
    (c.automaton.kernel state).zipIdx.foldl (fun sys (item, i) =>
      c.itemInclusions state i item sys) sys)
    ((Inclusions.ofSize c.plan.size).bound (c.plan.number 0 0) (.singleton Kind.eof.index))

/-- The lookaheads of the kernel items, by the numbers of the plan. -/
def lookaheads (c : Construction) : Array BitSet := c.inclusions.solve

/-- All items of a state with their lookaheads, given those of kernel items. -/
def spreadOf (c : Construction) (lookaheads : Array BitSet) (state : Nat) : Spread :=
  c.analysis.spread ((c.automaton.kernel state).zipIdx.map fun (item, i) =>
    (item, lookaheads.getD (c.plan.number state i) ∅))

/-- The complete items of a state: those of the kernel, and the empty productions of nonterminals
that may begin there. -/
def completed (c : Construction) (state : Nat) : List Item :=
  (c.analysis.closure (c.automaton.kernel state)).filter fun item =>
    (c.analysis.remaining item).isEmpty

end Construction

end AsmTree
