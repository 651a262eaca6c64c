import AsmTree.Proofs.Grammar.Readers
import AsmTree.View.Basic

/-!
# Rows of children

What stands below a node is a row: a first line, then lines, then clauses, each of which may be
missing. A `Stage` says how far along a row one is, and `HasRows` says that the productions of a
grammar make such rows only: labels and statements stand among lines, clauses behind lines, all
other nodes on first lines. It can be computed.

**Main statement (`Derivation.row`):** every node of a derivation has such a row below it.
-/

namespace AsmTree

namespace Kind

def isClause (k : Kind) : Bool := k == .elifClause || k == .elseClause

def isListed (k : Kind) : Bool := k == .label || k.isStatement

end Kind

/-- How far along a row of children one is. -/
inductive Stage where
  /-- On the first line, which has no labels and statements. -/
  | header
  /-- Among lines. -/
  | lines
  /-- Behind a clause that others may follow. -/
  | clauses
  /-- Behind the last clause. -/
  | last
deriving DecidableEq, Repr

namespace Stage

def token (stage : Stage) (k : Kind) : Stage :=
  if stage = .header ∧ k = .newline then .lines else stage

/-- The stage behind a node, if one may stand there. -/
def node? (stage : Stage) (k : Kind) : Option Stage :=
  if k = .elifClause then if stage = .lines ∨ stage = .clauses then some .clauses else none
  else if k = .elseClause then if stage = .lines ∨ stage = .clauses then some .last else none
  else if k.isListed then if stage = .lines then some .lines else none
  else if stage = .header ∧ k ≠ .newline then some .header else none

/-- Whether a row below a node may end at the stage. -/
def closes (stage : Stage) (k : Kind) : Bool :=
  if k = .ifBlock then stage != .header
  else if k.isBlockItem || k.isClause then stage == .lines
  else stage == .header

def shape? (stage : Stage) : Shape → Option Stage
  | .leaf k => some (stage.token k)
  | .node k _ => stage.node? k

end Stage

/-! ## Rows below shapes -/

namespace Shape

mutual

/-- Every node of the shape has a row below it. -/
def Rowed : Shape → Prop
  | leaf _ => True
  | node k cs =>
    (∃ stage, cs.foldlM Stage.shape? .header = some stage ∧ stage.closes k = true) ∧ RowedAll cs

def RowedAll : List Shape → Prop
  | [] => True
  | x :: xs => Rowed x ∧ RowedAll xs

end

theorem rowedAll_append {xs ys : List Shape} : RowedAll (xs ++ ys) ↔ RowedAll xs ∧ RowedAll ys := by
  induction xs with
  | nil => simp [RowedAll]
  | cons x xs ih => simp [RowedAll, ih, and_assoc]

end Shape

/-! ## Grammars of rows -/

namespace Grammar

variable {g : Grammar} {within : Nat → Stage → Option Stage} {s : Symbol} {ss : List Symbol}

/-- The stage behind a symbol. What a hidden nonterminal does is given by `within`. -/
def stage? (g : Grammar) (within : Nat → Stage → Option Stage) (stage : Stage) :
    Symbol → Option Stage
  | .terminal k => some (stage.token k)
  | .nonterminal id =>
    match g.kindOf? id with
    | some k => stage.node? k
    | none => within id stage

/-- Every production makes a row. -/
structure HasRows (g : Grammar) (within : Nat → Stage → Option Stage) : Prop where
  visible : ∀ p ∈ g.productions, ∀ k, g.kindOf? p.lhs = some k →
    ∃ stage, p.rhs.foldlM (g.stage? within) .header = some stage ∧ stage.closes k = true
  hidden : ∀ p ∈ g.productions, g.kindOf? p.lhs = none → ∀ stage stage',
    within p.lhs stage = some stage' → p.rhs.foldlM (g.stage? within) stage = some stage'
  start : g.kindOf? g.start = none ∧ within g.start .lines = some .lines

/-- Whether every production makes a row. -/
def hasRows (g : Grammar) (within : Nat → Stage → Option Stage) : Bool :=
  (g.productions.toList.all fun p =>
    match g.kindOf? p.lhs with
    | some k => (p.rhs.foldlM (g.stage? within) .header).any (·.closes k)
    | none => [Stage.header, .lines, .clauses, .last].all fun stage =>
      (within p.lhs stage).all fun stage' => p.rhs.foldlM (g.stage? within) stage == some stage') &&
    (g.kindOf? g.start).isNone && within g.start .lines == some .lines

theorem hasRows_of_check (h : g.hasRows within = true) : g.HasRows within := by
  simp only [hasRows, Bool.and_eq_true, List.all_eq_true, Array.mem_toList_iff, beq_iff_eq,
    Option.isNone_iff_eq_none] at h
  obtain ⟨⟨hall, hstart⟩, hlines⟩ := h
  constructor
  case visible =>
    intro p hp k hk
    have hcase := hall p hp
    rw [hk] at hcase
    exact (Option.any_eq_true _ _).1 hcase
  case hidden =>
    intro p hp hk stage stage' hwithin
    have hcase := hall p hp
    rw [hk] at hcase
    have hstage := List.all_eq_true.1 hcase stage (by cases stage <;> simp)
    rw [hwithin] at hstage
    exact eq_of_beq hstage
  case start => exact ⟨hstart, hlines⟩

/-! ## Rows below derivations -/

theorem HasRows.reads (h : g.HasRows within) : g.Reads (g.stage? within) Stage.shape? where
  leaf := fun hstage => hstage
  visible := fun _ hk hstage => by
    rw [stage?, hk] at hstage
    exact hstage
  hidden := fun hp hk hstage => by
    rw [stage?, hk] at hstage
    exact h.hidden _ hp hk _ _ hstage

mutual

theorem Derivation.rowed (h : g.HasRows within) {s : Symbol} :
    ∀ d : Derivation g s, Shape.RowedAll d.skeleton
  | .leaf k => ⟨trivial, trivial⟩
  | .node p hp children => by
    have hrowed := Derivations.rowed h children
    cases hk : g.kindOf? p.lhs with
    | some k =>
      rw [Derivation.skeleton, hk]
      obtain ⟨stage, hstage, hcloses⟩ := h.visible p hp k hk
      exact ⟨⟨⟨stage, h.reads.derivations children hstage, hcloses⟩, hrowed⟩, trivial⟩
    | none =>
      rw [Derivation.skeleton, hk]
      exact hrowed

theorem Derivations.rowed (h : g.HasRows within) {ss : List Symbol} :
    ∀ ds : Derivations g ss, Shape.RowedAll ds.skeleton
  | .nil => trivial
  | .cons first rest => by
    rw [Derivations.skeleton, Shape.rowedAll_append]
    exact ⟨Derivation.rowed h first, Derivations.rowed h rest⟩

end

/-- What a derivation shows leads from stage to stage as its symbol does, and every node in it has a
row below it. -/
theorem Derivation.row (h : g.HasRows within) {s : Symbol} (d : Derivation g s) :
    (∀ stage stage', g.stage? within stage s = some stage' →
      d.skeleton.foldlM Stage.shape? stage = some stage') ∧ Shape.RowedAll d.skeleton :=
  ⟨fun _ _ hstage => h.reads.derivation d hstage, Derivation.rowed h d⟩

end Grammar

end AsmTree
