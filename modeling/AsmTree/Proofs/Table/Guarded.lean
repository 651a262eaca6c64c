import AsmTree.Proofs.Table.Faultless

/-!
# Guarded lookups

A lookup of a table gives a default where there is nothing to look up. A guarded lookup gives
nothing there, nor where the number of a cell does not fit into a machine word of 32 bits. **Main
statements (`…At?_eq`):** in a table without fault whose cells are so few, a guarded lookup in a
state that exists finds what the lookup itself finds.
-/

namespace AsmTree

namespace ParseTable

/-! ## Lookups -/

/-- A cell in a row and a column, if there is one and a machine word holds its number. -/
def cellAt? {α : Type} (cells : Nat → Option α) (width row column : Nat) : Option α :=
  if row * width + column < 2 ^ 32 then cells (row * width + column) else none

/-- The action of a table cell, if there is one. A kind without a column is not looked up. -/
def explicitActionAt? (t : ParseTable) (state : Nat) (k : Kind) : Option Action :=
  if k.index < t.terminalCount then cellAt? (t.actions[·]?) t.terminalCount state k.index
  else some .error

def defaultAt? (t : ParseTable) (state : Nat) : Option (Option Nat) := t.defaults[state]?

/-- The action in a state before a token, if what decides it is there. -/
def actionAt? (t : ParseTable) (state : Nat) (k : Kind) : Option Action := do
  match ← t.defaultAt? state with
  | some production => return .reduce production
  | none => t.explicitActionAt? state k

/-- The state behind a formed nonterminal, if it has a column and the state a row. -/
def gotoAt? (t : ParseTable) (state nonterminal : Nat) : Option (Option Nat) :=
  if nonterminal < t.nonterminalCount then
    cellAt? (t.gotos[·]?) t.nonterminalCount state nonterminal
  else none

def productionAt? (t : ParseTable) (i : Nat) : Option Reduction := t.productions[i]?

def contextAt? (t : ParseTable) (state : Nat) : Option (Option Kind) := t.contexts[state]?

/-- The tokens that a state has a move for, if every column is that of a kind and has a cell. -/
def expectedAt? (t : ParseTable) (state : Nat) : Option (List Kind) :=
  if t.terminalCount ≤ Kind.all.size ∧ ∀ k ∈ Kind.all.toList.take t.terminalCount,
      k ≠ .error → (t.explicitActionAt? state k).isSome then some (t.expected state)
  else none

/-! ## Lookups in range -/

/-- A table without fault whose cells can be numbered by machine words. -/
structure Addressable (t : ParseTable) : Prop extends t.Faultless where
  actionsLt : t.actions.size < 2 ^ 32
  gotosLt : t.gotos.size < 2 ^ 32

variable {t : ParseTable} {state : Nat} {k : Kind}

theorem cellAt?_eq {α : Type} (cells : Nat → Option α) {rows width row column : Nat}
    (hcells : ∀ i < rows * width, ∃ a, cells i = some a) (hlt : rows * width < 2 ^ 32)
    (hrow : row < rows) (hcolumn : column < width) :
    ∃ a, cells (cellNumber width row column) = some a ∧
      cellAt? cells width row column = some a := by
  have hcell := cell_lt hrow hcolumn
  obtain ⟨a, ha⟩ := hcells _ hcell
  refine ⟨a, ?_, ?_⟩
  · rw [cellNumber_eq hlt.le hrow hcolumn, ha]
  · rw [cellAt?, if_pos (hcell.trans hlt), ha]

namespace Addressable

variable (h : t.Addressable)

include h

theorem explicitActionAt?_eq (hs : state < t.stateCount) :
    t.explicitActionAt? state k = some (t.explicitAction state k) := by
  unfold explicitActionAt? explicitAction
  by_cases hk : k.index < t.terminalCount
  · obtain ⟨a, ha, hat⟩ := cellAt?_eq (t.actions[·]?) (fun i hi =>
      ⟨_, Array.getElem?_eq_getElem (by rw [h.actionsSize]; exact hi)⟩)
      (h.actionsSize ▸ h.actionsLt) hs hk
    rw [if_pos hk, if_pos ⟨hs, hk⟩, hat, Array.getD_eq_getD_getElem?, ha]
    rfl
  · rw [if_neg hk, if_neg fun hin => hk hin.2]

omit h in
theorem defaultAt?_eq (hs : state < t.stateCount) :
    t.defaultAt? state = some (t.default? state) := by
  rw [defaultAt?, default?, Array.getElem?_eq_getElem hs]
  rfl

theorem actionAt?_eq (hs : state < t.stateCount) :
    t.actionAt? state k = some (t.action state k) := by
  unfold actionAt? action
  rw [defaultAt?_eq hs]
  cases t.default? state with
  | none => exact h.explicitActionAt?_eq hs
  | some p => rfl

theorem gotoAt?_eq {id : Nat} (hs : state < t.stateCount) (hid : id < t.nonterminalCount) :
    t.gotoAt? state id = some (t.goto? state id) := by
  obtain ⟨target, ht, hat⟩ := cellAt?_eq (t.gotos[·]?) (fun i hi =>
    ⟨_, if_pos (by rw [h.gotosSize]; exact hi)⟩) (h.gotosSize ▸ h.gotosLt) hs hid
  rw [gotoAt?, if_pos hid, hat, goto?, ht]
  rfl

omit h in
theorem productionAt?_eq {p : Nat} (hp : p < t.productionCount) :
    t.productionAt? p = some (t.production p) := by
  rw [productionAt?, production, Array.getD_eq_getD_getElem?, Array.getElem?_eq_getElem hp]
  rfl

theorem contextAt?_eq (hs : state < t.stateCount) :
    t.contextAt? state = some (t.context? state) := by
  have hsize : state < t.contexts.size := by
    rw [h.contextsSize]
    exact hs
  rw [contextAt?, context?, Array.getElem?_eq_getElem hsize]
  rfl

theorem expectedAt?_eq (hs : state < t.stateCount) :
    t.expectedAt? state = some (t.expected state) := by
  have hall : Kind.all.size = 163 := rfl
  have hcolumns : t.terminalCount ≤ Kind.all.size := by
    rw [h.terminalCount, hall]
    decide
  exact if_pos ⟨hcolumns, fun k _ _ => by rw [h.explicitActionAt?_eq hs, Option.isSome_some]⟩

end Addressable

end ParseTable

end AsmTree
