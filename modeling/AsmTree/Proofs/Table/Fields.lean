import AsmTree.Proofs.Table.Lookaheads
import AsmTree.Proofs.Table.Sparse
import AsmTree.Table.Build

/-!
# The fields of a table

What the fields of a table that is built hold, and where its lookups find it. Cells have numbers of
thirty-two bits: a lookup finds the cell that it is for if there are no more cells than numbers.

**Main statements:** a well-formed grammar has a table or conflicts (`build_cases`), and its lookups
find the cells and moves of the construction (`explicitAction_eq`, `goto?_eq`).
-/

namespace AsmTree

/-! ## Rows of a table -/

/-- The place of an entry in rows of one length. -/
theorem getElem?_flatMap_of_length {α β : Type} {f : α → List β} {w : Nat} (l : List α)
    (hw : ∀ x ∈ l, (f x).length = w) (i j : Nat) (hj : j < w) :
    (l.flatMap f)[i * w + j]? = l[i]?.bind fun x => (f x)[j]? := by
  induction l generalizing i with
  | nil => simp
  | cons x l ih =>
    have hx := hw x List.mem_cons_self
    rw [List.flatMap_cons]
    cases i with
    | zero => rw [Nat.zero_mul, Nat.zero_add, List.getElem?_append_left (by omega)]; rfl
    | succ i =>
      rw [List.getElem?_append_right (by rw [hx, Nat.succ_mul]; omega), hx, Nat.succ_mul,
        show i * w + w + j - w = i * w + j by omega,
        ih (fun y hy => hw y (List.mem_cons_of_mem _ hy))]
      rfl

theorem length_flatMap_of_length {α β : Type} {f : α → List β} {w : Nat} {l : List α}
    (hw : ∀ x ∈ l, (f x).length = w) : (l.flatMap f).length = l.length * w := by
  rw [List.length_flatMap, List.map_congr_left hw, List.map_const', List.sum_replicate_nat]

theorem cell_lt {rows width row column : Nat} (hrow : row < rows) (hcolumn : column < width) :
    row * width + column < rows * width := by
  calc row * width + column < (row + 1) * width := by rw [Nat.succ_mul]; omega
    _ ≤ rows * width := Nat.mul_le_mul_right _ hrow

theorem eq_of_cell_eq {width row row' column column' : Nat} (hcolumn : column < width)
    (hcolumn' : column' < width) (h : row * width + column = row' * width + column') :
    row = row' ∧ column = column' := by
  have hmod := congrArg (· % width) h
  simp only [Nat.mul_add_mod_self_right, Nat.mod_eq_of_lt hcolumn,
    Nat.mod_eq_of_lt hcolumn'] at hmod
  subst hmod
  exact ⟨Nat.eq_of_mul_eq_mul_right (Nat.zero_lt_of_lt hcolumn) (Nat.add_right_cancel h), rfl⟩

theorem ParseTable.cellNumber_eq {rows width row column : Nat} (hsize : rows * width ≤ 2 ^ 32)
    (hrow : row < rows) (hcolumn : column < width) :
    cellNumber width row column = row * width + column :=
  Nat.mod_eq_of_lt (Nat.lt_of_lt_of_le (cell_lt hrow hcolumn) hsize)

/-- There are no more cells than numbers for them. -/
structure ParseTable.Indexed (t : ParseTable) : Prop where
  actions : t.actions.size ≤ 2 ^ 32
  gotos : t.gotos.size ≤ 2 ^ 32

theorem Kind.getElem?_tokens {k : Kind} (h : k.index < Kind.tokenCount) :
    Kind.tokens[k.index]? = some k := by
  have hne : k ≠ .reserved := by
    rintro rfl
    revert h
    decide
  have hall := Kind.ofIndex?_index hne
  rw [Kind.ofIndex?, ← Array.getElem?_toList] at hall
  rw [Kind.tokens, List.getElem?_take, if_pos h, hall]

theorem Kind.length_tokens : Kind.tokens.length = Kind.tokenCount := by decide

namespace Grammar

variable {g : Grammar} {t : ParseTable} {state : Nat} {k : Kind}

/-! ## Nonterminals without a row -/

theorem withoutRow?_of_mem_rhs (hg : g.WellFormed) {p : Nat} {s : Symbol}
    (h : s ∈ g.augmented.rhs p) : g.augmented.withoutRow? s = none := by
  cases s with
  | terminal k => rfl
  | nonterminal id =>
    refine if_pos ?_
    rw [nonterminalCount_augmented hg]
    exact Nat.lt_succ_of_lt (lt_of_mem_rhs hg h)

theorem withoutRow?_of_mem_productions (hg : g.WellFormed) {p : Production}
    (hp : p ∈ g.augmented.productions) {s : Symbol} (h : s ∈ p.rhs) :
    g.augmented.withoutRow? s = none := by
  obtain ⟨i, hi⟩ := Array.getElem?_of_mem hp
  rw [← Augmented.rhs_eq hi] at h
  exact withoutRow?_of_mem_rhs hg h

theorem mem_of_mem_leading {nullable : BitSet} {ss : List Symbol} {s : Symbol}
    (h : s ∈ Augmented.leading nullable ss) : s ∈ ss := by
  induction ss with
  | nil => exact h
  | cons x ss ih =>
    rw [Augmented.leading] at h
    split at h
    · rcases List.mem_cons.1 h with rfl | h
      · exact List.mem_cons_self
      · exact List.mem_cons_of_mem _ (ih h)
    · exact List.mem_singleton.1 h ▸ List.mem_cons_self

theorem missingIn?_eq_none (hg : g.WellFormed) (nullable : BitSet) {ps : List Production}
    (hps : ∀ p ∈ ps, p ∈ g.augmented.productions) : g.augmented.missingIn? nullable ps = none := by
  induction ps generalizing nullable with
  | nil => rfl
  | cons p ps ih =>
    rw [Augmented.missingIn?, ih _ fun q hq => hps q (List.mem_cons_of_mem _ hq)]
    have hfound : (Augmented.leading nullable p.rhs).findSome? g.augmented.withoutRow? = none :=
      List.findSome?_eq_none_iff.2 fun s hs =>
        withoutRow?_of_mem_productions hg (hps p List.mem_cons_self) (mem_of_mem_leading hs)
    rw [hfound]
    rfl

theorem missingFrom?_eq_none (hg : g.WellFormed) (fuel : Nat) (nullable : BitSet) :
    g.augmented.missingFrom? fuel nullable = none := by
  induction fuel generalizing nullable with
  | zero => rfl
  | succ fuel ih =>
    rw [Augmented.missingFrom?, missingIn?_eq_none hg nullable fun p => Array.mem_toList_iff.1]
    dsimp only
    split
    · rfl
    · exact ih _

/-- **In a well-formed grammar every nonterminal has its row.** -/
theorem missingRow?_eq_none (hg : g.WellFormed) : g.construction.missingRow? = none := by
  have hbefore : g.augmented.missingRow? = none := by
    rw [Augmented.missingRow?, Option.orElse_eq_orElse, Option.orElse_eq_or,
      Option.or_eq_none_iff, Array.findSome?_eq_none_iff]
    exact ⟨fun p hp => if_pos (lhs_lt_of_mem hg hp), missingFrom?_eq_none hg _ _⟩
  have hread : g.automaton.kernels.findSome? (fun kernel => kernel.findSome? fun item =>
      (g.analysis.remaining item).head?.bind g.augmented.withoutRow?) = none := by
    refine Array.findSome?_eq_none_iff.2 fun kernel _ =>
      List.findSome?_eq_none_iff.2 fun item _ => ?_
    cases hr : g.analysis.remaining item with
    | nil => rfl
    | cons s rest =>
      exact withoutRow?_of_mem_rhs hg (mem_rhs_of_remaining (by rw [hr]))
  rw [Construction.missingRow?, Option.orElse_eq_orElse, Option.orElse_eq_or,
    Option.or_eq_none_iff]
  exact ⟨hbefore, hread⟩

/-! ## Rows in the making -/

/-- The complete productions of a state. -/
abbrev completedOf (g : Grammar) (state : Nat) : List Completed :=
  g.construction.completedOf g.construction.lookaheads state

abbrev cell (g : Grammar) (state : Nat) (k : Kind) : Cell :=
  g.construction.cell state (g.completedOf state) k

abbrev rows (g : Grammar) : List (List Cell) :=
  (List.range g.automaton.size).map (g.construction.row g.construction.lookaheads)

theorem build_eq_ok (h : ParseTable.build g = .ok t) :
    t = g.construction.toTable g.rows ∧ g.rows.flatMap Construction.rowConflicts = [] := by
  unfold ParseTable.build Construction.table at h
  split at h
  · cases h
  · dsimp only at h
    split at h
    · next hnone =>
      cases h
      exact ⟨rfl, hnone⟩
    · cases h

theorem build_of_wellFormed (hg : g.WellFormed) : ParseTable.build g =
    match g.rows.flatMap Construction.rowConflicts with
    | [] => .ok (g.construction.toTable g.rows)
    | found => .error (.conflicts found) := by
  unfold ParseTable.build Construction.table
  rw [show (Construction.ofGrammar g).missingRow? = none from missingRow?_eq_none hg]
  rfl

theorem build_cases (hg : g.WellFormed) : (∃ t, ParseTable.build g = .ok t) ∨
    ∃ found ≠ [], ParseTable.build g = .error (.conflicts found) := by
  rw [build_of_wellFormed hg]
  split
  · exact Or.inl ⟨_, rfl⟩
  · next hne => exact Or.inr ⟨_, hne, rfl⟩

theorem getElem?_rows (h : state < g.automaton.size) :
    g.rows[state]? = some (Kind.tokens.map (g.cell state)) := by
  rw [List.getElem?_map, List.getElem?_range h]
  rfl

theorem length_of_mem_rows {row : List Cell} (h : row ∈ g.rows) :
    row.length = Kind.tokenCount := by
  obtain ⟨state, -, rfl⟩ := List.mem_map.1 h
  rw [Construction.row, List.length_map, Kind.length_tokens]

/-! ## Sizes -/

theorem terminalCount_eq (h : ParseTable.build g = .ok t) : t.terminalCount = Kind.tokenCount := by
  rw [(build_eq_ok h).1]
  rfl

theorem nonterminalCount_eq (h : ParseTable.build g = .ok t) :
    t.nonterminalCount = g.augmented.nonterminalCount := by
  rw [(build_eq_ok h).1]
  rfl

theorem size_actions (h : ParseTable.build g = .ok t) :
    t.actions.size = g.automaton.size * Kind.tokenCount := by
  have hrows := length_flatMap_of_length (f := fun row : List Cell => row.map Cell.action)
    (l := g.rows) fun row hrow => by rw [List.length_map, length_of_mem_rows hrow]
  rw [(build_eq_ok h).1, Construction.toTable, List.size_toArray, hrows, rows, List.length_map,
    List.length_range]

theorem size_gotos (h : ParseTable.build g = .ok t) :
    t.gotos.size = g.automaton.size * g.augmented.nonterminalCount := by
  rw [(build_eq_ok h).1, Construction.toTable, SparseArray.size_ofEntries]
  rfl

theorem size_contexts (h : ParseTable.build g = .ok t) : t.contexts.size = g.automaton.size := by
  rw [(build_eq_ok h).1, Construction.toTable, List.size_toArray, List.length_map,
    List.length_range]
  rfl

/-! ## Fields of the table -/

theorem stateCount_eq (h : ParseTable.build g = .ok t) : t.stateCount = g.automaton.size := by
  rw [(build_eq_ok h).1]
  simp [ParseTable.stateCount, Construction.toTable]

theorem productionCount_eq (h : ParseTable.build g = .ok t) :
    t.productionCount = g.productions.size + 1 := by
  rw [(build_eq_ok h).1, ParseTable.productionCount, Construction.toTable, Array.size_map]
  exact size_productions g

theorem extras_eq (h : ParseTable.build g = .ok t) : t.extras = g.extras := by
  rw [(build_eq_ok h).1]
  rfl

theorem isExtra_iff (h : ParseTable.build g = .ok t) {k : Kind} :
    t.isExtra k = true ↔ k ∈ g.extras := by
  rw [ParseTable.isExtra, extras_eq h]
  simp

theorem isExtra_eq_false (h : ParseTable.build g = .ok t) {k : Kind} (hk : k ∉ g.extras) :
    t.isExtra k = false :=
  Bool.eq_false_iff.2 fun hextra => hk ((isExtra_iff h).1 hextra)

theorem resumeState_eq (h : ParseTable.build g = .ok t) : t.resumeState =
    g.resumePoint.bind fun id => g.automaton.next? 0 (.nonterminal id) := by
  rw [(build_eq_ok h).1]
  rfl

theorem grammarVersion_eq (h : ParseTable.build g = .ok t) :
    t.grammarVersion = Grammar.version := by
  rw [(build_eq_ok h).1]
  rfl

theorem production_eq (h : ParseTable.build g = .ok t) {p : Nat}
    (hp : p < g.augmented.productions.size) : t.production p =
      ⟨g.augmented.lhs p, Reduction.lengthOf (g.augmented.rhs p),
        g.kindOf? (g.augmented.lhs p)⟩ := by
  have hget := Array.getElem?_eq_getElem hp
  rw [(build_eq_ok h).1, ParseTable.production, Construction.toTable,
    Array.getD_eq_getD_getElem?, Array.getElem?_map, Augmented.lhs_eq hget, Augmented.rhs_eq hget,
    show g.construction.analysis.augmented.productions[p]? = _ from hget]
  rfl

theorem context?_eq (h : ParseTable.build g = .ok t) (hs : state < g.automaton.size) :
    t.context? state = g.construction.contextOf? state := by
  rw [(build_eq_ok h).1, ParseTable.context?, Construction.toTable, List.getElem?_toArray,
    List.getElem?_map, show (List.range g.construction.automaton.size)[state]? = _ from
      List.getElem?_range hs]
  rfl

/-- The entries for next states stand for the moves on with nonterminals. -/
theorem mem_gotoEntries (hg : g.WellFormed) {i target : Nat} :
    (i, target) ∈ (List.range g.automaton.size).flatMap g.construction.gotoEntries ↔
      ∃ state id, g.automaton.next? state (.nonterminal id) = some target ∧
        i = state * g.augmented.nonterminalCount + id := by
  simp only [List.mem_flatMap, List.mem_range, Construction.gotoEntries, List.mem_filterMap]
  constructor
  · rintro ⟨state, -, ⟨s, n⟩, hmem, hentry⟩
    cases s with
    | terminal k => cases hentry
    | nonterminal id =>
      cases hentry
      exact ⟨state, id, (mem_movesOf_iff hg).1 hmem, rfl⟩
  · rintro ⟨state, id, hm, rfl⟩
    exact ⟨state, (lt_of_next? hg hm).1, _, (mem_movesOf_iff hg).2 hm, rfl⟩

theorem column_lt (hg : g.WellFormed) {id target : Nat}
    (h : g.automaton.next? state (.nonterminal id) = some target) :
    id < g.augmented.nonterminalCount := by
  obtain ⟨p, -, hmem⟩ := exists_mem_rhs_of_next? hg h
  rw [nonterminalCount_augmented hg]
  exact Nat.lt_succ_of_lt (lt_of_mem_rhs hg hmem)

/-- A cell for a next state has one entry at most. -/
theorem lookup_gotoEntries (hg : g.WellFormed) {id : Nat}
    (hid : id < g.augmented.nonterminalCount) :
    ((List.range g.automaton.size).flatMap g.construction.gotoEntries).lookup
      (state * g.augmented.nonterminalCount + id) =
      g.automaton.next? state (.nonterminal id) := by
  refine Option.ext fun target => ⟨fun h => ?_, fun h => ?_⟩
  · obtain ⟨state', id', hm, heq⟩ := (mem_gotoEntries hg).1 (mem_of_lookup h)
    obtain ⟨rfl, rfl⟩ := eq_of_cell_eq hid (column_lt hg hm) heq
    exact hm
  · refine lookup_eq_some_of_unique ((mem_gotoEntries hg).2 ⟨state, id, h, rfl⟩) fun n hn => ?_
    obtain ⟨state', id', hm, heq⟩ := (mem_gotoEntries hg).1 hn
    obtain ⟨rfl, rfl⟩ := eq_of_cell_eq hid (column_lt hg hm) heq
    exact Option.some_inj.1 (hm.symm.trans h)

theorem goto?_eq (hg : g.WellFormed) (h : ParseTable.build g = .ok t)
    (hgotos : t.gotos.size ≤ 2 ^ 32) {id : Nat} (hs : state < g.automaton.size)
    (hid : id < g.augmented.nonterminalCount) :
    t.goto? state id = g.automaton.next? state (.nonterminal id) := by
  rw [size_gotos h] at hgotos
  rw [ParseTable.goto?, nonterminalCount_eq h, ParseTable.cellNumber_eq hgotos hs hid,
    (build_eq_ok h).1, Construction.toTable, SparseArray.getElem?_ofEntries]
  exact (congrArg Option.join (if_pos (cell_lt hs hid))).trans (lookup_gotoEntries hg hid)

theorem exists_of_mem_gotos (hg : g.WellFormed) (h : ParseTable.build g = .ok t) {target : Nat}
    (ht : some target ∈ t.gotos) :
    ∃ state id, g.automaton.next? state (.nonterminal id) = some target := by
  obtain ⟨i, hi⟩ := SparseArray.mem_iff.1 ht
  rw [(build_eq_ok h).1, Construction.toTable, SparseArray.getElem?_ofEntries] at hi
  split at hi
  · obtain ⟨state, id, hm, -⟩ := (mem_gotoEntries hg).1 (mem_of_lookup (Option.some_inj.1 hi))
    exact ⟨state, id, hm⟩
  · cases hi

theorem goto_lt (hg : g.WellFormed) (h : ParseTable.build g = .ok t) {target : Nat}
    (ht : some target ∈ t.gotos) : target < g.automaton.size := by
  obtain ⟨state, id, hm⟩ := exists_of_mem_gotos hg h ht
  exact (lt_of_next? hg hm).2

theorem explicitAction_eq (h : ParseTable.build g = .ok t) (hactions : t.actions.size ≤ 2 ^ 32)
    (hs : state < g.automaton.size) (hk : k.index < Kind.tokenCount) :
    t.explicitAction state k = (g.cell state k).action := by
  have hrow := getElem?_flatMap_of_length (f := fun row : List Cell => row.map Cell.action)
    g.rows (w := Kind.tokenCount) (fun row hrow => by rw [List.length_map, length_of_mem_rows hrow])
    state k.index hk
  rw [getElem?_rows hs, Option.bind_some, List.getElem?_map, List.getElem?_map,
    Kind.getElem?_tokens hk] at hrow
  rw [size_actions h] at hactions
  rw [ParseTable.explicitAction, terminalCount_eq h, stateCount_eq h, if_pos ⟨hs, hk⟩,
    ParseTable.cellNumber_eq hactions hs hk, (build_eq_ok h).1, Construction.toTable,
    Array.getD_eq_getD_getElem?, List.getElem?_toArray, hrow]
  rfl

theorem explicitAction_eq_error (h : ParseTable.build g = .ok t)
    (hout : ¬(state < g.automaton.size ∧ k.index < Kind.tokenCount)) :
    t.explicitAction state k = .error := by
  rw [ParseTable.explicitAction, terminalCount_eq h, stateCount_eq h, if_neg hout]

theorem default?_eq (h : ParseTable.build g = .ok t) (hs : state < g.automaton.size) :
    t.default? state =
      Construction.defaultOf? (Kind.tokens.map fun k => (g.cell state k).action) := by
  rw [(build_eq_ok h).1, ParseTable.default?, Construction.toTable, List.getElem?_toArray,
    List.getElem?_map, getElem?_rows hs, Option.map_some, List.map_map]
  rfl

theorem default?_of_size_le (h : ParseTable.build g = .ok t) (hs : g.automaton.size ≤ state) :
    t.default? state = none := by
  rw [(build_eq_ok h).1, ParseTable.default?, Construction.toTable, List.getElem?_toArray,
    List.getElem?_eq_none (by simpa using hs)]
  rfl

end Grammar

end AsmTree
