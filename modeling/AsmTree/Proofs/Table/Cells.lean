import AsmTree.Proofs.Table.Fields

/-!
# The cells of a table

What the table of a grammar holds, said in terms of its items. **Main statements:**

* `explicitAction_cases`: a cell is empty, or shifts a token that the state moves on with, or
  reduces by a production that is complete in the state and may be followed by the token;
* `move_of_follows` and `move_of_next?`: in a table without conflicts the cell of a token without
  precedence holds every reduction and every shift that the state has for it.
-/

namespace AsmTree

/-! ## Actions as words -/

namespace Action

theorem toNat_word (n r : Nat) (hr : r < 4) :
    (n.toUInt32 <<< 2 ||| r.toUInt32).toNat = n % 2 ^ 30 * 4 + r := by
  have hr32 : r.toUInt32.toNat = r := by
    rw [Nat.toUInt32_eq, UInt32.toNat_ofNat']
    omega
  have hshift : (n.toUInt32 <<< 2).toNat = n % 2 ^ 30 * 4 := by
    rw [UInt32.toNat_shiftLeft, Nat.toUInt32_eq, UInt32.toNat_ofNat']
    simp only [UInt32.reduceToNat, Nat.reduceMod, Nat.shiftLeft_eq]
    omega
  rw [UInt32.toNat_or, hshift, hr32, Nat.mul_comm, show (4 : Nat) = 2 ^ 2 from rfl,
    Nat.two_pow_add_eq_or_of_lt hr]

theorem move_eq (a : Action) : a.move =
    if a.code.toNat = 0 then .error
    else if a.code.toNat = 1 then .accept
    else if a.code.toNat % 4 = 2 then .shift (a.code.toNat / 4)
    else .reduce (a.code.toNat / 4) := by
  have hand : (a.code &&& 3).toNat = a.code.toNat % 4 := by
    rw [UInt32.toNat_and]
    exact Nat.and_two_pow_sub_one_eq_mod _ 2
  have hshift : (a.code >>> 2).toNat = a.code.toNat / 4 := by
    rw [UInt32.toNat_shiftRight]
    simp [Nat.shiftRight_eq_div_pow]
  unfold move
  simp only [← UInt32.toNat_inj, hand, hshift]
  rfl

theorem move_shift (state : Nat) : (shift state).move = .shift (state % 2 ^ 30) := by
  have hcode : (shift state).code.toNat = state % 2 ^ 30 * 4 + 2 := toNat_word state 2 (by omega)
  rw [move_eq, hcode, if_neg (by omega), if_neg (by omega), if_pos (by omega)]
  congr 1
  omega

theorem move_reduce (production : Nat) :
    (reduce production).move = .reduce (production % 2 ^ 30) := by
  have hcode : (reduce production).code.toNat = production % 2 ^ 30 * 4 + 3 :=
    toNat_word production 3 (by omega)
  rw [move_eq, hcode, if_neg (by omega), if_neg (by omega), if_neg (by omega)]
  congr 1
  omega

theorem lt_of_move_reduce {a : Action} {p : Nat} (h : a.move = .reduce p) : p < 2 ^ 30 := by
  have hlt := a.code.toNat_lt
  rw [move_eq] at h
  split at h
  · cases h
  · split at h
    · cases h
    · split at h
      · cases h
      · cases h
        omega

@[simp] theorem move_accept : accept.move = .accept := rfl

@[simp] theorem move_error : error.move = .error := rfl

theorem isError_iff {a : Action} : a.isError = true ↔ a = error := by
  unfold isError error
  rw [beq_iff_eq]
  cases a
  simp

/-- Only the empty cell has no move. -/
theorem move_eq_error {a : Action} : a.move = .error ↔ a = error := by
  constructor
  · intro h
    unfold move at h
    split at h
    · next hc =>
      cases a
      exact congrArg mk hc
    · split at h
      · cases h
      · split at h <;> cases h
  · rintro rfl
    rfl

end Action

namespace Grammar

variable {g : Grammar} {t : ParseTable} {state : Nat} {k : Kind}

/-! ## What a cell may hold -/

/-- The cell holds nothing, the shift of the state, or a reduction by one of the productions whose
lookaheads contain the token. -/
def CellHolds (g : Grammar) (state : Nat) (k : Kind) (completed : List Completed)
    (action : Action) : Prop :=
  action = .error ∨
    (∃ target, g.automaton.next? state (.terminal k) = some target ∧ action = .shift target) ∨
    ∃ p ∈ completed, p.lookaheads.contains k.index = true ∧
      action = g.construction.reduceAction p.production

theorem cellHolds_fill {completed : List Completed} {cell : Cell} {p : Completed}
    (h : g.CellHolds state k completed cell.action) (hp : p ∈ completed)
    (hk : p.lookaheads.contains k.index = true) :
    g.CellHolds state k completed (g.construction.fill state k cell p).action := by
  have hreduce : g.CellHolds state k completed (g.construction.reduceAction p.production) :=
    Or.inr (Or.inr ⟨p, hp, hk, rfl⟩)
  unfold Construction.fill
  dsimp only
  split
  · exact h
  · split
    · exact hreduce
    · split
      · exact h
      · exact hreduce
      · exact Or.inl rfl
      · exact h
    · split
      · exact h
      · exact h
    · exact h

theorem cellHolds_cell (g : Grammar) (state : Nat) (completed : List Completed) (k : Kind) :
    g.CellHolds state k completed (g.construction.cell state completed k).action := by
  unfold Construction.cell
  dsimp only
  refine List.foldlRecOn
    (motive := fun cell : Cell => g.CellHolds state k completed cell.action) completed _ ?_ ?_
  · split
    · next target ht => exact Or.inr (Or.inl ⟨target, ht, rfl⟩)
    · exact Or.inl rfl
  · intro cell hcell p hp
    split
    · next hk => exact cellHolds_fill hcell hp hk
    · exact hcell

/-- The complete production of an item, with what follows it. -/
def completedItem (g : Grammar) (state : Nat) (item : Item) : Completed where
  production := item.production
  level := (g.productions[item.production]?).bind g.productionLevel?
  lookaheads := (g.construction.spreadOf g.construction.lookaheads state).lookaheads item

theorem contains_completedItem (hg : g.WellFormed) {item : Item} {n : Nat} :
    (g.completedItem state item).lookaheads.contains n = true ↔ g.Follows state item n :=
  contains_spreadOf hg

theorem mem_completed {item : Item} (hs : state < g.automaton.size) :
    item ∈ g.construction.completed state ↔
      g.InState state item ∧ g.analysis.remaining item = [] := by
  unfold Construction.completed
  rw [List.mem_filter, List.isEmpty_iff]
  exact and_congr_left fun _ => ⟨fun h => ⟨hs, h⟩, fun h => h.2⟩

/-- The complete productions of a state are those of its complete items. -/
theorem mem_completedOf (hs : state < g.automaton.size) {p : Completed} :
    p ∈ g.completedOf state ↔ ∃ item, g.InState state item ∧
      g.analysis.remaining item = [] ∧ p = g.completedItem state item := by
  have hsort : p ∈ g.completedOf state ↔
      p ∈ (g.construction.completed state).map (g.completedItem state) :=
    List.mem_mergeSort
  rw [hsort, List.mem_map]
  constructor
  · rintro ⟨item, hitem, rfl⟩
    obtain ⟨hin, hr⟩ := (mem_completed hs).1 hitem
    exact ⟨item, hin, hr, rfl⟩
  · rintro ⟨item, hin, hr, rfl⟩
    exact ⟨item, (mem_completed hs).2 ⟨hin, hr⟩, rfl⟩

/-- What the cell of a state and a token may hold: nothing, the shift of the state, or a reduction
by a production that is complete in the state and may be followed by the token. -/
def Permits (g : Grammar) (state : Nat) (k : Kind) (action : Action) : Prop :=
  action = .error ∨
    (∃ target, g.automaton.next? state (.terminal k) = some target ∧ action = .shift target) ∨
    ∃ item, g.InState state item ∧ g.analysis.remaining item = [] ∧ g.Follows state item k.index ∧
      action = g.construction.reduceAction item.production

theorem permits_cell (hg : g.WellFormed) (hs : state < g.automaton.size) (k : Kind) :
    g.Permits state k (g.cell state k).action := by
  rcases cellHolds_cell g state (g.completedOf state) k with he | he | ⟨p, hp, hpk, he⟩
  · exact Or.inl he
  · exact Or.inr (Or.inl he)
  · obtain ⟨item, hin, hr, rfl⟩ := (mem_completedOf hs).1 hp
    exact Or.inr (Or.inr ⟨item, hin, hr, (contains_completedItem hg).1 hpk, he⟩)

/-- **What a lookup of the table may find.** -/
theorem explicitAction_cases (hg : g.WellFormed) (h : ParseTable.build g = .ok t)
    (hactions : t.actions.size ≤ 2 ^ 32) (state : Nat) (k : Kind) :
    g.Permits state k (t.explicitAction state k) := by
  by_cases hin : state < g.automaton.size ∧ k.index < Kind.tokenCount
  · rw [explicitAction_eq h hactions hin.1 hin.2]
    exact permits_cell hg hin.1 k
  · exact Or.inl (explicitAction_eq_error h hin)

/-! ## Default reductions -/

/-- A default reduction is the only move of its row, and some cell holds it. -/
theorem defaultOf?_eq_some {row : List Action} {p : Nat}
    (h : Construction.defaultOf? row = some p) :
    ∃ first ∈ row, first.move = .reduce p ∧ ∀ a ∈ row, a ≠ .error → a = first := by
  unfold Construction.defaultOf? at h
  split at h
  · cases h
  · next first rest hfilter =>
    split at h
    · next production hmove =>
      split at h
      · next hall =>
        cases h
        have hfirst : first ∈ row.filter (!·.isError) := hfilter ▸ List.mem_cons_self
        refine ⟨first, (List.mem_filter.1 hfirst).1, hmove, fun a ha hne => ?_⟩
        have hmem : a ∈ row.filter (!·.isError) := by
          refine List.mem_filter.2 ⟨ha, ?_⟩
          cases he : a.isError with
          | false => rfl
          | true => exact absurd (Action.isError_iff.1 he) hne
        rw [hfilter] at hmem
        rcases List.mem_cons.1 hmem with rfl | hmem
        · rfl
        · exact eq_of_beq (List.all_eq_true.1 hall a hmem)
      · cases h
    · cases h

theorem mem_tokens_iff : k ∈ Kind.tokens ↔ k.index < Kind.tokenCount := by
  constructor
  · revert k
    decide
  · intro h
    exact List.mem_of_getElem? (Kind.getElem?_tokens h)

theorem mem_expected (h : ParseTable.build g = .ok t) :
    k ∈ t.expected state ↔ k ≠ .error ∧ t.explicitAction state k ≠ .error := by
  have hcount : t.terminalCount = Kind.tokenCount := by
    rw [(build_eq_ok h).1]
    rfl
  have htokens : t.explicitAction state k ≠ .error → k ∈ Kind.tokens := fun hne =>
    mem_tokens_iff.2 (by_contra fun hk => hne (explicitAction_eq_error h fun hin => hk hin.2))
  rw [ParseTable.expected, hcount, List.mem_filter, Bool.and_eq_true, bne_iff_ne,
    Bool.not_eq_true', ← Bool.not_eq_true, Action.isError_iff]
  exact ⟨And.right, fun hne => ⟨htokens hne.2, hne⟩⟩

theorem exists_cell_of_default? (h : ParseTable.build g = .ok t) {p : Nat}
    (hd : t.default? state = some p) :
    state < g.automaton.size ∧ ∃ k ∈ Kind.tokens, (g.cell state k).action.move = .reduce p := by
  have hs : state < g.automaton.size := by
    by_contra hge
    rw [default?_of_size_le h (Nat.le_of_not_lt hge)] at hd
    cases hd
  rw [default?_eq h hs] at hd
  obtain ⟨first, hmem, hmove, -⟩ := defaultOf?_eq_some hd
  obtain ⟨k, hk, rfl⟩ := List.mem_map.1 hmem
  exact ⟨hs, k, hk, hmove⟩

theorem exists_of_default? (h : ParseTable.build g = .ok t) (hactions : t.actions.size ≤ 2 ^ 32)
    {p : Nat} (hd : t.default? state = some p) :
    ∃ k, (t.explicitAction state k).move = .reduce p := by
  obtain ⟨hs, k, hk, hmove⟩ := exists_cell_of_default? h hd
  exact ⟨k, by rw [explicitAction_eq h hactions hs (mem_tokens_iff.1 hk), hmove]⟩

theorem move_of_default? (h : ParseTable.build g = .ok t) (hactions : t.actions.size ≤ 2 ^ 32)
    {p : Nat} (hd : t.default? state = some p) (hne : t.explicitAction state k ≠ .error) :
    (t.explicitAction state k).move = .reduce p := by
  have hin : state < g.automaton.size ∧ k.index < Kind.tokenCount := by
    by_contra hout
    exact hne (explicitAction_eq_error h hout)
  rw [explicitAction_eq h hactions hin.1 hin.2] at hne ⊢
  rw [default?_eq h hin.1] at hd
  obtain ⟨first, -, hmove, hall⟩ := defaultOf?_eq_some hd
  rw [hall _ (List.mem_map.2 ⟨k, mem_tokens_iff.2 hin.2, rfl⟩) hne]
  exact hmove

/-- A cell that is not empty is what the machine does, default reductions included. -/
theorem move_action (hg : g.WellFormed) (h : ParseTable.build g = .ok t)
    (hactions : t.actions.size ≤ 2 ^ 32) (hne : t.explicitAction state k ≠ .error) :
    (t.action state k).move = (t.explicitAction state k).move := by
  unfold ParseTable.action
  split
  · next p hd =>
    have hmove := move_of_default? h hactions hd hne
    rw [hmove, Action.move_reduce]
    congr 1
    -- a production that a word names fits into a word
    rcases explicitAction_cases hg h hactions state k with he | ⟨_, -, he⟩ | ⟨item, -, -, -, he⟩
    · exact absurd he hne
    · rw [he, Action.move_shift] at hmove
      cases hmove
    · rw [he, Construction.reduceAction] at hmove
      split at hmove
      · cases hmove
      · rw [Action.move_reduce] at hmove
        cases hmove
        exact Nat.mod_mod _ _
  · rfl

/-! ## Tables without conflicts -/

theorem move_reduceAction (hb : g.productions.size < 2 ^ 30) {p : Nat}
    (hp : p ≤ g.productions.size) : (g.construction.reduceAction p).move =
      if p = g.productions.size then .accept else .reduce p := by
  unfold Construction.reduceAction
  by_cases h : p = g.productions.size
  · rw [if_pos h, if_pos (show p = g.construction.analysis.augmented.acceptProduction from h)]
    rfl
  · rw [if_neg h, if_neg (show ¬p = g.construction.analysis.augmented.acceptProduction from h),
      Action.move_reduce, Nat.mod_eq_of_lt (by omega)]

/-- One complete production asks for the cell, if the token may follow it. -/
def ask (g : Grammar) (state : Nat) (k : Kind) (cell : Cell) (p : Completed) : Cell :=
  if p.lookaheads.contains k.index then g.construction.fill state k cell p else cell

/-- Conflicts stay. -/
theorem conflicts_of_fill {cell : Cell} {p : Completed}
    (h : (g.construction.fill state k cell p).conflicts = []) : cell.conflicts = [] := by
  unfold Construction.fill at h
  dsimp only at h
  split at h
  · exact h
  · split at h
    · exact h
    · split at h
      · exact h
      · exact h
      · exact h
      · exact absurd h (List.append_ne_nil_of_right_ne_nil _ (List.cons_ne_nil _ _))
    · split at h
      · exact h
      · exact absurd h (List.append_ne_nil_of_right_ne_nil _ (List.cons_ne_nil _ _))
    · exact absurd h (List.append_ne_nil_of_right_ne_nil _ (List.cons_ne_nil _ _))

theorem conflicts_of_ask {cell : Cell} {p : Completed}
    (h : (g.ask state k cell p).conflicts = []) : cell.conflicts = [] := by
  unfold ask at h
  split at h
  · exact conflicts_of_fill h
  · exact h

theorem conflicts_of_foldl_ask {l : List Completed} {cell : Cell}
    (h : (l.foldl (g.ask state k) cell).conflicts = []) : cell.conflicts = [] := by
  induction l generalizing cell with
  | nil => exact h
  | cons p l ih => exact conflicts_of_ask (ih h)

/-- A cell in the making of a token without precedence: never settled as an error, and holding a
reduction only by a production of the grammar. -/
structure Plain (g : Grammar) (cell : Cell) : Prop where
  unbarred : cell.barred = false
  reduce : ∀ p, cell.action.move = .reduce p → p < g.productions.size

theorem resolve_of_none (hk : g.tokenPrecedence? k = none) (level : Option UInt8) :
    resolve g k level = if k = .error then .shift else .conflict := by
  unfold resolve
  rw [hk]
  cases level <;> rfl

/-- What asking does to a cell of a token without precedence, if it raises no conflict. -/
theorem ask_cases (hb : g.productions.size < 2 ^ 30) (hk : g.tokenPrecedence? k = none)
    {cell : Cell} {p : Completed} (hp : p.production ≤ g.productions.size) (hc : g.Plain cell)
    (h : (g.ask state k cell p).conflicts = []) :
    (g.ask state k cell p = cell ∧ (p.lookaheads.contains k.index = true →
      cell.action.move = .reduce p.production ∨
        (k = .error ∧ ∃ target, cell.action.move = .shift target))) ∨
    (cell.action.move = .error ∧
      (g.ask state k cell p).action = g.construction.reduceAction p.production ∧
      g.Plain (g.ask state k cell p)) := by
  unfold ask at h ⊢
  by_cases hcontains : p.lookaheads.contains k.index = true
  · rw [if_pos hcontains] at h ⊢
    unfold Construction.fill at h ⊢
    dsimp only at h ⊢
    rw [hc.unbarred, if_neg Bool.false_ne_true] at h ⊢
    cases hm : cell.action.move with
    | error =>
      refine Or.inr ⟨rfl, rfl, ⟨rfl, fun q hq => ?_⟩⟩
      dsimp only at hq
      rw [move_reduceAction hb hp] at hq
      split at hq
      · cases hq
      · cases hq
        omega
    | shift target =>
      rw [hm] at h
      dsimp only at h ⊢
      rw [show resolve g.construction.analysis.augmented.grammar k p.level = _ from
        resolve_of_none hk p.level] at h ⊢
      by_cases hke : k = .error
      · rw [if_pos hke]
        exact Or.inl ⟨rfl, fun _ => Or.inr ⟨hke, target, rfl⟩⟩
      · rw [if_neg hke] at h
        exact absurd h (List.append_ne_nil_of_right_ne_nil _ (List.cons_ne_nil _ _))
    | reduce other =>
      rw [hm] at h
      dsimp only at h ⊢
      by_cases heq : other = p.production
      · rw [if_pos heq]
        exact Or.inl ⟨rfl, fun _ => Or.inl (by rw [heq])⟩
      · rw [if_neg heq] at h
        exact absurd h (List.append_ne_nil_of_right_ne_nil _ (List.cons_ne_nil _ _))
    | accept =>
      rw [hm] at h
      exact absurd h (List.append_ne_nil_of_right_ne_nil _ (List.cons_ne_nil _ _))
  · rw [if_neg hcontains]
    exact Or.inl ⟨rfl, fun hc => absurd hc hcontains⟩

/-- A cell that is not empty stays as it is. -/
theorem foldl_ask_of_ne (hb : g.productions.size < 2 ^ 30) (hk : g.tokenPrecedence? k = none)
    {l : List Completed} (hl : ∀ p ∈ l, p.production ≤ g.productions.size) {cell : Cell}
    (hc : g.Plain cell) (hne : cell.action.move ≠ .error)
    (h : (l.foldl (g.ask state k) cell).conflicts = []) : l.foldl (g.ask state k) cell = cell := by
  induction l with
  | nil => rfl
  | cons p l ih =>
    rw [List.foldl_cons] at h ⊢
    rcases ask_cases hb hk (hl p List.mem_cons_self) hc (conflicts_of_foldl_ask h) with
      ⟨heq, -⟩ | ⟨hm, -⟩
    · rw [heq] at h ⊢
      exact ih (fun q hq => hl q (List.mem_cons_of_mem _ hq)) h
    · exact absurd hm hne

/-- A production that the token may follow gets its cell. -/
theorem foldl_ask_of_mem (hb : g.productions.size < 2 ^ 30) (hk : g.tokenPrecedence? k = none)
    (hke : k ≠ .error) {l : List Completed} (hl : ∀ p ∈ l, p.production ≤ g.productions.size)
    {cell : Cell} (hc : g.Plain cell) (h : (l.foldl (g.ask state k) cell).conflicts = [])
    {p : Completed} (hp : p ∈ l) (hpk : p.lookaheads.contains k.index = true) :
    (l.foldl (g.ask state k) cell).action.move =
      (g.construction.reduceAction p.production).move := by
  induction l generalizing cell with
  | nil => cases hp
  | cons q l ih =>
    have hq := hl q List.mem_cons_self
    have hl' := fun r hr => hl r (List.mem_cons_of_mem _ hr)
    rw [List.foldl_cons] at h ⊢
    rcases List.mem_cons.1 hp with rfl | hp
    · rcases ask_cases hb hk hq hc (conflicts_of_foldl_ask h) with ⟨heq, hcell⟩ | ⟨-, hact, hplain⟩
      · rw [heq] at h ⊢
        have hmove := (hcell hpk).resolve_right fun he => hke he.1
        have hlt := hc.reduce _ hmove
        rw [foldl_ask_of_ne hb hk hl' hc (by rw [hmove]; exact Move.noConfusion) h, hmove,
          move_reduceAction hb hq, if_neg (Nat.ne_of_lt hlt)]
      · have hne : (g.ask state k cell p).action.move ≠ .error := by
          rw [hact, move_reduceAction hb hq]
          split <;> exact Move.noConfusion
        rw [foldl_ask_of_ne hb hk hl' hplain hne h, hact]
    · rcases ask_cases hb hk hq hc (conflicts_of_foldl_ask h) with ⟨heq, -⟩ | ⟨-, -, hplain⟩
      · rw [heq] at h ⊢
        exact ih hl' hc h hp
      · exact ih hl' hplain h hp

theorem conflicts_cell (h : ParseTable.build g = .ok t) (hs : state < g.automaton.size)
    (hk : k.index < Kind.tokenCount) : (g.cell state k).conflicts = [] := by
  have hrow := List.flatMap_eq_nil_iff.1 (build_eq_ok h).2 _
    (List.mem_of_getElem? (getElem?_rows hs))
  unfold Construction.rowConflicts at hrow
  have hsorted := List.map_eq_nil_iff.1 hrow
  have hperm := List.mergeSort_perm
    ((Kind.tokens.map (g.cell state)).flatMap Cell.conflicts) fun a b => a.1 ≤ b.1
  rw [hsorted] at hperm
  refine List.flatMap_eq_nil_iff.1 hperm.nil_eq.symm _ (List.mem_map.2 ⟨k, ?_, rfl⟩)
  exact mem_tokens_iff.2 hk

theorem production_le_of_mem_completedOf (hg : g.WellFormed) (hs : state < g.automaton.size)
    {p : Completed} (hp : p ∈ g.completedOf state) : p.production ≤ g.productions.size := by
  obtain ⟨item, hin, -, rfl⟩ := (mem_completedOf hs).1 hp
  have hlt := (mem_items.1 (mem_items_of_mem_closure_kernel hg hin.2)).1
  rw [size_productions] at hlt
  exact Nat.le_of_lt_succ hlt

/-- **A complete item that a token without precedence may follow is reduced before it.** -/
theorem move_of_follows (hg : g.WellFormed) (hb : g.productions.size < 2 ^ 30)
    (h : ParseTable.build g = .ok t) (hactions : t.actions.size ≤ 2 ^ 32)
    (hk : k.index < Kind.tokenCount) (hprec : g.tokenPrecedence? k = none) (hke : k ≠ .error)
    {item : Item} (hin : g.InState state item) (hr : g.analysis.remaining item = [])
    (hf : g.Follows state item k.index) : (t.explicitAction state k).move =
      if item.production = g.productions.size then .accept else .reduce item.production := by
  have hconf := conflicts_cell h hin.1 hk
  have hmem : g.completedItem state item ∈ g.completedOf state :=
    (mem_completedOf hin.1).2 ⟨item, hin, hr, rfl⟩
  have hle := fun p hp => production_le_of_mem_completedOf hg hin.1 (p := p) hp
  have hitem : item.production ≤ g.productions.size := hle _ hmem
  rw [explicitAction_eq h hactions hin.1 hk, ← move_reduceAction hb hitem]
  refine foldl_ask_of_mem hb hprec hke hle ⟨?_, ?_⟩ hconf hmem ((contains_completedItem hg).2 hf)
  · split <;> rfl
  · intro p hp
    split at hp
    · rw [Action.move_shift] at hp
      cases hp
    · cases hp

/-- **A token without precedence that a state moves on with is shifted.** -/
theorem move_of_next? (hg : g.WellFormed) (hb : g.productions.size < 2 ^ 30)
    (hsize : g.automaton.size ≤ 2 ^ 30) (h : ParseTable.build g = .ok t)
    (hactions : t.actions.size ≤ 2 ^ 32) (hk : k.index < Kind.tokenCount)
    (hprec : g.tokenPrecedence? k = none) {target : Nat}
    (hm : g.automaton.next? state (.terminal k) = some target) :
    (t.explicitAction state k).move = .shift target := by
  obtain ⟨hs, htarget⟩ := lt_of_next? hg hm
  have hconf := conflicts_cell h hs hk
  have hle := fun p hp => production_le_of_mem_completedOf hg hs (p := p) hp
  have hmove : (Action.shift target).move = .shift target := by
    rw [Action.move_shift, Nat.mod_eq_of_lt (Nat.lt_of_lt_of_le htarget hsize)]
  have hstart : g.cell state k =
      (g.completedOf state).foldl (g.ask state k) { action := .shift target } := by
    unfold cell Construction.cell
    rw [show g.construction.automaton.next? state (.terminal k) = some target from hm]
    rfl
  rw [explicitAction_eq h hactions hs hk, hstart, foldl_ask_of_ne hb hprec hle _ _ (hstart ▸ hconf)]
  · exact hmove
  · refine ⟨rfl, fun p hp => ?_⟩
    rw [hmove] at hp
    cases hp
  · rw [hmove]
    exact Move.noConfusion

/-! ## The end of the text -/

theorem exists_mem_of_terminal_mem_rhs {p : Nat} (h : .terminal k ∈ g.augmented.rhs p) :
    ∃ q ∈ g.productions, .terminal k ∈ q.rhs := by
  by_cases hp : p = g.productions.size
  · rw [hp, rhs_accept, List.mem_singleton] at h
    cases h
  · by_cases hlt : p < g.productions.size
    · rw [Augmented.rhs_eq (getElem?_augmented (Array.getElem?_eq_getElem hlt))] at h
      exact ⟨_, Array.getElem_mem hlt, h⟩
    · rw [rhs_of_size_le (by rw [size_productions]; omega)] at h
      cases h

theorem move_reduceAction_ne_shift (g : Grammar) (p target : Nat) :
    (g.construction.reduceAction p).move ≠ .shift target := by
  unfold Construction.reduceAction
  split
  · exact Move.noConfusion
  · rw [Action.move_reduce]
    exact Move.noConfusion

theorem eq_of_move_reduceAction {p : Nat} (h : (g.construction.reduceAction p).move = .accept) :
    p = g.productions.size := by
  unfold Construction.reduceAction at h
  split at h
  · next heq => exact heq
  · rw [Action.move_reduce] at h
    cases h

/-- The production of the whole input is followed by the end of the text only. -/
theorem eq_eof_of_follows_accept (hg : g.WellFormed) {item : Item}
    (hp : item.production = g.productions.size) (hf : g.Follows state item k.index) :
    k = .eof := by
  have h := lookahead_induction hg
    (F := fun id n => id = g.nonterminals.size → n = Kind.eof.index) (fun _ => rfl)
    (fun i _ id rest hr _ _ hid => absurd hid (Nat.ne_of_lt (lt_of_mem_rhs hg
      (mem_rhs_of_remaining hr))))
    (fun i _ id rest hr _ _ _ hid => absurd hid (Nat.ne_of_lt (lt_of_mem_rhs hg
      (mem_rhs_of_remaining hr)))) hf
  exact Kind.index_inj.1 (h (by rw [hp, lhs_accept hg]))

end Grammar

/-- The table accepts before the end of the text only. -/
def ParseTable.AcceptsAtEof (t : ParseTable) : Prop :=
  ∀ state k, (t.explicitAction state k).move = .accept → k = .eof

/-- A table that is built accepts before the end of the text only. -/
theorem Grammar.acceptsAtEof_of_build {g : Grammar} {t : ParseTable} (hg : g.WellFormed)
    (h : ParseTable.build g = .ok t) (hactions : t.actions.size ≤ 2 ^ 32) : t.AcceptsAtEof := by
  intro state k hmove
  rcases explicitAction_cases hg h hactions state k with he | ⟨n, -, he⟩ | ⟨item, -, -, hf, he⟩
  · rw [he] at hmove
    cases hmove
  · rw [he, Action.move_shift] at hmove
    cases hmove
  · rw [he] at hmove
    exact eq_eof_of_follows_accept hg (eq_of_move_reduceAction hmove) hf

/-- **A token that no production reads is never shifted.** -/
theorem Grammar.move_ne_shift {g : Grammar} {t : ParseTable} (hg : g.WellFormed)
    (h : ParseTable.build g = .ok t) (hactions : t.actions.size ≤ 2 ^ 32) {k : Kind}
    (hk : ∀ p ∈ g.productions, .terminal k ∉ p.rhs) (state target : Nat) :
    (t.explicitAction state k).move ≠ .shift target := by
  intro hmove
  rcases explicitAction_cases hg h hactions state k with he | ⟨n, hn, he⟩ | ⟨item, -, -, -, he⟩
  · rw [he] at hmove
    cases hmove
  · obtain ⟨p, -, hmem⟩ := exists_mem_rhs_of_next? hg hn
    obtain ⟨q, hq, hqe⟩ := exists_mem_of_terminal_mem_rhs hmem
    exact hk q hq hqe
  · rw [he] at hmove
    exact move_reduceAction_ne_shift g _ _ hmove

/-- A token that a row of symbols begins with stands there, or some production reads it. -/
theorem Grammar.mem_or_exists_of_begins {g : Grammar} {ss : List Symbol} {k : Kind}
    (h : g.Begins ss k) : .terminal k ∈ ss ∨ ∃ p ∈ g.productions, .terminal k ∈ p.rhs := by
  obtain ⟨rest, h⟩ := h
  induction h using Relation.ReflTransGen.head_induction_on with
  | refl => exact Or.inl List.mem_cons_self
  | head hstep _ ih =>
    refine ih.elim (fun hmem => ?_) Or.inr
    cases hstep with | @mk p hp before after =>
    simp only [List.mem_append] at hmem
    rcases hmem with hmem | hmem | hmem
    · exact Or.inl (List.mem_append_left _ hmem)
    · obtain ⟨i, hi⟩ := Array.getElem?_of_mem hp
      rw [← Augmented.rhs_eq hi] at hmem
      exact Or.inr (exists_mem_of_terminal_mem_rhs hmem)
    · exact Or.inl (List.mem_append_right _ (List.mem_cons_of_mem _ hmem))

/-- What follows an item is the end of the text, or some production reads it. -/
theorem Grammar.eq_eof_or_exists_of_follows {g : Grammar} (hg : g.WellFormed) {state : Nat}
    {item : Item} {k : Kind} (h : g.Follows state item k.index) :
    k = .eof ∨ ∃ p ∈ g.productions, .terminal k ∈ p.rhs := by
  refine lookahead_induction hg (F := fun _ n => ∀ k : Kind, k.index = n →
    k = .eof ∨ ∃ p ∈ g.productions, .terminal k ∈ p.rhs) ?_ ?_ ?_ h k rfl
  · exact fun k hk => Or.inl (Kind.index_inj.1 hk)
  · rintro i - _ rest hr n hn k rfl
    obtain ⟨k', hk', hbegins⟩ := (contains_firstOf hg).1 hn
    obtain rfl := Kind.index_inj.1 hk'
    refine Or.inr ((mem_or_exists_of_begins hbegins).elim (fun hmem => ?_) id)
    refine exists_mem_of_terminal_mem_rhs (p := i.production) ?_
    rw [remaining_eq_drop] at hr
    exact List.mem_of_mem_drop (by rw [hr]; exact List.mem_cons_of_mem _ hmem)
  · exact fun _ _ _ _ _ _ _ hn => hn

/-- **A token that no production reads is an error in every state**, unless it ends the text. -/
theorem Grammar.move_eq_error_of_not_mem_rhs {g : Grammar} {t : ParseTable} (hg : g.WellFormed)
    (h : ParseTable.build g = .ok t) (hactions : t.actions.size ≤ 2 ^ 32) {k : Kind}
    (hk : ∀ p ∈ g.productions, .terminal k ∉ p.rhs) (hne : k ≠ .eof) (state : Nat) :
    (t.explicitAction state k).move = .error := by
  rcases explicitAction_cases hg h hactions state k with he | ⟨n, hn, -⟩ | ⟨item, -, -, hf, -⟩
  · rw [he, Action.move_error]
  · obtain ⟨p, -, hmem⟩ := exists_mem_rhs_of_next? hg hn
    obtain ⟨q, hq, hqe⟩ := exists_mem_of_terminal_mem_rhs hmem
    exact absurd hqe (hk q hq)
  · rcases eq_eof_or_exists_of_follows hg hf with rfl | ⟨p, hp, hmem⟩
    · exact absurd rfl hne
    · exact absurd hmem (hk p hp)

/-- The end of the text is never shifted, and nothing else lets the parser accept. -/
structure ParseTable.EofOnly (t : ParseTable) : Prop where
  shift : ∀ state target, (t.explicitAction state .eof).move ≠ .shift target
  accept : ∀ state k, (t.explicitAction state k).move = .accept → k = .eof

/-- **A table that is built accepts at the end of the text only**, if no production reads it. -/
theorem Grammar.eofOnly_of_build {g : Grammar} {t : ParseTable} (hg : g.WellFormed)
    (h : ParseTable.build g = .ok t) (hactions : t.actions.size ≤ 2 ^ 32)
    (heof : ∀ p ∈ g.productions, .terminal .eof ∉ p.rhs) : t.EofOnly :=
  ⟨move_ne_shift hg h hactions heof, acceptsAtEof_of_build hg h hactions⟩

end AsmTree
