import AsmTree.Proofs.Table.Cells

/-!
# Default reductions and the cells that they stand for

A state that reduces whatever comes next has no other move in its row, but some cells of the row may
be empty: those of tokens that cannot follow, and those that precedence has settled as errors.
**Main statement (`move_of_default_of_follows`):** only a cell of the second sort is empty for a
token that may follow a complete production.
-/

namespace AsmTree

/-- The table that says what to do before each token, without default reductions. -/
def ParseTable.withoutDefaults (t : ParseTable) : ParseTable :=
  { t with defaults := Array.replicate t.defaults.size none }

namespace ParseTable

variable (t : ParseTable)

@[simp] theorem default?_withoutDefaults (state : Nat) :
    t.withoutDefaults.default? state = none := by
  rw [default?, withoutDefaults, Array.getElem?_replicate]
  split <;> rfl

@[simp] theorem stateCount_withoutDefaults : t.withoutDefaults.stateCount = t.stateCount :=
  Array.size_replicate

@[simp] theorem explicitAction_withoutDefaults (state : Nat) (k : Kind) :
    t.withoutDefaults.explicitAction state k = t.explicitAction state k := by
  rw [explicitAction, stateCount_withoutDefaults]
  rfl

end ParseTable

namespace Grammar

variable {g : Grammar} {t : ParseTable} {state p : Nat} {k : Kind} {cell : Cell}

/-- Nothing more can make the cell empty: it holds a move, or it is an error for good. -/
def Settled (cell : Cell) : Prop := cell.barred = true ∨ cell.action.move ≠ .error

theorem default?_eq_none_of_move (h : ParseTable.build g = .ok t)
    (hactions : t.actions.size ≤ 2 ^ 32) (hne : (t.explicitAction state k).move ≠ .error)
    (hreduce : ∀ p, (t.explicitAction state k).move ≠ .reduce p) : t.default? state = none := by
  cases hd : t.default? state with
  | none => rfl
  | some p =>
    refine absurd (move_of_default? h hactions hd fun he => hne ?_) (hreduce p)
    rw [he]
    rfl

theorem default?_of_shift (h : ParseTable.build g = .ok t) (hactions : t.actions.size ≤ 2 ^ 32)
    {target : Nat} (hm : (t.explicitAction state k).move = .shift target) :
    t.default? state = none := by
  refine default?_eq_none_of_move (k := k) h hactions ?_ ?_
  · rw [hm]
    exact Move.noConfusion
  · rw [hm]
    exact fun _ => Move.noConfusion

theorem default?_of_accept (h : ParseTable.build g = .ok t) (hactions : t.actions.size ≤ 2 ^ 32)
    (hm : (t.explicitAction state k).move = .accept) : t.default? state = none := by
  refine default?_eq_none_of_move (k := k) h hactions ?_ ?_
  · rw [hm]
    exact Move.noConfusion
  · rw [hm]
    exact fun _ => Move.noConfusion

theorem move_reduceAction_ne_error (g : Grammar) (p : Nat) :
    (g.construction.reduceAction p).move ≠ .error := by
  unfold Construction.reduceAction
  split
  · exact Move.noConfusion
  · rw [Action.move_reduce]
    exact Move.noConfusion

/-- A production that asks for a cell settles it. -/
theorem settled_fill (g : Grammar) (state : Nat) (k : Kind) (cell : Cell) (p : Completed) :
    Settled (g.construction.fill state k cell p) := by
  have hreduce := move_reduceAction_ne_error g p.production
  unfold Construction.fill
  dsimp only
  split
  · next hbarred => exact Or.inl hbarred
  · have hkeep : ∀ move, cell.action.move = move → move ≠ .error →
        cell.action.move ≠ .error := by
      rintro _ rfl hne
      exact hne
    split
    · exact Or.inr hreduce
    · next target hm =>
      split
      · exact Or.inr (hkeep _ hm Move.noConfusion)
      · exact Or.inr hreduce
      · exact Or.inl rfl
      · exact Or.inr (hkeep _ hm Move.noConfusion)
    · next hm =>
      split
      · exact Or.inr (hkeep _ hm Move.noConfusion)
      · exact Or.inr (hkeep _ hm Move.noConfusion)
    · next hm => exact Or.inr (hkeep _ hm Move.noConfusion)

theorem settled_ask (h : Settled cell) (p : Completed) : Settled (g.ask state k cell p) := by
  unfold ask
  split
  · exact settled_fill g state k cell p
  · exact h

theorem settled_foldl_ask {l : List Completed} (h : Settled cell) :
    Settled (l.foldl (g.ask state k) cell) := by
  induction l generalizing cell with
  | nil => exact h
  | cons p l ih => exact ih (settled_ask h p)

theorem settled_of_mem {l : List Completed} {p : Completed} (hp : p ∈ l)
    (hk : p.lookaheads.contains k.index = true) : Settled (l.foldl (g.ask state k) cell) := by
  induction l generalizing cell with
  | nil => cases hp
  | cons q l ih =>
    rcases List.mem_cons.1 hp with rfl | hp
    · have hask : g.ask state k cell p = g.construction.fill state k cell p := if_pos hk
      rw [List.foldl_cons, hask]
      exact settled_foldl_ask (settled_fill g state k cell p)
    · exact ih hp

/-- The cell of a token that may follow a complete item holds a move, unless precedence has settled
it as an error. -/
theorem settled_of_follows (hg : g.WellFormed) {item : Item} (hin : g.InState state item)
    (hr : g.analysis.remaining item = []) (hf : g.Follows state item k.index) :
    Settled (g.cell state k) :=
  settled_of_mem ((mem_completedOf hin.1).2 ⟨item, hin, hr, rfl⟩) ((contains_completedItem hg).2 hf)

/-- **Before a token that may follow, a default reduction is what the cell holds**, unless the cell
has been settled as an error. -/
theorem move_of_default_of_follows (hg : g.WellFormed) (h : ParseTable.build g = .ok t)
    (hactions : t.actions.size ≤ 2 ^ 32) (hd : t.default? state = some p)
    (hk : k.index < Kind.tokenCount) (hbarred : (g.cell state k).barred = false) {item : Item}
    (hin : g.InState state item) (hr : g.analysis.remaining item = [])
    (hf : g.Follows state item k.index) :
    (t.explicitAction state k).move = .reduce p := by
  refine move_of_default? h hactions hd fun he => ?_
  have hmove := (settled_of_follows hg hin hr hf).resolve_left (by rw [hbarred]; decide)
  rw [← explicitAction_eq h hactions hin.1 hk, he] at hmove
  exact hmove rfl

/-! ## Cells settled as errors -/

/-- How a token groups is how one of the levels groups. -/
theorem exists_level_of_tokenPrecedence? {n : UInt8} {assoc : Assoc}
    (h : g.tokenPrecedence? k = some (n, assoc)) : ∃ level ∈ g.levels, level.assoc = assoc := by
  have hfold : ∀ n assoc, g.tokenPrecedence? k = some (n, assoc) →
      ∃ level ∈ g.levels, level.assoc = assoc := by
    refine List.foldlRecOn (motive := fun found : Option (UInt8 × Assoc) => ∀ n assoc,
      found = some (n, assoc) → ∃ level ∈ g.levels, level.assoc = assoc) (g.levels.zipIdx 1) _ ?_ ?_
    · intro n assoc h
      cases h
    · rintro found hfound ⟨level, i⟩ hlevel n assoc h
      dsimp only at h
      split at h
      · cases h
        exact ⟨level, List.fst_mem_of_mem_zipIdx hlevel, rfl⟩
      · exact hfound n assoc h
  exact hfold n assoc h

theorem exists_nonAssoc_of_resolve {level : Option UInt8} (h : resolve g k level = .error) :
    ∃ level ∈ g.levels, level.assoc = .nonAssoc := by
  unfold resolve at h
  split at h
  · cases h
  · split at h
    · next rule token assoc hprec =>
      split at h
      · cases h
      · split at h
        · cases h
        · cases assoc with
          | left => cases h
          | right => cases h
          | nonAssoc => exact exists_level_of_tokenPrecedence? hprec
    · cases h

theorem barred_fill {p : Completed} (h : (g.construction.fill state k cell p).barred = true) :
    cell.barred = true ∨ resolve g k p.level = .error := by
  unfold Construction.fill at h
  dsimp only at h
  split at h
  · next hbarred => exact Or.inl hbarred
  · split at h
    · exact Or.inl h
    · split at h
      · exact Or.inl h
      · exact Or.inl h
      · next hresolve => exact Or.inr hresolve
      · exact Or.inl h
    · split at h
      · exact Or.inl h
      · exact Or.inl h
    · exact Or.inl h

/-- **A cell is settled as an error only by a level that does not group.** -/
theorem barred_eq_false (hlevels : ∀ level ∈ g.levels, level.assoc ≠ .nonAssoc) (state : Nat)
    (k : Kind) : (g.cell state k).barred = false := by
  unfold cell Construction.cell
  dsimp only
  refine List.foldlRecOn (motive := fun cell : Cell => cell.barred = false)
    (g.completedOf state) _ ?_ ?_
  · split <;> rfl
  · intro cell hcell p _
    split
    · by_contra hbarred
      rcases barred_fill (Bool.of_not_eq_false hbarred) with hb | hresolve
      · rw [hcell] at hb
        cases hb
      · obtain ⟨level, hlevel, hassoc⟩ := exists_nonAssoc_of_resolve hresolve
        exact hlevels level hlevel hassoc
    · exact hcell

end Grammar

end AsmTree
