import AsmTree.Proofs.Table.Cells
import AsmTree.Proofs.Table.Cover

/-!
# Grammars without conflicts

**Main statements:** a grammar whose kernels a search has found without a conflict has a table
(`build_of_search`), with no more states than the search has found kernels (`size_le_of_search`).
-/

namespace AsmTree

/-! ## What a settled state says -/

namespace Chart

variable {c : Chart} {o x : Nat} {ds : List Dotted} {d e : Dotted}

theorem testBit_heads_of_acc {acc : Nat} (h : acc.testBit x = true) :
    (heads acc ds).testBit x = true := by
  induction ds generalizing acc with
  | nil => exact h
  | cons d ds ih =>
    rw [heads]
    split
    · exact ih h
    · rw [cond_eq_ite, strictly_eq]
      split
      · exact ih h
      · refine ih ?_
        show (acc ||| _).testBit x = true
        rw [Nat.testBit_or, h, Bool.true_or]

theorem testBit_heads {acc : Nat} {k : Kind} {rest : List Nat} (hd : d ∈ ds)
    (hr : d.rest = (Symbol.terminal k).code :: rest) :
    (heads acc ds).testBit k.index = true := by
  induction ds generalizing acc with
  | nil => cases hd
  | cons e ds ih =>
    rw [heads]
    rcases List.mem_cons.1 hd with rfl | hd
    · rw [hr]
      dsimp only
      rw [isNonterminal_terminal, half_terminal, cond_false, strictly_eq]
      refine testBit_heads_of_acc ?_
      show (acc ||| 1 <<< k.index).testBit k.index = true
      simp [Nat.testBit_or, Nat.shiftLeft_eq, Nat.testBit_two_pow_self]
    · split
      · exact ih hd
      · rw [cond_eq_ite, strictly_eq]
        split <;> exact ih hd

theorem not_both_of_apart (h : c.apart ds = true) (hd : d ∈ ds) (he : e ∈ ds) (hne : d ≠ e)
    (hdx : (setAt c.follow d.lhs).testBit x = true) :
    (setAt c.follow e.lhs).testBit x = false := by
  have hand : ∀ {d e : Dotted},
      Nat.beq (Nat.land (setAt c.follow d.lhs) (setAt c.follow e.lhs)) 0 = true →
      ((setAt c.follow d.lhs).testBit x && (setAt c.follow e.lhs).testBit x) = false := by
    intro d e hzero
    rw [← Nat.testBit_and]
    show (Nat.land _ _).testBit x = false
    rw [Nat.eq_of_beq_eq_true hzero, Nat.zero_testBit]
  induction ds with
  | nil => cases hd
  | cons a ds ih =>
    rw [apart, Bool.and_eq_true, List.all_eq_true] at h
    rcases List.mem_cons.1 hd with rfl | hd'
    · rcases List.mem_cons.1 he with rfl | he'
      · exact absurd rfl hne
      · simpa [hdx] using hand (h.1 e he')
    · rcases List.mem_cons.1 he with rfl | he'
      · simpa [hdx] using hand (h.1 d hd')
      · exact ih h.2 hd' he'

theorem apart_of_settled (h : c.settled o ds = true) : c.apart (c.completed o ds) = true := by
  unfold settled at h
  split at h
  · next hnil =>
    rw [hnil]
    rfl
  · next d rest hcons =>
    rw [hcons]
    exact (Bool.and_eq_true _ _ ▸ h).1

theorem settles_of_settled (h : c.settled o ds = true) (hd : d ∈ c.completed o ds) :
    c.settles (c.shifts o ds) d = true := by
  unfold settled at h
  split at h
  · next hnil =>
    rw [hnil] at hd
    cases hd
  · next d' rest hcons =>
    rw [hcons] at hd
    rw [strictly_eq, Bool.and_eq_true, List.all_eq_true] at h
    exact h.2 d hd

/-- Precedence decides between a complete item and a token that may both follow it and be read. -/
theorem leveled_of_settles {shifts : Nat} (h : c.settles shifts d = true)
    (hfollow : (setAt c.follow d.lhs).testBit x = true) (hshift : shifts.testBit x = true) :
    c.leveled d.production = true ∧ c.unsettled.testBit x = false := by
  have hboth : (Nat.land (setAt c.follow d.lhs) shifts).testBit x = true := by
    show (setAt c.follow d.lhs &&& shifts).testBit x = true
    rw [Nat.testBit_and, hfollow, hshift]
    rfl
  rw [settles, strictly_eq, Bool.or_eq_true, Bool.and_eq_true] at h
  rcases h with hzero | ⟨hlevel, hzero⟩
  · rw [Nat.eq_of_beq_eq_true hzero, Nat.zero_testBit] at hboth
    cases hboth
  · refine ⟨hlevel, ?_⟩
    have hand : (Nat.land (setAt c.follow d.lhs) shifts &&& c.unsettled).testBit x = false := by
      show (Nat.land _ _).testBit x = false
      rw [Nat.eq_of_beq_eq_true hzero, Nat.zero_testBit]
    rwa [Nat.testBit_and, hboth, Bool.true_and] at hand

end Chart

namespace Grammar

variable {g : Grammar} {state : Nat} {k : Kind} {b : Bounds} {n fuel : Nat}
  {found : List (List Dotted)}

theorem testBit_unsettled (hk : k ∈ Kind.tokens) (hne : k ≠ .error)
    (hprec : g.tokenPrecedence? k = none) : g.unsettled.testBit k.index = true := by
  have hfold : ∀ (ks : List Kind) (acc : Nat), k ∈ ks ∨ acc.testBit k.index = true →
      (ks.foldl (fun n k => if k ≠ .error ∧ g.tokenPrecedence? k = none then
        Nat.lor n (Nat.shiftLeft 1 k.index) else n) acc).testBit k.index = true := by
    intro ks
    induction ks with
    | nil => exact fun acc h => h.resolve_left List.not_mem_nil
    | cons k' ks ih =>
      intro acc h
      rw [List.foldl_cons]
      refine ih _ ?_
      rcases h with hmem | hacc
      · rcases List.mem_cons.1 hmem with rfl | hmem
        · right
          rw [if_pos ⟨hne, hprec⟩]
          show (acc ||| 1 <<< k.index).testBit k.index = true
          simp [Nat.testBit_or, Nat.shiftLeft_eq, Nat.testBit_two_pow_self]
        · exact Or.inl hmem
      · right
        split
        · show (acc ||| 1 <<< k'.index).testBit k.index = true
          rw [Nat.testBit_or, hacc, Bool.true_or]
        · exact hacc
  exact hfold _ _ (Or.inl hk)

/-! ## The states of a search -/

/-- A search that has found all kernels of a grammar without a conflict. -/
structure Searched (g : Grammar) (b : Bounds) (n fuel : Nat) (found : List (List Dotted)) :
    Prop where
  wellFormed : g.WellFormed
  bounds : b.Closed g
  edges : edgesClosed g.coded g.augmented.nonterminalCount (g.chart b n).edges = true
  search : g.search b n fuel = some found

variable (h : g.Searched b n fuel found)

include h

theorem Searched.covers (hs : state < g.automaton.size) :
    (g.automaton.kernel state).map g.dotted ∈ found ∧
      (g.chart b n).settled (g.opens b n (g.automaton.kernel state))
        ((g.automaton.kernel state).map g.dotted) = true :=
  search_covers h.wellFormed h.edges h.search _
    ((automaton_ok g).reached _ _ (getElem?_kernels hs))

/-- **There are no more states than the search has found kernels.** -/
theorem Searched.size_le : g.automaton.size ≤ found.length := by
  let kernels := (List.range g.automaton.size).map fun state =>
    (g.automaton.kernel state).map g.dotted
  have hnodup : kernels.Nodup := by
    refine List.Nodup.map_on (fun a ha b hb hab => ?_) List.nodup_range
    rw [List.mem_range] at ha hb
    refine kernel_inj ha hb ?_
    rw [← map_item_dotted (g := g) (g.automaton.kernel a), hab, map_item_dotted]
  have hsub : kernels ⊆ found := by
    intro ds hds
    obtain ⟨state, hs, rfl⟩ := List.mem_map.1 hds
    exact (h.covers (List.mem_range.1 hs)).1
  have hle := (hnodup.subperm hsub).length_le
  simpa [kernels] using hle

theorem Searched.mem_chart {item : Item} (hin : g.InState state item)
    (hr : g.analysis.remaining item = []) : g.dotted item ∈
      (g.chart b n).completed (g.opens b n (g.automaton.kernel state))
        ((g.automaton.kernel state).map g.dotted) := by
  rw [Chart.completed, List.mem_append, Chart.within, List.mem_filter, List.mem_filter,
    List.mem_filter]
  rcases (mem_closure_iff_opens h.wellFormed h.edges).1 hin.2 with hk | ⟨hdot, hp, ho⟩
  · exact Or.inl ⟨List.mem_map.2 ⟨item, hk, rfl⟩, complete_dotted.2 hr⟩
  · obtain ⟨p, dot⟩ := item
    obtain rfl : dot = 0 := hdot
    exact Or.inr ⟨⟨mem_initialItems.2 ⟨p, hp, rfl⟩, complete_dotted.2 hr⟩, ho⟩

theorem Searched.testBit_shifts {item : Item} (hin : g.InState state item)
    (hr : (g.analysis.remaining item).head? = some (.terminal k)) :
    ((g.chart b n).shifts (g.opens b n (g.automaton.kernel state))
      ((g.automaton.kernel state).map g.dotted)).testBit k.index = true := by
  obtain ⟨rest, hrest⟩ := List.head?_eq_some_iff.1 hr
  have hcode : (g.dotted item).rest =
      (Symbol.terminal k).code :: rest.map Symbol.code := by
    rw [dotted, hrest, List.map_cons]
  rcases (mem_closure_iff_opens h.wellFormed h.edges).1 hin.2 with hk | ⟨hdot, hp, ho⟩
  · exact Chart.testBit_heads (List.mem_map.2 ⟨item, hk, rfl⟩) hcode
  · refine Chart.testBit_heads_of_acc ?_
    have hzero : Nat.beq (g.opens b n (g.automaton.kernel state)) 0 = false := by
      rw [← Bool.not_eq_true, Nat.beq_eq]
      intro hz
      rw [hz, hasBit_eq, Nat.zero_testBit] at ho
      cases ho
    rw [hzero, cond_false]
    obtain ⟨p, dot⟩ := item
    obtain rfl : dot = 0 := hdot
    exact Chart.testBit_heads (List.mem_filter.2 ⟨mem_initialItems.2 ⟨p, hp, rfl⟩, ho⟩) hcode

theorem Searched.eq_of_follows {i j : Item} (hi : g.InState state i)
    (hir : g.analysis.remaining i = []) (hik : g.Follows state i k.index)
    (hj : g.InState state j) (hjr : g.analysis.remaining j = [])
    (hjk : g.Follows state j k.index) : i = j := by
  by_contra hne
  have hapart := Chart.apart_of_settled (h.covers hi.1).2
  have hdotted : g.dotted i ≠ g.dotted j := fun heq => hne (congrArg Dotted.item heq)
  have hnot := Chart.not_both_of_apart hapart (h.mem_chart hi hir) (h.mem_chart hj hjr)
    hdotted (h.bounds.follows h.wellFormed hik)
  exact Bool.false_ne_true (hnot.symm.trans (h.bounds.follows h.wellFormed hjk))

/-- Precedence decides between a complete item and a token that is read where it may follow. -/
theorem Searched.resolve_ne {item : Item} {target : Nat} (hk : k ∈ Kind.tokens)
    (hin : g.InState state item) (hr : g.analysis.remaining item = [])
    (hf : g.Follows state item k.index)
    (hm : g.automaton.next? state (.terminal k) = some target) :
    resolve g k (g.completedItem state item).level ≠ .conflict := by
  obtain ⟨j, hj⟩ := List.exists_mem_of_ne_nil _ (kernel_ne_nil (lt_of_next? h.wellFormed hm).2)
  obtain ⟨i, hi, hs, -⟩ := exists_of_next? h.wellFormed hm hj
  obtain ⟨hlevel, hunsettled⟩ := Chart.leveled_of_settles
    (Chart.settles_of_settled (h.covers hin.1).2 (h.mem_chart hin hr))
    (h.bounds.follows h.wellFormed hf) (h.testBit_shifts ⟨hin.1, hi⟩ hs)
  obtain ⟨level, hsome⟩ := Option.isSome_iff_exists.1 hlevel
  unfold resolve
  split
  · exact Resolution.noConfusion
  · next hne =>
    cases hprec : g.tokenPrecedence? k with
    | none =>
      rw [show (g.chart b n).unsettled = g.unsettled from rfl,
        testBit_unsettled hk hne hprec] at hunsettled
      cases hunsettled
    | some found =>
      obtain ⟨token, assoc⟩ := found
      rw [show (g.completedItem state item).level = some level from hsome]
      dsimp only
      split
      · exact Resolution.noConfusion
      · split
        · exact Resolution.noConfusion
        · split <;> exact Resolution.noConfusion

omit h

/-! ## Cells without conflicts -/

theorem nodup_productionsOf (hg : g.WellFormed) (id : Nat) :
    (g.augmented.productionsOf id).Nodup := by
  have hlhs : ∀ q ∈ g.augmented.productions.toList.zipIdx,
      q.1.lhs < g.augmented.nonterminalCount := by
    rintro ⟨q, i⟩ hq
    exact lhs_lt_of_mem hg (Array.mem_of_getElem? (mem_zipIdx_productions.1 hq))
  rw [show g.augmented.productionsOf id = _ from getD_foldr_modify _ id hlhs]
  refine List.Nodup.sublist (List.filter_sublist.map _) ?_
  rw [List.zipIdx_map_snd]
  exact List.nodup_range'

/-- No item stands twice in a state. -/
theorem nodup_closure (hg : g.WellFormed) (state : Nat) :
    (g.analysis.closure (g.automaton.kernel state)).Nodup := by
  unfold Analysis.closure Analysis.initialItems
  refine List.Nodup.append ((strict_kernel g state).imp fun h => h.2) ?_ ?_
  · refine List.nodup_flatMap.2 ⟨fun id _ => ?_, ?_⟩
    · exact (nodup_productionsOf hg id).map fun p q hpq => (Item.mk.inj hpq).1
    · refine (BitSet.nodup_members _ _).imp fun {a b} hab => ?_
      intro item ha hb
      obtain ⟨p, hp, rfl⟩ := List.mem_map.1 ha
      obtain ⟨q, hq, hpq⟩ := List.mem_map.1 hb
      obtain rfl := (Item.mk.inj hpq).1
      exact hab (((mem_productionsOf hg).1 hp).2.symm.trans ((mem_productionsOf hg).1 hq).2)
  · intro item hk hinitial
    obtain ⟨id, hid, hmem⟩ := List.mem_flatMap.1 hinitial
    obtain ⟨p, hp, rfl⟩ := List.mem_map.1 hmem
    obtain ⟨-, rfl⟩ := (mem_productionsOf hg).1 hp
    exact not_mem_kernel_of_open hg hid hk

/-- If no two productions ask for a cell, at most one fills it. -/
theorem foldl_ask_of_pairwise {l : List Completed}
    (hl : l.Pairwise fun p q => p.lookaheads.contains k.index = true →
      q.lookaheads.contains k.index = true → False) (cell : Cell) :
    l.foldl (g.ask state k) cell = cell ∨ ∃ p ∈ l, p.lookaheads.contains k.index = true ∧
      l.foldl (g.ask state k) cell = g.construction.fill state k cell p := by
  induction l with
  | nil => exact Or.inl rfl
  | cons p l ih =>
    obtain ⟨hhead, htail⟩ := List.pairwise_cons.1 hl
    rw [List.foldl_cons]
    by_cases hp : p.lookaheads.contains k.index = true
    · have hrest : ∀ cell, l.foldl (g.ask state k) cell = cell := by
        intro cell
        refine List.foldlRecOn (motive := fun c => c = cell) l _ rfl ?_
        intro c hc q hq
        rw [ask, if_neg fun hq' => hhead q hq hp hq']
        exact hc
      refine Or.inr ⟨p, List.mem_cons_self, hp, ?_⟩
      rw [hrest, ask, if_pos hp]
    · rw [show g.ask state k cell p = cell from if_neg hp]
      rcases ih htail with hnone | ⟨q, hq, hqk, he⟩
      · exact Or.inl hnone
      · exact Or.inr ⟨q, List.mem_cons_of_mem _ hq, hqk, he⟩

theorem Searched.pairwise_completedOf (h : g.Searched b n fuel found)
    (hs : state < g.automaton.size) :
    (g.completedOf state).Pairwise fun p q => p.lookaheads.contains k.index = true →
      q.lookaheads.contains k.index = true → False := by
  have hmap : ((g.construction.completed state).map (g.completedItem state)).Pairwise
      fun p q => p.lookaheads.contains k.index = true →
        q.lookaheads.contains k.index = true → False := by
    rw [List.pairwise_map]
    have hnodup : (g.construction.completed state).Nodup :=
      (nodup_closure h.wellFormed state).filter _
    refine List.Pairwise.imp_of_mem (fun {i j} hi hj hne hik hjk => ?_) hnodup
    obtain ⟨hiin, hir⟩ := (mem_completed hs).1 hi
    obtain ⟨hjin, hjr⟩ := (mem_completed hs).1 hj
    exact hne (h.eq_of_follows hiin hir ((contains_completedItem h.wellFormed).1 hik) hjin hjr
      ((contains_completedItem h.wellFormed).1 hjk))
  refine (List.Perm.pairwise_iff ?_ (List.mergeSort_perm _ _)).2 hmap
  exact fun {p q} hpq hq hp => hpq hp hq

/-- A cell before any production asks for it. -/
def startCell (g : Grammar) (state : Nat) (k : Kind) : Cell :=
  match g.automaton.next? state (.terminal k) with
  | some target => { action := .shift target }
  | none => { action := .error }

theorem cell_eq_foldl (g : Grammar) (state : Nat) (k : Kind) :
    g.cell state k = (g.completedOf state).foldl (g.ask state k) (g.startCell state k) :=
  rfl

theorem conflicts_startCell (g : Grammar) (state : Nat) (k : Kind) :
    (g.startCell state k).conflicts = [] := by
  unfold startCell
  split <;> rfl

theorem Searched.conflicts_cell (h : g.Searched b n fuel found) (hs : state < g.automaton.size)
    (hk : k ∈ Kind.tokens) : (g.cell state k).conflicts = [] := by
  rw [cell_eq_foldl]
  rcases foldl_ask_of_pairwise (h.pairwise_completedOf hs) (g.startCell state k) with
    hnone | ⟨p, hp, hpk, he⟩
  · rw [hnone, conflicts_startCell]
  · rw [he]
    obtain ⟨item, hin, hr, rfl⟩ := (mem_completedOf hs).1 hp
    have hf := (contains_completedItem h.wellFormed).1 hpk
    unfold Construction.fill startCell
    cases hm : g.automaton.next? state (.terminal k) with
    | none => rfl
    | some target =>
      have hne := h.resolve_ne hk hin hr hf hm
      simp only [Action.move_shift, Bool.false_eq_true, if_false]
      split
      · rfl
      · rfl
      · rfl
      · next hconflict => exact absurd hconflict hne

/-- A table is built if its cells have no conflicts. -/
theorem exists_build_of_conflicts (hg : g.WellFormed) (h : ∀ state < g.automaton.size,
    ∀ k ∈ Kind.tokens, (g.cell state k).conflicts = []) : ∃ t, ParseTable.build g = .ok t := by
  have hnone : g.rows.flatMap Construction.rowConflicts = [] := by
    refine List.flatMap_eq_nil_iff.2 fun row hrow => ?_
    obtain ⟨state, hs, rfl⟩ := List.mem_map.1 hrow
    have hcells : (g.construction.row g.construction.lookaheads state).flatMap
        Cell.conflicts = [] := by
      refine List.flatMap_eq_nil_iff.2 fun cell hcell => ?_
      obtain ⟨k, hk, rfl⟩ := List.mem_map.1 hcell
      exact h state (List.mem_range.1 hs) k hk
    rw [Construction.rowConflicts, hcells]
    simp
  refine ⟨g.construction.toTable g.rows, ?_⟩
  rw [build_of_wellFormed hg, hnone]

/-- **A grammar whose kernels have no conflicts has a table.** -/
theorem Searched.build (h : g.Searched b n fuel found) : ∃ t, ParseTable.build g = .ok t :=
  exists_build_of_conflicts h.wellFormed fun _ hs _ hk => h.conflicts_cell hs hk

end Grammar

end AsmTree
