import AsmTree.Proofs.Table.Canonical
import AsmTree.Proofs.Table.Certificate
import Mathlib.Data.Set.Subsingleton

/-!
# What precedence makes of a cell

The rules for the cell of a state and a token, in the terms of the canonical collection: by the
state behind the token, if there is one, and by the productions that are complete in the state and
have the token for a lookahead. The productions ask for a cell one after the other; since each
production is complete in a state at most once, a cell sees all that ask for it in strict order, and
the first two of them tell whether it has a conflict. **Main statement
(`RuleSet.followsYacc_of_toGrammar`):** a table holds what the rules say, and a grammar has no table
where they say nothing.
-/

namespace AsmTree

/-- How equal levels are settled. -/
def Assoc.resolution : Assoc → Resolution
  | .left => .reduce
  | .right => .shift
  | .nonAssoc => .error

namespace Grammar

/-! ## The rules -/

/-- The state that a state moves to with a token. -/
def shiftOf? (g : Grammar) (state : Nat) (k : Kind) : Option Nat :=
  g.automaton.next? state (.terminal k)

/-- The productions that are complete in a state and have the token for a lookahead there. -/
def finished (g : Grammar) (state : Nat) (k : Kind) : Set Nat :=
  {p | ∃ item : Item, item.production = p ∧ g.Stands (g.coreOf state) item ∧
    g.unread item = [] ∧ ∃ c, g.Canonical c ∧ c.core = g.coreOf state ∧ c.Looks g item k}

/-- The level of a production of the augmented grammar. That of the whole input has none. -/
def levelOf? (g : Grammar) (p : Nat) : Option UInt8 :=
  (g.productions[p]?).bind g.productionLevel?

/-- What the cell of a token holds, by the state behind the token and the productions that are
complete before it, if there is at most one. -/
inductive Decided (g : Grammar) (k : Kind) : Option Nat → Set Nat → Action → Prop where
  | empty : Decided g k none ∅ .error
  | shift {target : Nat} : Decided g k (some target) ∅ (.shift target)
  | reduce {p : Nat} : p ≠ g.productions.size → Decided g k none {p} (.reduce p)
  | accept : k = .eof → Decided g k none {g.productions.size} .accept
  | region {target p : Nat} : k = .error → Decided g k (some target) {p} (.shift target)
  | tighter {target p : Nat} {rule token : UInt8} {assoc : Assoc} : k ≠ .error →
    g.levelOf? p = some rule → g.tokenPrecedence? k = some (token, assoc) → rule < token →
    Decided g k (some target) {p} (.shift target)
  | looser {target p : Nat} {rule token : UInt8} {assoc : Assoc} : k ≠ .error →
    g.levelOf? p = some rule → g.tokenPrecedence? k = some (token, assoc) → token < rule →
    Decided g k (some target) {p} (.reduce p)
  | left {target p : Nat} {level : UInt8} : k ≠ .error → g.levelOf? p = some level →
    g.tokenPrecedence? k = some (level, .left) → Decided g k (some target) {p} (.reduce p)
  | right {target p : Nat} {level : UInt8} : k ≠ .error → g.levelOf? p = some level →
    g.tokenPrecedence? k = some (level, .right) → Decided g k (some target) {p} (.shift target)
  | nonAssoc {target p : Nat} {level : UInt8} : k ≠ .error → g.levelOf? p = some level →
    g.tokenPrecedence? k = some (level, .nonAssoc) → Decided g k (some target) {p} .error

/-- The cells that nothing decides: two productions and no shift, or a shift against one production
where one of them has no level. -/
inductive Undecided (g : Grammar) (state : Nat) (k : Kind) : Prop where
  | reductions : g.shiftOf? state k = none → (g.finished state k).Nontrivial →
    Undecided g state k
  | unleveled {target p : Nat} : k ≠ .error → g.shiftOf? state k = some target →
    g.finished state k = {p} → g.tokenPrecedence? k = none ∨ g.levelOf? p = none →
    Undecided g state k

/-- The table of a grammar follows the rules. -/
structure FollowsYacc (g : Grammar) : Prop where
  /-- A cell that at most one production asks for is as decided. -/
  cells : ∀ t, ParseTable.build g = .ok t → t.actions.size ≤ 2 ^ 32 →
    ∀ state < g.automaton.size, ∀ k : Kind, k.index < Kind.tokenCount →
      (g.finished state k).Subsingleton →
      g.Decided k (g.shiftOf? state k) (g.finished state k) (t.explicitAction state k)
  /-- Where nothing decides a cell there is no table. -/
  reported : ∀ state < g.automaton.size, ∀ k : Kind, k.index < Kind.tokenCount →
    g.Undecided state k → ∃ found, ParseTable.build g = .error (.conflicts found)
  /-- If no cell has a shift together with several productions, there is a table unless nothing
  decides some cell. -/
  silent : (∀ state < g.automaton.size, ∀ k : Kind, k.index < Kind.tokenCount →
      g.shiftOf? state k ≠ none → (g.finished state k).Subsingleton) →
    ∀ e, ParseTable.build g = .error e → ∃ state < g.automaton.size, ∃ k : Kind,
      k.index < Kind.tokenCount ∧ g.Undecided state k

/-! ## The productions that ask for a cell -/

variable {g : Grammar} {state : Nat} {k : Kind} {item : Item}

theorem follows_iff_canonical (hg : g.WellFormed) (hs : state < g.automaton.size) :
    g.Follows state item k.index ↔
      ∃ c, g.Canonical c ∧ c.core = g.coreOf state ∧ c.Looks g item k := by
  constructor
  · intro h
    obtain ⟨k', hk, hc⟩ := h.exists_canonical hg
    rwa [Kind.index_inj.1 hk] at hc
  · rintro ⟨c, hc, hcore, hlooks⟩
    obtain ⟨state', hs', hcore', hfollows⟩ := hc.exists_state hg
    obtain rfl := coreOf_inj hs hs' (hcore.symm.trans hcore')
    exact hfollows _ _ hlooks

theorem mem_finished_of_complete (hg : g.WellFormed) (hc : g.Complete state item)
    (hf : g.Follows state item k.index) : item.production ∈ g.finished state k :=
  ⟨item, rfl, (stands_coreOf hg).2 hc.inState.2, (unread_eq g item).trans hc.remaining,
    (follows_iff_canonical hg hc.inState.1).1 hf⟩

theorem exists_of_mem_finished (hg : g.WellFormed) (hs : state < g.automaton.size) {p : Nat}
    (hp : p ∈ g.finished state k) : ∃ item : Item, item.production = p ∧ g.Complete state item ∧
      g.Follows state item k.index := by
  obtain ⟨item, rfl, hstands, hr, hc⟩ := hp
  exact ⟨item, rfl, ⟨⟨hs, (stands_coreOf hg).1 hstands⟩, (unread_eq g item).symm.trans hr⟩,
    (follows_iff_canonical hg hs).2 hc⟩

/-- The complete productions that have the token for a lookahead, in order. -/
def asking (g : Grammar) (state : Nat) (k : Kind) : List Completed :=
  (g.completedOf state).filter (·.lookaheads.contains k.index)

theorem cell_eq_fill (g : Grammar) (state : Nat) (k : Kind) : g.cell state k =
    (g.asking state k).foldl (g.construction.fill state k) (g.startCell state k) := by
  rw [asking, List.foldl_filter]
  rfl

theorem mem_finished (hg : g.WellFormed) (hs : state < g.automaton.size) {n : Nat} :
    n ∈ g.finished state k ↔ ∃ p ∈ g.asking state k, p.production = n := by
  unfold finished asking
  constructor
  · rintro ⟨item, rfl, hstands, hr, hc⟩
    have hin : g.InState state item := ⟨hs, (stands_coreOf hg).1 hstands⟩
    refine ⟨g.completedItem state item, List.mem_filter.2 ⟨?_, ?_⟩, rfl⟩
    · exact (mem_completedOf hs).2 ⟨item, hin, (unread_eq g item).symm.trans hr, rfl⟩
    · exact (contains_completedItem hg).2 ((follows_iff_canonical hg hs).2 hc)
  · rintro ⟨p, hp, rfl⟩
    obtain ⟨hmem, hk⟩ := List.mem_filter.1 hp
    obtain ⟨item, hin, hr, rfl⟩ := (mem_completedOf hs).1 hmem
    exact ⟨item, rfl, (stands_coreOf hg).2 hin.2, (unread_eq g item).trans hr,
      (follows_iff_canonical hg hs).1 ((contains_completedItem hg).1 hk)⟩

theorem level_of_mem_asking (hs : state < g.automaton.size) {p : Completed}
    (hp : p ∈ g.asking state k) : p.level = g.levelOf? p.production := by
  obtain ⟨item, -, -, rfl⟩ := (mem_completedOf hs).1 (List.mem_filter.1 hp).1
  rfl

/-- A production is complete in a state at most once. -/
theorem pairwise_completedOf (hg : g.WellFormed) (hs : state < g.automaton.size) :
    (g.completedOf state).Pairwise fun p q => p.production < q.production := by
  have hne : ((g.construction.completed state).map (g.completedItem state)).Pairwise
      fun p q => p.production ≠ q.production := by
    rw [List.pairwise_map]
    have hnodup : (g.construction.completed state).Nodup := (nodup_closure hg state).filter _
    refine List.Pairwise.imp_of_mem (fun {i j} hi hj hij heq => hij ?_) hnodup
    obtain ⟨hiin, hir⟩ := (mem_completed hs).1 hi
    obtain ⟨hjin, hjr⟩ := (mem_completed hs).1 hj
    have hidot := dot_of_complete (mem_items_of_mem_closure_kernel hg hiin.2) hir
    have hjdot := dot_of_complete (mem_items_of_mem_closure_kernel hg hjin.2) hjr
    replace heq : i.production = j.production := heq
    cases i
    cases j
    simp_all
  have hsorted : (g.completedOf state).Pairwise fun p q => p.production ≤ q.production := by
    refine (List.pairwise_mergeSort ?_ ?_ _).imp of_decide_eq_true
    · intro a b c hab hbc
      simp only [decide_eq_true_eq] at *
      omega
    · intro a b
      simp only [Bool.or_eq_true, decide_eq_true_eq]
      omega
  have hdistinct := (List.Perm.pairwise_iff (fun {_ _} h => Ne.symm h)
    (List.mergeSort_perm ((g.construction.completed state).map (g.completedItem state))
      fun a b => a.production ≤ b.production)).2 hne
  exact hsorted.imp₂ (fun _ _ hle hne => Nat.lt_of_le_of_ne hle hne) hdistinct

theorem pairwise_asking (hg : g.WellFormed) (hs : state < g.automaton.size) :
    (g.asking state k).Pairwise fun p q => p.production < q.production :=
  (pairwise_completedOf hg hs).filter _

theorem asking_eq_nil (hg : g.WellFormed) (hs : state < g.automaton.size)
    (h : g.finished state k = ∅) : g.asking state k = [] := by
  refine List.eq_nil_iff_forall_not_mem.2 fun p hp => ?_
  exact h.subset ((mem_finished hg hs).2 ⟨p, hp, rfl⟩)

theorem asking_eq_singleton (hg : g.WellFormed) (hs : state < g.automaton.size) {n : Nat}
    (h : g.finished state k = {n}) :
    ∃ p, g.asking state k = [p] ∧ p.production = n ∧ p.level = g.levelOf? n := by
  have hall : ∀ p ∈ g.asking state k, p.production = n := fun p hp =>
    h.subset ((mem_finished hg hs).2 ⟨p, hp, rfl⟩)
  obtain ⟨p, hp, hpn⟩ := (mem_finished hg hs).1 (h ▸ Set.mem_singleton n)
  have hlevel := level_of_mem_asking hs hp
  have hpairs := pairwise_asking (k := k) hg hs
  match hlist : g.asking state k with
  | [] =>
    rw [hlist] at hp
    cases hp
  | [q] =>
    rw [hlist, List.mem_singleton] at hp
    subst hp
    exact ⟨p, rfl, hpn, hpn ▸ hlevel⟩
  | q :: r :: rest =>
    rw [hlist] at hall hpairs
    have hlt := List.rel_of_pairwise_cons hpairs (List.mem_cons_self (a := r) (l := rest))
    rw [hall q List.mem_cons_self, hall r (List.mem_cons_of_mem _ List.mem_cons_self)] at hlt
    exact absurd hlt (Nat.lt_irrefl n)

theorem asking_eq_cons_cons (hg : g.WellFormed) (hs : state < g.automaton.size)
    (h : (g.finished state k).Nontrivial) :
    ∃ p q rest, g.asking state k = p :: q :: rest ∧ p.production < q.production := by
  obtain ⟨m, hm, n, hn, hne⟩ := h
  obtain ⟨p, hp, rfl⟩ := (mem_finished hg hs).1 hm
  obtain ⟨q, hq, rfl⟩ := (mem_finished hg hs).1 hn
  have hpairs := pairwise_asking (k := k) hg hs
  match hlist : g.asking state k with
  | [] =>
    rw [hlist] at hp
    cases hp
  | [r] =>
    rw [hlist, List.mem_singleton] at hp hq
    rw [hp, hq] at hne
    exact absurd rfl hne
  | r :: r' :: rest =>
    rw [hlist] at hpairs
    exact ⟨r, r', rest, rfl, List.rel_of_pairwise_cons hpairs List.mem_cons_self⟩

/-! ## Filling a cell -/

theorem conflicts_of_foldl_fill {l : List Completed} {cell : Cell}
    (h : (l.foldl (g.construction.fill state k) cell).conflicts = []) : cell.conflicts = [] := by
  induction l generalizing cell with
  | nil => exact h
  | cons p l ih => exact conflicts_of_fill (ih h)

theorem fill_startCell_of_none (h : g.shiftOf? state k = none) (p : Completed) :
    g.construction.fill state k (g.startCell state k) p =
      { action := g.construction.reduceAction p.production } := by
  rw [startCell, show g.automaton.next? state (.terminal k) = none from h]
  rfl

/-- Against a shift the levels decide. -/
theorem fill_startCell_of_some {target : Nat} (h : g.shiftOf? state k = some target)
    (p : Completed) : g.construction.fill state k (g.startCell state k) p =
      match resolve g k p.level with
      | .shift => { action := .shift target }
      | .reduce => { action := g.construction.reduceAction p.production }
      | .error => { action := .error, barred := true }
      | .conflict =>
        { action := .shift target
          conflicts :=
            [(p.production, .shiftReduce state k (g.augmented.describe p.production))] } := by
  rw [startCell, show g.automaton.next? state (.terminal k) = some target from h]
  unfold Construction.fill
  simp only [Action.move_shift, Bool.false_eq_true, if_false, List.nil_append]
  rfl

theorem conflicts_fill_ne_nil {p q : Completed} (h : p.production < q.production) :
    (g.construction.fill state k { action := g.construction.reduceAction p.production } q).conflicts
      ≠ [] := by
  unfold Construction.fill Construction.reduceAction
  simp only [Bool.false_eq_true, if_false]
  by_cases hp : p.production = g.construction.analysis.augmented.acceptProduction
  · simp [hp]
  · -- the word names the production as far as it has room, which is never more than it
    have hne : p.production % 2 ^ 30 ≠ q.production :=
      Nat.ne_of_lt (Nat.lt_of_le_of_lt (Nat.mod_le _ _) h)
    simp only [if_neg hp, Action.move_reduce, if_neg hne]
    exact List.cons_ne_nil _ _

theorem resolve_error (g : Grammar) (level : Option UInt8) : resolve g .error level = .shift := rfl

theorem resolve_of_levels {rule token : UInt8} {assoc : Assoc} (hk : k ≠ .error)
    (htoken : g.tokenPrecedence? k = some (token, assoc)) : resolve g k (some rule) =
      if rule < token then .shift else if token < rule then .reduce else assoc.resolution := by
  unfold resolve
  rw [if_neg hk, htoken]
  rfl

theorem resolve_eq_conflict {level : Option UInt8} : resolve g k level = .conflict ↔
    k ≠ .error ∧ (g.tokenPrecedence? k = none ∨ level = none) := by
  by_cases hk : k = .error
  · subst hk
    simp [resolve_error]
  · cases hprec : g.tokenPrecedence? k with
    | none =>
      rw [resolve_of_none hprec, if_neg hk]
      simp [hk]
    | some found =>
      obtain ⟨token, assoc⟩ := found
      cases level with
      | none => simp [resolve, hk]
      | some rule =>
        rw [resolve_of_levels hk hprec]
        split_ifs
        · simp
        · simp
        · cases assoc <;> simp [Assoc.resolution]

/-! ## Cells with and without conflicts -/

/-- After a search without conflicts at most one production asks for each cell. -/
theorem Searched.subsingleton_finished {b : Bounds} {n fuel : Nat} {found : List (List Dotted)}
    (h : g.Searched b n fuel found) (hs : state < g.automaton.size) (k : Kind) :
    (g.finished state k).Subsingleton := by
  have hg := h.wellFormed
  rintro _ ⟨i, rfl, hi, hir, hif⟩ _ ⟨j, rfl, hj, hjr, hjf⟩
  rw [h.eq_of_follows ⟨hs, (stands_coreOf hg).1 hi⟩ ((unread_eq g i).symm.trans hir)
    ((follows_iff_canonical hg hs).2 hif) ⟨hs, (stands_coreOf hg).1 hj⟩
    ((unread_eq g j).symm.trans hjr) ((follows_iff_canonical hg hs).2 hjf)]

/-- A cell has a conflict where nothing decides it. -/
theorem Undecided.conflicts_ne_nil (hg : g.WellFormed) (hs : state < g.automaton.size)
    (h : g.Undecided state k) : (g.cell state k).conflicts ≠ [] := by
  rw [cell_eq_fill]
  cases h with
  | reductions hnone hmany =>
    obtain ⟨p, q, rest, hasking, hlt⟩ := asking_eq_cons_cons hg hs hmany
    rw [hasking, List.foldl_cons, List.foldl_cons, fill_startCell_of_none hnone]
    exact fun hnil => conflicts_fill_ne_nil hlt (conflicts_of_foldl_fill hnil)
  | unleveled hk hsome hone hlevel =>
    obtain ⟨p, hasking, -, hp⟩ := asking_eq_singleton hg hs hone
    rw [hasking, List.foldl_cons, List.foldl_nil, fill_startCell_of_some hsome,
      resolve_eq_conflict.2 ⟨hk, hp ▸ hlevel⟩]
    exact List.cons_ne_nil _ _

/-- A cell that at most one production asks for has a conflict only where nothing decides it. -/
theorem undecided_of_conflicts (hg : g.WellFormed) (hs : state < g.automaton.size)
    (h : g.shiftOf? state k ≠ none → (g.finished state k).Subsingleton)
    (hc : (g.cell state k).conflicts ≠ []) : g.Undecided state k := by
  rw [cell_eq_fill] at hc
  by_cases hmany : (g.finished state k).Nontrivial
  · refine .reductions ?_ hmany
    by_contra hsome
    exact Set.not_nontrivial_iff.2 (h hsome) hmany
  · rcases (Set.not_nontrivial_iff.1 hmany).eq_empty_or_singleton with hnone | ⟨n, hone⟩
    · rw [asking_eq_nil hg hs hnone] at hc
      exact absurd (conflicts_startCell g state k) hc
    · obtain ⟨p, hasking, -, hp⟩ := asking_eq_singleton hg hs hone
      rw [hasking, List.foldl_cons, List.foldl_nil] at hc
      cases hshift : g.shiftOf? state k with
      | none =>
        rw [fill_startCell_of_none hshift] at hc
        exact absurd rfl hc
      | some target =>
        rw [fill_startCell_of_some hshift] at hc
        split at hc
        · exact absurd rfl hc
        · exact absurd rfl hc
        · exact absurd rfl hc
        · next hconflict =>
          obtain ⟨hk, hlevel⟩ := resolve_eq_conflict.1 hconflict
          exact .unleveled hk hshift hone (hp ▸ hlevel)

/-- The production of the whole input is complete before the end of the text only. -/
theorem eq_eof_of_mem_finished (hg : g.WellFormed) (hs : state < g.automaton.size)
    (h : g.productions.size ∈ g.finished state k) : k = .eof := by
  obtain ⟨item, hp, -, -, hc⟩ := h
  exact eq_eof_of_follows_accept hg hp ((follows_iff_canonical hg hs).2 hc)

/-- What the levels make of a shift against one production. -/
theorem decided_of_resolve {n target : Nat} {p : Completed} (hp : p.production = n)
    (hlevel : p.level = g.levelOf? n) (hne : resolve g k p.level ≠ .conflict) :
    g.Decided k (some target) {n} (match resolve g k p.level with
      | .shift => .shift target
      | .reduce => g.construction.reduceAction p.production
      | .error => .error
      | .conflict => .shift target) := by
  by_cases hk : k = .error
  · subst hk
    rw [resolve_error]
    exact .region rfl
  · have hsome : g.levelOf? n ≠ none ∧ g.tokenPrecedence? k ≠ none := by
      rw [← not_or]
      exact fun h => hne (resolve_eq_conflict.2 ⟨hk, hlevel ▸ h.symm⟩)
    obtain ⟨rule, hrule⟩ := Option.ne_none_iff_exists'.1 hsome.1
    obtain ⟨⟨token, assoc⟩, htoken⟩ := Option.ne_none_iff_exists'.1 hsome.2
    have hreduce : g.construction.reduceAction p.production = .reduce n := by
      rw [hp]
      refine if_neg ?_
      -- the production of the whole input has no level
      intro haccept
      rw [levelOf?, show g.productions[n]? = none from
        Array.getElem?_eq_none (Nat.le_of_eq haccept.symm)] at hrule
      cases hrule
    rw [hreduce, hlevel, hrule, resolve_of_levels hk htoken]
    split_ifs with hlt hgt
    · exact .tighter hk hrule htoken hlt
    · exact .looser hk hrule htoken hgt
    · obtain rfl : rule = token := UInt8.le_antisymm (UInt8.not_lt.1 hgt) (UInt8.not_lt.1 hlt)
      cases assoc with
      | left => exact .left hk hrule htoken
      | right => exact .right hk hrule htoken
      | nonAssoc => exact .nonAssoc hk hrule htoken

/-- **A cell without conflicts that at most one production asks for is as the rules say.** -/
theorem decided_cell (hg : g.WellFormed) (hs : state < g.automaton.size)
    (h : (g.finished state k).Subsingleton) (hc : (g.cell state k).conflicts = []) :
    g.Decided k (g.shiftOf? state k) (g.finished state k) (g.cell state k).action := by
  rw [cell_eq_fill] at hc ⊢
  rcases h.eq_empty_or_singleton with hnone | ⟨n, hone⟩
  · rw [asking_eq_nil hg hs hnone, List.foldl_nil, hnone]
    unfold startCell
    cases hshift : g.shiftOf? state k with
    | none =>
      rw [show g.automaton.next? state (.terminal k) = none from hshift]
      exact .empty
    | some target =>
      rw [show g.automaton.next? state (.terminal k) = some target from hshift]
      exact .shift
  · obtain ⟨p, hasking, hp, hlevel⟩ := asking_eq_singleton hg hs hone
    rw [hasking, List.foldl_cons, List.foldl_nil] at hc ⊢
    cases hshift : g.shiftOf? state k with
    | none =>
      rw [fill_startCell_of_none hshift, hone, hp]
      by_cases hn : n = g.productions.size
      · subst hn
        rw [show g.construction.reduceAction g.productions.size = .accept from if_pos rfl]
        exact .accept (eq_eof_of_mem_finished hg hs (hone ▸ Set.mem_singleton _))
      · rw [show g.construction.reduceAction n = .reduce n from if_neg hn]
        exact .reduce hn
    | some target =>
      rw [fill_startCell_of_some hshift] at hc ⊢
      rw [hone]
      have hne : resolve g k p.level ≠ .conflict := by
        intro hconflict
        rw [hconflict] at hc
        exact List.cons_ne_nil _ _ hc
      convert (decided_of_resolve hp hlevel hne : g.Decided k (some target) {n} _) using 1
      cases resolve g k p.level <;> rfl

/-! ## The whole table -/

/-- **The table of a well-formed grammar follows the rules.** -/
theorem WellFormed.followsYacc (hg : g.WellFormed) : g.FollowsYacc where
  cells t ht hactions state hs k hk hone := by
    rw [explicitAction_eq ht hactions hs hk]
    exact decided_cell hg hs hone (conflicts_cell ht hs hk)
  reported state hs k hk hundecided := by
    obtain ⟨t, ht⟩ | ⟨found, -, hfound⟩ := build_cases hg
    · exact absurd (conflicts_cell ht hs hk) (hundecided.conflicts_ne_nil hg hs)
    · exact ⟨found, hfound⟩
  silent hone e he := by
    by_contra hnone
    push Not at hnone
    obtain ⟨t, ht⟩ := exists_build_of_conflicts hg fun state hs k hk => by
      rw [mem_tokens_iff] at hk
      by_contra hc
      exact hnone state hs k hk (undecided_of_conflicts hg hs (hone state hs k hk) hc)
    rw [ht] at he
    cases he

end Grammar

namespace RuleSet

/-- **The table of a grammar made of rules follows the rules for its cells.** -/
theorem followsYacc_of_toGrammar {rules : RuleSet} {g : Grammar} (h : rules.toGrammar = .ok g)
    (hsize : g.nonterminals.size < 65536) : g.FollowsYacc :=
  (toGrammar_wellFormed h hsize).followsYacc

/-- Operators of every sort: comparisons do not group, sums group to the left, a sign has a level
of its own, and powers group to the right. A recovered region can stand for an operand. -/
def operators : RuleSet where
  name := "operators"
  levels := [⟨.nonAssoc, [.eqEq]⟩, ⟨.left, [.plus, .minus]⟩, ⟨.right, []⟩, ⟨.right, [.starStar]⟩]
  start := "_expr"
  definitions := [
    .hidden "_expr" (.choice [.node .binaryExpr, .node .unaryExpr, .token .decNumber,
      .token .error]),
    .visible .binaryExpr
      (.seq [.rule "_expr", .oneOf [.eqEq, .plus, .minus, .starStar], .rule "_expr"]),
    .visible .unaryExpr (.prec 3 (.seq [.token .minus, .rule "_expr"]))]

/-- The operators have a table, and the rules say what its cells hold. -/
theorem followsYacc_operators : ∃ g t, operators.toGrammar = .ok g ∧
    ParseTable.build g = .ok t ∧ g.FollowsYacc := by
  have hcheck : operators.toGrammar.toOption.any (·.tabulates 4 1000) = true := by
    decide +kernel
  cases h : operators.toGrammar with
  | error e =>
    rw [h] at hcheck
    cases hcheck
  | ok g =>
    rw [h] at hcheck
    obtain ⟨t, ht⟩ := Grammar.exists_hasTable h hcheck
    exact ⟨g, t, rfl, ht.build, followsYacc_of_toGrammar h ht.wellFormed.nonterminals⟩

end RuleSet

end AsmTree
