import AsmTree.Proofs.Grammar.Lines
import AsmTree.Proofs.Machine.Stacks

/-!
# Reductions come to an end

Reductions before one token make what a stack has read lighter. **Main statements:** each of them
does (`weigh_reduce`), so the search for a token to go on with ends within its limit
(`exists_reduces_lt`), and its answer does not depend on the limit (`viable_iff`). The reductions of
a machine are those of its list of states (`map_states_reduce?`).
-/

namespace AsmTree

namespace Grammar

variable {g : Grammar} {t : ParseTable} {lines line state p : Nat} {w : Nat → Nat} {k : Kind}
  {states rest : List Nat} {read : List Symbol} {item : Item}

/-! ## Weight of a stack -/

/-- What the symbols that a stack has read weigh. The empty stack weighs one. -/
def weigh (w : Nat → Nat) (read : List Symbol) : Nat :=
  Symbol.weightAll w read + if read = [] then 1 else 0

theorem weigh_cons (s : Symbol) (read : List Symbol) :
    weigh w (s :: read) = s.weight w + Symbol.weightAll w read := by
  simp [weigh]

theorem weigh_cons_le (hw : g.Weighted w) (s : Symbol) (read : List Symbol) (n : Nat) :
    weigh w (s :: read.drop n) ≤ weigh w read + heaviest := by
  have hs : s.weight w ≤ heaviest := by
    cases s with
    | terminal k => exact Nat.le_refl _
    | nonterminal id => exact hw.le id
  have hdrop : Symbol.weightAll w (read.drop n) ≤ Symbol.weightAll w read := by
    conv_rhs => rw [← List.take_append_drop n read, Symbol.weightAll_append]
    exact Nat.le_add_left _ _
  rw [weigh_cons, weigh]
  omega

theorem weigh_le (hw : g.Weighted w) (read : List Symbol) :
    weigh w read ≤ heaviest * read.length + 1 := by
  have hsum : ∀ read : List Symbol,
      Symbol.weightAll w read ≤ heaviest * read.length := by
    intro read
    induction read with
    | nil => exact Nat.le_refl _
    | cons s read ih =>
      have hs : s.weight w ≤ heaviest := by
        cases s with
        | terminal k => exact Nat.le_refl _
        | nonterminal id => exact hw.le id
      rw [Symbol.weightAll_cons, List.length_cons, Nat.mul_succ]
      omega
  have h := hsum read
  rw [weigh]
  split <;> omega

/-- Only the whole input reads a file, and nothing else. -/
theorem eq_of_reads_start (hl : g.HasLines lines line) {i : Item} (hi : i ∈ g.items)
    {after : List Symbol} (hr : g.analysis.remaining i = .nonterminal g.start :: after) :
    i.production = g.productions.size ∧ i.dot = 0 ∧ after = [] := by
  have hp : i.production = g.productions.size := by
    by_contra hne
    have hlt := (mem_items.1 hi).1
    rw [size_productions] at hlt
    have hlt' : i.production < g.productions.size := by omega
    have hmem := mem_rhs_of_remaining hr
    rw [Augmented.rhs_eq (getElem?_augmented (Array.getElem?_eq_getElem hlt'))] at hmem
    exact hl.start _ (Array.getElem_mem hlt') hmem
  rw [remaining_eq_drop, hp, rhs_accept] at hr
  cases hd : i.dot with
  | zero =>
    rw [hd] at hr
    cases hr
    exact ⟨hp, rfl, rfl⟩
  | succ n => simp [hd] at hr

theorem eq_zero_of_reads_start (hg : g.WellFormed) (hl : g.HasLines lines line) {i : Item}
    (hi : i ∈ g.analysis.closure (g.automaton.kernel state)) {after : List Symbol}
    (hr : g.analysis.remaining i = .nonterminal g.start :: after) : state = 0 := by
  obtain ⟨hp, hdot, -⟩ := eq_of_reads_start hl (mem_items_of_mem_closure_kernel hg hi) hr
  by_contra hs
  rcases (mem_closure hg).1 hi with hk | ⟨-, -, hopen⟩
  · exact absurd (dot_pos hs hk) (by omega)
  · have hlt := lt_of_open hg hopen
    rw [hp, lhs_accept hg] at hlt
    exact Nat.lt_irrefl _ hlt

theorem eq_zero_of_next?_start (hg : g.WellFormed) (hl : g.HasLines lines line) {target : Nat}
    (h : g.automaton.next? state (.nonterminal g.start) = some target) : state = 0 := by
  obtain ⟨j, hj⟩ := List.exists_mem_of_ne_nil _ (kernel_ne_nil (lt_of_next? hg h).2)
  obtain ⟨i, hi, hs, -⟩ := exists_of_next? hg h hj
  obtain ⟨after, hr⟩ := List.head?_eq_some_iff.1 hs
  exact eq_zero_of_reads_start hg hl hi hr

/-- A production is complete without symbols only before anything is read. -/
theorem eq_nil_of_complete_empty (hg : g.WellFormed) (hl : g.HasLines lines line)
    (h : g.Path (state :: rest) read) (hc : g.Complete state item)
    (hne : item.production ≠ g.productions.size) (hr : g.augmented.rhs item.production = []) :
    read = [] ∧ g.augmented.lhs item.production = g.start := by
  have hlt := Nat.lt_of_le_of_ne (hc.production_le hg) hne
  have hq := getElem?_augmented (Array.getElem?_eq_getElem hlt)
  have hlhs : g.augmented.lhs item.production = g.start := by
    rw [Augmented.rhs_eq hq] at hr
    rw [Augmented.lhs_eq hq]
    exact hl.empty _ (Array.getElem_mem hlt) hr
  have hdot : item = ⟨item.production, 0⟩ := by
    have hle := (mem_items.1 (mem_items_of_mem_closure_kernel hg hc.inState.2)).2
    rw [hr, List.length_nil, Nat.le_zero] at hle
    rw [← hle]
  have hnot : item ∉ g.automaton.kernel state := by
    rw [hdot]
    exact not_mem_kernel_of_ne hne
  obtain ⟨-, i, hi, after, hreads⟩ := closure_initial hg hc.inState.2 hnot
  rw [hlhs] at hreads
  obtain rfl := eq_zero_of_reads_start hg hl hi hreads
  exact ⟨(h.of_zero hg).2, hlhs⟩

/-- **A reduction makes a stack lighter.** -/
theorem weigh_reduce (hg : g.WellFormed) (hl : g.HasLines lines line) (hw : g.Weighted w)
    (h : g.Path (state :: rest) read) (hc : g.Complete state item)
    (hne : item.production ≠ g.productions.size)
    (hread : read.take (g.augmented.rhs item.production).length =
      (g.augmented.rhs item.production).reverse) :
    weigh w (.nonterminal (g.augmented.lhs item.production) ::
      read.drop (g.augmented.rhs item.production).length) < weigh w read := by
  rw [weigh_cons]
  by_cases hr : g.augmented.rhs item.production = []
  · obtain ⟨rfl, hlhs⟩ := eq_nil_of_complete_empty hg hl h hc hne hr
    simp [hlhs, Symbol.weight, hw.start, weigh]
  · have hlt := Nat.lt_of_le_of_ne (hc.production_le hg) hne
    have hq := getElem?_augmented (Array.getElem?_eq_getElem hlt)
    have hlight := hw.lt _ (Array.getElem_mem hlt)
    rw [Augmented.rhs_eq hq] at hr hread ⊢
    rw [Augmented.lhs_eq hq]
    have hsplit : Symbol.weightAll w read =
        Symbol.weightAll w g.productions[item.production].rhs +
          Symbol.weightAll w (read.drop g.productions[item.production].rhs.length) := by
      conv_lhs => rw [← List.take_append_drop g.productions[item.production].rhs.length read]
      rw [Symbol.weightAll_append, hread, Symbol.weightAll_reverse]
    have hsym := hlight hr
    rw [weigh, hsplit, Symbol.weight]
    omega

end Grammar

/-! ## The search for a token to go on with -/

namespace ParseTable

variable {t : ParseTable} {k : Kind} {states states' : List Nat} {n : Nat}

/-- The stack after one reduction before a token, if that is what comes next. -/
def reduced? (t : ParseTable) (k : Kind) : List Nat → Option (List Nat)
  | [] => none
  | state :: rest =>
    match (t.action state k).move with
    | .reduce p =>
      match (state :: rest).drop (t.production p).length with
      | [] => none
      | base :: below => (t.goto? base (t.production p).lhs).map (· :: base :: below)
    | _ => none

/-- The reductions before a token are `n` in number, and then there is none. -/
inductive Reduces (t : ParseTable) (k : Kind) : Nat → List Nat → Prop where
  | stop {states : List Nat} : t.reduced? k states = none → Reduces t k 0 states
  | move {n : Nat} {states states' : List Nat} : t.reduced? k states = some states' →
    Reduces t k n states' → Reduces t k (n + 1) states

/-- The states behind nonterminals exist, and the numbers of default reductions fit into the words
of actions. -/
structure Numbered (t : ParseTable) : Prop where
  goto : ∀ {state id target}, t.goto? state id = some target → target < t.stateCount
  default : ∀ {state p}, t.default? state = some p → p < 2 ^ 30

/-- A table that is built is so, whatever the size of its grammar. -/
theorem numbered_of_build {g : Grammar} (hg : g.WellFormed) (h : build g = .ok t) :
    t.Numbered where
  goto hgoto := by
    rw [Grammar.stateCount_eq h]
    exact Grammar.goto_lt hg h (SparseArray.mem_iff.2 ⟨_, Option.join_eq_some_iff.1 hgoto⟩)
  default hd := by
    obtain ⟨-, k, -, hk⟩ := Grammar.exists_cell_of_default? h hd
    exact Action.lt_of_move_reduce hk

/-- What a reduction before a token needs and what it makes. -/
theorem reduced?_eq_some : t.reduced? k states = some states' ↔
    ∃ state rest p base below next, states = state :: rest ∧
      (t.action state k).move = .reduce p ∧
      states.drop (t.production p).length = base :: below ∧
      t.goto? base (t.production p).lhs = some next ∧ states' = next :: base :: below := by
  constructor
  · intro h
    cases states with
    | nil => cases h
    | cons state rest =>
      rw [reduced?] at h
      split at h
      · next p hm =>
        split at h
        · cases h
        · next base below hdrop =>
          obtain ⟨next, hgoto, rfl⟩ := Option.map_eq_some_iff.1 h
          exact ⟨state, rest, p, base, below, next, rfl, hm, hdrop, hgoto, rfl⟩
      · cases h
  · rintro ⟨state, rest, p, base, below, next, rfl, hm, hdrop, hgoto, rfl⟩
    rw [reduced?, hm]
    dsimp only
    rw [hdrop]
    dsimp only
    rw [hgoto]
    rfl

end ParseTable

namespace Machine

variable {t : ParseTable} {k : Kind} {states states' : List Nat} {n fuel : Nat}

/-- What the search does: it passes a reduction, or stops at another move. -/
theorem viableFrom_succ : viableFrom t k (fuel + 1) states =
    match t.reduced? k states with
    | some states' => viableFrom t k fuel states'
    | none => match states with
      | [] => false
      | state :: _ => match (t.action state k).move with
        | .shift _ | .accept => true
        | _ => false := by
  cases states with
  | nil => rfl
  | cons state rest =>
    rw [viableFrom, ParseTable.reduced?]
    cases hm : (t.action state k).move with
    | error => simp [hm]
    | accept => simp [hm]
    | shift _ => simp [hm]
    | reduce p =>
      dsimp only
      cases (state :: rest).drop (t.production p).length with
      | nil => simp [hm]
      | cons base below =>
        dsimp only
        cases t.goto? base (t.production p).lhs with
        | none => simp [hm]
        | some next => rfl

theorem viableFrom_of_error {state : Nat} (hd : t.default? state = none)
    (hm : (t.explicitAction state k).move = .error) (fuel : Nat) (rest : List Nat) :
    viableFrom t k fuel (state :: rest) = false := by
  cases fuel with
  | zero => rfl
  | succ fuel =>
    rw [viableFrom, ParseTable.action, hd]
    dsimp only
    rw [hm]

/-- A token can follow on a stack of states. -/
def CanFollow (t : ParseTable) (states : List Nat) (k : Kind) : Prop :=
  ∃ fuel, viableFrom t k fuel states = true

/-- Reductions do not change what can follow. -/
theorem canFollow_reduced (h : t.reduced? k states = some states') :
    CanFollow t states k ↔ CanFollow t states' k := by
  constructor
  · rintro ⟨fuel, hv⟩
    cases fuel with
    | zero => cases hv
    | succ fuel =>
      rw [viableFrom_succ, h] at hv
      exact ⟨fuel, hv⟩
  · rintro ⟨fuel, hv⟩
    refine ⟨fuel + 1, ?_⟩
    rw [viableFrom_succ, h]
    exact hv

theorem not_canFollow_of_error {state : Nat} {rest : List Nat} (hd : t.default? state = none)
    (hm : (t.explicitAction state k).move = .error) : ¬ CanFollow t (state :: rest) k := by
  rintro ⟨fuel, hv⟩
  rw [viableFrom_of_error hd hm] at hv
  cases hv

/-- Once the reductions have come to an end, more fuel makes no difference. -/
theorem viableFrom_of_reduces (h : t.Reduces k n states) (hlt : n < fuel) :
    viableFrom t k fuel states = true ↔ CanFollow t states k := by
  refine ⟨fun hv => ⟨fuel, hv⟩, ?_⟩
  induction h generalizing fuel with
  | @stop states hnone =>
    obtain ⟨fuel, rfl⟩ := Nat.exists_eq_add_of_lt hlt
    rintro ⟨fuel', hv⟩
    cases fuel' with
    | zero => cases hv
    | succ fuel' =>
      rw [viableFrom_succ, hnone] at hv ⊢
      exact hv
  | move hsome _ ih =>
    obtain ⟨fuel, rfl⟩ := Nat.exists_eq_add_of_lt hlt
    intro hcan
    rw [viableFrom_succ, hsome]
    exact ih (by omega) ((canFollow_reduced hsome).1 hcan)

/-! ## Which tokens can follow -/

variable {state : Nat} {rest : List Nat}

theorem canFollow_of_reduced?_eq_none
    (h : t.reduced? k (state :: rest) = none) : CanFollow t (state :: rest) k ↔
      (∃ target, (t.action state k).move = .shift target) ∨ (t.action state k).move = .accept := by
  rw [← viableFrom_of_reduces (.stop h) Nat.zero_lt_one, viableFrom_succ, h]
  cases hm : (t.action state k).move <;> simp [hm]

theorem canFollow_of_move (h : (∃ target, (t.action state k).move = .shift target) ∨
    (t.action state k).move = .accept) : CanFollow t (state :: rest) k := by
  refine (canFollow_of_reduced?_eq_none ?_).2 h
  rw [ParseTable.reduced?]
  rcases h with ⟨target, h⟩ | h <;> rw [h]

theorem action_cases (t : ParseTable) (state : Nat) (k : Kind) :
    (∃ p, (t.action state k).move = .reduce p) ∨ t.action state k = t.explicitAction state k := by
  unfold ParseTable.action
  cases t.default? state with
  | some p => exact .inl ⟨_, Action.move_reduce p⟩
  | none => exact .inr rfl

/-- A token can follow if reductions that come to an end keep the stack one on which it can follow
at once or a reduction is made. -/
theorem canFollow_of_steps {P : List Nat → Prop}
    (hstep : ∀ states, P states → CanFollow t states k ∨
      ∃ states', t.reduced? k states = some states' ∧ P states')
    (hreduces : t.Reduces k n states) (h : P states) :
    CanFollow t states k := by
  induction hreduces with
  | stop hnone =>
    refine (hstep _ h).resolve_right ?_
    rintro ⟨states', hsome, -⟩
    rw [hnone] at hsome
    cases hsome
  | move hsome _ ih =>
    rcases hstep _ h with hcan | ⟨states', hsome', hP⟩
    · exact hcan
    · rw [hsome] at hsome'
      cases hsome'
      exact (canFollow_reduced hsome).2 (ih hP)

/-- A token cannot follow if reductions keep the stack one on which the table neither shifts nor
accepts it. -/
theorem not_canFollow_of_keeps {P : List Nat → Prop}
    (hreduce : ∀ states states', P states → t.reduced? k states = some states' → P states')
    (hmove : ∀ state rest, P (state :: rest) →
      (∀ target, (t.explicitAction state k).move ≠ .shift target) ∧
        (t.explicitAction state k).move ≠ .accept)
    (h : P states) : ¬ CanFollow t states k := by
  rintro ⟨fuel, hv⟩
  induction fuel generalizing states with
  | zero => cases hv
  | succ fuel ih =>
    cases hr : t.reduced? k states with
    | some states' =>
      rw [viableFrom_succ, hr] at hv
      exact ih (hreduce states states' h hr) hv
    | none =>
      cases states with
      | nil => cases hv
      | cons state rest =>
        have hcase := (canFollow_of_reduced?_eq_none hr).1 ⟨fuel + 1, hv⟩
        rcases action_cases t state k with ⟨p, he⟩ | he
        · rw [he] at hcase
          rcases hcase with ⟨target, hcase⟩ | hcase <;> cases hcase
        · rw [he] at hcase
          rcases hcase with ⟨target, hcase⟩ | hcase
          · exact (hmove state rest h).1 target hcase
          · exact (hmove state rest h).2 hcase

theorem not_canFollow (hshift : ∀ state target, (t.explicitAction state k).move ≠ .shift target)
    (haccept : ∀ state, (t.explicitAction state k).move ≠ .accept) (states : List Nat) :
    ¬ CanFollow t states k :=
  not_canFollow_of_keeps (P := fun _ => True) (fun _ _ _ _ => trivial)
    (fun state _ _ => ⟨hshift state, haccept state⟩) trivial

/-! ## Reductions of a machine -/

variable {s : Setup} {m m' : Machine} {p : Nat}

/-- A machine reduces next if the table says so of its next token. -/
theorem reduction?_eq_some (ht : s.table.Numbered) : m.reduction? s = some p ↔
    (s.table.action m.top.state (m.next s).kind).move = .reduce p := by
  unfold reduction? ParseTable.action
  cases hd : s.table.default? m.top.state with
  | some q =>
    dsimp only
    rw [Action.move_reduce, Nat.mod_eq_of_lt (ht.default hd), Option.some.injEq, Move.reduce.injEq]
  | none =>
    dsimp only
    cases (s.table.explicitAction m.top.state (m.next s).kind).move <;> simp

/-- A reduction has a state for its nonterminal or fails, whatever has been looked at. -/
theorem map_states_reduce? (ht : s.table.Numbered) (hr : m.reduction? s = some p) (n : Nat) :
    ((m.look n).reduce? s p).map Machine.states = s.table.reduced? (m.next s).kind m.states := by
  have hdrop : (m.top.state :: m.below.map Frame.state).drop (s.table.production p).length =
      (m.frames.drop (s.table.production p).length).map Frame.state := by
    rw [List.map_drop]
    rfl
  show _ = s.table.reduced? (m.next s).kind (m.top.state :: m.below.map Frame.state)
  rw [reduce?, ParseTable.reduced?, (reduction?_eq_some ht).1 hr]
  dsimp only
  rw [hdrop, look_frames]
  cases m.frames.drop (s.table.production p).length with
  | nil => rfl
  | cons base rest =>
    rw [List.map_cons]
    dsimp only
    cases s.table.goto? base.state (s.table.production p).lhs with
    | none => rfl
    | some next => rfl

theorem reduced?_of_reduction (ht : s.table.Numbered) (hr : m.reduction? s = some p)
    (he : (m.look n).reduce? s p = some m') :
    s.table.reduced? (m.next s).kind m.states = some m'.states := by
  rw [← map_states_reduce? ht hr n, he, Option.map_some]

end Machine

namespace Grammar

open Machine

variable {g : Grammar} {t : ParseTable} {lines line : Nat} {w : Nat → Nat} {k : Kind}
  {states states' : List Nat} {read : List Symbol}

theorem HasTable.numbered (ht : g.HasTable t) : t.Numbered :=
  ParseTable.numbered_of_build ht.wellFormed ht.build

variable (ht : g.HasTable t) (hl : g.HasLines lines line) (hw : g.Weighted w)

include ht hl hw

theorem path_reduced? (h : g.Path states read) (hr : t.reduced? k states = some states') :
    ∃ read', g.Path states' read' ∧ weigh w read' < weigh w read := by
  obtain ⟨state, rest, p, base, below, target, rfl, hm, hdrop, hgoto, rfl⟩ :=
    ParseTable.reduced?_eq_some.1 hr
  obtain ⟨item, hc, rfl, hne⟩ := ht.complete_of_action hm
  obtain ⟨base', below', target', hdrop', hread, hpath, hmove, hgoto'⟩ := ht.reduction h hc hne
  rw [ht.production_of_complete hc] at hdrop hgoto
  obtain ⟨rfl, rfl⟩ := List.cons.inj (hdrop.symm.trans hdrop')
  obtain rfl := Option.some.inj (hgoto.symm.trans hgoto')
  exact ⟨_, .move hpath hmove, weigh_reduce ht.wellFormed hl hw h hc hne hread⟩

/-- **Reductions before a token come to an end.** -/
theorem exists_reduces (h : g.Path states read) :
    ∃ n ≤ weigh w read, t.Reduces k n states := by
  induction hn : weigh w read using Nat.strong_induction_on generalizing states read with
  | _ weight ih =>
    subst hn
    cases hr : t.reduced? k states with
    | none => exact ⟨0, Nat.zero_le _, .stop hr⟩
    | some states' =>
      obtain ⟨read', hpath, hlt⟩ := path_reduced? ht hl hw h hr
      obtain ⟨n, hn, hreduces⟩ := ih _ hlt hpath rfl
      exact ⟨n + 1, by omega, .move hr hreduces⟩

omit hl in
theorem HasTable.le_moveLimit (n : Nat) : (2 * heaviest + 2) * (n + 1) ≤ t.moveLimit n := by
  have hroom : heaviest < 2 ^ g.productions.size := hw.room
  have hpow : 2 ^ (g.productions.size + 1) ≤ 2 ^ (t.stateCount + t.productionCount) := by
    refine Nat.pow_le_pow_right (by decide) ?_
    rw [productionCount_eq ht.build]
    exact Nat.le_add_left _ _
  rw [Nat.pow_succ] at hpow
  exact Nat.mul_le_mul_right _ (Nat.le_trans (by omega) hpow)

/-- **The search for a token to go on with ends within its limit.** -/
theorem exists_reduces_lt (h : g.Path states read) :
    ∃ n < t.moveLimit states.length, t.Reduces k n states := by
  obtain ⟨n, hn, hreduces⟩ := exists_reduces (k := k) ht hl hw h
  refine ⟨n, ?_, hreduces⟩
  have hlimit := ht.le_moveLimit hw states.length
  have hweight := weigh_le hw read
  have hlen := h.length
  have hmul : (2 * heaviest + 2) * (states.length + 1) =
      heaviest * read.length + 1 + ((heaviest + 2) * (states.length + 1) + heaviest * 2 - 1) := by
    rw [hlen]
    unfold heaviest
    omega
  unfold heaviest at *
  omega

theorem viable_iff (h : g.Path states read) :
    viable t states k = true ↔ CanFollow t states k := by
  obtain ⟨n, hlt, hreduces⟩ := exists_reduces_lt (k := k) ht hl hw h
  exact viableFrom_of_reduces hreduces hlt

end Grammar

end AsmTree
