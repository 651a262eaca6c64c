import AsmTree.Proofs.Machine.Steps
import AsmTree.Proofs.Table.Paths

/-!
# Stacks are paths

For the table of a grammar the states of a stack are a path of the automaton, whatever the machine
does. **Main statements:** reductions never miss a state (`reduce?_of_path`), and every move leads
from a path to a path (`path_of_effect`).
-/

namespace AsmTree

/-- Every number of a grammar and its table fits where it is kept: symbols of a production into
sixteen bits, states and productions into the words of actions. -/
structure Grammar.Fits (g : Grammar) : Prop where
  symbols : ∀ p ∈ g.productions, p.rhs.length < 65536
  productions : g.productions.size < 2 ^ 30
  states : g.automaton.size ≤ 2 ^ 30

/-- A grammar whose numbers fit, and its table, whose cells have numbers of their own. -/
structure Grammar.HasTable (g : Grammar) (t : ParseTable) : Prop where
  wellFormed : g.WellFormed
  fits : g.Fits
  build : ParseTable.build g = .ok t
  indexed : t.Indexed

namespace Grammar

variable {g : Grammar} {t : ParseTable} {state p : Nat} {k : Kind}

theorem Fits.lengthOf_rhs (hf : g.Fits) (p : Nat) :
    Reduction.lengthOf (g.augmented.rhs p) = (g.augmented.rhs p).length := by
  refine Nat.mod_eq_of_lt ?_
  by_cases hp : p = g.productions.size
  · rw [hp, rhs_accept]
    simp
  · by_cases hlt : p < g.productions.size
    · rw [Augmented.rhs_eq (getElem?_augmented (Array.getElem?_eq_getElem hlt))]
      exact hf.symbols _ (Array.getElem_mem hlt)
    · rw [rhs_of_size_le (by rw [size_productions]; omega)]
      simp

/-! ## Moves of the table -/

theorem Permits.next? (hg : g.WellFormed) (hf : g.Fits) {a : Action} (h : g.Permits state k a)
    {target : Nat} (hm : a.move = .shift target) :
    g.automaton.next? state (.terminal k) = some target := by
  rcases h with he | ⟨n, hn, he⟩ | ⟨item, -, -, -, he⟩
  · rw [he] at hm
    cases hm
  · have hlt := (lt_of_next? hg hn).2
    rw [he, Action.move_shift, Nat.mod_eq_of_lt (Nat.lt_of_lt_of_le hlt hf.states)] at hm
    cases hm
    exact hn
  · rw [he] at hm
    exact absurd hm (move_reduceAction_ne_shift g _ _)

/-- A production that is complete in a state. -/
structure Complete (g : Grammar) (state : Nat) (item : Item) : Prop where
  inState : g.InState state item
  remaining : g.analysis.remaining item = []

theorem Complete.production_le (hg : g.WellFormed) {item : Item} (h : g.Complete state item) :
    item.production ≤ g.productions.size := by
  have hlt := (mem_items.1 (mem_items_of_mem_closure_kernel hg h.inState.2)).1
  rw [size_productions] at hlt
  exact Nat.le_of_lt_succ hlt

theorem Complete.dot_ne_zero (hg : g.WellFormed) {item : Item} (h : g.Complete state item)
    (hrhs : g.augmented.rhs item.production ≠ []) : item.dot ≠ 0 := by
  rw [dot_of_complete (mem_items_of_mem_closure_kernel hg h.inState.2) h.remaining]
  simpa using hrhs

theorem Complete.before (hg : g.WellFormed) {below : Nat} {item : Item} {s : Symbol}
    (h : g.Complete state item) (hdot : item.dot ≠ 0)
    (hm : g.automaton.next? below s = some state) :
    ∃ i, g.InState below i ∧ g.analysis.remaining i = [s] ∧ item = i.advance := by
  have hkernel := ((mem_closure hg).1 h.inState.2).resolve_right fun h => hdot h.1
  obtain ⟨i, hi, hhead, rfl⟩ := exists_of_next? hg hm hkernel
  obtain ⟨after, hr⟩ := List.head?_eq_some_iff.1 hhead
  have hafter := (remaining_advance hr).symm.trans h.remaining
  exact ⟨i, ⟨(lt_of_next? hg hm).1, hi⟩, hafter ▸ hr, rfl⟩

/-- A reduction names a production of the grammar that is complete in the state. -/
theorem Permits.complete (hg : g.WellFormed) (hf : g.Fits) {a : Action} (h : g.Permits state k a)
    (hm : a.move = .reduce p) :
    ∃ item, g.Complete state item ∧ g.Follows state item k.index ∧ item.production = p ∧
      p ≠ g.productions.size := by
  rcases h with he | ⟨n, -, he⟩ | ⟨item, hin, hr, hfollow, he⟩
  · rw [he] at hm
    cases hm
  · rw [he, Action.move_shift] at hm
    cases hm
  · have hc : g.Complete state item := ⟨hin, hr⟩
    rw [he, move_reduceAction hf.productions (hc.production_le hg)] at hm
    split at hm
    · cases hm
    · next hne =>
      cases hm
      exact ⟨item, hc, hfollow, rfl, hne⟩

theorem complete_of_accept (hg : g.WellFormed) (h : ParseTable.build g = .ok t)
    (hactions : t.actions.size ≤ 2 ^ 32) (hm : (t.explicitAction state k).move = .accept) :
    ∃ item, g.Complete state item ∧ item.production = g.productions.size := by
  rcases explicitAction_cases hg h hactions state k with he | ⟨n, -, he⟩ | ⟨item, hin, hr, -, he⟩
  · rw [he] at hm
    cases hm
  · rw [he, Action.move_shift] at hm
    cases hm
  · rw [he] at hm
    exact ⟨item, ⟨hin, hr⟩, eq_of_move_reduceAction hm⟩

variable (ht : g.HasTable t)

include ht

theorem HasTable.permits (state : Nat) (k : Kind) : g.Permits state k (t.explicitAction state k) :=
  explicitAction_cases ht.wellFormed ht.build ht.indexed.actions state k

theorem HasTable.next?_of_shift {target : Nat}
    (hm : (t.explicitAction state k).move = .shift target) :
    g.automaton.next? state (.terminal k) = some target :=
  (ht.permits state k).next? ht.wellFormed ht.fits hm

theorem HasTable.complete_of_reduce (hm : (t.explicitAction state k).move = .reduce p) :
    ∃ item, g.Complete state item ∧ g.Follows state item k.index ∧ item.production = p ∧
      p ≠ g.productions.size :=
  (ht.permits state k).complete ht.wellFormed ht.fits hm

theorem HasTable.complete_of_default (hd : t.default? state = some p) :
    ∃ item, g.Complete state item ∧ item.production = p ∧ p ≠ g.productions.size := by
  obtain ⟨k, hk⟩ := exists_of_default? ht.build ht.indexed.actions hd
  obtain ⟨item, hc, -, hp, hne⟩ := ht.complete_of_reduce hk
  exact ⟨item, hc, hp, hne⟩

theorem HasTable.production_of_complete {item : Item} (hc : g.Complete state item) :
    t.production item.production = ⟨g.augmented.lhs item.production,
      (g.augmented.rhs item.production).length, g.kindOf? (g.augmented.lhs item.production)⟩ := by
  have hlt := (mem_items.1 (mem_items_of_mem_closure_kernel ht.wellFormed hc.inState.2)).1
  rw [production_eq ht.build hlt, ht.fits.lengthOf_rhs]

/-- **A reduction never misses a state.** -/
theorem HasTable.reduction {rest : List Nat} {read : List Symbol}
    (h : g.Path (state :: rest) read) {item : Item} (hc : g.Complete state item)
    (hne : item.production ≠ g.productions.size) :
    ∃ base below target,
      (state :: rest).drop (g.augmented.rhs item.production).length = base :: below ∧
      read.take (g.augmented.rhs item.production).length =
        (g.augmented.rhs item.production).reverse ∧
      g.Path (base :: below) (read.drop (g.augmented.rhs item.production).length) ∧
      g.automaton.next? base (.nonterminal (g.augmented.lhs item.production)) = some target ∧
      t.goto? base (g.augmented.lhs item.production) = some target := by
  obtain ⟨hread, base, below, target, hdrop, hpath, hm⟩ :=
    h.reduce ht.wellFormed hc.inState hc.remaining hne
  refine ⟨base, below, target, hdrop, hread, hpath, hm, ?_⟩
  obtain ⟨hs, -⟩ := lt_of_next? ht.wellFormed hm
  have hlt := (mem_items.1 (mem_items_of_mem_closure_kernel ht.wellFormed hc.inState.2)).1
  rw [goto?_eq ht.wellFormed ht.build ht.indexed.gotos hs (lhs_lt ht.wellFormed hlt)]
  exact hm

/-- What a state does before a token by a reduction is complete there. -/
theorem HasTable.complete_of_action (hm : (t.action state k).move = .reduce p) :
    ∃ item, g.Complete state item ∧ item.production = p ∧ p ≠ g.productions.size := by
  unfold ParseTable.action at hm
  split at hm
  · next q hd =>
    obtain ⟨item, hc, rfl, hne⟩ := ht.complete_of_default hd
    have hle := hc.production_le ht.wellFormed
    have hlt := ht.fits.productions
    rw [Action.move_reduce, Nat.mod_eq_of_lt (by omega)] at hm
    cases hm
    exact ⟨item, hc, rfl, hne⟩
  · obtain ⟨item, hc, -, hp, hne⟩ := ht.complete_of_reduce hm
    exact ⟨item, hc, hp, hne⟩

end Grammar

namespace Machine

open Grammar

variable {g : Grammar} {s : Setup} {m m' : Machine} {read : List Symbol} {p : Nat}

def states (m : Machine) : List Nat := m.frames.map Frame.state

@[simp] theorem states_mark (m : Machine) : (m.mark s).states = m.states := by
  rw [states, mark_frames, states]

variable (ht : g.HasTable s.table)

include ht

theorem complete_of_reduction (hr : m.reduction? s = some p) :
    ∃ item, g.Complete m.top.state item ∧ item.production = p ∧ p ≠ g.productions.size := by
  unfold reduction? at hr
  split at hr
  · next q hd =>
    cases hr
    exact ht.complete_of_default hd
  · split at hr
    · next q hm =>
      cases hr
      obtain ⟨item, hc, -, hp, hne⟩ := ht.complete_of_reduce hm
      exact ⟨item, hc, hp, hne⟩
    · cases hr

/-- The machine that a reduction leads to: the frames of the production are replaced by one of its
nonterminal. -/
def reduced (g : Grammar) (s : Setup) (m : Machine) (p : Nat) (base : Frame) (rest : List Frame)
    (target : Nat) : Machine :=
  { m with
    top := reducedFrame s.table (s.table.production p)
      (m.frames.take (g.augmented.rhs p).length) base target
    below := base :: rest }

/-- A machine whose stack is a path can reduce. -/
theorem reduce?_of_path (h : g.Path m.states read) (hr : m.reduction? s = some p) :
    ∃ base rest target, m.frames.drop (g.augmented.rhs p).length = base :: rest ∧
      read.take (g.augmented.rhs p).length = (g.augmented.rhs p).reverse ∧
      g.Path ((base :: rest).map Frame.state) (read.drop (g.augmented.rhs p).length) ∧
      g.automaton.next? base.state (.nonterminal (g.augmented.lhs p)) = some target ∧
      ∀ n, (m.look n).reduce? s p = some (reduced g s (m.look n) p base rest target) := by
  obtain ⟨item, hc, rfl, hne⟩ := complete_of_reduction ht hr
  have hprod := ht.production_of_complete hc
  obtain ⟨b, below, target, hdrop, hread, hpath, hm, hgoto⟩ := ht.reduction h hc hne
  have hdrop' : (m.frames.drop (g.augmented.rhs item.production).length).map Frame.state =
      b :: below := by
    rw [List.map_drop]
    exact hdrop
  obtain ⟨base, rest, hframes, rfl, rfl⟩ := List.map_eq_cons_iff.1 hdrop'
  refine ⟨base, rest, target, hframes, hread, hpath, hm, fun n => ?_⟩
  refine reduce?_eq_some.2 ⟨base, rest, target, ?_, ?_, ?_⟩
  · rw [hprod]
    exact hframes
  · rw [hprod]
    exact hgoto
  · rw [reduced]
    simp only [hprod]

/-! ## Recovery -/

omit ht in
/-- A plan names a frame that can take a recovered region. -/
theorem searchFrames_shift {input : List Lookahead} {all : List Frame} (frames : List Frame)
    (above : Nat) (fallback : Option Resync) (looked : Nat) (hall : all.drop above = frames)
    (hfall : ∀ r ∈ fallback, ∃ base rest, all.drop r.above = base :: rest ∧
      (s.table.explicitAction base.state .error).move = .shift r.state) :
    ∀ r ∈ (searchFrames s input frames above fallback looked).resync,
      ∃ base rest, all.drop r.above = base :: rest ∧
        (s.table.explicitAction base.state .error).move = .shift r.state := by
  induction frames generalizing above fallback looked with
  | nil =>
    intro r hr
    rw [searchFrames] at hr
    exact hfall r (Option.mem_filter_iff.1 hr).1
  | cons f rest ih =>
    have hrest : all.drop (above + 1) = rest := by
      rw [← List.drop_drop, hall]
      rfl
    rw [searchFrames]
    split
    · exact hfall
    · split
      · next state hstate =>
        dsimp only
        split
        · intro r hr
          cases hr
          exact ⟨f, rest, hall, hstate⟩
        · refine ih _ _ _ hrest fun r hr => ?_
          cases hr
          exact ⟨f, rest, hall, hstate⟩
      · exact ih _ _ _ hrest hfall

omit ht in
theorem recover?_eq_some (h : m.recover? s = some m') :
    ∃ r base rest n, (searchFrames s m.input m.frames 0 none 0).resync = some r ∧
      m.frames.drop r.above = base :: rest ∧
      (s.table.explicitAction base.state .error).move = .shift r.state ∧
      m' = (m.look n).resynchronize s r := by
  unfold recover? at h
  dsimp only at h
  obtain ⟨r, hr, rfl⟩ := Option.map_eq_some_iff.1 h
  obtain ⟨base, rest, hdrop, hmove⟩ := searchFrames_shift m.frames 0 none 0
    (show m.frames.drop 0 = m.frames from rfl) (fun r hr => by cases hr) r hr
  exact ⟨r, base, rest, _, hr, hdrop, hmove, rfl⟩

omit ht in
theorem frames_resynchronize {r : Resync} {base : Frame} {rest : List Frame}
    (h : m.frames.drop r.above = base :: rest) : (m.resynchronize s r).frames =
      ⟨r.state,
        wrap s.table .error (skipTokens s r.skip m (Frame.joined (m.frames.take r.above))).2,
        base.stop + Tree.lengthAll
          (skipTokens s r.skip m (Frame.joined (m.frames.take r.above))).2⟩ :: base :: rest := by
  unfold resynchronize
  rw [h]
  rfl

omit ht in
theorem input_resynchronize {r : Resync} {base : Frame} {rest : List Frame}
    (h : m.frames.drop r.above = base :: rest) :
    (m.resynchronize s r).input = m.input.drop r.skip := by
  unfold resynchronize
  rw [h]
  exact skipTokens_input _ _ _

/-! ## Moves keep a path -/

omit ht in
theorem states_resynchronize {r : Resync} {base : Frame} {rest : List Frame}
    (h : m.frames.drop r.above = base :: rest) :
    (m.resynchronize s r).states = r.state :: (base :: rest).map Frame.state := by
  rw [states, frames_resynchronize h, List.map_cons]

theorem path_shift (h : g.Path m.states read) {target : Nat}
    (hm : (s.table.explicitAction m.top.state (m.next s).kind).move = .shift target) :
    g.Path (m.shift s target).states (.terminal (m.next s).kind :: read) :=
  .move h (ht.next?_of_shift hm)

theorem path_reduced (h : g.Path m.states read) (hr : m.reduction? s = some p) (n : Nat)
    (he : (m.look n).reduce? s p = some m') :
    g.Path m'.states
      (.nonterminal (g.augmented.lhs p) :: read.drop (g.augmented.rhs p).length) := by
  obtain ⟨base, rest, target, -, -, hpath, hmove, heq⟩ := reduce?_of_path ht h hr
  rw [heq n] at he
  cases he
  exact .move hpath hmove

theorem path_resynchronize (h : g.Path m.states read) {r : Resync} {base : Frame}
    {rest : List Frame} (hdrop : m.frames.drop r.above = base :: rest)
    (hmove : (s.table.explicitAction base.state .error).move = .shift r.state) :
    g.Path (m.resynchronize s r).states (.terminal .error :: read.drop r.above) := by
  have hstates : m.states.drop r.above = base.state :: rest.map Frame.state := by
    rw [states, ← List.map_drop, hdrop, List.map_cons]
  rw [states_resynchronize hdrop]
  exact .move (h.drop r.above hstates) (ht.next?_of_shift hmove)

theorem path_recover (h : g.Path m.states read) (hr : m.recover? s = some m') :
    ∃ n, g.Path m'.states (.terminal .error :: read.drop n) := by
  obtain ⟨r, base, rest, looked, -, hdrop, hmove, rfl⟩ := recover?_eq_some hr
  exact ⟨r.above, path_resynchronize (m := m.look looked) ht h hdrop hmove⟩

/-- **Every move leads from a path to a path.** -/
theorem path_of_effect (hs : s.splice = none) (h : g.Path m.states read)
    (he : Effect s m (.running m')) : ∃ read', g.Path m'.states read' := by
  generalize ho : Outcome.running m' = o at he
  cases he with
  | @reduce p n m₁ hr _ hm =>
    rw [markLine_of_splice hs] at ho
    cases ho
    rw [states_mark]
    exact ⟨_, path_reduced ht h hr n hm⟩
  | @shift target _ hm =>
    rw [markLine_of_splice hs] at ho
    cases ho
    rw [states_mark]
    exact ⟨_, path_shift (m := m.look 1) ht h hm⟩
  | @recover m₁ _ _ hm =>
    rw [markLine_of_splice hs] at ho
    cases ho
    rw [states_mark]
    have hreport : g.Path ((m.look 1).report s).states read := by
      rw [states, report_frames]
      exact h
    exact ⟨_, (path_recover ht hreport hm).choose_spec⟩
  | stuck _ _ => cases ho
  | accept _ _ => cases ho
  | abandon _ _ _ => cases ho

end Machine

end AsmTree
