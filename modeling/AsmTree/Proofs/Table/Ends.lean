import AsmTree.Proofs.Table.Cells
import AsmTree.Proofs.Table.Rounds

/-!
# Table construction comes to an end

Every part of table construction is a loop that goes on while it finds something: rounds over the
productions, the items of a state, the lookaheads within a state, the states, and the lookaheads of
kernel items. None of them needs a bound for its steps.

**Main statement (`loopsEnd_of_toGrammar`):** for every grammar made of rules each of these loops
comes to an end, with what the construction works with, and the construction yields a table or
conflicts, if there are fewer than 65536 nonterminals.
-/

namespace AsmTree

open StateTransition

/-! ## The items of a state -/

/-- The items of a state in the making, and how many of them have been looked at. -/
structure Closing where
  items : List Item
  seen : Nat := 0

namespace Closing

def add (items : List Item) (item : Item) : List Item :=
  if item ∈ items then items else items ++ [item]

theorem mem_add {items : List Item} {item j : Item} :
    j ∈ add items item ↔ j ∈ items ∨ j = item := by
  unfold add
  split
  · next h =>
    refine ⟨Or.inl, ?_⟩
    rintro (hj | rfl)
    · exact hj
    · exact h
  · rw [List.mem_append, List.mem_singleton]

theorem prefix_add (items : List Item) (item : Item) : items <+: add items item := by
  unfold add
  split
  · exact List.prefix_rfl
  · exact List.prefix_append _ _

theorem mem_foldl_add {items news : List Item} {j : Item} :
    j ∈ news.foldl add items ↔ j ∈ items ∨ j ∈ news := by
  induction news generalizing items with
  | nil => simp
  | cons item news ih => rw [List.foldl_cons, ih, mem_add, List.mem_cons, or_assoc]

theorem prefix_foldl_add (items news : List Item) : items <+: news.foldl add items := by
  induction news generalizing items with
  | nil => exact List.prefix_rfl
  | cons item news ih => exact (prefix_add items item).trans (ih _)

/-- The productions below a number whose initial items are not there. -/
def lacking (count : Nat) (items : List Item) : Finset Nat :=
  (Finset.range count).filter fun p => (⟨p, 0⟩ : Item) ∉ items

/-- An item that is added is no longer lacking. -/
theorem card_lacking_add {count p : Nat} (hp : p < count) (items : List Item) :
    (add items ⟨p, 0⟩).length + (lacking count (add items ⟨p, 0⟩)).card ≤
      items.length + (lacking count items).card := by
  by_cases hmem : (⟨p, 0⟩ : Item) ∈ items
  · rw [add, if_pos hmem]
  · have hlt : (lacking count (add items ⟨p, 0⟩)).card < (lacking count items).card := by
      refine Finset.card_lt_card (Finset.ssubset_iff_of_subset ?_ |>.2 ⟨p, ?_, ?_⟩)
      · intro q hq
        rw [lacking, Finset.mem_filter] at hq ⊢
        exact ⟨hq.1, fun hold => hq.2 (mem_add.2 (Or.inl hold))⟩
      · exact Finset.mem_filter.2 ⟨Finset.mem_range.2 hp, hmem⟩
      · exact fun hq => (Finset.mem_filter.1 hq).2 (mem_add.2 (Or.inr rfl))
    have hlength : (add items ⟨p, 0⟩).length = items.length + 1 := by
      rw [add, if_neg hmem, List.length_append]
      rfl
    omega

theorem card_lacking_foldl_add {count : Nat} {news : List Item}
    (hnews : ∀ j ∈ news, ∃ p < count, j = ⟨p, 0⟩) (items : List Item) :
    (news.foldl add items).length + (lacking count (news.foldl add items)).card ≤
      items.length + (lacking count items).card := by
  induction news generalizing items with
  | nil => exact Nat.le_refl _
  | cons item news ih =>
    obtain ⟨p, hp, rfl⟩ := hnews item List.mem_cons_self
    have hrest := ih (fun j hj => hnews j (List.mem_cons_of_mem _ hj)) (add items ⟨p, 0⟩)
    exact hrest.trans (card_lacking_add hp items)

end Closing

namespace Analysis

/-- The initial items of the nonterminal that an item reads next. -/
def opened (an : Analysis) (item : Item) : List Item :=
  match an.remaining item with
  | .nonterminal id :: _ => (an.augmented.productionsOf id).map fun p => ⟨p, 0⟩
  | _ => []

/-- Looks at the next item, if there is one, and adds those that it opens. -/
def lookOn (an : Analysis) (c : Closing) : Option Closing :=
  c.items[c.seen]?.map fun item => ⟨(an.opened item).foldl Closing.add c.items, c.seen + 1⟩

end Analysis

namespace Grammar

variable {g : Grammar} {kernel : Kernel} {item : Item} {c c' : Closing}

theorem mem_opened (hg : g.WellFormed) {j : Item} : j ∈ g.analysis.opened item ↔
    ∃ p < g.augmented.productions.size, j = ⟨p, 0⟩ ∧
      ∃ rest, g.analysis.remaining item = .nonterminal (g.augmented.lhs p) :: rest := by
  unfold Analysis.opened
  split
  · next id rest hr =>
    rw [List.mem_map]
    constructor
    · rintro ⟨p, hp, rfl⟩
      obtain ⟨hlt, rfl⟩ := (mem_productionsOf hg).1 hp
      exact ⟨p, hlt, rfl, rest, hr⟩
    · rintro ⟨p, hlt, rfl, rest', hr'⟩
      rw [hr] at hr'
      cases hr'
      exact ⟨p, (mem_productionsOf hg).2 ⟨hlt, rfl⟩, rfl⟩
  · next hr =>
    constructor
    · exact fun hj => absurd hj List.not_mem_nil
    · rintro ⟨p, -, -, rest, hr'⟩
      exact absurd hr' (hr _ rest)

/-- What holds while the items of a state are found. -/
structure Closes (g : Grammar) (kernel : Kernel) (c : Closing) : Prop where
  core : ∀ i ∈ kernel, i ∈ c.items
  sound : ∀ i ∈ c.items, i ∈ g.analysis.closure kernel
  seen : c.seen ≤ c.items.length
  opened : ∀ i ∈ c.items.take c.seen, ∀ j ∈ g.analysis.opened i, j ∈ c.items

theorem closes_kernel (g : Grammar) (kernel : Kernel) : g.Closes kernel ⟨kernel, 0⟩ :=
  ⟨fun _ hi => hi, fun _ hi => mem_closure_of_mem hi, Nat.zero_le _, fun _ hi => by cases hi⟩

/-- A look at an item keeps the invariant and leaves less to do. -/
theorem Closes.lookOn (hg : g.WellFormed) (h : g.Closes kernel c)
    (hnext : g.analysis.lookOn c = some c') :
    g.Closes kernel c' ∧
      c'.items.length + (Closing.lacking g.augmented.productions.size c'.items).card - c'.seen <
        c.items.length + (Closing.lacking g.augmented.productions.size c.items).card - c.seen := by
  obtain ⟨item, hitem, rfl⟩ := Option.map_eq_some_iff.1 hnext
  obtain ⟨hlt, -⟩ := List.getElem?_eq_some_iff.1 hitem
  have hprefix := Closing.prefix_foldl_add c.items (g.analysis.opened item)
  refine ⟨⟨fun i hi => ?_, fun i hi => ?_, ?_, fun i hi j hj => ?_⟩, ?_⟩
  · exact hprefix.subset (h.core i hi)
  · rcases Closing.mem_foldl_add.1 hi with hi | hi
    · exact h.sound i hi
    · obtain ⟨p, hp, rfl, rest, hr⟩ := (mem_opened hg).1 hi
      exact closure_expand hg (h.sound item (List.mem_of_getElem? hitem)) hp hr
  · exact Nat.le_trans hlt hprefix.length_le
  · have htake : i ∈ c.items.take (c.seen + 1) := by
      obtain ⟨more, hmore⟩ := hprefix
      rwa [← hmore, List.take_append_of_le_length hlt] at hi
    rw [List.take_add_one, hitem, List.mem_append] at htake
    rcases htake with hold | hnew
    · exact hprefix.subset (h.opened i hold j hj)
    · obtain rfl : i = item := by simpa using hnew
      exact Closing.mem_foldl_add.2 (Or.inr hj)
  · have hnews : ∀ j ∈ g.analysis.opened item,
        ∃ p < g.augmented.productions.size, j = ⟨p, 0⟩ := by
      intro j hj
      obtain ⟨p, hp, hj, -⟩ := (mem_opened hg).1 hj
      exact ⟨p, hp, hj⟩
    have hcard := Closing.card_lacking_foldl_add hnews c.items
    have hlength := hprefix.length_le
    dsimp only
    omega

theorem Closes.mem_iff (hg : g.WellFormed) (h : g.Closes kernel c)
    (hend : g.analysis.lookOn c = none) : item ∈ c.items ↔ item ∈ g.analysis.closure kernel := by
  have hall : c.items.length ≤ c.seen :=
    List.getElem?_eq_none_iff.1 (Option.map_eq_none_iff.1 hend)
  refine ⟨h.sound item, closure_induction h.core (fun i hi p hp rest hr => ?_) hg⟩
  refine h.opened i (by rwa [List.take_of_length_le hall]) _ ?_
  exact (mem_opened hg).2 ⟨p, hp, rfl, rest, hr⟩

/-- **Looking at the items of a state comes to an end**, when all of them have been found. An item
is looked at once, and there are no more than the kernel and one for each production. -/
theorem exists_mem_eval_lookOn (hg : g.WellFormed) (kernel : Kernel) :
    ∃ c ∈ eval g.analysis.lookOn ⟨kernel, 0⟩,
      ∀ item, item ∈ c.items ↔ item ∈ g.analysis.closure kernel := by
  obtain ⟨c, hc, hcloses, hend⟩ := Loop.exists_mem_eval
    (fun c : Closing => c.items.length +
      (Closing.lacking g.augmented.productions.size c.items).card - c.seen)
    (fun _ _ h hnext => Closes.lookOn hg h hnext) (closes_kernel g kernel)
  exact ⟨c, hc, fun item => hcloses.mem_iff hg hend⟩

end Grammar

/-! ## Lookaheads within a state -/

/-- Hands on the lookaheads of the next item, if there is one that has any to hand on. -/
def Analysis.handNext (an : Analysis) (s : Spread) : Option Spread :=
  match s.work with
  | [] => none
  | item :: work => some (an.handOn item { s with work })

theorem Analysis.spreadFrom_succ (an : Analysis) (fuel : Nat) (s : Spread) :
    an.spreadFrom (fuel + 1) s = (an.handNext s).elim s (an.spreadFrom fuel) := by
  rw [spreadFrom, handNext]
  cases s.work <;> rfl

/-- **Handing on lookaheads comes to an end.** -/
theorem Grammar.spread_mem_eval {g : Grammar} (hg : g.WellFormed) {seeds : List (Item × BitSet)}
    (hseeds : ∀ seed ∈ seeds, ∀ n, seed.2.contains n = true → n < Spread.width) :
    g.analysis.spread seeds ∈ eval g.analysis.handNext (Spread.giveAll {} seeds) := by
  refine Loop.mem_eval_of_fuel g.analysis.spreadFrom (fun _ => rfl)
    g.analysis.spreadFrom_succ ?_
  have hwork : (g.analysis.spread seeds).work = [] := (spread_spec hg hseeds).2
  show g.analysis.handNext (g.analysis.spread seeds) = none
  rw [Analysis.handNext, hwork]

/-! ## States -/

namespace Automaton

/-- The automaton of the first state, that has not been left. -/
def initial (an : Analysis) : Automaton :=
  (Automaton.number {} [⟨an.augmented.acceptProduction, 0⟩]).2

/-- Leaves a state if there is one that has not been left. -/
def exploreOn (an : Analysis) (m : Automaton) : Option Automaton :=
  if m.moves.size < m.kernels.size then some (m.leaveNext an) else none

theorem explore_succ (an : Analysis) (fuel : Nat) (m : Automaton) :
    explore an (fuel + 1) m = (m.exploreOn an).elim m (explore an fuel) := by
  rw [explore, exploreOn]
  split <;> rfl

end Automaton

/-- **Leaving states comes to an end.** -/
theorem Grammar.automaton_mem_eval {g : Grammar} (hg : g.WellFormed) :
    g.automaton ∈ eval (Automaton.exploreOn g.analysis) (Automaton.initial g.analysis) := by
  refine Loop.mem_eval_of_fuel (Automaton.explore g.analysis) (fun _ => rfl)
    (Automaton.explore_succ g.analysis) ?_
  show Automaton.exploreOn g.analysis g.automaton = none
  exact if_neg (Nat.not_lt.2 (explored hg).ge)

/-! ## Lookaheads of kernel items -/

namespace Inclusions

variable {links : Array (Nat × Nat)} {sets : Array BitSet}

/-- Goes on with another sweep unless the last one has changed nothing. -/
def sweepOn (links : Array (Nat × Nat)) (sets : Array BitSet) : Option (Array BitSet) :=
  if (sweep links sets).changed then some (sweep links sets).sets else none

theorem settle_succ (links : Array (Nat × Nat)) (fuel : Nat) (sets : Array BitSet) :
    settle links (fuel + 1) sets = (sweepOn links sets).elim sets (settle links fuel) := by
  unfold settle sweepOn
  dsimp only
  split
  · rfl
  · next h =>
    rw [Bool.not_eq_true, sweep_eq_foldl] at h
    rw [sweep_eq_foldl, foldl_enforce_of_not_changed h]
    rfl

/-- A sweep over inclusions that are in force changes nothing. -/
theorem sweepOn_of_settled (hlinks : ∀ ab ∈ links, ab.2 < sets.size) (h : Settled links sets) :
    sweepOn links sets = none := by
  have henforce : ∀ ab ∈ links, enforce ⟨sets, false⟩ ab = ⟨sets, false⟩ := by
    intro ab hab
    refine if_pos (BitSet.ext fun i => ?_)
    rw [BitSet.contains_union]
    cases hi : (sets.getD ab.1 ∅).contains i with
    | false => rw [Bool.or_false]
    | true => rw [show (sets.getD ab.2 ∅).contains i = true from h ab hab (hlinks ab hab) i hi,
        Bool.or_true]
  have hsweep : sweep links sets = ⟨sets, false⟩ := by
    rw [sweep_eq_foldl]
    refine List.foldlRecOn (motive := fun sw : Sweep => sw = ⟨sets, false⟩) _ _ rfl ?_
    intro sw hsw ab hab
    rw [hsw]
    exact henforce ab (Array.mem_toList_iff.1 hab)
  rw [sweepOn, hsweep]
  rfl

/-- **Sweeping comes to an end**, where all links are between unknowns of the system. -/
theorem solve_mem_eval {sys : Inclusions} (hlinks : ∀ ab ∈ sys.links, ab.2 < sys.bounds.size) :
    sys.solve ∈ eval (sweepOn sys.links) sys.bounds := by
  refine Loop.mem_eval_of_fuel (settle sys.links) (fun _ => rfl) (settle_succ sys.links) ?_
  refine sweepOn_of_settled (fun ab hab => ?_) ?_
  · rw [size_settle]
    exact hlinks ab hab
  · exact settled_settle (w := sys.width) (fun _ _ => member_lt_width) (by omega)

end Inclusions

/-! ## The whole construction -/

namespace Grammar

variable {g : Grammar}

/-- Every loop of table construction comes to an end, with what the construction works with, and
the construction yields a table or conflicts. -/
structure LoopsEnd (g : Grammar) : Prop where
  first : g.analysis ∈ eval Analysis.again g.analysis.blank
  closure : ∀ kernel, ∃ c ∈ eval g.analysis.lookOn ⟨kernel, 0⟩,
    ∀ item, item ∈ c.items ↔ item ∈ g.analysis.closure kernel
  spread : ∀ seeds : List (Item × BitSet),
    (∀ seed ∈ seeds, ∀ n, seed.2.contains n = true → n < Spread.width) →
    g.analysis.spread seeds ∈ eval g.analysis.handNext (Spread.giveAll {} seeds)
  states : g.automaton ∈ eval (Automaton.exploreOn g.analysis) (Automaton.initial g.analysis)
  lookaheads : g.construction.lookaheads ∈
    eval (Inclusions.sweepOn g.construction.inclusions.links) g.construction.inclusions.bounds
  table : (∃ t, ParseTable.build g = .ok t) ∨
    ∃ found ≠ [], ParseTable.build g = .error (.conflicts found)

theorem link_lt (hg : g.WellFormed) :
    ∀ ab ∈ g.construction.inclusions.links, ab.2 < g.construction.inclusions.bounds.size := by
  rintro ⟨a, b⟩ hab
  rw [size_inclusions]
  cases (demands_inclusions hg (.link a b)).1 hab with
  | passed _ _ hgoal => exact goal_lt hgoal

theorem WellFormed.loopsEnd (hg : g.WellFormed) : g.LoopsEnd where
  first := mem_eval_again hg
  closure := exists_mem_eval_lookOn hg
  spread _ hseeds := spread_mem_eval hg hseeds
  states := automaton_mem_eval hg
  lookaheads := Inclusions.solve_mem_eval (link_lt hg)
  table := build_cases hg

end Grammar

namespace RuleSet

/-- **Table construction comes to an end** for every grammar made of rules with fewer than 65536
nonterminals, whatever its rules derive. -/
theorem loopsEnd_of_toGrammar {rules : RuleSet} {g : Grammar} (h : rules.toGrammar = .ok g)
    (hsize : g.nonterminals.size < 65536) : g.LoopsEnd :=
  (toGrammar_wellFormed h hsize).loopsEnd

/-- A rule that derives itself, is ambiguous and may be empty, and a rule that derives no tokens. -/
def looping : RuleSet where
  name := "looping"
  start := "_loop"
  definitions := [
    .hidden "_loop" (.choice [.rule "_loop", .seq [.rule "_loop", .rule "_loop"], .rule "_never",
      .token .plus, .blank]),
    .hidden "_never" (.seq [.token .comma, .rule "_never"])]

/-- No loop depends on what the rules derive. -/
theorem loopsEnd_looping :
    ∃ g, looping.toGrammar = .ok g ∧ g.nonterminals.size < 65536 ∧ g.LoopsEnd := by
  obtain ⟨g, h, hsize⟩ := exists_toGrammar looping (by decide +kernel)
  exact ⟨g, h, hsize, loopsEnd_of_toGrammar h hsize⟩

end RuleSet

end AsmTree
