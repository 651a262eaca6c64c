import AsmTree.Proofs.Table.Lookaheads
import Mathlib.Data.Set.Basic

/-!
# The automaton and the canonical collection

The states of a grammar and their lookaheads as textbooks have them: cores of items, each reached
from the one before by reading a symbol, and the canonical collection, in which the items of a core
come with the tokens that may follow them on the way there. Several states of the canonical
collection can have one core. **Main statement (`isLalr_of_toGrammar`):** the automaton of a grammar
has one state for each core, and an item of its kernel has the lookaheads that the item has in any
state of the canonical collection with that core.
-/

namespace AsmTree

namespace Grammar

variable {g : Grammar}

/-! ## Cores -/

/-- The symbols of an item behind its dot. -/
def unread (g : Grammar) (i : Item) : List Symbol := (g.augmented.rhs i.production).drop i.dot

/-- The item with the whole input still to be read. -/
def startItem (g : Grammar) : Item := ⟨g.productions.size, 0⟩

/-- The items of a state with some core: those of the core, and all that begin a nonterminal which
an item of the state reads next. -/
inductive Stands (g : Grammar) (core : Set Item) : Item → Prop where
  | core {i : Item} : i ∈ core → Stands g core i
  | expand {i : Item} {p : Nat} {rest : List Symbol} : Stands g core i →
    p < g.augmented.productions.size → g.unread i = .nonterminal (g.augmented.lhs p) :: rest →
    Stands g core ⟨p, 0⟩

/-- The items behind a symbol that items of a state read next. -/
def behind (g : Grammar) (core : Set Item) (s : Symbol) : Set Item :=
  {j | ∃ i, g.Stands core i ∧ (g.unread i).head? = some s ∧ j = i.advance}

/-- The cores that can be reached from that of the whole input. -/
inductive Core (g : Grammar) : Set Item → Prop where
  | start : Core g {g.startItem}
  | move {core : Set Item} {s : Symbol} : Core g core → (g.behind core s).Nonempty →
    Core g (g.behind core s)

/-! ## The canonical collection -/

/-- A core with the tokens that may follow its items. -/
structure Situation where
  core : Set Item
  follow : Item → Set Kind

/-- The lookaheads of the items of a state: those of its core, and for an item that begins a
nonterminal what can come first behind that nonterminal, be it in the item that reads it or behind
that item. -/
inductive Situation.Looks (g : Grammar) (c : Situation) : Item → Kind → Prop where
  | core {i : Item} {k : Kind} : i ∈ c.core → k ∈ c.follow i → Looks g c i k
  | first {i : Item} {p : Nat} {rest : List Symbol} {k : Kind} : g.Stands c.core i →
    p < g.augmented.productions.size → g.unread i = .nonterminal (g.augmented.lhs p) :: rest →
    g.Begins rest k → Looks g c ⟨p, 0⟩ k
  | rest {i : Item} {p : Nat} {rest : List Symbol} {k : Kind} : Looks g c i k →
    p < g.augmented.productions.size → g.unread i = .nonterminal (g.augmented.lhs p) :: rest →
    g.Vanishes rest → Looks g c ⟨p, 0⟩ k

/-- The situation behind a symbol. Items keep their lookaheads. -/
def Situation.behind (g : Grammar) (c : Situation) (s : Symbol) : Situation where
  core := g.behind c.core s
  follow j := {k | ∃ i, c.Looks g i k ∧ (g.unread i).head? = some s ∧ j = i.advance}

/-- The canonical collection: what can be reached from the whole input before the end of the
text. -/
inductive Canonical (g : Grammar) : Situation → Prop where
  | start : Canonical g ⟨{g.startItem}, fun _ => {.eof}⟩
  | move {c : Situation} {s : Symbol} : Canonical g c → (g.behind c.core s).Nonempty →
    Canonical g (c.behind g s)

/-- The core of a state of the automaton. -/
def coreOf (g : Grammar) (state : Nat) : Set Item := {i | i ∈ g.automaton.kernel state}

/-- The automaton has the cores for states, and the lookaheads of its kernels are those of the
canonical collection, brought together by core. -/
structure IsLalr (g : Grammar) : Prop where
  /-- The first state is that of the whole input. -/
  start : g.coreOf 0 = {g.startItem}
  /-- Every core that can be reached is that of a state, and there are no other states. -/
  cores : ∀ core, g.Core core ↔ ∃ state < g.automaton.size, g.coreOf state = core
  /-- No two states have the same core. -/
  distinct : ∀ a < g.automaton.size, ∀ b < g.automaton.size, g.coreOf a = g.coreOf b → a = b
  /-- A kernel names each item of its core once. -/
  nodup : ∀ state, (g.automaton.kernel state).Nodup
  /-- A state moves with a symbol exactly to the state whose core stands behind it. -/
  moves : ∀ state < g.automaton.size, ∀ s target, g.automaton.next? state s = some target ↔
    (g.behind (g.coreOf state) s).Nonempty ∧ target < g.automaton.size ∧
      g.coreOf target = g.behind (g.coreOf state) s
  /-- An item of a kernel has the lookaheads that it has anywhere over that core. -/
  lookaheads : ∀ state i item, (g.automaton.kernel state)[i]? = some item → ∀ n,
    Inclusions.Member g.construction.lookaheads (g.construction.plan.number state i) n ↔
      ∃ k : Kind, k.index = n ∧ ∃ c, g.Canonical c ∧ c.core = g.coreOf state ∧ c.Looks g item k
  /-- Where an item of a state goes with the symbol that it reads next is always found. -/
  found : ∀ state < g.automaton.size, ∀ item, g.Stands (g.coreOf state) item →
    ∀ s rest, g.unread item = s :: rest →
      ∃ target i, g.construction.slot? state s item.advance = some (target, i)

/-! ## States and cores -/

variable {state target : Nat} {s : Symbol} {item : Item} {core : Set Item}

theorem unread_eq (g : Grammar) (i : Item) : g.unread i = g.analysis.remaining i :=
  (remaining_eq_drop g i).symm

theorem stands_coreOf (hg : g.WellFormed) : g.Stands (g.coreOf state) item ↔
    item ∈ g.analysis.closure (g.automaton.kernel state) := by
  constructor
  · intro h
    induction h with
    | core hi => exact mem_closure_of_mem hi
    | expand _ hp hr ih => exact closure_expand hg ih hp ((unread_eq g _).symm.trans hr)
  · refine closure_induction (P := g.Stands (g.coreOf state)) ?_ ?_ hg
    · exact fun i hi => .core hi
    · exact fun i hi p hp rest hr => .expand hi hp ((unread_eq g i).trans hr)

theorem coreOf_zero (g : Grammar) : g.coreOf 0 = {g.startItem} := by
  ext i
  rw [coreOf, Set.mem_ofPred_eq, kernel_zero, List.mem_singleton]
  rfl

/-- A move leads to the items behind its symbol. -/
theorem coreOf_next? (hg : g.WellFormed) (h : g.automaton.next? state s = some target) :
    g.coreOf target = g.behind (g.coreOf state) s := by
  ext j
  constructor
  · intro hj
    obtain ⟨i, hi, hs, rfl⟩ := exists_of_next? hg h hj
    exact ⟨i, (stands_coreOf hg).2 hi, by rw [unread_eq]; exact hs, rfl⟩
  · rintro ⟨i, hi, hs, rfl⟩
    rw [unread_eq] at hs
    obtain ⟨n, hn, hmem⟩ := next?_of_mem hg (lt_of_next? hg h).1 ((stands_coreOf hg).1 hi) hs
    rw [h] at hn
    cases hn
    exact hmem

theorem exists_next?_of_behind (hg : g.WellFormed) (hstate : state < g.automaton.size)
    (h : (g.behind (g.coreOf state) s).Nonempty) :
    ∃ target, g.automaton.next? state s = some target := by
  obtain ⟨_, i, hi, hs, -⟩ := h
  rw [unread_eq] at hs
  obtain ⟨target, hm, -⟩ := next?_of_mem hg hstate ((stands_coreOf hg).1 hi) hs
  exact ⟨target, hm⟩

theorem nonempty_behind (hg : g.WellFormed) (h : g.automaton.next? state s = some target) :
    (g.behind (g.coreOf state) s).Nonempty := by
  rw [← coreOf_next? hg h]
  obtain ⟨i, hi⟩ := List.exists_mem_of_ne_nil _ (kernel_ne_nil (lt_of_next? hg h).2)
  exact ⟨i, hi⟩

/-- Kernels are sorted, so states with one core are the same. -/
theorem coreOf_inj {a b : Nat} (ha : a < g.automaton.size) (hb : b < g.automaton.size)
    (h : g.coreOf a = g.coreOf b) : a = b :=
  kernel_inj ha hb ((strict_kernel g a).ext (strict_kernel g b) fun i => (Set.ext_iff.1 h i))

theorem next?_iff (hg : g.WellFormed) (hstate : state < g.automaton.size) :
    g.automaton.next? state s = some target ↔ (g.behind (g.coreOf state) s).Nonempty ∧
      target < g.automaton.size ∧ g.coreOf target = g.behind (g.coreOf state) s := by
  constructor
  · exact fun h => ⟨nonempty_behind hg h, (lt_of_next? hg h).2, coreOf_next? hg h⟩
  · rintro ⟨hne, htarget, hcore⟩
    obtain ⟨n, hn⟩ := exists_next?_of_behind hg hstate hne
    rw [hn, coreOf_inj (lt_of_next? hg hn).2 htarget ((coreOf_next? hg hn).trans hcore.symm)]

theorem Core.exists_state (hg : g.WellFormed) (h : g.Core core) :
    ∃ state < g.automaton.size, g.coreOf state = core := by
  induction h with
  | start => exact ⟨0, size_pos g, coreOf_zero g⟩
  | move _ hne ih =>
    obtain ⟨state, hstate, rfl⟩ := ih
    obtain ⟨target, hm⟩ := exists_next?_of_behind hg hstate hne
    exact ⟨target, (lt_of_next? hg hm).2, coreOf_next? hg hm⟩

theorem core_coreOf (hg : g.WellFormed) (hstate : state < g.automaton.size) :
    g.Core (g.coreOf state) := by
  refine state_induction hg (P := fun state => g.Core (g.coreOf state)) ?_ ?_ hstate
  · rw [coreOf_zero]
    exact .start
  · intro state s target h hm
    rw [coreOf_next? hg hm]
    exact .move h (nonempty_behind hg hm)

/-! ## Lookaheads and the canonical collection -/

variable {c : Situation} {k : Kind}

/-- The lookaheads of the items of a state, if all that its core has follow there. -/
theorem Situation.Looks.follows (hg : g.WellFormed) (hstate : state < g.automaton.size)
    (hcore : c.core = g.coreOf state)
    (hfollow : ∀ i ∈ c.core, ∀ k ∈ c.follow i, g.Follows state i k.index)
    (h : c.Looks g item k) : g.Follows state item k.index := by
  induction h with
  | core hi hk => exact hfollow _ hi _ hk
  | first hi hp hr hk =>
    rw [hcore, stands_coreOf hg] at hi
    rw [unread_eq] at hr
    exact .first ⟨hstate, hi⟩ hp hr ((contains_firstOf hg).2 ⟨_, rfl, hk⟩)
  | rest _ hp hr hempty ih =>
    rw [unread_eq] at hr
    exact .rest (ih.inState hg) hp hr ((firstOf_vanishes hg).2 hempty) ih

/-- A state of the canonical collection lies over a state of the automaton, and its lookaheads
follow there. -/
theorem Canonical.exists_state (hg : g.WellFormed) (h : g.Canonical c) :
    ∃ state < g.automaton.size, c.core = g.coreOf state ∧
      ∀ i k, c.Looks g i k → g.Follows state i k.index := by
  induction h with
  | start =>
    refine ⟨0, size_pos g, (coreOf_zero g).symm, fun i k hk => ?_⟩
    refine hk.follows hg (size_pos g) (coreOf_zero g).symm ?_
    rintro _ rfl _ rfl
    exact .eof
  | @move c s _ hne ih =>
    obtain ⟨state, hstate, hcore, hlooks⟩ := ih
    rw [hcore] at hne
    obtain ⟨target, hm⟩ := exists_next?_of_behind hg hstate hne
    have htarget : (c.behind g s).core = g.coreOf target := by
      rw [coreOf_next? hg hm, ← hcore]
      rfl
    refine ⟨target, (lt_of_next? hg hm).2, htarget, fun i k hk => ?_⟩
    refine hk.follows hg (lt_of_next? hg hm).2 htarget ?_
    rintro j hj k ⟨i, hi, -, rfl⟩
    rw [htarget] at hj
    exact .advance hm hj (hlooks i k hi)

theorem exists_canonical (hg : g.WellFormed) (hstate : state < g.automaton.size) :
    ∃ c, g.Canonical c ∧ c.core = g.coreOf state := by
  refine state_induction hg (P := fun state => ∃ c, g.Canonical c ∧ c.core = g.coreOf state)
    ?_ ?_ hstate
  · exact ⟨_, .start, (coreOf_zero g).symm⟩
  · rintro state s target ⟨c, hc, hcore⟩ hm
    have hbehind : g.behind c.core s = g.coreOf target := by
      rw [coreOf_next? hg hm, hcore]
    refine ⟨c.behind g s, .move hc ?_, hbehind⟩
    rw [hcore]
    exact nonempty_behind hg hm

/-- What follows an item is among its lookaheads somewhere over the state. -/
theorem Follows.exists_canonical (hg : g.WellFormed) {n : Nat} (h : g.Follows state item n) :
    ∃ k : Kind, k.index = n ∧ ∃ c, g.Canonical c ∧ c.core = g.coreOf state ∧
      c.Looks g item k := by
  induction h with
  | eof => exact ⟨.eof, rfl, _, .start, (coreOf_zero g).symm, .core rfl rfl⟩
  | first hin hp hr hn =>
    obtain ⟨k, rfl, hk⟩ := (contains_firstOf hg).1 hn
    obtain ⟨c, hc, hcore⟩ := Grammar.exists_canonical hg hin.1
    refine ⟨k, rfl, c, hc, hcore, .first ?_ hp ((unread_eq g _).trans hr) hk⟩
    rw [hcore]
    exact (stands_coreOf hg).2 hin.2
  | rest _ hp hr hempty _ ih =>
    obtain ⟨k, hk, c, hc, hcore, hlooks⟩ := ih
    exact ⟨k, hk, c, hc, hcore,
      .rest hlooks hp ((unread_eq g _).trans hr) ((firstOf_vanishes hg).1 hempty)⟩
  | @advance state target n s item hm hmem _ ih =>
    obtain ⟨k, hk, c, hc, hcore, hlooks⟩ := ih
    have hbehind : (c.behind g s).core = g.coreOf target := by
      rw [coreOf_next? hg hm, ← hcore]
      rfl
    refine ⟨k, hk, c.behind g s, .move hc ?_, hbehind, .core ?_ ⟨item, hlooks, ?_, rfl⟩⟩
    · rw [hcore]
      exact nonempty_behind hg hm
    · rw [hbehind]
      exact hmem
    · rw [unread_eq]
      exact (inState_of_advance hg hm hmem).2

/-- **The lookaheads that are computed for a kernel item are those that it has in the canonical
collection over that core.** -/
theorem member_iff_canonical (hg : g.WellFormed) {i n : Nat}
    (hi : (g.automaton.kernel state)[i]? = some item) :
    Inclusions.Member g.construction.lookaheads (g.number state i) n ↔
      ∃ k : Kind, k.index = n ∧ ∃ c, g.Canonical c ∧ c.core = g.coreOf state ∧
        c.Looks g item k := by
  refine (member_lookaheads hg hi).trans ⟨fun h => h.exists_canonical hg, ?_⟩
  rintro ⟨k, rfl, c, hc, hcore, hlooks⟩
  obtain ⟨state', hstate', hcore', hfollows⟩ := hc.exists_state hg
  obtain rfl := coreOf_inj (lt_of_getElem?_kernel hi) hstate' (hcore.symm.trans hcore')
  exact hfollows _ _ hlooks

/-- **The automaton of a well-formed grammar has the cores for states, and its lookaheads are those
of the canonical collection.** -/
theorem WellFormed.isLalr (hg : g.WellFormed) : g.IsLalr where
  start := coreOf_zero g
  cores core := by
    refine ⟨fun h => h.exists_state hg, ?_⟩
    rintro ⟨state, hstate, rfl⟩
    exact core_coreOf hg hstate
  distinct _ ha _ hb h := coreOf_inj ha hb h
  nodup state := (strict_kernel g state).imp fun h => h.2
  moves _ hstate _ _ := next?_iff hg hstate
  lookaheads _ _ _ hi _ := member_iff_canonical hg hi
  found state hstate item hi s rest hr :=
    exists_slot? hg ⟨hstate, (stands_coreOf hg).1 hi⟩ ((unread_eq g item).symm.trans hr)

end Grammar

namespace RuleSet

/-- **The lookaheads of a grammar made of rules are those of the canonical collection**, brought
together by core, if there are fewer than 65536 nonterminals. -/
theorem isLalr_of_toGrammar {rules : RuleSet} {g : Grammar} (h : rules.toGrammar = .ok g)
    (hsize : g.nonterminals.size < 65536) : g.IsLalr :=
  (toGrammar_wellFormed h hsize).isLalr

/-- Two rules for the same tokens. What stands before them and what stands behind them tell which
rule it was, neither of them alone. -/
def merging : RuleSet where
  name := "merging"
  start := "_pair"
  definitions := [.hidden "_pair" (.choice [
      .seq [.token .plus, .rule "_left", .token .comma],
      .seq [.token .minus, .rule "_right", .token .comma],
      .seq [.token .plus, .rule "_right", .token .colon],
      .seq [.token .minus, .rule "_left", .token .colon]]),
    .hidden "_left" (.seq [.token .star, .many (.token .slash)]),
    .hidden "_right" (.seq [.token .star, .many (.token .slash)])]

/-- A core with two states of the canonical collection. -/
theorem isLalr_merging :
    ∃ g, merging.toGrammar = .ok g ∧ g.nonterminals.size < 65536 ∧ g.IsLalr := by
  obtain ⟨g, h, hsize⟩ := exists_toGrammar merging (by decide +kernel)
  exact ⟨g, h, hsize, isLalr_of_toGrammar h hsize⟩

end RuleSet

end AsmTree
