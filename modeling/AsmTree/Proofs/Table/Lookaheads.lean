import AsmTree.Proofs.Table.Follow
import AsmTree.Proofs.Table.Spread

/-!
# The lookaheads that are computed

**Main statements:** the lookaheads that are computed for the items of kernels are those with which
they may be complete (`member_lookaheads`), and handing them on yields those of all other items
(`contains_spreadOf`).
-/

namespace AsmTree

/-! ## Numbers of kernel items -/

namespace KernelPlan

/-- Number of kernel items of the states below one. -/
def offset (kernels : Array Kernel) (state : Nat) : Nat :=
  (kernels.toList.take state).flatten.length

theorem offset_succ {kernels : Array Kernel} {state : Nat} (h : state < kernels.size) :
    offset kernels (state + 1) = offset kernels state + (kernels.getD state []).length := by
  rw [offset, offset, List.take_add_one, List.flatten_append, List.length_append,
    Array.getElem?_toList, Array.getD_eq_getD_getElem?, Array.getElem?_eq_getElem h]
  simp

theorem offset_mono (kernels : Array Kernel) {a b : Nat} (h : a ≤ b) :
    offset kernels a ≤ offset kernels b := by
  rw [offset, offset, show b = a + (b - a) by omega, List.take_add, List.flatten_append,
    List.length_append]
  exact Nat.le_add_right _ _

def addKernel (bases : Array Nat × Nat) (kernel : Kernel) : Array Nat × Nat :=
  (bases.1.push bases.2, bases.2 + kernel.length)

theorem foldl_addKernel (l : List Kernel) (b : Array Nat × Nat) :
    (l.foldl addKernel b).2 = b.2 + l.flatten.length ∧
      (l.foldl addKernel b).1.size = b.1.size + l.length ∧
      (∀ j < b.1.size, (l.foldl addKernel b).1[j]? = b.1[j]?) ∧
      ∀ j < l.length, (l.foldl addKernel b).1[b.1.size + j]? =
        some (b.2 + (l.take j).flatten.length) := by
  induction l generalizing b with
  | nil => simp
  | cons kernel l ih =>
    obtain ⟨htotal, hsize, hold, hnew⟩ := ih (addKernel b kernel)
    rw [addKernel, Array.size_push] at hsize hold hnew
    rw [List.foldl_cons]
    refine ⟨?_, ?_, ?_, ?_⟩
    · rw [htotal, addKernel, List.flatten_cons, List.length_append, Nat.add_assoc]
    · rw [addKernel, hsize, List.length_cons]
      omega
    · intro j hj
      rw [addKernel, hold j (Nat.lt_succ_of_lt hj), Array.getElem?_push,
        if_neg (Nat.ne_of_lt hj)]
    · intro j hj
      cases j with
      | zero =>
        rw [Nat.add_zero, addKernel, hold _ (Nat.lt_succ_self _), Array.getElem?_push_size]
        rfl
      | succ j =>
        rw [addKernel, show b.1.size + (j + 1) = b.1.size + 1 + j by omega,
          hnew j (Nat.lt_of_succ_lt_succ hj), List.take_succ_cons, List.flatten_cons,
          List.length_append, Nat.add_assoc]

theorem ofKernels_eq (kernels : Array Kernel) : ofKernels kernels =
    ⟨(kernels.toList.foldl addKernel (#[], 0)).1, (kernels.toList.foldl addKernel (#[], 0)).2⟩ := by
  rw [Array.foldl_toList]
  rfl

theorem size_ofKernels (kernels : Array Kernel) :
    (ofKernels kernels).size = offset kernels kernels.size := by
  rw [ofKernels_eq, offset, ← Array.length_toList, List.take_length]
  exact (foldl_addKernel kernels.toList (#[], 0)).1.trans (Nat.zero_add _)

variable {kernels : Array Kernel}

theorem number_ofKernels {state : Nat} (h : state < kernels.size) (i : Nat) :
    (ofKernels kernels).number state i = offset kernels state + i := by
  have hbase := (foldl_addKernel kernels.toList (#[], 0)).2.2.2 state h
  rw [Array.size_empty, Nat.zero_add, Nat.zero_add] at hbase
  rw [number, ofKernels_eq, Array.getD_eq_getD_getElem?, hbase]
  rfl

theorem number_lt {state i : Nat} (h : state < kernels.size)
    (hi : i < (kernels.getD state []).length) :
    (ofKernels kernels).number state i < (ofKernels kernels).size := by
  rw [number_ofKernels h, size_ofKernels]
  have hsucc := offset_succ h
  have hmono := offset_mono kernels (Nat.succ_le_of_lt h)
  rw [Nat.succ_eq_add_one] at hmono
  omega

theorem number_inj {a b i j : Nat} (ha : a < kernels.size) (hb : b < kernels.size)
    (hi : i < (kernels.getD a []).length) (hj : j < (kernels.getD b []).length)
    (h : (ofKernels kernels).number a i = (ofKernels kernels).number b j) : a = b ∧ i = j := by
  rw [number_ofKernels ha, number_ofKernels hb] at h
  have hsa := offset_succ ha
  have hsb := offset_succ hb
  rcases Nat.lt_trichotomy a b with hab | hab | hab
  · have hmono := offset_mono kernels (Nat.succ_le_of_lt hab)
    rw [Nat.succ_eq_add_one] at hmono
    omega
  · subst hab
    exact ⟨rfl, Nat.add_left_cancel h⟩
  · have hmono := offset_mono kernels (Nat.succ_le_of_lt hab)
    rw [Nat.succ_eq_add_one] at hmono
    omega

end KernelPlan

namespace Grammar

open Inclusions Spread

variable {g : Grammar} {state target i j n : Nat} {s : Symbol} {item : Item}

abbrev number (g : Grammar) (state i : Nat) : Nat := g.construction.plan.number state i

theorem lt_of_getElem?_kernel (h : (g.automaton.kernel state)[i]? = some item) :
    state < g.automaton.size := by
  by_contra hge
  rw [kernel_of_size_le (Nat.le_of_not_lt hge)] at h
  cases h

theorem number_lt (h : (g.automaton.kernel state)[i]? = some item) :
    g.number state i < g.construction.plan.size :=
  KernelPlan.number_lt (lt_of_getElem?_kernel h) (List.getElem?_eq_some_iff.1 h).1

theorem number_inj {item' : Item} (h : (g.automaton.kernel state)[i]? = some item)
    (h' : (g.automaton.kernel target)[j]? = some item')
    (he : g.number state i = g.number target j) : state = target ∧ i = j :=
  KernelPlan.number_inj (lt_of_getElem?_kernel h) (lt_of_getElem?_kernel h')
    (List.getElem?_eq_some_iff.1 h).1 (List.getElem?_eq_some_iff.1 h').1 he

/-! ## Places behind symbols -/

theorem slot?_eq_some : g.construction.slot? state s item = some (target, j) ↔
    g.automaton.next? state s = some target ∧ (g.automaton.kernel target)[j]? = some item := by
  unfold Construction.slot?
  simp only [Option.bind_eq_bind, Option.bind_eq_some_iff, Option.pure_def, Option.some.injEq,
    Prod.mk.injEq]
  constructor
  · rintro ⟨_, hnext, _, hfind, rfl, rfl⟩
    obtain ⟨hlt, hitem, -⟩ := List.findIdx?_eq_some_iff_getElem.1 hfind
    exact ⟨hnext, List.getElem?_eq_some_iff.2 ⟨hlt, eq_of_beq hitem⟩⟩
  · rintro ⟨hnext, hitem⟩
    exact ⟨target, hnext, j, findIdx?_kernel hitem, rfl, rfl⟩

/-- **The place behind the next symbol of an item of a state is always found.** -/
theorem exists_slot? (hg : g.WellFormed) (hin : g.InState state item) {rest : List Symbol}
    (hr : g.analysis.remaining item = s :: rest) :
    ∃ target j, g.construction.slot? state s item.advance = some (target, j) := by
  obtain ⟨target, hm, hmem⟩ := next?_of_mem hg hin.1 hin.2 (s := s) (by rw [hr]; rfl)
  obtain ⟨j, hj⟩ := List.getElem?_of_mem hmem
  exact ⟨target, j, slot?_eq_some.2 ⟨hm, hj⟩⟩

theorem goal?_eq_some : g.construction.goal? state item = some n ↔
    ∃ s rest target j, g.analysis.remaining item = s :: rest ∧
      g.automaton.next? state s = some target ∧
      (g.automaton.kernel target)[j]? = some item.advance ∧ n = g.number target j := by
  unfold Construction.goal?
  simp only [Option.bind_eq_bind, Option.bind_eq_some_iff, Option.pure_def, Option.some.injEq,
    Prod.exists]
  constructor
  · rintro ⟨s, hs, target, j, hslot, rfl⟩
    obtain ⟨rest, hr⟩ := List.head?_eq_some_iff.1 hs
    obtain ⟨hm, hj⟩ := slot?_eq_some.1 hslot
    exact ⟨s, rest, target, j, hr, hm, hj, rfl⟩
  · rintro ⟨s, rest, target, j, hr, hm, hj, rfl⟩
    exact ⟨s, List.head?_eq_some_iff.2 ⟨rest, hr⟩, target, j, slot?_eq_some.2 ⟨hm, hj⟩, rfl⟩

/-! ## The system of inclusions -/

/-- What is asked for because an item of a state has lookaheads. -/
def PassDemand (g : Grammar) (m state source : Nat) (item : Item) (set : BitSet) (d : Demand) :
    Prop :=
  ∃ goal, g.construction.goal? state item = some goal ∧
    ((∃ n, d = .member goal n ∧ goal < m ∧ (set.below mark).contains n = true) ∨
      set.contains mark = true ∧ d = .link source goal)

theorem passOn_eq (g : Grammar) {goal : Nat} (h : g.construction.goal? state item = some goal)
    (source : Nat) (set : BitSet) (sys : Inclusions) :
    g.construction.passOn state source item set sys =
      if set.contains mark then (sys.bound goal (set.below mark)).link source goal
      else sys.bound goal (set.below mark) := by
  unfold Construction.passOn
  rw [h]

theorem passOn_of_none (g : Grammar) (h : g.construction.goal? state item = none) (source : Nat)
    (set : BitSet) (sys : Inclusions) :
    g.construction.passOn state source item set sys = sys := by
  unfold Construction.passOn
  rw [h]

theorem adds_passOn (g : Grammar) (m state source : Nat) (item : Item) (set : BitSet) :
    Adds m (g.construction.passOn state source item set)
      (g.PassDemand m state source item set) := by
  unfold PassDemand
  cases hgoal : g.construction.goal? state item with
  | none =>
    rw [funext (g.passOn_of_none hgoal source set)]
    exact ⟨Adds.nothing.size, fun sys hs d => by simp⟩
  | some goal =>
    have hbound := Adds.bound (n := m) goal (set.below mark)
    have hlink := Adds.link (n := m) source goal
    rw [funext (g.passOn_eq hgoal source set)]
    by_cases hmark : set.contains mark = true
    · simp only [if_pos hmark]
      refine ⟨(hbound.comp hlink).size, fun sys hs d => ?_⟩
      rw [(hbound.comp hlink).demands sys hs d]
      simp [hmark]
    · simp only [if_neg hmark]
      refine ⟨hbound.size, fun sys hs d => ?_⟩
      rw [hbound.demands sys hs d]
      simp [hmark]

/-- The lookaheads that come of a mark on a kernel item. -/
abbrev Marked (g : Grammar) (item : Item) : Item → Nat → Prop :=
  g.Receives [(item, .singleton mark)]

/-- What the system of lookaheads asks for. -/
inductive LookaheadDemand (g : Grammar) : Demand → Prop where
  | eof : LookaheadDemand g (.member (g.number 0 0) Kind.eof.index)
  | own {state i n goal : Nat} {item closed : Item} :
    (g.automaton.kernel state)[i]? = some item → g.Marked item closed n → n < mark →
    g.construction.goal? state closed = some goal → LookaheadDemand g (.member goal n)
  | passed {state i goal : Nat} {item closed : Item} :
    (g.automaton.kernel state)[i]? = some item → g.Marked item closed mark →
    g.construction.goal? state closed = some goal →
    LookaheadDemand g (.link (g.number state i) goal)

theorem goal_lt (h : g.construction.goal? state item = some n) :
    n < g.construction.plan.size := by
  obtain ⟨s, rest, target, j, -, -, hj, rfl⟩ := goal?_eq_some.1 h
  exact number_lt hj

theorem Receives.mem_closure (hg : g.WellFormed) {seeds : List (Item × BitSet)}
    (h : g.Receives seeds item n) : item ∈ g.analysis.closure (seeds.map Prod.fst) := by
  cases h with
  | seed hmem => exact mem_closure_of_mem (List.mem_map_of_mem hmem)
  | first hitem hp hr => exact closure_expand hg hitem hp hr
  | rest hitem hp hr => exact closure_expand hg hitem hp hr

theorem contains_marked (hg : g.WellFormed) {closed : Item} :
    ((g.analysis.spread [(item, .singleton mark)]).lookaheads closed).contains n = true ↔
      g.Marked item closed n := by
  refine contains_spread hg fun seed hseed n hn => ?_
  rw [List.mem_singleton.1 hseed, BitSet.contains_singleton, decide_eq_true_eq] at hn
  rw [← hn]
  decide

theorem mem_toList_marked (hg : g.WellFormed) {closed : Item} {set : BitSet}
    (h : (closed, set) ∈ (g.analysis.spread [(item, .singleton mark)]).sets.toList) :
    set.contains n = true ↔ g.Marked item closed n := by
  rw [← contains_marked hg, lookaheads_eq,
    Std.HashMap.mem_toList_iff_getElem?_eq_some.1 h, Option.getD_some]

theorem exists_mem_toList_marked (hg : g.WellFormed) {closed : Item}
    (h : g.Marked item closed n) :
    ∃ set, (closed, set) ∈ (g.analysis.spread [(item, .singleton mark)]).sets.toList := by
  have hn := (contains_marked hg).2 h
  rw [lookaheads_eq] at hn
  cases hset : (g.analysis.spread [(item, .singleton mark)]).sets[closed]? with
  | none =>
    rw [hset] at hn
    simp at hn
  | some set => exact ⟨set, Std.HashMap.mem_toList_iff_getElem?_eq_some.2 hset⟩

theorem demands_inclusions (hg : g.WellFormed) (d : Demand) :
    g.construction.inclusions.Demands d ↔ g.LookaheadDemand d := by
  have heof := Adds.bound (n := g.construction.plan.size)
    (g.construction.plan.number 0 0) (.singleton Kind.eof.index)
  have hstates := Adds.foldl (n := g.construction.plan.size) (List.range g.automaton.size)
    fun state _ => Adds.foldl (g.automaton.kernel state).zipIdx fun x _ =>
      Adds.foldl (g.analysis.spread [(x.1, .singleton mark)]).sets.toList fun y _ =>
        adds_passOn g _ state (g.number state x.2) y.1 y.2
  refine ((heof.comp hstates).demands_ofSize d).trans ?_
  constructor
  · rintro (⟨n, rfl, -, hn⟩ | ⟨state, -, ⟨item, i⟩, hi, ⟨closed, set⟩, hset, goal, hgoal, hd⟩)
    · rw [BitSet.contains_singleton, decide_eq_true_eq] at hn
      subst hn
      exact .eof
    · have hitem := List.mem_zipIdx_iff_getElem?.1 hi
      rcases hd with ⟨n, rfl, -, hn⟩ | ⟨hmark, rfl⟩
      · rw [BitSet.contains_below, Bool.and_eq_true, decide_eq_true_eq] at hn
        exact .own hitem ((mem_toList_marked hg hset).1 hn.2) hn.1 hgoal
      · exact .passed hitem ((mem_toList_marked hg hset).1 hmark) hgoal
  · intro h
    cases h with
    | eof =>
      have hstart : (g.automaton.kernel 0)[0]? = some ⟨g.productions.size, 0⟩ := by simp
      exact Or.inl ⟨_, rfl, number_lt hstart, by simp⟩
    | @own state i n goal item closed hitem hmarked hn hgoal =>
      obtain ⟨set, hset⟩ := exists_mem_toList_marked hg hmarked
      refine Or.inr ⟨state, List.mem_range.2 (lt_of_getElem?_kernel hitem), (item, i),
        List.mem_zipIdx_iff_getElem?.2 hitem, (closed, set), hset, goal, hgoal,
        Or.inl ⟨n, rfl, goal_lt hgoal, ?_⟩⟩
      rw [BitSet.contains_below, (mem_toList_marked hg hset).2 hmarked, decide_eq_true hn]
      rfl
    | @passed state i goal item closed hitem hmarked hgoal =>
      obtain ⟨set, hset⟩ := exists_mem_toList_marked hg hmarked
      exact Or.inr ⟨state, List.mem_range.2 (lt_of_getElem?_kernel hitem), (item, i),
        List.mem_zipIdx_iff_getElem?.2 hitem, (closed, set), hset, goal, hgoal,
        Or.inr ⟨(mem_toList_marked hg hset).2 hmarked, rfl⟩⟩

theorem size_inclusions (g : Grammar) :
    g.construction.inclusions.bounds.size = g.construction.plan.size := by
  have heof := Adds.bound (n := g.construction.plan.size)
    (g.construction.plan.number 0 0) (.singleton Kind.eof.index)
  have hstates := Adds.foldl (n := g.construction.plan.size) (List.range g.automaton.size)
    fun state _ => Adds.foldl (g.automaton.kernel state).zipIdx fun x _ =>
      Adds.foldl (g.analysis.spread [(x.1, .singleton mark)]).sets.toList fun y _ =>
        adds_passOn g _ state (g.number state x.2) y.1 y.2
  exact (heof.comp hstates).size_ofSize

/-! ## What the lookaheads are -/

variable {closed : Item}

theorem mem_closure_mono (hg : g.WellFormed) {kernel kernel' : Kernel}
    (hsub : ∀ i ∈ kernel, i ∈ g.analysis.closure kernel')
    (h : item ∈ g.analysis.closure kernel) : item ∈ g.analysis.closure kernel' :=
  closure_induction hsub (fun _ hi _ hp _ hr => closure_expand hg hi hp hr) hg h

theorem mem_closure_of_singleton (hg : g.WellFormed) {kernel : Kernel} (hi : item ∈ kernel)
    (h : closed ∈ g.analysis.closure [item]) : closed ∈ g.analysis.closure kernel := by
  refine mem_closure_mono hg (fun i hmem => ?_) h
  rw [List.mem_singleton.1 hmem]
  exact mem_closure_of_mem hi

theorem exists_mem_closure_singleton (hg : g.WellFormed) {kernel : Kernel}
    (h : closed ∈ g.analysis.closure kernel) :
    ∃ item ∈ kernel, closed ∈ g.analysis.closure [item] := by
  refine closure_induction (P := fun closed => ∃ item ∈ kernel, closed ∈ g.analysis.closure [item])
    ?_ ?_ hg h
  · exact fun i hi => ⟨i, hi, mem_closure_of_mem List.mem_cons_self⟩
  · rintro i ⟨item, hitem, hi⟩ p hp rest hr
    exact ⟨item, hitem, closure_expand hg hi hp hr⟩

/-- **A token that arises from a kernel item follows, and the mark stands for what follows the
kernel item.** -/
theorem Receives.follows (hg : g.WellFormed) (hi : (g.automaton.kernel state)[i]? = some item)
    (h : g.Marked item closed n) : (n < mark → g.Follows state closed n) ∧
      (n = mark → ∀ m, g.Follows state item m → g.Follows state closed m) := by
  have hin {closed : Item} (hc : closed ∈ g.analysis.closure [item]) : g.InState state closed :=
    ⟨lt_of_getElem?_kernel hi, mem_closure_of_singleton hg (List.mem_of_getElem? hi) hc⟩
  induction h with
  | seed hmem hn =>
    obtain ⟨rfl, rfl⟩ := Prod.mk.inj (List.mem_singleton.1 hmem)
    rw [BitSet.contains_singleton, decide_eq_true_eq] at hn
    exact ⟨fun hlt => absurd hn.symm (Nat.ne_of_lt hlt), fun _ _ hm => hm⟩
  | first hitem hp hr hn =>
    have hlt := lt_mark_of_firstOf hg hn
    exact ⟨fun _ => .first (hin hitem) hp hr hn, fun he => absurd he (Nat.ne_of_lt hlt)⟩
  | rest hitem hp hr hempty _ ih =>
    exact ⟨fun hlt => .rest (hin hitem) hp hr hempty (ih.1 hlt),
      fun he m hm => .rest (hin hitem) hp hr hempty (ih.2 he m hm)⟩

/-- What is handed on to an item of the kernel is what it brings along. -/
theorem Receives.of_mem_kernel (hg : g.WellFormed) (hi : item ∈ g.automaton.kernel state)
    (hc : closed ∈ g.automaton.kernel state) (h : g.Marked item closed n) :
    closed = item ∧ n = mark := by
  have hnew {p : Nat} {rest : List Symbol} {i : Item}
      (hr : g.analysis.remaining i = .nonterminal (g.augmented.lhs p) :: rest) :
      (⟨p, 0⟩ : Item) ∉ g.automaton.kernel state := by
    intro hmem
    by_cases hs : state = 0
    · subst hs
      rw [kernel_zero, List.mem_singleton] at hmem
      have hlt := lt_of_mem_rhs hg (mem_rhs_of_remaining hr)
      rw [(Item.mk.inj hmem).1, lhs_accept hg] at hlt
      exact Nat.lt_irrefl _ hlt
    · exact Nat.lt_irrefl 0 (dot_pos hs hmem)
  cases h with
  | seed hmem hn =>
    obtain ⟨rfl, rfl⟩ := Prod.mk.inj (List.mem_singleton.1 hmem)
    rw [BitSet.contains_singleton, decide_eq_true_eq] at hn
    exact ⟨rfl, hn.symm⟩
  | first _ _ hr => exact absurd hc (hnew hr)
  | rest _ _ hr => exact absurd hc (hnew hr)

/-- The lookaheads of kernel items account for a lookahead of an item of their state. -/
def Found (g : Grammar) (state : Nat) (closed : Item) (n : Nat) : Prop :=
  ∃ i item, (g.automaton.kernel state)[i]? = some item ∧
    ((g.Marked item closed n ∧ n < mark) ∨
      (g.Marked item closed mark ∧ Member g.construction.lookaheads (g.number state i) n))

theorem found_of_member (hi : (g.automaton.kernel state)[i]? = some item)
    (h : Member g.construction.lookaheads (g.number state i) n) : g.Found state item n :=
  ⟨i, item, hi, Or.inr ⟨.seed List.mem_cons_self (by simp), h⟩⟩

theorem member_of_found (hg : g.WellFormed) (hi : (g.automaton.kernel state)[i]? = some item)
    (h : g.Found state item n) : Member g.construction.lookaheads (g.number state i) n := by
  obtain ⟨j, item', hj, ⟨hmarked, hlt⟩ | ⟨hmarked, hmem⟩⟩ := h
  · obtain ⟨-, rfl⟩ := hmarked.of_mem_kernel hg (List.mem_of_getElem? hj) (List.mem_of_getElem? hi)
    exact absurd hlt (Nat.lt_irrefl _)
  · obtain ⟨rfl, -⟩ := hmarked.of_mem_kernel hg (List.mem_of_getElem? hj) (List.mem_of_getElem? hi)
    rwa [Option.some.inj ((findIdx?_kernel hi).symm.trans (findIdx?_kernel hj))]

/-- A lookahead of an item is passed on to where its next symbol has been read. -/
theorem Found.advance (hg : g.WellFormed) (h : g.Found state item n)
    (hm : g.automaton.next? state s = some target)
    (hmem : item.advance ∈ g.automaton.kernel target) : g.Found target item.advance n := by
  obtain ⟨j, hj⟩ := List.getElem?_of_mem hmem
  obtain ⟨rest, hr⟩ := List.head?_eq_some_iff.1 (inState_of_advance hg hm hmem).2
  have hgoal : g.construction.goal? state item = some (g.number target j) :=
    goal?_eq_some.2 ⟨s, rest, target, j, hr, hm, hj, rfl⟩
  refine found_of_member hj ?_
  obtain ⟨i, item₀, hi, ⟨hmarked, hlt⟩ | ⟨hmarked, hmem₀⟩⟩ := h
  · exact solve_bound ((demands_inclusions hg _).2 (.own hi hmarked hlt hgoal))
  · refine solve_link ((demands_inclusions hg _).2 (.passed hi hmarked hgoal)) ?_ hmem₀
    rw [size_inclusions]
    exact goal_lt hgoal

theorem Follows.found (hg : g.WellFormed) (h : g.Follows state item n) : g.Found state item n := by
  induction h with
  | eof =>
    exact found_of_member (i := 0) (by simp) (solve_bound ((demands_inclusions hg _).2 .eof))
  | first hin hp hr hn =>
    obtain ⟨item₀, hitem, hc⟩ := exists_mem_closure_singleton hg hin.2
    obtain ⟨i, hi⟩ := List.getElem?_of_mem hitem
    exact ⟨i, item₀, hi, Or.inl ⟨.first hc hp hr hn, lt_mark_of_firstOf hg hn⟩⟩
  | rest _ hp hr hempty _ ih =>
    obtain ⟨i, item₀, hi, ⟨hmarked, hlt⟩ | ⟨hmarked, hmem⟩⟩ := ih
    · exact ⟨i, item₀, hi, Or.inl ⟨.rest (hmarked.mem_closure hg) hp hr hempty hmarked, hlt⟩⟩
    · exact ⟨i, item₀, hi, Or.inr ⟨.rest (hmarked.mem_closure hg) hp hr hempty hmarked, hmem⟩⟩
  | advance hm hmem _ ih => exact ih.advance hg hm hmem

/-- What is computed for kernel items follows them. -/
theorem follows_of_member (hg : g.WellFormed) {v : Nat}
    (h : Member g.construction.lookaheads v n) :
    ∀ state i item, (g.automaton.kernel state)[i]? = some item → g.number state i = v →
      g.Follows state item n := by
  refine solve_least (P := fun v n => ∀ state i item,
    (g.automaton.kernel state)[i]? = some item → g.number state i = v →
      g.Follows state item n) ?_ ?_ v n h
  · intro v n hdemand state i item hi hv
    cases (demands_inclusions hg (.member v n)).1 hdemand with
    | eof =>
      have hstart : (g.automaton.kernel 0)[0]? = some ⟨g.productions.size, 0⟩ := by simp
      obtain ⟨rfl, rfl⟩ := number_inj hi hstart hv
      obtain rfl := Option.some.inj (hstart.symm.trans hi)
      exact .eof
    | own hi₀ hmarked hlt hgoal =>
      obtain ⟨s, rest, target, j, hr, hm, hj, rfl⟩ := goal?_eq_some.1 hgoal
      obtain ⟨rfl, rfl⟩ := number_inj hi hj hv
      obtain rfl := Option.some.inj (hi.symm.trans hj)
      exact .advance hm (List.mem_of_getElem? hi) ((hmarked.follows hg hi₀).1 hlt)
  · intro a b hdemand _ n ha state i item hi hb
    cases (demands_inclusions hg (.link a b)).1 hdemand with
    | passed hi₀ hmarked hgoal =>
      obtain ⟨s, rest, target, j, hr, hm, hj, rfl⟩ := goal?_eq_some.1 hgoal
      obtain ⟨rfl, rfl⟩ := number_inj hi hj hb
      obtain rfl := Option.some.inj (hi.symm.trans hj)
      exact .advance hm (List.mem_of_getElem? hi)
        ((hmarked.follows hg hi₀).2 rfl n (ha _ _ _ hi₀ rfl))

/-- **The lookaheads that are computed for a kernel item are those that follow it.** -/
theorem member_lookaheads (hg : g.WellFormed) (hi : (g.automaton.kernel state)[i]? = some item) :
    Member g.construction.lookaheads (g.number state i) n ↔ g.Follows state item n :=
  ⟨fun h => follows_of_member hg h _ _ _ hi rfl, fun h => member_of_found hg hi (h.found hg)⟩

theorem Follows.lt_mark (hg : g.WellFormed) (h : g.Follows state item n) : n < mark := by
  refine lookahead_induction hg (F := fun _ n => n < mark) (Kind.index_lt_mark _) ?_ ?_ h
  · exact fun _ _ _ _ _ _ hn => lt_mark_of_firstOf hg hn
  · exact fun _ _ _ _ _ _ _ hn => hn

/-- What a state is handed, with its lookaheads. -/
abbrev seeds (g : Grammar) (state : Nat) : List (Item × BitSet) :=
  (g.automaton.kernel state).zipIdx.map fun (item, i) =>
    (item, g.construction.lookaheads.getD (g.number state i) ∅)

theorem map_fst_seeds (g : Grammar) (state : Nat) :
    (g.seeds state).map Prod.fst = g.automaton.kernel state := by
  rw [List.map_map]
  exact List.zipIdx_map_fst 0 _

theorem mem_seeds {set : BitSet} : (item, set) ∈ g.seeds state ↔
    ∃ i, (g.automaton.kernel state)[i]? = some item ∧
      set = g.construction.lookaheads.getD (g.number state i) ∅ := by
  rw [List.mem_map]
  constructor
  · rintro ⟨⟨item, i⟩, hi, he⟩
    obtain ⟨rfl, rfl⟩ := Prod.mk.inj he
    exact ⟨i, List.mem_zipIdx_iff_getElem?.1 hi, rfl⟩
  · rintro ⟨i, hi, rfl⟩
    exact ⟨(item, i), List.mem_zipIdx_iff_getElem?.2 hi, rfl⟩

theorem lt_of_mem_closure (hg : g.WellFormed)
    (h : item ∈ g.analysis.closure (g.automaton.kernel state)) : state < g.automaton.size := by
  by_contra hge
  rw [kernel_of_size_le (Nat.le_of_not_lt hge)] at h
  exact closure_induction (P := fun _ => False) (fun i hi => (by cases hi)) (fun _ h => h.elim) hg h

/-- What the items of a state receive follows them. -/
theorem receives_seeds (hg : g.WellFormed) :
    g.Receives (g.seeds state) item n ↔ g.Follows state item n := by
  have hseed {state n : Nat} {item : Item} (hmem : item ∈ g.automaton.kernel state)
      (h : g.Follows state item n) : g.Receives (g.seeds state) item n := by
    obtain ⟨i, hi⟩ := List.getElem?_of_mem hmem
    exact .seed (mem_seeds.2 ⟨i, hi, rfl⟩) ((member_lookaheads hg hi).2 h)
  constructor
  · have hin {item : Item} (h : item ∈ g.analysis.closure ((g.seeds state).map Prod.fst)) :
        g.InState state item := by
      rw [map_fst_seeds] at h
      exact ⟨lt_of_mem_closure hg h, h⟩
    intro h
    induction h with
    | seed hmem hn =>
      obtain ⟨i, hi, rfl⟩ := mem_seeds.1 hmem
      exact (member_lookaheads hg hi).1 hn
    | first hitem hp hr hn => exact .first (hin hitem) hp hr hn
    | rest hitem hp hr hempty _ ih => exact .rest (hin hitem) hp hr hempty ih
  · intro h
    induction h with
    | eof => exact hseed (by simp) .eof
    | first hin hp hr hn => exact .first (by rw [map_fst_seeds]; exact hin.2) hp hr hn
    | rest hin hp hr hempty _ ih =>
      exact .rest (by rw [map_fst_seeds]; exact hin.2) hp hr hempty ih
    | advance hm hmem h => exact hseed hmem (.advance hm hmem h)

theorem spreadOf_eq (g : Grammar) (state : Nat) :
    g.construction.spreadOf g.construction.lookaheads state = g.analysis.spread (g.seeds state) :=
  rfl

theorem lt_width_of_mem_seeds (hg : g.WellFormed) :
    ∀ seed ∈ g.seeds state, ∀ n, seed.2.contains n = true → n < Spread.width := by
  intro seed hseed n hn
  obtain ⟨i, hi, hset⟩ := mem_seeds.1 hseed
  rw [hset] at hn
  exact Nat.lt_succ_of_lt (((member_lookaheads hg hi).1 hn).lt_mark hg)

/-- **The lookaheads of an item of a state are those that follow it.** -/
theorem contains_spreadOf (hg : g.WellFormed) :
    ((g.construction.spreadOf g.construction.lookaheads state).lookaheads item).contains n = true ↔
      g.Follows state item n := by
  rw [spreadOf_eq]
  exact (contains_spread hg (lt_width_of_mem_seeds hg)).trans (receives_seeds hg)

end Grammar

end AsmTree
