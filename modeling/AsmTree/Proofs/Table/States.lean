import AsmTree.Proofs.Table.Successors
import Mathlib.Data.Finset.Card
import Mathlib.Data.Finset.Powerset

/-!
# The states of a grammar

Exploration numbers the kernels that can be reached and leaves each state once. **Main
statements:**

* `Automaton.explored`: no state is left over when the exploration ends, since there are no more
  kernels than sets of items;
* `next?_of_mem`: a state moves on with every symbol that one of its items reads next;
* `exists_of_next?`: a state that is moved to holds items of the state before, each with that
  symbol read.
-/

namespace AsmTree

namespace Automaton

variable {an : Analysis} {m m' : Automaton} {kernel : Kernel}

/-! ## Numbering -/

/-- Kernels and their numbers determine each other. -/
def Numbered (m : Automaton) : Prop :=
  ∀ (kernel : Kernel) (n : Nat), m.numbers[kernel]? = some n ↔ m.kernels[n]? = some kernel

/-- The second automaton has more kernels, with the numbers of old ones kept. -/
structure Extends (m m' : Automaton) : Prop where
  kernels : ∀ (n : Nat) k, m.kernels[n]? = some k → m'.kernels[n]? = some k
  moves : m'.moves = m.moves

theorem Extends.trans {m'' : Automaton} (h : m.Extends m') (h' : m'.Extends m'') :
    m.Extends m'' :=
  ⟨fun n k hk => h'.kernels n k (h.kernels n k hk), h'.moves.trans h.moves⟩

theorem Extends.size_le (h : m.Extends m') : m.kernels.size ≤ m'.kernels.size := by
  by_contra hlt
  have hn : m'.kernels.size < m.kernels.size := Nat.lt_of_not_le hlt
  have := h.kernels _ _ (Array.getElem?_eq_getElem hn)
  rw [Array.getElem?_eq_none (Nat.le_refl _)] at this
  cases this

theorem number_spec (h : m.Numbered) (kernel : Kernel) :
    (m.number kernel).2.Numbered ∧ m.Extends (m.number kernel).2 ∧
      (m.number kernel).2.kernels[(m.number kernel).1]? = some kernel ∧
      ∀ (n : Nat) k, (m.number kernel).2.kernels[n]? = some k →
        m.kernels[n]? = some k ∨ k = kernel := by
  unfold number
  split
  · next n hn =>
    exact ⟨h, ⟨fun _ _ hk => hk, rfl⟩, (h kernel n).1 hn, fun _ _ hk => Or.inl hk⟩
  · next hnone =>
    refine ⟨?_, ⟨?_, rfl⟩, Array.getElem?_push_size, ?_⟩
    · intro k n
      rw [Std.HashMap.getElem?_insert, Array.getElem?_push]
      by_cases hk : kernel = k
      · subst hk
        simp only [beq_self_eq_true, if_true, Option.some.injEq]
        split
        · next hn => simp [hn]
        · next hn =>
          constructor
          · intro he
            exact absurd he.symm hn
          · intro hm
            rw [(h kernel n).2 hm] at hnone
            cases hnone
      · have hbeq : (kernel == k) = false := by simpa using hk
        rw [hbeq, if_neg Bool.false_ne_true, h k n]
        split
        · next hn =>
          subst hn
          rw [Array.getElem?_eq_none (Nat.le_refl _)]
          simpa using hk
        · exact Iff.rfl
    · intro n k hk
      have hlt := (Array.getElem?_eq_some_iff.1 hk).1
      rw [Array.getElem?_push, if_neg (Nat.ne_of_lt hlt), hk]
    · intro n k hk
      rw [Array.getElem?_push] at hk
      split at hk
      · exact Or.inr (Option.some.inj hk).symm
      · exact Or.inl hk

/-- Targets are the numbers of kernels, symbol by symbol. -/
def Targets (m : Automaton) : List (Symbol × Kernel) → List (Symbol × Nat) → Prop :=
  List.Forall₂ fun x y => x.1 = y.1 ∧ m.kernels[y.2]? = some x.2

theorem Targets.extend {l : List (Symbol × Kernel)} {targets : List (Symbol × Nat)}
    (h : m.Targets l targets) (hm : m.Extends m') : m'.Targets l targets :=
  h.imp fun _ _ hxy => ⟨hxy.1, hm.kernels _ _ hxy.2⟩

theorem numberAll_spec (h : m.Numbered) (l : List (Symbol × Kernel)) :
    (m.numberAll l).2.Numbered ∧ m.Extends (m.numberAll l).2 ∧
      (m.numberAll l).2.Targets l (m.numberAll l).1 ∧
      ∀ (n : Nat) k, (m.numberAll l).2.kernels[n]? = some k →
        m.kernels[n]? = some k ∨ ∃ s, (s, k) ∈ l := by
  induction l generalizing m with
  | nil =>
    exact ⟨h, ⟨fun _ _ hk => hk, rfl⟩, List.Forall₂.nil, fun _ _ hk => Or.inl hk⟩
  | cons x l ih =>
    obtain ⟨s, kernel⟩ := x
    obtain ⟨h₁, hext₁, hn, hold₁⟩ := number_spec h kernel
    obtain ⟨h₂, hext₂, htargets, hold₂⟩ := ih h₁
    refine ⟨h₂, hext₁.trans hext₂, ?_, ?_⟩
    · exact List.Forall₂.cons ⟨rfl, hext₂.kernels _ _ hn⟩ htargets
    · intro n k hk
      rcases hold₂ n k hk with hk | ⟨s', hmem⟩
      · rcases hold₁ n k hk with hk | rfl
        · exact Or.inl hk
        · exact Or.inr ⟨s, List.mem_cons_self⟩
      · exact Or.inr ⟨s', List.mem_cons_of_mem _ hmem⟩

/-! ## Reached kernels -/

/-- Kernels that moves lead to from the start. -/
inductive Reached (an : Analysis) : Kernel → Prop where
  | start : Reached an [⟨an.augmented.acceptProduction, 0⟩]
  | move {kernel target : Kernel} {s : Symbol} :
    Reached an kernel → (s, target) ∈ an.successors kernel → Reached an target

theorem Reached.strict (h : Reached an kernel) : kernel.Strict := by
  cases h with
  | start => exact List.pairwise_singleton _ _
  | move _ hm => exact Analysis.strict_of_mem_successors hm

/-- What holds of an automaton throughout the exploration. -/
structure Ok (an : Analysis) (m : Automaton) : Prop where
  numbered : m.Numbered
  start : m.kernels[0]? = some [⟨an.augmented.acceptProduction, 0⟩]
  left : m.moves.size ≤ m.kernels.size
  reached : ∀ (n : Nat) kernel, m.kernels[n]? = some kernel → Reached an kernel
  moves : ∀ (n : Nat) targets, m.moves[n]? = some targets → ∃ kernel, m.kernels[n]? = some kernel ∧
    m.Targets (an.successors kernel) targets

theorem leaveNext_ok (h : m.Ok an) (hlt : m.moves.size < m.kernels.size) :
    (m.leaveNext an).Ok an ∧ (m.leaveNext an).moves.size = m.moves.size + 1 := by
  have hkernel := Array.getElem?_eq_getElem hlt
  obtain ⟨hnum, hext, htargets, hold⟩ :=
    numberAll_spec h.numbered (an.successors m.kernels[m.moves.size])
  have heq : m.leaveNext an =
      { (m.numberAll (an.successors m.kernels[m.moves.size])).2 with
        moves := (m.numberAll (an.successors m.kernels[m.moves.size])).2.moves.push
          (m.numberAll (an.successors m.kernels[m.moves.size])).1 } := by
    unfold leaveNext
    rw [hkernel]
  rw [heq, hext.moves]
  refine ⟨⟨hnum, hext.kernels _ _ h.start, ?_, ?_, ?_⟩, Array.size_push _⟩
  · rw [Array.size_push]
    exact Nat.le_trans hlt hext.size_le
  · intro n k hk
    rcases hold n k hk with hk | ⟨s, hs⟩
    · exact h.reached n k hk
    · exact .move (h.reached _ _ hkernel) hs
  · intro n targets ht
    rw [Array.getElem?_push] at ht
    split at ht
    · next hn =>
      cases ht
      exact ⟨_, hn ▸ hext.kernels _ _ hkernel, htargets⟩
    · obtain ⟨k, hk, hkt⟩ := h.moves n targets ht
      have hext' := hkt.extend hext
      exact ⟨k, hext.kernels _ _ hk, hext'⟩

theorem explore_ok (h : m.Ok an) (fuel : Nat) : (explore an fuel m).Ok an := by
  induction fuel generalizing m with
  | zero => exact h
  | succ fuel ih =>
    unfold explore
    split
    · next hlt => exact ih (leaveNext_ok h hlt).1
    · exact h

theorem explore_left {bound : Nat} (hbound : ∀ m : Automaton, m.Ok an → m.kernels.size ≤ bound)
    (h : m.Ok an) {fuel : Nat} (hf : bound ≤ m.moves.size + fuel) :
    (explore an fuel m).kernels.size ≤ (explore an fuel m).moves.size := by
  induction fuel generalizing m with
  | zero => exact Nat.le_trans (hbound m h) hf
  | succ fuel ih =>
    unfold explore
    split
    · next hlt =>
      obtain ⟨hok, hsize⟩ := leaveNext_ok h hlt
      exact ih hok (by omega)
    · next hge => exact Nat.le_of_not_lt hge

theorem initial_ok (an : Analysis) :
    (Automaton.number {} [⟨an.augmented.acceptProduction, 0⟩]).2.Ok an := by
  have hempty : Numbered {} := by
    intro kernel n
    simp
  obtain ⟨hnum, -, hn, hold⟩ := number_spec hempty [⟨an.augmented.acceptProduction, 0⟩]
  have hmoves : (Automaton.number {} [⟨an.augmented.acceptProduction, 0⟩]).2.moves = #[] := by
    simp [number]
  have hzero : (Automaton.number {} [⟨an.augmented.acceptProduction, 0⟩]).1 = 0 := by
    simp [number]
  rw [hzero] at hn
  refine ⟨hnum, hn, ?_, ?_, ?_⟩
  · rw [hmoves]
    exact Nat.zero_le _
  · intro n k hk
    rcases hold n k hk with hk | rfl
    · cases hk
    · exact .start
  · intro n targets ht
    rw [hmoves] at ht
    cases ht

end Automaton

/-! ## The number of states -/

namespace Grammar

variable {g : Grammar}

def items (g : Grammar) : List Item :=
  g.augmented.productions.toList.zipIdx.flatMap fun (p, i) =>
    (List.range (p.rhs.length + 1)).map fun dot => ⟨i, dot⟩

theorem mem_items {i : Item} : i ∈ g.items ↔
    i.production < g.augmented.productions.size ∧
      i.dot ≤ (g.augmented.rhs i.production).length := by
  unfold items
  rw [List.mem_flatMap]
  constructor
  · rintro ⟨⟨p, n⟩, hp, hi⟩
    obtain ⟨dot, hdot, rfl⟩ := List.mem_map.1 hi
    have hn := mem_zipIdx_productions.1 hp
    refine ⟨(Array.getElem?_eq_some_iff.1 hn).1, ?_⟩
    rw [Augmented.rhs_eq hn]
    exact Nat.le_of_lt_succ (List.mem_range.1 hdot)
  · rintro ⟨hlt, hdot⟩
    have hp := Array.getElem?_eq_getElem hlt
    refine ⟨_, mem_zipIdx_productions.2 hp, List.mem_map.2 ⟨i.dot, ?_, rfl⟩⟩
    rw [Augmented.rhs_eq hp] at hdot
    exact List.mem_range.2 (Nat.lt_succ_of_le hdot)

theorem length_items (g : Grammar) : g.items.length = Automaton.itemCount g.analysis := by
  have hfold : ∀ (l : List Production) (k n : Nat),
      l.foldl (fun n p => n + p.rhs.length + 1) n =
        n + ((l.zipIdx k).flatMap fun (p, i) =>
          (List.range (p.rhs.length + 1)).map fun dot => (⟨i, dot⟩ : Item)).length := by
    intro l
    induction l with
    | nil => intro k n; rfl
    | cons p l ih =>
      intro k n
      rw [List.foldl_cons, ih (k + 1), List.zipIdx_cons, List.flatMap_cons, List.length_append,
        List.length_map, List.length_range]
      omega
  rw [Automaton.itemCount, ← Array.foldl_toList, hfold _ 0 0, Nat.zero_add]
  rfl

theorem mem_items_of_mem_closure (hg : g.WellFormed) {kernel : Kernel}
    (h : ∀ i ∈ kernel, i ∈ g.items) {i : Item} (hi : i ∈ g.analysis.closure kernel) :
    i ∈ g.items := by
  rcases (mem_closure hg).1 hi with hk | ⟨hdot, hlt, -⟩
  · exact h i hk
  · exact mem_items.2 ⟨hlt, by rw [hdot]; exact Nat.zero_le _⟩

theorem advance_mem_items {i : Item} (hi : i ∈ g.items) {s : Symbol}
    (hs : (g.analysis.remaining i).head? = some s) : i.advance ∈ g.items := by
  obtain ⟨hlt, -⟩ := mem_items.1 hi
  refine mem_items.2 ⟨hlt, ?_⟩
  cases hr : g.analysis.remaining i with
  | nil => rw [hr] at hs; cases hs
  | cons t rest =>
    have := remaining_cons hr
    exact (List.getElem?_eq_some_iff.1 this).1

theorem mem_items_of_reached (hg : g.WellFormed) {kernel : Kernel}
    (h : Automaton.Reached g.analysis kernel) : ∀ i ∈ kernel, i ∈ g.items := by
  induction h with
  | start =>
    intro i hi
    rw [List.mem_singleton.1 hi]
    refine mem_items.2 ⟨?_, Nat.zero_le _⟩
    rw [size_productions]
    exact Nat.lt_succ_self _
  | move _ hm ih =>
    intro j hj
    obtain ⟨i, hi, hs, rfl⟩ := (Analysis.mem_of_mem_successors hm).2 j hj
    exact advance_mem_items (mem_items_of_mem_closure hg ih hi) hs

/-- There are no more kernels than sets of items. -/
theorem size_kernels_le (hg : g.WellFormed) {m : Automaton} (h : m.Ok g.analysis) :
    m.kernels.size ≤ 2 ^ Automaton.itemCount g.analysis := by
  have hcard : (Finset.range m.kernels.size).card ≤ g.items.toFinset.powerset.card := by
    refine Finset.card_le_card_of_injOn (fun n => (m.kernel n).toFinset) ?_ ?_
    · intro n hn
      have hk := Array.getElem?_eq_getElem (Finset.mem_range.1 hn)
      simp only [Finset.coe_powerset, Set.mem_preimage, Set.mem_powerset_iff, Finset.coe_subset]
      intro i hi
      rw [List.mem_toFinset, Automaton.kernel, Array.getD_eq_getD_getElem?, hk] at hi
      exact List.mem_toFinset.2 (mem_items_of_reached hg (h.reached _ _ hk) i hi)
    · intro a ha b hb hab
      have hla : a < m.kernels.size := Finset.mem_range.1 ha
      have hlb : b < m.kernels.size := Finset.mem_range.1 hb
      have hka := Array.getElem?_eq_getElem hla
      have hkb := Array.getElem?_eq_getElem hlb
      simp only [Automaton.kernel, Array.getD_eq_getD_getElem?, hka, hkb, Option.getD_some] at hab
      have heq : m.kernels[a] = m.kernels[b] := by
        refine (h.reached _ _ hka).strict.ext (h.reached _ _ hkb).strict fun i => ?_
        rw [← List.mem_toFinset, hab, List.mem_toFinset]
      rw [heq] at hka
      have hna := (h.numbered _ _).2 hka
      rw [(h.numbered _ _).2 hkb] at hna
      exact (Option.some.inj hna).symm
  rw [Finset.card_range, Finset.card_powerset] at hcard
  refine Nat.le_trans hcard (Nat.pow_le_pow_right (by omega) ?_)
  rw [← length_items]
  exact List.toFinset_card_le _

/-! ## The automaton -/

abbrev automaton (g : Grammar) : Automaton := .ofAnalysis g.analysis

theorem automaton_ok (g : Grammar) : g.automaton.Ok g.analysis :=
  Automaton.explore_ok (Automaton.initial_ok _) _

/-- **Every state has been left.** -/
theorem explored (hg : g.WellFormed) : g.automaton.moves.size = g.automaton.size := by
  refine Nat.le_antisymm (automaton_ok g).left ?_
  exact Automaton.explore_left (fun m h => size_kernels_le hg h) (Automaton.initial_ok _)
    (Nat.le_add_left _ _)

theorem getElem?_kernels {state : Nat} (h : state < g.automaton.size) :
    g.automaton.kernels[state]? = some (g.automaton.kernel state) := by
  rw [Automaton.kernel, Array.getD_eq_getD_getElem?, Array.getElem?_eq_getElem h]
  rfl

theorem size_pos (g : Grammar) : 0 < g.automaton.size :=
  (Array.getElem?_eq_some_iff.1 (automaton_ok g).start).1

@[simp] theorem kernel_zero (g : Grammar) :
    g.automaton.kernel 0 = [⟨g.productions.size, 0⟩] := by
  rw [Automaton.kernel, Array.getD_eq_getD_getElem?, (automaton_ok g).start]
  rfl

theorem kernel_of_size_le {state : Nat} (h : g.automaton.size ≤ state) :
    g.automaton.kernel state = [] := by
  rw [Automaton.kernel, Array.getD_eq_getD_getElem?, Array.getElem?_eq_none h]
  rfl

theorem kernel_inj {a b : Nat} (ha : a < g.automaton.size) (hb : b < g.automaton.size)
    (h : g.automaton.kernel a = g.automaton.kernel b) : a = b := by
  have hna := ((automaton_ok g).numbered _ _).2 (getElem?_kernels ha)
  rw [h, ((automaton_ok g).numbered _ _).2 (getElem?_kernels hb)] at hna
  exact (Option.some.inj hna).symm

theorem targets_movesOf (hg : g.WellFormed) {state : Nat} (h : state < g.automaton.size) :
    g.automaton.Targets (g.analysis.successors (g.automaton.kernel state))
      (g.automaton.movesOf state) := by
  have hlt : state < g.automaton.moves.size := by rwa [explored hg]
  obtain ⟨kernel, hk, ht⟩ := (automaton_ok g).moves _ _ (Array.getElem?_eq_getElem hlt)
  rw [Automaton.kernel, Array.getD_eq_getD_getElem?, hk, Automaton.movesOf,
    Array.getD_eq_getD_getElem?, Array.getElem?_eq_getElem hlt]
  exact ht

theorem movesOf_of_size_le {state : Nat} (h : g.automaton.size ≤ state) :
    g.automaton.movesOf state = [] := by
  have hle : g.automaton.moves.size ≤ state := Nat.le_trans (automaton_ok g).left h
  rw [Automaton.movesOf, Array.getD_eq_getD_getElem?, Array.getElem?_eq_none hle]
  rfl

/-- A lookup in targets finds the number of the kernel behind the symbol. -/
theorem lookup_of_targets {m : Automaton} {l : List (Symbol × Kernel)}
    {targets : List (Symbol × Nat)} (h : m.Targets l targets)
    (hd : l.Pairwise fun a b => a.1 ≠ b.1) {s : Symbol} {kernel : Kernel}
    (hm : (s, kernel) ∈ l) : ∃ n, targets.lookup s = some n ∧ m.kernels[n]? = some kernel := by
  induction h with
  | nil => cases hm
  | @cons x y l targets hxy _ ih =>
    obtain ⟨t, n⟩ := y
    obtain ⟨hsym, hn⟩ := hxy
    obtain ⟨hhead, htail⟩ := List.pairwise_cons.1 hd
    rcases List.mem_cons.1 hm with rfl | hm
    · refine ⟨n, ?_, hn⟩
      rw [List.lookup_cons, show s = t from hsym]
      simp
    · have hne : s ≠ t := by
        rw [← show x.1 = t from hsym]
        exact (hhead _ hm).symm
      obtain ⟨n', hlook, hk⟩ := ih htail hm
      refine ⟨n', ?_, hk⟩
      rw [List.lookup_cons, beq_false_of_ne hne]
      exact hlook

theorem mem_of_lookup {α β : Type} [BEq α] [LawfulBEq α] {l : List (α × β)} {a : α} {b : β}
    (h : l.lookup a = some b) : (a, b) ∈ l := by
  induction l with
  | nil => cases h
  | cons x l ih =>
    obtain ⟨c, d⟩ := x
    rw [List.lookup_cons] at h
    split at h
    · next hac =>
      cases h
      rw [eq_of_beq hac]
      exact List.mem_cons_self
    · exact List.mem_cons_of_mem _ (ih h)

theorem lookup_eq_some_of_unique {α β : Type} [BEq α] [LawfulBEq α] {l : List (α × β)} {a : α}
    {b : β} (h : (a, b) ∈ l) (hunique : ∀ c, (a, c) ∈ l → c = b) : l.lookup a = some b := by
  cases hl : l.lookup a with
  | none => exact absurd (List.lookup_eq_none_iff.1 hl _ h) (by simp)
  | some c => rw [hunique c (mem_of_lookup hl)]

theorem exists_of_mem_targets {m : Automaton} {l : List (Symbol × Kernel)}
    {targets : List (Symbol × Nat)} (h : m.Targets l targets) {s : Symbol} {n : Nat}
    (hm : (s, n) ∈ targets) : ∃ kernel, (s, kernel) ∈ l ∧ m.kernels[n]? = some kernel := by
  induction h with
  | nil => cases hm
  | @cons x y l targets hxy _ ih =>
    rcases List.mem_cons.1 hm with rfl | hm
    · refine ⟨x.2, ?_, hxy.2⟩
      rw [show s = x.1 from hxy.1.symm]
      exact List.mem_cons_self
    · obtain ⟨kernel, hk, hn⟩ := ih hm
      exact ⟨kernel, List.mem_cons_of_mem _ hk, hn⟩

variable {state target : Nat} {s : Symbol} {i : Item}

/-- A state that a move leads to has the kernel behind the symbol. -/
theorem mem_successors_of_mem_movesOf (hg : g.WellFormed)
    (h : (s, target) ∈ g.automaton.movesOf state) : state < g.automaton.size ∧
      target < g.automaton.size ∧
      (s, g.automaton.kernel target) ∈ g.analysis.successors (g.automaton.kernel state) := by
  have hstate : state < g.automaton.size := by
    by_contra hge
    rw [movesOf_of_size_le (Nat.le_of_not_lt hge)] at h
    cases h
  obtain ⟨kernel, hk, hn⟩ := exists_of_mem_targets (targets_movesOf hg hstate) h
  have htarget := (Array.getElem?_eq_some_iff.1 hn).1
  refine ⟨hstate, htarget, ?_⟩
  rw [getElem?_kernels htarget] at hn
  rw [Option.some.inj hn]
  exact hk

/-- `next?` finds the moves of a state. -/
theorem mem_movesOf_iff (hg : g.WellFormed) :
    (s, target) ∈ g.automaton.movesOf state ↔ g.automaton.next? state s = some target := by
  constructor
  · intro h
    obtain ⟨hstate, htarget, hmem⟩ := mem_successors_of_mem_movesOf hg h
    obtain ⟨n, hn, hk⟩ := lookup_of_targets (targets_movesOf hg hstate)
      (Analysis.successors_pairwise _ _) hmem
    have hlt := (Array.getElem?_eq_some_iff.1 hk).1
    have heq : n = target := by
      refine kernel_inj hlt htarget ?_
      rw [getElem?_kernels hlt] at hk
      exact Option.some.inj hk
    rw [← heq]
    exact hn
  · exact mem_of_lookup

/-- **A state that is moved to holds items of the state before, each with that symbol read.** -/
theorem exists_of_next? (hg : g.WellFormed) (h : g.automaton.next? state s = some target)
    {j : Item} (hj : j ∈ g.automaton.kernel target) :
    ∃ i ∈ g.analysis.closure (g.automaton.kernel state),
      (g.analysis.remaining i).head? = some s ∧ j = i.advance :=
  (Analysis.mem_of_mem_successors
    (mem_successors_of_mem_movesOf hg ((mem_movesOf_iff hg).2 h)).2.2).2 j hj

theorem lt_of_next? (hg : g.WellFormed) (h : g.automaton.next? state s = some target) :
    state < g.automaton.size ∧ target < g.automaton.size :=
  ⟨(mem_successors_of_mem_movesOf hg ((mem_movesOf_iff hg).2 h)).1,
    (mem_successors_of_mem_movesOf hg ((mem_movesOf_iff hg).2 h)).2.1⟩

/-- **A state moves on with every symbol that one of its items reads next.** -/
theorem next?_of_mem (hg : g.WellFormed) (hstate : state < g.automaton.size)
    (hi : i ∈ g.analysis.closure (g.automaton.kernel state))
    (hs : (g.analysis.remaining i).head? = some s) :
    ∃ target, g.automaton.next? state s = some target ∧
      i.advance ∈ g.automaton.kernel target := by
  obtain ⟨kernel, hk, hadv⟩ := Analysis.exists_mem_successors hi hs
  obtain ⟨n, hn, hkn⟩ := lookup_of_targets (targets_movesOf hg hstate)
    (Analysis.successors_pairwise _ _) hk
  refine ⟨n, hn, ?_⟩
  rw [getElem?_kernels (Array.getElem?_eq_some_iff.1 hkn).1] at hkn
  rw [Option.some.inj hkn]
  exact hadv

/-- Every state but the first has only items with something read. -/
theorem dot_pos (h : state ≠ 0) (hi : i ∈ g.automaton.kernel state) :
    0 < i.dot := by
  have hstate : state < g.automaton.size := by
    by_contra hge
    rw [kernel_of_size_le (Nat.le_of_not_lt hge)] at hi
    cases hi
  have hreached := (automaton_ok g).reached _ _ (getElem?_kernels hstate)
  generalize hk : g.automaton.kernel state = kernel at hreached hi
  cases hreached with
  | start =>
    refine absurd (kernel_inj hstate (size_pos g) ?_) h
    rw [hk, kernel_zero]
    rfl
  | move _ hm =>
    obtain ⟨j, -, -, rfl⟩ := (Analysis.mem_of_mem_successors hm).2 i hi
    exact Nat.succ_pos _

theorem ne_zero_of_next? (hg : g.WellFormed) (h : g.automaton.next? state s = some target) :
    target ≠ 0 := by
  rintro rfl
  obtain ⟨j, -, -, he⟩ := exists_of_next? hg h (j := ⟨g.productions.size, 0⟩) (by simp)
  exact absurd (congrArg Item.dot he) (Nat.succ_ne_zero j.dot).symm

theorem kernel_ne_nil (hstate : state < g.automaton.size) : g.automaton.kernel state ≠ [] := by
  have hreached := (automaton_ok g).reached _ _ (getElem?_kernels hstate)
  generalize g.automaton.kernel state = kernel at hreached
  cases hreached with
  | start => exact List.cons_ne_nil _ _
  | move _ hm => exact (Analysis.mem_of_mem_successors hm).1

/-- What holds of the first state, and passes along moves, holds of every state. -/
theorem state_induction (hg : g.WellFormed) {P : Nat → Prop} (zero : P 0)
    (move : ∀ state s target, P state → g.automaton.next? state s = some target → P target)
    (hstate : state < g.automaton.size) : P state := by
  have hreached : ∀ kernel, Automaton.Reached g.analysis kernel →
      ∃ n < g.automaton.size, g.automaton.kernel n = kernel ∧ P n := by
    intro kernel h
    induction h with
    | start => exact ⟨0, size_pos g, kernel_zero g, zero⟩
    | move _ hm ih =>
      obtain ⟨n, hn, rfl, hP⟩ := ih
      obtain ⟨target, hnext, hk⟩ := lookup_of_targets (targets_movesOf hg hn)
        (Analysis.successors_pairwise _ _) hm
      have htarget := (Array.getElem?_eq_some_iff.1 hk).1
      rw [getElem?_kernels htarget] at hk
      exact ⟨target, htarget, Option.some.inj hk, move n _ target hP hnext⟩
  obtain ⟨n, hn, hk, hP⟩ := hreached _ ((automaton_ok g).reached _ _ (getElem?_kernels hstate))
  rwa [kernel_inj hn hstate hk] at hP

theorem mem_items_of_mem_kernel (hg : g.WellFormed) (hi : i ∈ g.automaton.kernel state) :
    i ∈ g.items := by
  have hstate : state < g.automaton.size := by
    by_contra hge
    rw [kernel_of_size_le (Nat.le_of_not_lt hge)] at hi
    cases hi
  exact mem_items_of_reached hg ((automaton_ok g).reached _ _ (getElem?_kernels hstate)) i hi

theorem mem_items_of_mem_closure_kernel (hg : g.WellFormed)
    (hi : i ∈ g.analysis.closure (g.automaton.kernel state)) : i ∈ g.items :=
  mem_items_of_mem_closure hg (fun _ hj => mem_items_of_mem_kernel hg hj) hi

theorem exists_mem_rhs_of_next? (hg : g.WellFormed) (h : g.automaton.next? state s = some target) :
    ∃ p < g.augmented.productions.size, s ∈ g.augmented.rhs p := by
  obtain ⟨j, hj⟩ := List.exists_mem_of_ne_nil _ (kernel_ne_nil (lt_of_next? hg h).2)
  obtain ⟨i, hi, hs, -⟩ := exists_of_next? hg h hj
  refine ⟨i.production, (mem_items.1 (mem_items_of_mem_closure_kernel hg hi)).1, ?_⟩
  obtain ⟨rest, hr⟩ := List.head?_eq_some_iff.1 hs
  exact mem_rhs_of_remaining hr

end Grammar

end AsmTree
