import AsmTree.Proofs.Table.Cells

/-!
# Paths of the automaton

The states on the stack of a parser are a path from the first state, and each move on it reads a
symbol. **Main statements:**

* `Path.back`: what an item of the last state has read is what the path has read last, and the item
  began in the state before that;
* `Path.reduce`: where a production is complete, the state under it moves on with its nonterminal;
* `Path.accept`: where the whole input is complete, the path has read the start only.
-/

namespace AsmTree

namespace Grammar

variable {g : Grammar} {states rest : List Nat} {read : List Symbol} {state : Nat} {item : Item}

/-- States on a path from the first one, and the symbols that the moves read. Both have the last
one first. -/
inductive Path (g : Grammar) : List Nat → List Symbol → Prop where
  | start : Path g [0] []
  | move {state target : Nat} {rest : List Nat} {s : Symbol} {read : List Symbol} :
    Path g (state :: rest) read → g.automaton.next? state s = some target →
    Path g (target :: state :: rest) (s :: read)

theorem Path.length (h : g.Path states read) : states.length = read.length + 1 := by
  induction h with
  | start => rfl
  | move _ _ ih => simp [ih]

theorem Path.ne_nil (h : g.Path states read) : states ≠ [] := by
  cases h <;> simp

theorem Path.bottom (h : g.Path states read) : ∃ above, states = above ++ [0] := by
  induction h with
  | start => exact ⟨[], rfl⟩
  | @move state target rest _ _ _ _ ih =>
    obtain ⟨above, habove⟩ := ih
    exact ⟨target :: above, by rw [habove, List.cons_append]⟩

theorem Path.lt (hg : g.WellFormed) (h : g.Path (state :: rest) read) :
    state < g.automaton.size := by
  cases h with
  | start => exact size_pos g
  | move _ hm => exact (lt_of_next? hg hm).2

theorem Path.of_zero (hg : g.WellFormed) (h : g.Path (0 :: rest) read) : rest = [] ∧ read = [] := by
  cases h with
  | start => exact ⟨rfl, rfl⟩
  | move _ hm => exact absurd rfl (ne_zero_of_next? hg hm)

theorem Path.drop (h : g.Path states read) (n : Nat) {base : Nat} {below : List Nat}
    (hd : states.drop n = base :: below) : g.Path (base :: below) (read.drop n) := by
  induction n generalizing states read with
  | zero => exact hd ▸ h
  | succ n ih =>
    cases h with
    | start => simp at hd
    | move hpath _ => exact ih hpath hd

theorem Path.of_cons {below : Nat} {s : Symbol} (h : g.Path (state :: below :: rest) (s :: read)) :
    g.automaton.next? below s = some state ∧ g.Path (below :: rest) read := by
  cases h with
  | move h hm => exact ⟨hm, h⟩

/-- **What an item has read is what the path has read last.** -/
theorem Path.back (hg : g.WellFormed) (h : g.Path (state :: rest) read)
    (hi : item ∈ g.analysis.closure (g.automaton.kernel state)) :
    read.take item.dot = ((g.augmented.rhs item.production).take item.dot).reverse ∧
      ∃ base below, (state :: rest).drop item.dot = base :: below ∧
        g.Path (base :: below) (read.drop item.dot) ∧
        (⟨item.production, 0⟩ : Item) ∈ g.analysis.closure (g.automaton.kernel base) := by
  obtain ⟨p, dot⟩ := item
  induction dot generalizing state rest read with
  | zero => exact ⟨by simp, state, rest, rfl, h, hi⟩
  | succ dot ih =>
    have hk : (⟨p, dot + 1⟩ : Item) ∈ g.automaton.kernel state := by
      rcases (mem_closure hg).1 hi with hk | ⟨hdot, -⟩
      · exact hk
      · cases hdot
    cases h with
    | start =>
      rw [kernel_zero, List.mem_singleton] at hk
      cases hk
    | @move before _ below s read hpath hm =>
      obtain ⟨i, hmem, hs, he⟩ := exists_of_next? hg hm hk
      have heq : i = ⟨p, dot⟩ := by
        cases i
        simpa [Item.advance] using he.symm
      subst heq
      obtain ⟨rest', hr⟩ := List.head?_eq_some_iff.1 hs
      obtain ⟨hread, base, below', hdrop, hbase, hinit⟩ := ih hpath hmem
      refine ⟨?_, base, below', hdrop, hbase, hinit⟩
      have hget : (g.augmented.rhs p)[dot]? = some s := remaining_cons hr
      dsimp only at hread ⊢
      rw [List.take_succ_cons, hread, List.take_add_one, hget]
      simp

theorem dot_of_complete (hi : item ∈ g.items) (hr : g.analysis.remaining item = []) :
    item.dot = (g.augmented.rhs item.production).length := by
  rw [remaining_eq_drop, List.drop_eq_nil_iff] at hr
  exact Nat.le_antisymm (mem_items.1 hi).2 hr

theorem not_mem_kernel_of_ne {p : Nat} (hp : p ≠ g.productions.size) :
    (⟨p, 0⟩ : Item) ∉ g.automaton.kernel state := by
  intro hmem
  by_cases hs : state = 0
  · subst hs
    rw [kernel_zero, List.mem_singleton] at hmem
    exact hp (Item.mk.inj hmem).1
  · exact Nat.lt_irrefl 0 (dot_pos hs hmem)

theorem exists_next?_of_initial (hg : g.WellFormed) {p : Nat} (hs : state < g.automaton.size)
    (hp : p ≠ g.productions.size)
    (hi : (⟨p, 0⟩ : Item) ∈ g.analysis.closure (g.automaton.kernel state)) :
    ∃ target, g.automaton.next? state (.nonterminal (g.augmented.lhs p)) = some target := by
  obtain ⟨-, i, hmem, rest, hr⟩ := closure_initial hg hi (not_mem_kernel_of_ne hp)
  obtain ⟨target, hm, -⟩ := next?_of_mem hg hs hmem (by rw [hr]; rfl)
  exact ⟨target, hm⟩

/-- **Where a production is complete, the state under it moves on with its nonterminal.** -/
theorem Path.reduce (hg : g.WellFormed) (h : g.Path (state :: rest) read)
    (hin : g.InState state item) (hr : g.analysis.remaining item = [])
    (hp : item.production ≠ g.productions.size) :
    read.take (g.augmented.rhs item.production).length =
        (g.augmented.rhs item.production).reverse ∧
      ∃ base below target, (state :: rest).drop (g.augmented.rhs item.production).length =
          base :: below ∧
        g.Path (base :: below) (read.drop (g.augmented.rhs item.production).length) ∧
        g.automaton.next? base (.nonterminal (g.augmented.lhs item.production)) =
          some target := by
  have hdot := dot_of_complete (mem_items_of_mem_closure_kernel hg hin.2) hr
  obtain ⟨hread, base, below, hdrop, hpath, hinit⟩ := h.back hg hin.2
  rw [hdot] at hread hdrop hpath
  rw [List.take_length] at hread
  obtain ⟨target, hm⟩ := exists_next?_of_initial hg (hpath.lt hg) hp hinit
  exact ⟨hread, base, below, target, hdrop, hpath, hm⟩

/-- **Where the whole input is complete, the path has read the start only.** -/
theorem Path.accept (hg : g.WellFormed) (h : g.Path (state :: rest) read)
    (hin : g.InState state item) (hr : g.analysis.remaining item = [])
    (hp : item.production = g.productions.size) :
    read = [.nonterminal g.start] ∧ rest = [0] := by
  have hdot := dot_of_complete (mem_items_of_mem_closure_kernel hg hin.2) hr
  obtain ⟨hread, base, below, hdrop, hpath, hinit⟩ := h.back hg hin.2
  rw [hdot, hp, rhs_accept] at hread hdrop hpath
  have hbase : base = 0 := by
    by_contra hne
    rw [hp] at hinit
    rcases (mem_closure hg).1 hinit with hk | ⟨-, -, hopen⟩
    · exact Nat.lt_irrefl 0 (dot_pos hne hk)
    · have hlt := lt_of_open hg hopen
      rw [lhs_accept hg] at hlt
      exact Nat.lt_irrefl _ hlt
  subst hbase
  obtain ⟨rfl, hnil⟩ := hpath.of_zero hg
  constructor
  · have hsplit := List.take_append_drop 1 read
    simp only [List.length_singleton] at hread hnil
    rw [← hsplit, hread, hnil]
    rfl
  · simpa using hdrop

end Grammar

end AsmTree
