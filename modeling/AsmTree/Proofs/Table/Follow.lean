import AsmTree.Proofs.Table.States
import AsmTree.Table.Lookahead

/-!
# What follows an item

`Follows` says with which tokens an item of a state may be complete: the end of the text follows the
whole input; what begins a nonterminal is followed by what can follow it within an item of the
state, and by what follows that item if nothing more stands there; reading a symbol keeps what
follows. **Main statement (`lookahead_induction`):** nothing else follows, for a relation between
nonterminals and tokens that is closed under what productions say.
-/

namespace AsmTree

namespace Grammar

variable {g : Grammar} {state target n : Nat} {item : Item}

/-- The analysis of the grammar with its automaton. -/
abbrev construction (g : Grammar) : Construction := .ofGrammar g

/-- The item belongs to the state. -/
def InState (g : Grammar) (state : Nat) (item : Item) : Prop :=
  state < g.automaton.size ∧ item ∈ g.analysis.closure (g.automaton.kernel state)

/-- A token may follow an item of a state. -/
inductive Follows (g : Grammar) : Nat → Item → Nat → Prop where
  | eof : Follows g 0 ⟨g.productions.size, 0⟩ Kind.eof.index
  | first {state p n : Nat} {item : Item} {rest : List Symbol} : g.InState state item →
    p < g.augmented.productions.size →
    g.analysis.remaining item = .nonterminal (g.augmented.lhs p) :: rest →
    (g.analysis.firstOf rest).1.contains n = true → Follows g state ⟨p, 0⟩ n
  | rest {state p n : Nat} {item : Item} {rest : List Symbol} : g.InState state item →
    p < g.augmented.productions.size →
    g.analysis.remaining item = .nonterminal (g.augmented.lhs p) :: rest →
    (g.analysis.firstOf rest).2 = true → Follows g state item n → Follows g state ⟨p, 0⟩ n
  | advance {state target n : Nat} {s : Symbol} {item : Item} :
    g.automaton.next? state s = some target → item.advance ∈ g.automaton.kernel target →
    Follows g state item n → Follows g target item.advance n

/-! ## Items of kernels -/

theorem strict_kernel (g : Grammar) (state : Nat) : (g.automaton.kernel state).Strict := by
  by_cases h : state < g.automaton.size
  · exact ((automaton_ok g).reached _ _ (getElem?_kernels h)).strict
  · rw [kernel_of_size_le (Nat.le_of_not_lt h)]
    exact List.Pairwise.nil

theorem findIdx?_kernel {state i : Nat} {item : Item}
    (h : (g.automaton.kernel state)[i]? = some item) :
    (g.automaton.kernel state).findIdx? (· == item) = some i := by
  obtain ⟨hlt, he⟩ := List.getElem?_eq_some_iff.1 h
  refine List.findIdx?_eq_some_iff_getElem.2 ⟨hlt, by simpa using he, fun j hj hbeq => ?_⟩
  have hbefore := List.pairwise_iff_getElem.1 (strict_kernel g state) j i (by omega) hlt hj
  exact hbefore.2 ((eq_of_beq hbeq).trans he.symm)

theorem lt_of_open (hg : g.WellFormed) {kernel : Kernel} {id : Nat}
    (h : id ∈ g.analysis.openNonterminals kernel) : id < g.nonterminals.size := by
  obtain ⟨item, -, b, rest, hr, hedge⟩ := mem_openNonterminals.1 h
  rcases hedge.cases hg with rfl | ⟨p, -, rest', hr', -⟩
  · exact lt_of_mem_rhs hg (mem_rhs_of_remaining hr)
  · exact lt_of_mem_rhs hg (p := p) (by rw [hr']; exact List.mem_cons_self)

theorem not_mem_kernel_of_open (hg : g.WellFormed) {state p : Nat}
    (h : g.augmented.lhs p ∈ g.analysis.openNonterminals (g.automaton.kernel state)) :
    (⟨p, 0⟩ : Item) ∉ g.automaton.kernel state := by
  intro hmem
  by_cases hs : state = 0
  · subst hs
    rw [kernel_zero, List.mem_singleton] at hmem
    have hlt := lt_of_open hg h
    rw [(Item.mk.inj hmem).1, lhs_accept hg] at hlt
    exact Nat.lt_irrefl _ hlt
  · exact Nat.lt_irrefl 0 (dot_pos hs hmem)

theorem inState_start (g : Grammar) : g.InState 0 ⟨g.productions.size, 0⟩ :=
  ⟨size_pos g, mem_closure_of_mem (by simp)⟩

theorem inState_of_advance (hg : g.WellFormed) {s : Symbol}
    (hm : g.automaton.next? state s = some target)
    (hmem : item.advance ∈ g.automaton.kernel target) :
    g.InState state item ∧ (g.analysis.remaining item).head? = some s := by
  obtain ⟨i, hi, hs, he⟩ := exists_of_next? hg hm hmem
  obtain ⟨production, dot⟩ := item
  obtain ⟨production', dot'⟩ := i
  obtain ⟨rfl, hdot⟩ := Item.mk.inj he
  obtain rfl := Nat.succ.inj hdot
  exact ⟨⟨(lt_of_next? hg hm).1, hi⟩, hs⟩

/-! ## What follows -/

theorem Follows.inState (hg : g.WellFormed) (h : g.Follows state item n) :
    g.InState state item := by
  cases h with
  | eof => exact inState_start g
  | first hin hp hr => exact ⟨hin.1, closure_expand hg hin.2 hp hr⟩
  | rest hin hp hr => exact ⟨hin.1, closure_expand hg hin.2 hp hr⟩
  | advance hm hmem => exact ⟨(lt_of_next? hg hm).2, mem_closure_of_mem hmem⟩

/-- **Nothing else follows**, for a relation that says what can follow each nonterminal. -/
theorem lookahead_induction (hg : g.WellFormed) {F : Nat → Nat → Prop}
    (eof : F g.nonterminals.size Kind.eof.index)
    (first : ∀ i ∈ g.items, ∀ id rest, g.analysis.remaining i = .nonterminal id :: rest →
      ∀ k, (g.analysis.firstOf rest).1.contains k = true → F id k)
    (rest : ∀ i ∈ g.items, ∀ id rest, g.analysis.remaining i = .nonterminal id :: rest →
      (g.analysis.firstOf rest).2 = true → ∀ k, F (g.augmented.lhs i.production) k → F id k)
    {k : Nat} (hk : g.Follows state item k) : F (g.augmented.lhs item.production) k := by
  induction hk with
  | eof =>
    rw [lhs_accept hg]
    exact eof
  | first hin _ hr hn => exact first _ (mem_items_of_mem_closure_kernel hg hin.2) _ _ hr _ hn
  | rest hin _ hr hempty _ ih =>
    exact rest _ (mem_items_of_mem_closure_kernel hg hin.2) _ _ hr hempty _ ih
  | advance _ _ _ ih => exact ih

end Grammar

end AsmTree
