import AsmTree.Proofs.Grammar.Words
import AsmTree.Proofs.Machine.Quiet
import AsmTree.Proofs.Machine.Stacks
import AsmTree.Proofs.Table.Awaited
import AsmTree.Proofs.Table.Defaults

/-!
# Machines read what derives

Without precedence a table has every shift and every reduction of the automaton, so a machine that
finds the terminals of a derivation in its input reads them and puts one frame for the symbol on its
stack. The induction is on the derivation. It carries what follows the item that reads the symbol:
the next token begins what the item has still to read, or follows the item if nothing is left to
read. **Main statement (`Parses.of_derivation`):** the words of the start are accepted.
-/

namespace AsmTree

namespace Grammar

variable {g : Grammar} {t : ParseTable} {state target p : Nat} {k : Kind} {item : Item}
  {sym : Symbol} {rest : List Symbol}

/-- A token can come next behind some symbols that end an item of a state. -/
def Continues (g : Grammar) (state : Nat) (item : Item) (after : List Symbol) (k : Kind) : Prop :=
  g.Begins after k ∨ g.Vanishes after ∧ g.Follows state item k.index

theorem Continues.follows (hg : g.WellFormed) (h : g.Continues state item rest k)
    (hin : g.InState state item) (hp : p < g.augmented.productions.size)
    (hr : g.analysis.remaining item = .nonterminal (g.augmented.lhs p) :: rest) :
    g.Follows state ⟨p, 0⟩ k.index := by
  rcases h with hbegins | ⟨hvanishes, hfollows⟩
  · exact .first hin hp hr ((contains_firstOf hg).2 ⟨k, rfl, hbegins⟩)
  · exact .rest hin hp hr ((firstOf_vanishes hg).2 hvanishes) hfollows

/-- What a derivation leaves to its first token continues what stands before it. -/
theorem continues_of_derivations {ss : List Symbol} {k' : Kind} {u u' : List Kind}
    (ds : Derivations g ss) (hword : ds.yield ++ k :: u = k' :: u')
    (hfollows : g.Follows state item k.index) : g.Continues state item ss k' := by
  have hderives := ds.derives_yields
  cases hyield : ds.yield with
  | nil =>
    rw [hyield] at hderives hword
    cases hword
    exact Or.inr ⟨hderives, hfollows⟩
  | cons k₁ w =>
    rw [hyield] at hderives hword
    cases hword
    exact Or.inl ⟨_, hderives⟩

/-- The table of a grammar without precedence whose numbers fit. -/
structure HasUnrankedTable (g : Grammar) (t : ParseTable) : Prop extends g.HasTable t where
  levels : g.levels = []

namespace HasUnrankedTable

variable (ht : g.HasUnrankedTable t)

include ht

theorem tokenPrecedence?_eq_none (k : Kind) : g.tokenPrecedence? k = none := by
  rw [Grammar.tokenPrecedence?, ht.levels]
  rfl

theorem move_of_next? (hk : k.index < Kind.tokenCount)
    (hm : g.automaton.next? state (.terminal k) = some target) :
    (t.explicitAction state k).move = .shift target :=
  Grammar.move_of_next? ht.wellFormed ht.fits.productions ht.fits.states ht.build
    ht.indexed.actions hk (ht.tokenPrecedence?_eq_none k) hm

theorem move_of_follows (hk : k.index < Kind.tokenCount) (hke : k ≠ .error)
    (hc : g.Complete state item) (hfollows : g.Follows state item k.index) :
    (t.explicitAction state k).move =
      if item.production = g.productions.size then .accept else .reduce item.production :=
  Grammar.move_of_follows ht.wellFormed ht.fits.productions ht.build ht.indexed.actions hk
    (ht.tokenPrecedence?_eq_none k) hke hc.inState hc.remaining hfollows

end HasUnrankedTable

end Grammar

namespace Machine

open Grammar

variable {g : Grammar} {s : Setup} {m m' m'' : Machine} {k : Kind} {item : Item} {u : List Kind}
  {n n' w w' : Nat}

def kinds (m : Machine) : List Kind := m.input.map fun l => l.token.kind

/-- Every token that is left has a column in the table and can be read. -/
def Legible (m : Machine) : Prop :=
  ∀ k ∈ m.kinds, k.index < Kind.tokenCount ∧ k ≠ .error ∧ k ≠ .unknown

/-- Shifts and reductions that put `n` frames on the stack and take `w` tokens. -/
structure Reads (s : Setup) (m m' : Machine) (n w : Nat) : Prop where
  frames : m'.frames.drop n = m.frames
  input : m'.input = m.input.drop w
  parses : ∀ ts, Parses s m' ts → Parses s m ts

namespace Reads

theorem refl (s : Setup) (m : Machine) : Reads s m m 0 0 := ⟨rfl, rfl, fun _ h => h⟩

theorem trans (h : Reads s m m' n w) (h' : Reads s m' m'' n' w') :
    Reads s m m'' (n' + n) (w + w') where
  frames := by rw [← List.drop_drop, h'.frames, h.frames]
  input := by rw [h'.input, h.input, List.drop_drop]
  parses := fun ts hts => h.parses ts (h'.parses ts hts)

theorem kinds (h : Reads s m m' n w) : m'.kinds = m.kinds.drop w := by
  rw [Machine.kinds, h.input, List.map_drop, Machine.kinds]

theorem kinds_eq (h : Reads s m m' n w) {a b : List Kind} (hm : m.kinds = a ++ b)
    (hw : w = a.length) : m'.kinds = b := by
  rw [h.kinds, hm, hw, List.drop_left]

theorem legible (h : Reads s m m' n w) (hm : m.Legible) : m'.Legible := by
  intro k hk
  rw [h.kinds] at hk
  exact hm k (List.mem_of_mem_drop hk)

end Reads

theorem next_of_kinds (h : m.kinds = k :: u) : (m.next s).kind = k := by
  obtain ⟨l, ls, hinput, rfl, -⟩ := List.map_eq_cons_iff.1 h
  rw [next_of_input hinput]

variable (ht : g.HasUnrankedTable s.table)

include ht

theorem reads_shift (hlegible : m.Legible) (hkinds : m.kinds = k :: u) {target : Nat}
    (hm : g.automaton.next? m.top.state (.terminal k) = some target) :
    Reads s m (m.shift s target) 1 1 := by
  obtain ⟨hcolumn, -, hreadable⟩ := hlegible k (by rw [hkinds]; exact List.mem_cons_self)
  have hmove := ht.move_of_next? hcolumn hm
  have hd := default?_of_shift ht.build ht.indexed.actions hmove
  refine ⟨rfl, List.drop_one.symm, fun ts hts => .shift hd ?_ ?_ hts⟩
  · rw [next_of_kinds hkinds]
    exact hmove
  · rw [next_of_kinds hkinds]
    exact hreadable

/-- A production that is complete on top, before a token that may follow it, is reduced. -/
theorem reads_reduce (hlegible : m'.Legible) (hkinds : m'.kinds = k :: u)
    (hc : g.Complete m'.top.state item) (hne : item.production ≠ g.productions.size)
    (hfollows : g.Follows m'.top.state item k.index)
    (hreads : Reads s m m' (g.augmented.rhs item.production).length w) {target : Nat}
    (hm : g.automaton.next? m.top.state (.nonterminal (g.augmented.lhs item.production)) =
      some target) :
    ∃ m'', Reads s m m'' 1 w ∧ m''.top.state = target := by
  obtain ⟨hcolumn, hnoerror, -⟩ := hlegible k (by rw [hkinds]; exact List.mem_cons_self)
  have hmove := ht.move_of_follows hcolumn hnoerror hc hfollows
  rw [if_neg hne] at hmove
  have hr : m'.reduction? s = some item.production := by
    unfold reduction?
    split
    · next p hd =>
      have hp := move_of_default? (k := k) ht.build ht.indexed.actions hd fun he => by
        rw [he] at hmove
        cases hmove
      rw [hmove] at hp
      cases hp
      rfl
    · rw [next_of_kinds hkinds, hmove]
  have hbase := (lt_of_next? ht.wellFormed hm).1
  have hlhs := lhs_lt ht.wellFormed
    (mem_items.1 (mem_items_of_mem_closure_kernel ht.wellFormed hc.inState.2)).1
  have hreduce := reduce?_eq_some.2 ⟨m.top, m.below, target,
    (by rw [ht.production_of_complete hc]; exact hreads.frames),
    (by rw [ht.production_of_complete hc,
          goto?_eq ht.wellFormed ht.build ht.indexed.gotos hbase hlhs, hm]), rfl⟩
  refine ⟨_, ⟨?_, ?_, fun ts hts => hreads.parses ts (.reduce hr hreduce hts)⟩, ?_⟩
  · rfl
  · exact hreads.input
  · rfl

mutual

/-- **A machine reads a symbol that is next in an item of the state on top.** -/
theorem exists_reads_symbol {sym : Symbol} : ∀ (d : Derivation g sym) {m : Machine} {item : Item}
    {rest : List Symbol} {k : Kind} {u : List Kind}, m.Legible → g.InState m.top.state item →
    g.analysis.remaining item = sym :: rest → m.kinds = d.yield ++ k :: u →
    g.Continues m.top.state item rest k →
    ∃ m', Reads s m m' 1 d.yield.length ∧
      g.automaton.next? m.top.state sym = some m'.top.state
  | .leaf k', m, item, rest, k, u, hlegible, hin, hr, hkinds, _ => by
    obtain ⟨target, hm, -⟩ := next?_of_mem ht.wellFormed hin.1 hin.2 (by rw [hr]; rfl)
    exact ⟨_, reads_shift ht hlegible hkinds hm, hm⟩
  | .node p mem children, m, item, rest, k, u, hlegible, hin, hr, hkinds, hcontinues => by
    obtain ⟨i, hi⟩ := Array.getElem?_of_mem mem
    have haugmented := getElem?_augmented hi
    have hlhs := Augmented.lhs_eq haugmented
    have hrhs := Augmented.rhs_eq haugmented
    have hlt := (Array.getElem?_eq_some_iff.1 haugmented).1
    have hr' : g.analysis.remaining item = .nonterminal (g.augmented.lhs i) :: rest := by
      rw [hlhs, hr]
    -- the production begins in the state on top and is read to its end
    have hinitial : g.InState m.top.state ⟨i, 0⟩ :=
      ⟨hin.1, closure_expand ht.wellFormed hin.2 hlt hr'⟩
    have hremaining : g.analysis.remaining ⟨i, 0⟩ = p.rhs := by rw [remaining_zero, hrhs]
    obtain ⟨m', last, hreads, hproduction, hc, hfollows⟩ := exists_reads_symbols children hlegible
      hinitial hremaining hkinds (hcontinues.follows ht.wellFormed hin hlt hr')
    obtain rfl : last.production = i := hproduction
    -- then it is reduced
    obtain ⟨target, hm, -⟩ := next?_of_mem ht.wellFormed hin.1 hin.2 (by rw [hr]; rfl)
    have hreads' : Reads s m m' (g.augmented.rhs last.production).length children.yield.length := by
      rw [hrhs]
      exact hreads
    have hne : last.production ≠ g.productions.size :=
      Nat.ne_of_lt (Array.getElem?_eq_some_iff.1 hi).1
    obtain ⟨m'', hreduced, rfl⟩ := reads_reduce ht (hreads.legible hlegible)
      (hreads.kinds_eq hkinds rfl) hc hne hfollows hreads' (hlhs ▸ hm)
    exact ⟨m'', hreduced, hm⟩

/-- **A machine reads the symbols that an item of the state on top has still to read.** -/
theorem exists_reads_symbols {ss : List Symbol} : ∀ (ds : Derivations g ss) {m : Machine}
    {item : Item} {k : Kind} {u : List Kind}, m.Legible → g.InState m.top.state item →
    g.analysis.remaining item = ss → m.kinds = ds.yield ++ k :: u →
    g.Follows m.top.state item k.index →
    ∃ m' last, Reads s m m' ss.length ds.yield.length ∧ last.production = item.production ∧
      g.Complete m'.top.state last ∧ g.Follows m'.top.state last k.index
  | .nil, m, item, k, u, _, hin, hr, _, hfollows =>
    ⟨m, item, .refl s m, rfl, ⟨hin, hr⟩, hfollows⟩
  | @Derivations.cons _ sym ss first others, m, item, k, u, hlegible, hin, hr, hkinds,
      hfollows => by
    obtain ⟨k', u', hword⟩ : ∃ k' u', others.yield ++ k :: u = k' :: u' :=
      List.exists_cons_of_ne_nil (by simp)
    rw [Derivations.yield, List.append_assoc] at hkinds
    obtain ⟨m₁, hreads, hm⟩ := exists_reads_symbol first hlegible hin hr (hword ▸ hkinds)
      (continues_of_derivations others hword hfollows)
    obtain ⟨target, hm', hadvance⟩ := next?_of_mem ht.wellFormed hin.1 hin.2 (by rw [hr]; rfl)
    rw [hm] at hm'
    cases hm'
    obtain ⟨m₂, last, hreads', hproduction, hc, hfollows'⟩ := exists_reads_symbols others
      (hreads.legible hlegible)
      ⟨(lt_of_next? ht.wellFormed hm).2, mem_closure_of_mem hadvance⟩ (remaining_advance hr)
      (hreads.kinds_eq hkinds rfl) (.advance hm hadvance hfollows)
    refine ⟨m₂, last, ?_, hproduction, hc, hfollows'⟩
    rw [Derivations.yield, List.length_append]
    exact hreads.trans hreads'

end

/-- **The words of the start, up to the end of the text, are accepted.** -/
theorem Parses.of_derivation (d : Derivation g (.nonterminal g.start)) (hzero : m.top.state = 0)
    (hlegible : m.Legible) (hkinds : m.kinds = d.yield ++ [.eof]) : ∃ ts, Parses s m ts := by
  have hfollows : g.Follows m.top.state ⟨g.productions.size, 0⟩ Kind.eof.index := by
    rw [hzero]
    exact .eof
  have hremaining : g.analysis.remaining ⟨g.productions.size, 0⟩ = [.nonterminal g.start] := by
    rw [remaining_zero, rhs_accept]
  have hword : (Derivations.cons d .nil).yield = d.yield := List.append_nil _
  obtain ⟨m', last, hreads, hproduction, hc, hfollows'⟩ := exists_reads_symbols ht
    (.cons d .nil) hlegible (hfollows.inState ht.wellFormed) hremaining (by rw [hword, hkinds])
    hfollows
  have hkinds' := hreads.kinds_eq (b := [.eof]) (by rw [hword, hkinds]) rfl
  have hmove := ht.move_of_follows (k := .eof) (by decide) (by decide) hc hfollows'
  rw [if_pos hproduction] at hmove
  have hd := default?_of_accept ht.build ht.indexed.actions hmove
  refine ⟨_, hreads.parses _ (.accept ⟨hd, ?_⟩)⟩
  have hnext : (m'.next s).kind = .eof := next_of_kinds hkinds'
  rw [hnext]
  exact hmove

end Machine

end AsmTree
