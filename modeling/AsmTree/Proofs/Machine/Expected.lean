import AsmTree.Proofs.Machine.LineStarts
import AsmTree.Proofs.Table.Awaited
import AsmTree.Proofs.Table.Operators

/-!
# What a row lists

The row of a state lists the tokens that the state has a move for, whatever stands below the state.
A token with a shift can follow on every stack. One with a reduction can follow on some stack: on a
path on which it may follow the complete production it can come next after the reduction, and stays
so until it is shifted. Only where a state reads an operator and levels prefer a reduction, the
token that comes next is not what the state does; but then the reduction makes an expression, and
behind an expression every operator can be read.

**Main statement (`mem_expected_iff`):** a row lists the tokens that can follow on some path to the
state.
-/

namespace AsmTree

open Machine View

/-! ## Tokens that can follow are listed -/

theorem Machine.CanFollow.mem_expected {g : Grammar} {t : ParseTable} {k : Kind} {state : Nat}
    {rest : List Nat} (hb : ParseTable.build g = .ok t) (hd : t.default? state = none)
    (hne : k ≠ .error) (h : CanFollow t (state :: rest) k) : k ∈ t.expected state := by
  refine (Grammar.mem_expected hb).2 ⟨hne, fun hcell => ?_⟩
  exact not_canFollow_of_error hd (Action.move_eq_error.2 hcell) h

namespace Grammar

variable {g : Grammar} {t : ParseTable} {expr binary unary lines line state n : Nat}
  {w : Nat → Nat} {k : Kind} {o : BinaryOp} {item : Item} {rest states : List Nat}
  {read : List Symbol}

/-! ## Moves of a row -/

section Rows

variable (ht : g.HasTable t)
  (hone : ∀ state < g.automaton.size, ∀ k, (g.finished state k).Subsingleton)
  (hassoc : ∀ level, g.tokenPrecedence? k ≠ some (level, .nonAssoc))
  (hk : k.index < Kind.tokenCount) (hne : k ≠ .error)

include ht hone hassoc hk hne

/-- Before a token that may follow a complete production the state makes the reduction, if it does
not shift the token. -/
theorem move_of_complete (hc : g.Complete state item) (hf : g.Follows state item k.index) :
    (∃ target, (t.explicitAction state k).move = .shift target) ∨
      (t.explicitAction state k).move = .accept ∨
      (t.explicitAction state k).move = .reduce item.production := by
  have hg := ht.wellFormed
  have hs := hc.inState.1
  have hdecided := hg.followsYacc.cells t ht.build ht.indexed.actions state hs k hk
    (hone state hs k)
  have hfinished : g.finished state k = {item.production} :=
    (hone state hs k).eq_singleton_of_mem (mem_finished_of_complete hg hc hf)
  rw [hfinished] at hdecided
  generalize hset : ({item.production} : Set Nat) = set at hdecided
  generalize t.explicitAction state k = cell at hdecided
  generalize g.shiftOf? state k = next at hdecided
  have hreduce {p : Nat} (hp : ({item.production} : Set Nat) = {p}) :
      (Action.reduce p).move = .reduce item.production := by
    obtain rfl := Set.singleton_eq_singleton_iff.1 hp
    rw [Action.move_reduce, Nat.mod_eq_of_lt]
    exact Nat.lt_of_le_of_lt (hc.production_le hg) ht.fits.productions
  cases hdecided with
  | empty | shift => exact absurd hset (Set.singleton_ne_empty _)
  | reduce _ => exact Or.inr (Or.inr (hreduce hset))
  | accept _ => exact Or.inr (Or.inl Action.move_accept)
  | region he => exact absurd he hne
  | tighter _ _ _ _ | right _ _ _ => exact Or.inl ⟨_, Action.move_shift _⟩
  | looser _ _ _ _ | left _ _ _ => exact Or.inr (Or.inr (hreduce hset))
  | nonAssoc _ _ htoken => exact absurd htoken (hassoc _)

/-- Before a token that the state reads it makes a reduction only if levels prefer it. -/
theorem move_of_reads {target : Nat}
    (hm : g.automaton.next? state (.terminal k) = some target) :
    (∃ target, (t.explicitAction state k).move = .shift target) ∨
      ∃ item level, g.Complete state item ∧ g.Follows state item k.index ∧
        g.levelOf? item.production = some level ∧ (g.tokenPrecedence? k).isSome = true ∧
        (t.explicitAction state k).move = .reduce item.production := by
  have hg := ht.wellFormed
  have hs := (lt_of_next? hg hm).1
  have hdecided := hg.followsYacc.cells t ht.build ht.indexed.actions state hs k hk
    (hone state hs k)
  rw [shiftOf?, hm] at hdecided
  generalize hset : g.finished state k = set at hdecided
  generalize t.explicitAction state k = cell at hdecided
  have hreduce {p : Nat} {level : UInt8} (hp : g.finished state k = {p})
      (hlevel : g.levelOf? p = some level) (htoken : (g.tokenPrecedence? k).isSome = true) :
      ∃ item level, g.Complete state item ∧ g.Follows state item k.index ∧
        g.levelOf? item.production = some level ∧ (g.tokenPrecedence? k).isSome = true ∧
        (Action.reduce p).move = .reduce item.production := by
    obtain ⟨item, rfl, hc, hf⟩ := exists_of_mem_finished hg hs (hp ▸ Set.mem_singleton p)
    refine ⟨item, level, hc, hf, hlevel, htoken, ?_⟩
    rw [Action.move_reduce, Nat.mod_eq_of_lt]
    exact Nat.lt_of_le_of_lt (hc.production_le hg) ht.fits.productions
  cases hdecided with
  | shift => exact Or.inl ⟨_, Action.move_shift _⟩
  | region he => exact absurd he hne
  | tighter _ _ _ _ | right _ _ _ => exact Or.inl ⟨_, Action.move_shift _⟩
  | looser _ hlevel htoken _ | left _ hlevel htoken =>
    exact Or.inr (hreduce hset hlevel (by rw [htoken]; rfl))
  | nonAssoc _ _ htoken => exact absurd htoken (hassoc _)

end Rows

/-! ## Operators -/

theorem Complete.getLast?_rhs (hg : g.WellFormed) {s : Symbol}
    (h : g.Path (state :: rest) (s :: read)) (hc : g.Complete state item)
    (hrhs : g.augmented.rhs item.production ≠ []) :
    (g.augmented.rhs item.production).getLast? = some s := by
  obtain ⟨hread, -⟩ := h.back hg hc.inState.2
  rw [dot_of_complete (mem_items_of_mem_closure_kernel hg hc.inState.2) hc.remaining,
    List.take_length] at hread
  rw [← List.head?_reverse, ← hread]
  cases hlen : (g.augmented.rhs item.production).length with
  | zero => exact absurd (List.eq_nil_of_length_eq_zero hlen) hrhs
  | succ n => rfl

section Operators

variable (ho : g.HasOperators expr binary unary) (hranks : g.Ranks binary unary)

include ho hranks

/-- A complete production with a level that an operator may follow is one of an operator, if a
nonterminal has been read last. That is an expression. -/
theorem Ranks.lhs_of_path (hg : g.WellFormed) {id : Nat} {level : UInt8}
    (h : g.Path (state :: rest) (.nonterminal id :: read)) (hc : g.Complete state item)
    (hf : g.Follows state item k.index) (hk : BinaryOp.ofKind? k = some o)
    (hlevel : g.levelOf? item.production = some level) : id = expr ∧
      (g.augmented.lhs item.production = binary ∨ g.augmented.lhs item.production = unary) := by
  obtain ⟨q, hq, hlevel⟩ := Option.bind_eq_some_iff.1 hlevel
  have hget := getElem?_augmented hq
  have hlhs := Augmented.lhs_eq hget
  have hrhs := Augmented.rhs_eq hget
  have hlast := hc.getLast?_rhs hg h
  rw [hrhs] at hlast
  have hsort : q.lhs = binary ∨ q.lhs = unary := by
    rcases hranks.production q (Array.mem_of_getElem? hq) (by rw [hlevel]; rfl) with
      ⟨k', hk'⟩ | hbinary | hunary | hnone
    · rw [hlast fun hnil => by rw [hnil] at hk'; cases hk'] at hk'
      cases hk'
    · exact Or.inl hbinary
    · exact Or.inr hunary
    · exact absurd hf (hnone k o hk state item hlhs)
  refine ⟨?_, by rw [hlhs]; exact hsort⟩
  have hexpr : q.rhs ≠ [] ∧ q.rhs.getLast? = some (.nonterminal expr) := by
    rcases hsort with hbinary | hunary
    · obtain ⟨k', o', -, hr, -⟩ := ho.ofBinary q (Array.mem_of_getElem? hq) hbinary
      rw [hr]
      exact ⟨List.cons_ne_nil _ _, rfl⟩
    · obtain ⟨k', o', -, hr, -⟩ := ho.ofUnary q (Array.mem_of_getElem? hq) hunary
      rw [hr]
      exact ⟨List.cons_ne_nil _ _, rfl⟩
  rw [hlast hexpr.1] at hexpr
  exact Symbol.nonterminal.inj (Option.some.inj hexpr.2)

theorem Ranks.ne_nonAssoc (hlt : k.index < Kind.tokenCount) (level : UInt8) :
    g.tokenPrecedence? k ≠ some (level, .nonAssoc) := by
  intro h
  obtain ⟨o, hk⟩ := hranks.token k hlt (by rw [h]; rfl)
  rw [ho.tokens k o hk, Option.some.injEq, Prod.mk.injEq, BinaryOp.assoc] at h
  obtain ⟨-, h⟩ := h
  split at h <;> cases h

variable (ht : g.HasTable t) (hl : g.HasLines lines line) (hw : g.Weighted w)
  (hone : ∀ state < g.automaton.size, ∀ k, (g.finished state k).Subsingleton)

include ht hl hw hone

/-- Behind an expression, or a sort of one that is made with an operator, every operator can
follow. -/
theorem canFollow_operator (hk : BinaryOp.ofKind? k = some o) {id : Nat}
    (h : g.Path states (.nonterminal id :: read)) (hid : id = expr ∨ id = binary ∨ id = unary) :
    CanFollow t states k := by
  have hg := ht.wellFormed
  have hlt : k.index < Kind.tokenCount := mem_tokens_iff.1 (BinaryOp.mem_tokens hk)
  have hne : k ≠ .error := by
    rintro rfl
    cases hk
  have hassoc := hranks.ne_nonAssoc ho hlt
  obtain ⟨n, -, hreduces⟩ := exists_reduces (k := k) ht hl hw h
  refine canFollow_of_steps (P := fun states => ∃ id read, g.Path states (.nonterminal id :: read) ∧
    (id = expr ∨ id = binary ∨ id = unary)) ?_ hreduces ⟨id, read, h, hid⟩
  rintro states ⟨id, read, hpath, hid⟩
  cases hpath with | @move base top below _ _ hbase hm =>
  have hpath := Path.move hbase hm
  rcases hid with rfl | hid
  · -- the operator is read, or levels prefer an operator that is complete
    obtain ⟨next, hnext⟩ := ho.next?_operator hg hm hk
    rcases move_of_reads ht hone hassoc hlt hne hnext with
      hshift | ⟨item, level, hc, hf, hlevel, -, hmove⟩
    · exact Or.inl (canFollow_of_explicit ht (Or.inl hshift))
    · obtain ⟨-, hsort⟩ := hranks.lhs_of_path ho hg hpath hc hf hk hlevel
      obtain ⟨base', below', target, -, -, -, hreduced, hpath'⟩ := exists_reduced ht hpath hc hmove
      exact Or.inr ⟨_, hreduced, _, _, hpath', Or.inr hsort⟩
  · -- an expression is complete
    obtain ⟨i, hi, hhead, hkernel⟩ : ∃ i, g.InState base i ∧
        (g.analysis.remaining i).head? = some (.nonterminal id) ∧
        i.advance ∈ g.automaton.kernel top := by
      obtain ⟨j, hj⟩ := List.exists_mem_of_ne_nil _ (kernel_ne_nil (lt_of_next? hg hm).2)
      obtain ⟨i, hi, hhead, rfl⟩ := exists_of_next? hg hm hj
      exact ⟨i, ⟨(lt_of_next? hg hm).1, hi⟩, hhead, hj⟩
    obtain ⟨after, hr⟩ := List.head?_eq_some_iff.1 hhead
    obtain ⟨hlhs, hdot, rfl⟩ := ho.initial_of_reads_sort hg hi hr hid
    have hc : g.Complete top i.advance :=
      ⟨⟨(lt_of_next? hg hm).2, mem_closure_of_mem hkernel⟩, remaining_advance hr⟩
    have hf : g.Follows top i.advance k.index := by
      obtain ⟨p, dot⟩ := i
      obtain rfl : dot = 0 := hdot
      exact .advance hm hkernel (ho.follows_expr hg hk hi hlhs)
    rcases move_of_complete ht hone hassoc hlt hne hc hf with hshift | haccept | hmove
    · exact Or.inl (canFollow_of_explicit ht (Or.inl hshift))
    · exact Or.inl (canFollow_of_explicit ht (Or.inr haccept))
    · obtain ⟨base', below', target, -, -, -, hreduced, hpath'⟩ := exists_reduced ht hpath hc hmove
      exact Or.inr ⟨_, hreduced, _, _, hpath', Or.inl hlhs⟩

/-! ## Tokens that come next -/

/-- **A token that comes next behind a nonterminal can follow.** -/
theorem canFollow_of_awaits (hlt : k.index < Kind.tokenCount) (hne : k ≠ .error) {id : Nat}
    (h : g.Path (state :: rest) (.nonterminal id :: read)) (hin : g.InState state item)
    (haw : g.Awaits state rest item k) : CanFollow t (state :: rest) k := by
  have hg := ht.wellFormed
  have hassoc := hranks.ne_nonAssoc ho hlt
  obtain ⟨n, -, hreduces⟩ := exists_reduces (k := k) ht hl hw h
  refine canFollow_of_steps (P := fun states => ∃ state rest id read item, states = state :: rest ∧
    g.Path states (.nonterminal id :: read) ∧ g.InState state item ∧ g.Awaits state rest item k)
    ?_ hreduces ⟨state, rest, id, read, item, rfl, h, hin, haw⟩
  rintro _ ⟨state, rest, id, read, item, rfl, hpath, hin, haw⟩
  obtain ⟨j, hj, ⟨after, hr⟩ | ⟨hr, hvalid⟩⟩ := haw.exists_acts hg hin
  · -- the token is read, or it is an operator and levels prefer one that is complete
    left
    obtain ⟨target, hm⟩ := exists_next? hg hj hr
    rcases move_of_reads ht hone hassoc hlt hne hm with
      hshift | ⟨i, level, hc, hf, hlevel, htoken, -⟩
    · exact canFollow_of_explicit ht (Or.inl hshift)
    · obtain ⟨o, hk⟩ := hranks.token k hlt htoken
      obtain ⟨rfl, -⟩ := hranks.lhs_of_path ho hg hpath hc hf hk hlevel
      exact canFollow_operator ho hranks ht hl hw hone hk hpath (Or.inl rfl)
  · have hc : g.Complete state j := ⟨hj, hr⟩
    rcases move_of_complete ht hone hassoc hlt hne hc (hvalid.follows hg) with
      hshift | haccept | hmove
    · exact Or.inl (canFollow_of_explicit ht (Or.inl hshift))
    · exact Or.inl (canFollow_of_explicit ht (Or.inr haccept))
    · obtain ⟨base, below, target, hne, hdrop, hm, hreduced, hpath'⟩ :=
        exists_reduced ht hpath hc hmove
      obtain ⟨i, hi, haw'⟩ := hvalid.awaits hg hj hr hne hdrop hm
      exact Or.inr ⟨_, hreduced, _, _, _, _, i, rfl, hpath', hi, haw'⟩

/-! ## The row of a state -/

/-- A token whose cell holds a reduction can follow on some path to the state. -/
theorem exists_canFollow_of_follows (hlt : k.index < Kind.tokenCount) (hne : k ≠ .error)
    (hc : g.Complete state item) (hf : g.Follows state item k.index) :
    ∃ below read, g.Path (state :: below) read ∧ CanFollow t (state :: below) k := by
  have hg := ht.wellFormed
  obtain ⟨below, read, hpath, hvalid⟩ := hf.exists_validAt hg
  refine ⟨below, read, hpath, ?_⟩
  rcases move_of_complete ht hone (hranks.ne_nonAssoc ho hlt) hlt hne hc hf with
    hshift | haccept | hmove
  · exact canFollow_of_explicit ht (Or.inl hshift)
  · exact canFollow_of_explicit ht (Or.inr haccept)
  · obtain ⟨base, below', target, hproduction, hdrop, hm, hreduced, hpath'⟩ :=
      exists_reduced ht hpath hc hmove
    obtain ⟨i, hi, haw⟩ := hvalid.awaits hg hc.inState hc.remaining hproduction hdrop hm
    refine (canFollow_reduced hreduced).2 ?_
    exact canFollow_of_awaits ho hranks ht hl hw hone hlt hne hpath' hi haw

/-- **A row lists the tokens that can follow on some path to the state.** -/
theorem mem_expected_iff (hs : state < g.automaton.size) (hd : t.default? state = none)
    (hne : k ≠ .error) : k ∈ t.expected state ↔
      ∃ below read, g.Path (state :: below) read ∧ CanFollow t (state :: below) k := by
  constructor
  · intro hmem
    obtain ⟨-, hcell⟩ := (mem_expected ht.build).1 hmem
    rcases ht.permits state k with he | ⟨target, -, he⟩ | ⟨item, hin, hr, hf, -⟩
    · exact absurd he hcell
    · obtain ⟨below, read, hpath⟩ := exists_path ht.wellFormed hs
      exact ⟨below, read, hpath,
        canFollow_of_explicit ht (Or.inl ⟨_, by rw [he, Action.move_shift]⟩)⟩
    · refine exists_canFollow_of_follows ho hranks ht hl hw hone ?_ hne ⟨hin, hr⟩ hf
      by_contra hk
      exact hcell (explicitAction_eq_error ht.build fun h => hk h.2)
  · rintro ⟨below, read, -, hcan⟩
    exact CanFollow.mem_expected ht.build hd hne hcan

end Operators

end Grammar

end AsmTree
