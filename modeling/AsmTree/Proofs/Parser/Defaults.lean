import AsmTree.Proofs.Machine.Quiet
import AsmTree.Proofs.Parser.Totality
import AsmTree.Proofs.Table.Awaited
import AsmTree.Proofs.Table.Defaults

/-!
# Default reductions do not change what is accepted

A parser with default reductions and one that looks at every token move alike, as long as nothing is
reported. **Main statement (`defaults_agree`):** what is accepted by looking at every token is
accepted with default reductions, with the same tree; and the other way round, if no state that
reduces by default has a cell that precedence has settled as an error. A default reduction passes
over such a cell.
-/

namespace AsmTree

namespace Machine

variable {g : Grammar} {s : Setup} {m m' : Machine} {read : List Symbol} {ts : List Tree}
  {p : Nat}

/-- The setup of a machine that looks at every token. -/
def watchful (s : Setup) : Setup := { s with table := s.table.withoutDefaults }

theorem explicitAction_watchful (s : Setup) (m : Machine) :
    (watchful s).table.explicitAction m.top.state (m.next (watchful s)).kind =
      s.table.explicitAction m.top.state (m.next s).kind :=
  s.table.explicitAction_withoutDefaults _ _

theorem reduction?_watchful (s : Setup) (m : Machine) : m.reduction? (watchful s) =
    match (s.table.explicitAction m.top.state (m.next s).kind).move with
    | .reduce p => some p
    | _ => none := by
  have hnone : (watchful s).table.default? m.top.state = none :=
    s.table.default?_withoutDefaults _
  cases hmove : (s.table.explicitAction m.top.state (m.next s).kind).move <;>
    simp only [reduction?, hnone, explicitAction_watchful, hmove]

theorem accepting_watchful :
    m.Accepting (watchful s) ↔
      (s.table.explicitAction m.top.state (m.next s).kind).move = .accept := by
  rw [Accepting, explicitAction_watchful]
  exact and_iff_right (s.table.default?_withoutDefaults _)

/-! ## From looking at every token to default reductions -/

/-- **What is accepted by looking at every token is accepted with default reductions.** -/
theorem Parses.of_watchful (hbuild : ParseTable.build g = .ok s.table)
    (hactions : s.table.actions.size ≤ 2 ^ 32) (h : Parses (watchful s) m ts) : Parses s m ts := by
  induction h with
  | @accept m ha =>
    rw [accepting_watchful] at ha
    have hd := Grammar.default?_of_accept hbuild hactions ha
    exact .accept ⟨hd, ha⟩
  | @reduce m m' p ts hr hm _ ih =>
    refine .reduce ?_ hm ih
    rw [reduction?_watchful] at hr
    split at hr
    · next q hmove =>
      cases hr
      unfold reduction?
      split
      · next q hd =>
        have hdefault := Grammar.move_of_default? hbuild hactions hd fun he => by
          rw [he] at hmove
          cases hmove
        rw [hmove] at hdefault
        cases hdefault
        rfl
      · rw [hmove]
    · cases hr
  | @shift m target ts _ hm hk _ ih =>
    rw [explicitAction_watchful] at hm
    exact .shift (Grammar.default?_of_shift hbuild hactions hm) hm hk ih

/-! ## From default reductions to looking at every token -/

/-- The next token is awaited by an item of the state on top. -/
def AwaitsNext (g : Grammar) (s : Setup) (m : Machine) : Prop :=
  ∃ item ∈ g.analysis.closure (g.automaton.kernel m.top.state),
    g.Awaits m.top.state (m.below.map Frame.state) item (m.next s).kind

section

variable (ht : g.HasTable s.table)

include ht

/-- If the next token is awaited behind a reduction, it may follow the production. -/
theorem exists_validAt_of_reduce (hpath : g.Path m.states read) (hr : m.reduction? s = some p)
    (hm : m.reduce? s p = some m') (haw : m'.AwaitsNext g s) : ∃ item,
      g.Complete m.top.state item ∧ item.production = p ∧
        g.ValidAt m.top.state (m.below.map Frame.state) item (m.next s).kind.index := by
  obtain ⟨item, hc, rfl, -⟩ := complete_of_reduction ht hr
  obtain ⟨base, rest, target, hdrop, -, -, hmove, hreduce⟩ := reduce?_of_path ht hpath hr
  have hreduced := hreduce 0
  rw [look_zero, hm] at hreduced
  cases hreduced
  obtain ⟨i, hi, haw⟩ := haw
  refine ⟨item, hc, rfl, Grammar.validAt_of_reduced (k := (m.next s).kind) ht.wellFormed hpath
    hc.inState hc.remaining ?_ hmove hi haw⟩
  have hstates := congrArg (List.map Frame.state) hdrop
  rw [List.map_drop] at hstates
  exact hstates

/-- **What a machine shifts in the end, or accepts before, is awaited on its stack.** -/
theorem Parses.awaitsNext (h : Parses s m ts) (hpath : g.Path m.states read) :
    m.AwaitsNext g s := by
  induction h generalizing read with
  | @accept m ha =>
    obtain ⟨item, hc, hp⟩ :=
      Grammar.complete_of_accept ht.wellFormed ht.build ht.indexed.actions ha.2
    refine ⟨item, hc.inState.2, Or.inr ⟨?_, ?_⟩⟩
    · rw [hc.remaining]
      exact .refl
    · rw [Grammar.acceptsAtEof_of_build ht.wellFormed ht.build ht.indexed.actions _ _ ha.2]
      exact Grammar.validAt_accept ht.wellFormed hpath hc.inState hc.remaining hp
  | @reduce m m' p ts hr hm _ ih =>
    have hpath' := path_reduced (n := 0) ht hpath hr (by rw [look_zero]; exact hm)
    obtain ⟨item, hc, -, hvalid⟩ := exists_validAt_of_reduce ht hpath hr hm (ih hpath')
    refine ⟨item, hc.inState.2, Or.inr ⟨?_, hvalid⟩⟩
    rw [hc.remaining]
    exact .refl
  | @shift m target ts hd hm hk _ ih =>
    have hnext := ht.next?_of_shift hm
    obtain ⟨j, hj⟩ := List.exists_mem_of_ne_nil _
      (Grammar.kernel_ne_nil (Grammar.lt_of_next? ht.wellFormed hnext).2)
    obtain ⟨i, hi, hs, -⟩ := Grammar.exists_of_next? ht.wellFormed hnext hj
    obtain ⟨rest, hrest⟩ := List.head?_eq_some_iff.1 hs
    refine ⟨i, hi, Or.inl ⟨rest, ?_⟩⟩
    rw [hrest]

theorem Parses.next_lt (h : Parses s m ts) : (m.next s).kind.index < Kind.tokenCount := by
  have hcolumn {state : Nat} {k : Kind} (hne : (s.table.explicitAction state k).move ≠ .error) :
      k.index < Kind.tokenCount := by
    by_contra hout
    rw [Grammar.explicitAction_eq_error ht.build fun h => hout h.2] at hne
    exact hne rfl
  induction h with
  | accept ha => exact hcolumn (by rw [ha.2]; exact Move.noConfusion)
  | @reduce m m' p ts hr hm _ ih =>
    obtain ⟨_, _, _, -, -, rfl⟩ := reduce?_eq_some.1 hm
    exact ih
  | shift _ hm _ _ _ => exact hcolumn (by rw [hm]; exact Move.noConfusion)

/-- **What is accepted with default reductions is accepted by looking at every token**, if default
reductions pass over no cell that has been settled as an error. -/
theorem Parses.watchful (h : Parses s m ts) (hpath : g.Path m.states read)
    (hbarred : ∀ state p, s.table.default? state = some p → ∀ k ∈ Kind.tokens,
      (g.cell state k).barred = false) : Parses (watchful s) m ts := by
  induction h generalizing read with
  | accept ha => exact .accept (accepting_watchful.2 ha.2)
  | @reduce m m' p ts hr hm hparses ih =>
    have hpath' := path_reduced (n := 0) ht hpath hr (by rw [look_zero]; exact hm)
    refine .reduce ?_ hm (ih hpath')
    obtain ⟨item, hc, -, hvalid⟩ :=
      exists_validAt_of_reduce ht hpath hr hm (hparses.awaitsNext ht hpath')
    have hk : (m.next s).kind.index < Kind.tokenCount :=
      (Parses.reduce hr hm hparses).next_lt ht
    have hmove : (s.table.explicitAction m.top.state (m.next s).kind).move = .reduce p := by
      unfold reduction? at hr
      split at hr
      · next q hd =>
        cases hr
        exact Grammar.move_of_default_of_follows ht.wellFormed ht.build ht.indexed.actions hd hk
          (hbarred _ _ hd _ (Grammar.mem_tokens_iff.2 hk)) hc.inState hc.remaining
          (hvalid.follows ht.wellFormed)
      · split at hr
        · next q hmove =>
          cases hr
          exact hmove
        · cases hr
    rw [reduction?_watchful, hmove]
  | @shift m target ts _ hm hk _ ih =>
    refine .shift (s.table.default?_withoutDefaults _) ?_ hk (ih (path_shift ht hpath hm))
    rw [explicitAction_watchful]
    exact hm

end

end Machine

namespace Parser

open Machine

variable {g : Grammar} {t : ParseTable}

/-- A parse from scratch finishes without a diagnostic, with given trees below the root. -/
def FinishesQuietly (p : Parser) (text : String) (ts : List Tree) : Prop :=
  ∃ fuel out, (p.fresh text).machine.run (p.fresh text).setup fuel = some out ∧
    out.errors = [] ∧ out.children = ts

/-- A parse from scratch finishes without a diagnostic exactly if shifts and reductions lead it to
acceptance. -/
theorem finishesQuietly_iff (p : Parser) (hacc : p.table.AcceptsAtEof) (text : String)
    (ts : List Tree) :
    p.FinishesQuietly text ts ↔ Parses (p.fresh text).setup (p.fresh text).machine ts := by
  constructor
  · rintro ⟨fuel, out, hrun, hquiet, rfl⟩
    refine parses_of_run rfl hacc rfl (Or.inr ?_) hrun hquiet
    exact Lookahead.ends_group rfl fun t ht he => Lexer.tokens_kind _ t ht (Or.inl he)
  · exact fun h => h.run rfl rfl

/-- **A parse by looking at every token that finishes without a diagnostic does so with default
reductions, with the same tree. The other way round this holds if no state that reduces by default
has a cell that precedence has settled as an error.** -/
theorem defaults_agree (ht : g.HasTable t) (options : ParseOptions) (text : String)
    (ts : List Tree) :
    (FinishesQuietly ⟨t.withoutDefaults, options⟩ text ts → FinishesQuietly ⟨t, options⟩ text ts) ∧
      ((∀ state p, t.default? state = some p → ∀ k ∈ Kind.tokens,
        (g.cell state k).barred = false) →
        (FinishesQuietly ⟨t, options⟩ text ts ↔
          FinishesQuietly ⟨t.withoutDefaults, options⟩ text ts)) := by
  have hacc : t.AcceptsAtEof :=
    Grammar.acceptsAtEof_of_build ht.wellFormed ht.build ht.indexed.actions
  have hiff := finishesQuietly_iff ⟨t, options⟩ hacc text ts
  have hacc' : t.withoutDefaults.AcceptsAtEof := fun state k h =>
    hacc state k (t.explicitAction_withoutDefaults state k ▸ h)
  have hiff' := finishesQuietly_iff ⟨t.withoutDefaults, options⟩ hacc' text ts
  have hof : FinishesQuietly ⟨t.withoutDefaults, options⟩ text ts →
      FinishesQuietly ⟨t, options⟩ text ts := fun h =>
    hiff.2 ((hiff'.1 h).of_watchful (s := (fresh ⟨t, options⟩ text).setup) ht.build
      ht.indexed.actions)
  refine ⟨hof, fun hbarred => ⟨fun h => hiff'.2 ?_, hof⟩⟩
  exact (hiff.1 h).watchful (s := (fresh ⟨t, options⟩ text).setup) ht .start hbarred

/-- The assembly language has no level that does not group. -/
theorem defaults_agree_lines : ∃ g t, ParseTable.build g = .ok t ∧ ∀ text ts,
    FinishesQuietly ⟨t, {}⟩ text ts ↔ FinishesQuietly ⟨t.withoutDefaults, {}⟩ text ts := by
  obtain ⟨g, t, w, h⟩ := Assembly.exists_shipped
  refine ⟨g, t, h.build, fun text ts => ?_⟩
  refine (defaults_agree h.hasTable {} text ts).2 fun state _ _ k _ => ?_
  refine Grammar.barred_eq_false ?_ state k
  rw [(RuleSet.declared_of_toGrammar h.grammar).1]
  decide

end Parser

end AsmTree
