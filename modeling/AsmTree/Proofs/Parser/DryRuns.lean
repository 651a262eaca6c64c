import AsmTree.Proofs.Machine.Splices
import AsmTree.Proofs.Machine.Standing
import AsmTree.Proofs.Machine.Takes
import AsmTree.Proofs.Parser.Reductions

/-!
# Dry runs of recovery

**Main statement (`dry_run_agrees`):** in every machine that a parse passes, from scratch or with an
earlier tree, and for every frame that can take a recovered region: if the dry run of a token behind
that region has an answer, the machine that goes on there does what the answer says. If it is yes,
the machine reduces until it shifts the token or accepts. If it is no, the machine comes to an error
before that, or to a reduction that fails, and the latter only if some number of the grammar does
not fit where the table keeps it.
-/

namespace AsmTree

namespace Machine

variable {g : Grammar} {s : Setup} {m m' : Machine} {read : List Symbol}

theorem ReducesTo.reaches (h : ReducesTo s m m') : Reaches s m m' := by
  induction h with
  | refl => exact .refl
  | step _ _ hstep ih => exact ih.step hstep

theorem not_sticks_of_path (ht : g.HasTable s.table) (h : g.Path m.states read) :
    ¬ m.Sticks s := by
  rintro ⟨m', hto, hstuck⟩
  obtain ⟨read', hpath⟩ := path_of_reaches (s := { s with splice := none }) ht rfl h
    hto.reaches.unspliced
  exact not_stuck_of_path ht hpath hstuck

end Machine

namespace Parser

open Machine

variable {g : Grammar} {t : ParseTable}

@[simp] theorem table_start (p : Parser) (text : String) (old : Option (SyntaxTree × InputEdit)) :
    (p.start text old).setup.table = p.table := by
  unfold start incremental
  split
  · split
    · split
      · split <;> rfl
      · rfl
    · rfl
  · rfl

/-- A parse begins with a stack that is a path and the end of the text ahead, also behind the lines
of an earlier tree. -/
theorem exists_live_start (hbuild : ParseTable.build g = .ok t) (options : ParseOptions)
    (text : String) (old : Option (SyntaxTree × InputEdit)) :
    ∃ read, Live g ((Parser.mk t options).start text old).machine read := by
  unfold start incremental
  split
  · split
    · split
      · split
        · next point state _ hstate =>
          rw [show (Parser.mk t options).table.resumeState = _ from
            Grammar.resumeState_eq hbuild] at hstate
          obtain ⟨id, -, hm⟩ := Option.bind_eq_some_iff.1 hstate
          exact ⟨_, .move .start hm, ends_lookaheads _ _⟩
        · exact ⟨_, .start, ends_lookaheads _ _⟩
      · exact ⟨_, .start, ends_lookaheads _ _⟩
    · exact ⟨_, .start, ends_lookaheads _ _⟩
  · exact ⟨_, .start, ends_lookaheads _ _⟩

/-- **A dry run of recovery agrees with the real run.** `m₁` is the machine with whatever has been
reported and looked at since, the token behind those to be skipped included. -/
theorem dry_run_agrees (hg : g.WellFormed) (hbuild : ParseTable.build g = .ok t)
    (options : ParseOptions) (text : String) (old : Option (SyntaxTree × InputEdit)) :
    let start := (Parser.mk t options).start text old
    ∀ m, Reaches start.setup start.machine m →
    ∀ above base rest landed, m.frames.drop above = base :: rest →
      (t.explicitAction base.state .error).move = .shift landed →
    ∀ k fuel answer, dryRun t k fuel ⟨[landed], base :: rest⟩ = some answer →
      viable t (landed :: (base :: rest).map Frame.state) k = answer ∧
      ∀ m₁ : Machine, m₁.frames = m.frames → ∀ skip < m₁.seen,
        let m' := m₁.resynchronize start.setup ⟨above, landed, skip⟩
        (m'.next start.setup).kind = k →
          (answer = true ↔ m'.Takes start.setup) ∧
          (answer = false → m'.Rejects start.setup ∨ m'.Sticks start.setup) ∧
          (g.Fits → t.Indexed → answer = false → m'.Rejects start.setup) := by
  intro start m hreach above base rest landed hdrop hmove k fuel answer hdry
  have ht : t.Numbered := ParseTable.numbered_of_build hg hbuild
  have htable : start.setup.table = t := table_start _ _ _
  obtain ⟨⟨n, hreduces⟩, hanswer⟩ := dryRun_eq_some.1 ⟨fuel, hdry⟩
  refine ⟨Bool.eq_iff_iff.2 ((viable_iff_canFollow ht hreduces).trans hanswer.symm),
    fun m₁ hframes skip hskip => ?_⟩
  intro m' hk
  have hdrop₁ : m₁.frames.drop above = base :: rest := by rw [hframes, hdrop]
  have hstates : m'.states = landed :: (base :: rest).map Frame.state :=
    states_resynchronize (r := ⟨above, landed, skip⟩) hdrop₁
  have hseen : m'.seen ≠ 0 := by
    rw [seen_resynchronize (r := ⟨above, landed, skip⟩) hdrop₁]
    exact Nat.sub_ne_zero_of_lt hskip
  have hcan : answer = true ↔
      CanFollow start.setup.table m'.states (m'.next start.setup).kind := by
    rw [htable, hk, hstates]
    exact hanswer
  have hreduces' : start.setup.table.Reduces (m'.next start.setup).kind n m'.states := by
    rw [htable, hk, hstates]
    exact hreduces
  have ht' : start.setup.table.Numbered := htable.symm ▸ ht
  have hrejects (hno : answer = false) : m'.Rejects start.setup ∨ m'.Sticks start.setup :=
    rejects_or_sticks ht' hseen hreduces' (hcan.not.1 (by simp [hno]))
  refine ⟨hcan.trans (takes_iff ht' hseen hreduces').symm, hrejects, fun hfits hindexed hno => ?_⟩
  have hhas : g.HasTable start.setup.table := by
    rw [htable]
    exact ⟨hg, hfits, hbuild, hindexed⟩
  obtain ⟨read₀, hstart⟩ := exists_live_start hbuild options text old
  obtain ⟨read, hpath⟩ := path_of_reaches (s := { start.setup with splice := none }) hhas rfl
    hstart.path hreach.unspliced
  have hpath' := path_resynchronize (s := start.setup) (m := m₁) (r := ⟨above, landed, skip⟩)
    hhas (by rw [states, hframes]; exact hpath) hdrop₁ (by rw [htable]; exact hmove)
  exact (hrejects hno).resolve_right (not_sticks_of_path hhas hpath')

theorem not_canFollow_unknown {w : Nat → Nat} (h : Assembly.Shipped g t w) (states : List Nat) :
    ¬ CanFollow t states .unknown :=
  not_canFollow (Grammar.move_ne_shift h.wellFormed h.build h.indexed.actions
    (Assembly.unknown_not_mem_rhs h.grammar))
    (fun state hm => Kind.noConfusion (h.eofOnly.accept state .unknown hm)) states

/-- A machine at the start of a text, in front of a token. -/
def inFrontOf (token : Token) : Machine where
  top := ⟨ParseTable.startState, [], 0⟩
  below := []
  seen := 1
  input := [⟨[], token⟩]

/-- Behind a recovered region at the start of a text the end of a line can follow, and an unreadable
token cannot. -/
theorem dry_run_agrees_line : ∃ g t landed, ParseTable.build g = .ok t ∧
    let s := (fresh ⟨t, {}⟩ "\n").setup
    let r : Resync := ⟨0, landed, 0⟩
    ∃ fuel fuel', dryRun t .newline fuel ⟨[landed], [⟨0, [], 0⟩]⟩ = some true ∧
      ((inFrontOf ⟨.newline, "\n", 0, .origin⟩).resynchronize s r).Takes s ∧
      dryRun t .unknown fuel' ⟨[landed], [⟨0, [], 0⟩]⟩ = some false ∧
      ((inFrontOf ⟨.unknown, "?", 0, .origin⟩).resynchronize s r).Rejects s := by
  obtain ⟨g, t, w, h⟩ := Assembly.exists_shipped
  obtain ⟨state, rest, landed, hstate, hmove, hnewline, -⟩ :=
    lands_bottom (s := (fresh ⟨t, {}⟩ "\n").setup) h.hasTable h.lines h.weighted
  obtain ⟨rfl, rfl⟩ := List.cons.inj hstate
  have ht := ParseTable.numbered_of_build h.wellFormed h.build
  have hpath : g.Path [landed, 0] [.terminal .error] :=
    .move .start (h.hasTable.next?_of_shift hmove)
  have hanswer (k : Kind) (b : Bool) (hb : b = true ↔ CanFollow t [landed, 0] k) :
      ∃ fuel, dryRun t k fuel ⟨[landed], [⟨0, [], 0⟩]⟩ = some b := by
    obtain ⟨n, -, hreduces⟩ :=
      Grammar.exists_reduces_lt (k := k) h.hasTable h.lines h.weighted hpath
    exact dryRun_eq_some.2 ⟨⟨n, hreduces⟩, hb⟩
  obtain ⟨n, -, hreduces⟩ := Grammar.exists_reduces_lt (k := .newline) h.hasTable h.lines
    h.weighted hpath
  obtain ⟨fuel, hyes⟩ := hanswer .newline true
    (iff_of_true rfl ((viable_iff_canFollow ht hreduces).1 hnewline))
  obtain ⟨fuel', hno⟩ := hanswer .unknown false
    (iff_of_false Bool.false_ne_true (not_canFollow_unknown h _))
  have hagrees := dry_run_agrees h.wellFormed h.build {} "\n" none _ .refl 0 _ _ landed rfl hmove
  exact ⟨g, t, landed, h.build, fuel, fuel', hyes,
    ((hagrees .newline fuel true hyes).2 (inFrontOf _) rfl 0 Nat.zero_lt_one rfl).1.1 rfl, hno,
    ((hagrees .unknown fuel' false hno).2 (inFrontOf _) rfl 0 Nat.zero_lt_one rfl).2.2 h.fits
      h.indexed rfl⟩

end Parser

end AsmTree
