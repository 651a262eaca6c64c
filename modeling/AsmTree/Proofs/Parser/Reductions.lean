import AsmTree.Proofs.Machine.Reports
import AsmTree.Proofs.Parser.Totality

/-!
# Reductions succeed

**Main statement (`reductions_succeed`):** in every machine that a parse from scratch passes the
states of the stack are a path of the automaton from the first state, whatever has been recovered on
the way. So a reduction finds all its frames and a state for its nonterminal, and no parse reports
that the table is incomplete.
-/

namespace AsmTree

namespace Machine

variable {g : Grammar} {s : Setup} {m m' : Machine} {read : List Symbol} {out : Output}
  {fuel : Nat}

theorem path_of_reaches (ht : g.HasTable s.table) (hs : s.splice = none)
    (h : g.Path m.states read) (hreach : Reaches s m m') : ∃ read', g.Path m'.states read' := by
  refine hreach.keeps (P := fun m => ∃ read, g.Path m.states read) ⟨read, h⟩ ?_
  rintro m₁ m₂ ⟨read₁, hpath⟩ hstep
  exact path_of_effect ht hs hpath (hstep ▸ step_effect s m₁)

theorem reduces_of_path (ht : g.HasTable s.table) (h : g.Path m.states read) {p : Nat}
    (hr : m.reduction? s = some p) (n : Nat) :
    (s.table.production p).length < m.frames.length ∧ ∃ m', (m.look n).reduce? s p = some m' := by
  obtain ⟨base, rest, target, hdrop, -, -, -, hreduce⟩ := reduce?_of_path ht h hr
  obtain ⟨base', rest', state, hdrop', -, -⟩ := reduce?_eq_some.1 (hreduce n)
  refine ⟨?_, _, hreduce n⟩
  by_contra hle
  rw [look_frames, List.drop_eq_nil_of_le (Nat.le_of_not_lt hle)] at hdrop'
  cases hdrop'

theorem not_stuck_of_path (ht : g.HasTable s.table) (h : g.Path m.states read) :
    ¬ m.Stuck s := by
  rintro ⟨p, hr, n, hnone⟩
  obtain ⟨-, m', hsome⟩ := reduces_of_path ht h hr n
  rw [hnone] at hsome
  cases hsome

theorem says_of_reaches (ht : g.HasTable s.table) (hs : s.splice = none)
    (h : g.Path m.states read) (hreach : Reaches s m m') :
    Says m.errors.toList m'.errors.toList := by
  induction hreach with
  | refl => exact .refl _
  | @step m₁ m₂ hreach hstep ih =>
    obtain ⟨read₁, hpath⟩ := path_of_reaches ht hs h hreach
    have hsays := says_of_effect hs (step_effect s m₁) (not_stuck_of_path ht hpath)
    rw [hstep] at hsays
    exact ih.trans hsays

theorem says_of_run (ht : g.HasTable s.table) (hs : s.splice = none) (h : g.Path m.states read)
    (hrun : m.run s fuel = some out) : Says m.errors.toList out.errors := by
  obtain ⟨m', hreach, hdone⟩ := reaches_of_run hrun
  obtain ⟨read', hpath⟩ := path_of_reaches ht hs h hreach
  have hsays := says_of_effect hs (step_effect s m') (not_stuck_of_path ht hpath)
  rw [hdone] at hsays
  exact (says_of_reaches ht hs h hreach).trans hsays

end Machine

namespace Parser

open Machine

variable {g : Grammar} {t : ParseTable}

/-- **The stack of a parse from scratch is a path of the automaton from the first state, so no
reduction fails**, if every number of the grammar fits where the table keeps it. -/
theorem reductions_succeed (ht : g.HasTable t) (options : ParseOptions) (text : String) :
    let start := fresh ⟨t, options⟩ text
    (∀ m, Reaches start.setup start.machine m →
      (∃ read, g.Path m.states read) ∧
      (∀ p, m.reduction? start.setup = some p → (t.production p).length < m.frames.length ∧
        ∀ n, ∃ m', (m.look n).reduce? start.setup p = some m') ∧
      ∀ d ∈ m.errors, d.code ≠ .internal) ∧
    ∀ fuel out, start.machine.run start.setup fuel = some out →
      ∀ d ∈ out.errors, d.code ≠ .internal := by
  have hstart : g.Path (fresh ⟨t, options⟩ text).machine.states [] := .start
  refine ⟨fun m hreach => ?_, fun fuel out hrun d hd => ?_⟩
  · obtain ⟨read, hpath⟩ := path_of_reaches ht rfl hstart hreach
    refine ⟨⟨read, hpath⟩, fun p hr => ?_, fun d hd => ?_⟩
    · exact ⟨(reduces_of_path ht hpath hr 0).1, fun n => (reduces_of_path ht hpath hr n).2⟩
    · rcases (says_of_reaches ht rfl hstart hreach).mem (Array.mem_toList_iff.2 hd) with hd | hd
      · cases hd
      · exact hd.code_ne
  · rcases (says_of_run ht rfl hstart hrun).mem hd with hd | hd
    · cases hd
    · exact hd.code_ne

/-- A parse with a recovered region. -/
theorem reductions_succeed_lines : ∃ g t out, ParseTable.build g = .ok t ∧
    (fresh ⟨t, {}⟩ "nop\n) )\n").run = some out ∧ ∀ d ∈ out.errors, d.code ≠ .internal := by
  obtain ⟨g, t, w, h⟩ := Assembly.exists_shipped
  obtain ⟨m, -, -, hrun⟩ := run_fresh (p := ⟨t, {}⟩) h "nop\n) )\n"
  exact ⟨g, t, _, h.build, hrun,
    (reductions_succeed h.hasTable {} "nop\n) )\n").2 _ _ hrun⟩

end Parser

end AsmTree
