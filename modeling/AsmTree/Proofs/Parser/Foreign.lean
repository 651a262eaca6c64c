import AsmTree.Proofs.Parser.Exact
import AsmTree.Proofs.Parser.Sessions

/-!
# Trees of other languages

All tables that are built carry one version, so the check of an edit does not tell the tree of
another language from one of the parser's own, and its lines are taken over where they can be. **Main
statement (`parse_foreign`):** what that check depends on, and when a parse with such a tree is
nevertheless a parse from scratch: nothing of the tree is used, or it is a tree that the parser's own
language makes.
-/

namespace AsmTree

theorem ParseTable.ofGrammar_eq_ok {g : Grammar} {t : ParseTable} :
    ofGrammar g = .ok t ↔ build g = .ok t := by
  unfold ofGrammar
  cases build g with
  | error error => exact ⟨fun h => (by cases h), fun h => (by cases h)⟩
  | ok table => exact ⟨fun h => (by cases h; rfl), fun h => (by cases h; rfl)⟩

/-- Every recorded line end of a tree lies within the part of the text that the edit replaces. -/
def InputEdit.Covers (e : InputEdit) (old : SyntaxTree) : Prop :=
  ∀ c ∈ old.checkpoints, e.start < c.offset ∧ c.offset < e.oldEnd

namespace Machine

variable {s : Setup} {m m' : Machine}

/-! ## Tables without a state behind lines -/

theorem atLineEnd_of_resumeState (h : s.table.resumeState = none) (m : Machine) :
    m.atLineEnd s = false := by
  simp [atLineEnd, h]

theorem markLine_of_resumeState (h : s.table.resumeState = none) (m : Machine) :
    m.markLine s = .running m := by
  rw [markLine, if_neg (by rw [atLineEnd_of_resumeState h]; exact Bool.false_ne_true)]

theorem skipTokens_checkpoints (n : Nat) (m : Machine) (backward : List Tree) :
    (skipTokens s n m backward).1.checkpoints = m.checkpoints := by
  induction n generalizing m backward with
  | zero => rfl
  | succ n ih =>
    rw [skipTokens, ih]
    rfl

/-- What a machine that goes on, or a result, holds of recorded line ends. -/
def Outcome.checkpoints : Outcome → List Checkpoint
  | .running m => m.checkpoints.toList
  | .done o => o.checkpoints

theorem checkpoints_abandon (hm : m.checkpoints = #[]) : (m.abandon s).checkpoints = [] := by
  unfold abandon
  dsimp only
  rw [output, dropCheckpoints, skipTokens_checkpoints, hm]
  rfl

theorem checkpoints_resynchronize (hm : m.checkpoints = #[]) (r : Resync) :
    (m.resynchronize s r).checkpoints = #[] := by
  unfold resynchronize
  split
  · exact hm
  · dsimp only
    rw [dropCheckpoints, skipTokens_checkpoints, hm]
    rfl

/-- Without a state behind lines no step records one. -/
theorem checkpoints_step (h : s.table.resumeState = none) (hm : m.checkpoints = #[]) :
    (m.step s).checkpoints = [] := by
  have heffect := step_effect s m
  generalize m.step s = o at heffect ⊢
  have hnil : m.checkpoints.toList = [] := by rw [hm]
  cases heffect with
  | reduce _ _ hr =>
    obtain ⟨base, rest, state, -, -, rfl⟩ := reduce?_eq_some.1 hr
    rw [markLine_of_resumeState h]
    exact hnil
  | shift _ _ =>
    rw [markLine_of_resumeState h]
    exact hnil
  | recover _ _ hr =>
    obtain ⟨r, base, rest, n, -, -, -, rfl⟩ := recover?_eq_some hr
    rw [markLine_of_resumeState h, Outcome.checkpoints, checkpoints_resynchronize]
    rw [look_checkpoints, report_checkpoints, look_checkpoints, hm]
  | stuck _ _ => exact checkpoints_abandon hm
  | accept _ _ => exact hnil
  | abandon _ _ _ =>
    refine checkpoints_abandon ?_
    rw [report_checkpoints, look_checkpoints, hm]

theorem checkpoints_run (h : s.table.resumeState = none) {fuel : Nat} {out : Output}
    (hm : m.checkpoints = #[]) (hrun : m.run s fuel = some out) : out.checkpoints = [] := by
  induction fuel generalizing m with
  | zero => cases hrun
  | succ fuel ih =>
    have hstep := checkpoints_step h hm
    cases ho : m.step s with
    | running m' =>
      rw [run_succ_of_running ho] at hrun
      rw [ho] at hstep
      exact ih (Array.toList_eq_nil_iff.1 hstep) hrun
    | done o =>
      rw [run_succ_of_done ho] at hrun
      cases hrun
      rw [ho] at hstep
      exact hstep

end Machine

/-! ## Edits that cover all recorded line ends -/

theorem InputEdit.Covers.resumePoint? {e : InputEdit} {old : SyntaxTree} (h : e.Covers old) :
    old.resumePoint? e.start = none := by
  refine Option.eq_none_iff_forall_ne_some.2 fun point hpoint => ?_
  obtain ⟨before, c, after, hsplit, hle, -⟩ := SyntaxTree.resumePoint?_eq_some hpoint
  have hlt := (h c (by rw [hsplit]; exact List.mem_append_right _ List.mem_cons_self)).1
  omega

theorem InputEdit.Covers.tail? {e : InputEdit} {old : SyntaxTree} (h : e.Covers old)
    (place : Checkpoint) : Splice.tail? ⟨old, e.delta, e.newEnd⟩ place = none := by
  refine Option.eq_none_iff_forall_ne_some.2 fun tail htail => ?_
  obtain ⟨hle, before, matched, after, hsplit, hoffset, -⟩ := Splice.tail?_eq_some htail
  have hlt := (h matched (by rw [hsplit]; exact List.mem_append_right _ List.mem_cons_self)).2
  -- a place behind the edit lies as far behind the end of what the edit replaces in the old text
  unfold shiftOffset InputEdit.delta at hoffset
  omega

namespace Parser

open Machine

variable {p : Parser} {t a b : ParseTable} {text text' : String} {old tree : SyntaxTree}
  {e : InputEdit} {options : ParseOptions}

/-! ## Trees of a language -/

/-- Trees that a language makes of a text: from scratch, or with one that it made of the text before
an edit. -/
inductive Makes (t : ParseTable) : String → SyntaxTree → Prop
  | scratch {options : ParseOptions} {text : String} {tree : SyntaxTree} :
    parse ⟨t, options⟩ text none = .ok tree → Makes t text tree
  | edited {options : ParseOptions} {text text' : String} {old tree : SyntaxTree} {e : InputEdit}
      {before removed inserted behind : List Char} :
    Makes t text old → e.Replaces text text' before removed inserted behind →
    parse ⟨t, options⟩ text' (some (old, e)) = .ok tree → Makes t text' tree

theorem run_of_parse {earlier : Option (SyntaxTree × InputEdit)}
    (h : p.parse text earlier = .ok tree) : ∃ out, (p.start text earlier).run = some out ∧
      tree.checkpoints = out.checkpoints ∧ tree.grammarVersion = p.table.grammarVersion := by
  unfold parse at h
  split at h
  · next out hrun =>
    cases h
    exact ⟨out, hrun, rfl, rfl⟩
  · cases h

theorem Makes.exists_parse (h : Makes t text tree) : ∃ options earlier,
    parse ⟨t, options⟩ text earlier = .ok tree := by
  cases h with
  | scratch hparse => exact ⟨_, _, hparse⟩
  | edited _ _ hparse => exact ⟨_, _, hparse⟩

theorem Makes.grammarVersion (h : Makes t text tree) : tree.grammarVersion = t.grammarVersion := by
  obtain ⟨options, earlier, hparse⟩ := h.exists_parse
  obtain ⟨out, -, -, hversion⟩ := run_of_parse hparse
  exact hversion

/-- Without a state behind lines every parse begins without recorded line ends. -/
theorem start_of_resumeState (h : p.table.resumeState = none) (text : String)
    (earlier : Option (SyntaxTree × InputEdit)) :
    (p.start text earlier).setup.table = p.table ∧
      (p.start text earlier).machine.checkpoints = #[] := by
  unfold start
  split
  · split
    · unfold incremental
      rw [h]
      split
      · cases SyntaxTree.resumePoint? _ _ <;> exact ⟨rfl, rfl⟩
      · exact ⟨rfl, rfl⟩
    · exact ⟨rfl, rfl⟩
  · exact ⟨rfl, rfl⟩

/-- **A language without a state behind lines records no line ends.** -/
theorem Makes.checkpoints (h : Makes t text tree) (hstate : t.resumeState = none) :
    tree.checkpoints = [] := by
  obtain ⟨options, earlier, hparse⟩ := h.exists_parse
  obtain ⟨out, hrun, hcheckpoints, -⟩ := run_of_parse hparse
  obtain ⟨htable, hstart⟩ := start_of_resumeState (p := ⟨t, options⟩) hstate text earlier
  rw [hcheckpoints]
  exact checkpoints_run (by rw [htable]; exact hstate) hstart hrun

theorem Makes.of_shipped {g : Grammar} {w : Nat → Nat} (hshipped : Assembly.Shipped g t w)
    (h : Makes t text tree) : ∃ options, parse ⟨t, options⟩ text none = .ok tree := by
  induction h with
  | scratch hparse => exact ⟨_, hparse⟩
  | @edited options text text' old tree e before removed inserted behind _ hedit hparse ih =>
    obtain ⟨earlier, hold⟩ := ih
    exact ⟨options, by rw [← hparse, parse_some (p := ⟨t, options⟩) hshipped hold hedit]⟩

theorem Makes.leaves {g : Grammar} {w : Nat → Nat} (hshipped : Assembly.Shipped g t w)
    (h : Makes t text tree) : tree.root.leaves = (tokenize text).map Token.leaf := by
  obtain ⟨options, hparse⟩ := h.of_shipped hshipped
  obtain ⟨out, hrun⟩ := exists_run (p := ⟨t, options⟩) hshipped text
  obtain rfl := Except.ok.inj ((parse_of_run hrun).symm.trans hparse)
  exact leaves_of_run ⟨t, options⟩ hshipped.eofOnly text hrun

/-! ## Parses that use nothing of a tree -/

/-- Where a parse can neither go on from a line of the old tree nor take lines of it over, it is one
from scratch, finished or not. -/
theorem run_of_unused (hresume : old.resumePoint? e.start = none ∨ p.table.resumeState = none)
    (hnever : ∀ m tail, ¬TakesOver (p.fresh text).setup ⟨old, e.delta, e.newEnd⟩ m tail) :
    (p.incremental text old e).run = (p.fresh text).run := by
  unfold incremental
  split
  · dsimp only
    split
    · next point state hpoint hstate =>
      rcases hresume with h | h
      · rw [h] at hpoint
        cases hpoint
      · rw [h] at hstate
        cases hstate
    · exact run_spliced_of_never rfl hnever _ _
  · rfl

/-- When what a tree of the language `a` holds does no harm to a parse with the language `b`. -/
inductive Harmless (a b : ParseTable) (options : ParseOptions) (text text' : String)
    (old : SyntaxTree) (e : InputEdit) : Prop
  /-- No old trees are used. -/
  | whole : options.incremental = false → Harmless a b options text text' old e
  /-- No line ends are recorded. -/
  | unrecorded : options.recordCheckpoints = false → Harmless a b options text text' old e
  /-- The tree does not pass the check of the edit. -/
  | rejected : e.fault? old text' b options ≠ none → Harmless a b options text text' old e
  /-- The language has no state behind lines. -/
  | lineless : b.resumeState = none → Harmless a b options text text' old e
  /-- The language of the tree has none. -/
  | foreignLineless : a.resumeState = none → Harmless a b options text text' old e
  /-- Every line end that the tree records lies within the edit. -/
  | covered : e.Covers old → Harmless a b options text text' old e
  /-- The language is the assembly language, and the tree is one that it makes of the old text. -/
  | own {before removed inserted behind : List Char} : Assembly.table = .ok b →
    Makes b text old → e.Replaces text text' before removed inserted behind →
    Harmless a b options text text' old e

theorem run_of_covers (h : e.Covers old) :
    (p.incremental text old e).run = (p.fresh text).run := by
  refine run_of_unused (Or.inl h.resumePoint?) fun m tail htakes => ?_
  have htail := htakes.2
  rw [h.tail?] at htail
  cases htail

theorem run_of_resumeState (h : p.table.resumeState = none) :
    (p.incremental text old e).run = (p.fresh text).run := by
  refine run_of_unused (Or.inr h) fun m tail htakes => ?_
  have hend := htakes.1
  rw [atLineEnd_of_resumeState h] at hend
  cases hend

/-- A tree that does no harm does not change the result. -/
theorem run_of_harmless (hold : Makes a text old) (h : Harmless a b options text text' old e) :
    (start ⟨b, options⟩ text' (some (old, e))).run = (fresh ⟨b, options⟩ text').run := by
  cases h with
  | whole h =>
    refine run_start fun hincremental _ => ?_
    rw [h] at hincremental
    cases hincremental
  | unrecorded h =>
    refine run_start fun _ _ => ?_
    unfold incremental
    rw [h]
    rfl
  | rejected h => exact run_start fun _ hnone => absurd hnone h
  | lineless h => exact run_start fun _ _ => run_of_resumeState h
  | foreignLineless h =>
    -- no line end is recorded, so each lies within the edit
    refine run_start fun _ _ => run_of_covers fun c hc => ?_
    rw [hold.checkpoints h] at hc
    cases hc
  | covered h => exact run_start fun _ _ => run_of_covers h
  | own htable hmakes hedit =>
    obtain ⟨g, t, w, hshipped⟩ := Assembly.exists_shipped
    obtain rfl : t = b := Except.ok.inj (hshipped.table.symm.trans htable)
    obtain ⟨earlier, hscratch⟩ := hmakes.of_shipped hshipped
    exact run_some hshipped hscratch hedit

/-- **The check of an edit does not tell languages apart. A parse with the tree of another language
is one from scratch where that tree does no harm.** -/
theorem parse_foreign {gA gB : Grammar} (ha : ParseTable.ofGrammar gA = .ok a)
    (hb : ParseTable.ofGrammar gB = .ok b) (hold : Makes a text old) (options : ParseOptions)
    (text' : String) (e : InputEdit) :
    (e.fault? old text' b options = none ↔ old.recoveryLimit = options.recoveryLimit ∧
      (e.start ≤ e.oldEnd ∧ e.oldEnd ≤ old.length) ∧ e.start ≤ e.newEnd ∧
        text'.utf8ByteSize = e.expectedLength old.length) ∧
    (Harmless a b options text text' old e →
      parse ⟨b, options⟩ text' (some (old, e)) = parse ⟨b, options⟩ text' none) := by
  rw [ParseTable.ofGrammar_eq_ok] at ha hb
  refine ⟨?_, fun h => ?_⟩
  · rw [InputEdit.fault?_eq_none, hold.grammarVersion, Grammar.grammarVersion_eq ha,
      Grammar.grammarVersion_eq hb]
    exact and_iff_right rfl
  · unfold parse
    rw [run_of_harmless hold h]
    rfl

/-- A tree of the assembly language, given to a parser for nested lists. -/
theorem parse_foreign_tuples : ∃ gA gB a b old, Assembly.grammar = .ok gA ∧
    RuleSet.tuples.toGrammar = .ok gB ∧ ParseTable.ofGrammar gA = .ok a ∧
    ParseTable.ofGrammar gB = .ok b ∧ Makes a "nop\n" old ∧ b.resumeState = none ∧
    parse ⟨b, {}⟩ "nop\n()" (some (old, .insert "nop\n" 4 "()")) =
      parse ⟨b, {}⟩ "nop\n()" none := by
  have hcheck : (RuleSet.tuples.toGrammar.toOption.any fun g =>
      g.tabulates 4 100 && g.resumePoint.isNone) = true := by
    decide +kernel
  cases hg : RuleSet.tuples.toGrammar with
  | error error =>
    rw [hg] at hcheck
    cases hcheck
  | ok gB =>
    rw [hg] at hcheck
    simp only [Except.toOption, Option.any_some, Bool.and_eq_true,
      Option.isNone_iff_eq_none] at hcheck
    obtain ⟨htabulates, hpoint⟩ := hcheck
    obtain ⟨b, hb⟩ := Grammar.exists_hasTable hg htabulates
    have hstate : b.resumeState = none := by
      rw [Grammar.resumeState_eq hb.build, hpoint]
      rfl
    obtain ⟨gA, a, w, hshipped⟩ := Assembly.exists_shipped
    obtain ⟨out, hrun⟩ := exists_run (p := ⟨a, {}⟩) hshipped "nop\n"
    have hold : Makes a "nop\n" _ := .scratch (parse_of_run hrun)
    have ha := ParseTable.ofGrammar_eq_ok.2 hshipped.build
    have hofb := ParseTable.ofGrammar_eq_ok.2 hb.build
    exact ⟨gA, gB, a, b, _, hshipped.grammar, rfl, ha, hofb, hold, hstate,
      (parse_foreign ha hofb hold {} "nop\n()" _).2 (.lineless hstate)⟩

end Parser

end AsmTree
