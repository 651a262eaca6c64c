import AsmTree.Proofs.Assembly.Blocks
import AsmTree.Proofs.Machine.Choices
import AsmTree.Proofs.Machine.OpenBlocks
import AsmTree.Proofs.Parser.DryRuns
import AsmTree.Proofs.Table.Defaults
import AsmTree.Proofs.Token.Partition

/-!
# Recovery of the assembly language

**Main statement (`exists_table_recovers`):** a machine that a parse of the assembly language passes
and that has no move recovers in the way that `Machine.Chosen` describes. The bottom frame is left
out as long as another one can take a region of skipped tokens (`exists_table_bottom_passed`).
-/

namespace AsmTree

open Machine Lookahead

namespace Parser

variable {g : Grammar} {t : ParseTable} {w : Nat → Nat}

theorem live_of_reaches (h : Assembly.Shipped g t w) (options : ParseOptions) (text : String)
    (old : Option (SyntaxTree × InputEdit)) {m : Machine}
    (hreach : Reaches ((Parser.mk t options).start text old).setup
      ((Parser.mk t options).start text old).machine m) : ∃ read, Live g m read := by
  have htable : ((Parser.mk t options).start text old).setup.table = t := table_start _ _ _
  obtain ⟨read, hlive⟩ := exists_live_start h.build options text old
  exact hlive.reaches (s := { ((Parser.mk t options).start text old).setup with splice := none })
    (by rw [htable]; exact h.hasTable) h.lines h.weighted rfl (by rw [htable]; exact h.eofOnly)
    hreach.unspliced

/-- **How a parse recovers.** A machine without a move finds a way to go on. It is that of the
innermost frame above the bottom that can go on, at the first token at which it can. If there is
none, the outermost frame above the bottom that can take a recovered region takes all that may be
skipped. If there is no such frame or nothing to skip, the bottom frame goes on, at the first token
at which it can, or else behind all that may be skipped. The error node holds what is given up and
what is skipped. -/
theorem exists_table_recovers : ∃ t, Assembly.table = .ok t ∧
    ∀ (options : ParseOptions) (text : String) (old : Option (SyntaxTree × InputEdit)),
      let start := (Parser.mk t options).start text old
      ∀ m, Reaches start.setup start.machine m → t.default? m.top.state = none →
        (t.explicitAction m.top.state (m.next start.setup).kind).move = .error →
        let told := (m.look 1).report start.setup
        ∃ m' r, m.step start.setup = m'.markLine start.setup ∧
          told.recover? start.setup = some m' ∧
          told.Chosen start.setup r ∧ told.Resumed start.setup r m' := by
  obtain ⟨g, t, w, h⟩ := Assembly.exists_shipped
  refine ⟨t, h.table, fun options text old => ?_⟩
  intro start m hreach hdefault hmove told
  have htable : start.setup.table = t := table_start _ _ _
  have ht : g.HasTable start.setup.table := by
    rw [htable]
    exact h.hasTable
  obtain ⟨read, hlive⟩ := live_of_reaches h options text old hreach
  have hlive' : Live g told read := hlive.congr (by simp [told]) (by simp [told])
  obtain ⟨m', hrecover⟩ := Option.isSome_iff_exists.1
    (recover?_isSome (s := start.setup) ht h.lines h.weighted hlive'.path)
  have hnumbered := ParseTable.numbered_of_build ht.wellFormed ht.build
  obtain ⟨r, hchosen, hresumed⟩ := chosen_of_recover hlive'.ends
    (fun q => goesOn_iff hnumbered ht h.lines h.weighted hlive'.path) hrecover
  refine ⟨m', r, ?_, hrecover, hchosen, hresumed⟩
  have htold : ((m.look 1).report start.setup).recover? start.setup = some m' := hrecover
  rw [step_of_error (by rw [htable]; exact hdefault) (by rw [htable]; exact hmove), htold]

/-! ## The bottom frame -/

/-- A text may begin with `macro`, and a recovered region may stand behind it. -/
theorem exists_next?_macroWord (h : Assembly.Shipped g t w) : ∃ target landed,
    (t.explicitAction 0 .macroKw).move = .shift target ∧
      (t.explicitAction target .error).move = .shift landed := by
  have hg := h.wellFormed
  have ht := h.hasTable
  obtain ⟨statement, block, rest, hline, hstatement, hblock, hprecedence⟩ :=
    Assembly.exists_macroWord h.grammar
  obtain ⟨p, -, hin, hr⟩ := (h.lines.lineStart_zero hg).closed
  -- what a line may be, and what that may be, begins where the line begins
  obtain ⟨p₁, hp₁, hlhs₁, hrhs₁⟩ := Grammar.exists_production hline
  obtain ⟨hin₁, hr₁, -⟩ := Grammar.inState_expand hg hin hr hp₁ hlhs₁
  obtain ⟨p₂, hp₂, hlhs₂, hrhs₂⟩ := Grammar.exists_production hstatement
  obtain ⟨hin₂, hr₂, -⟩ := Grammar.inState_expand hg hin₁ (hr₁.trans hrhs₁) hp₂ hlhs₂
  obtain ⟨p₃, hp₃, hlhs₃, hrhs₃⟩ := Grammar.exists_production hblock
  obtain ⟨hin₃, hr₃, -⟩ := Grammar.inState_expand hg hin₂ (hr₂.trans hrhs₂) hp₃ hlhs₃
  obtain ⟨target, hm⟩ := Grammar.exists_next? hg hin₃ (hr₃.trans hrhs₃)
  obtain ⟨hin', hr', -⟩ := Grammar.inState_of_next? hg hin₃ (hr₃.trans hrhs₃) hm
  obtain ⟨landed, hm'⟩ := Grammar.exists_next? hg hin' hr'
  have hmove {state target : Nat} {k : Kind} (hk : k.index < Kind.tokenCount)
      (hprecedence : g.tokenPrecedence? k = none)
      (hm : g.automaton.next? state (.terminal k) = some target) :
      (t.explicitAction state k).move = .shift target :=
    Grammar.move_of_next? hg ht.fits.productions ht.fits.states ht.build ht.indexed.actions hk
      hprecedence hm
  exact ⟨target, landed, hmove (by decide) hprecedence hm,
    hmove Grammar.error_index h.lines.precedence.2.2 hm'⟩

theorem tokenize_macroWord : tokenize "MACRO ?" = [⟨.macroKw, "MACRO", 0, .origin⟩,
    ⟨.whitespace, " ", 5, ⟨0, 5⟩⟩, ⟨.unknown, "?", 6, ⟨0, 6⟩⟩] := by
  rw [tokenize, Lexer.tokens_of_ne_nil (by decide), Lexer.tokens_of_ne_nil (by decide +kernel),
    Lexer.tokens_of_ne_nil (by decide +kernel), Lexer.tokens_of_nil (by decide +kernel)]
  decide +kernel

/-- What is ahead behind the word: the character with the blank in front, and the end. -/
def behindMacro : List Lookahead :=
  [⟨[⟨.whitespace, " ", 5, ⟨0, 5⟩⟩], ⟨.unknown, "?", 6, ⟨0, 6⟩⟩⟩,
    ⟨[], stopToken (.ofText "MACRO ?")⟩]

theorem input_macroWord (h : Assembly.Shipped g t w) (options : ParseOptions) :
    ((Parser.mk t options).start "MACRO ?" none).machine.input =
      ⟨[], ⟨.macroKw, "MACRO", 0, .origin⟩⟩ :: behindMacro := by
  have hextra (k : Kind) : t.isExtra k = Assembly.rules.extras.contains k := by
    rw [ParseTable.isExtra, Grammar.extras_eq h.build, (RuleSet.declared_of_toGrammar h.grammar).2]
  show group t.isExtra _ [] (tokenize "MACRO ?") = _
  rw [tokenize_macroWord]
  simp only [group, hextra]
  rfl

/-- The word is shifted. -/
theorem exists_reaches_macroWord (h : Assembly.Shipped g t w) (options : ParseOptions)
    {target : Nat} (hmove : (t.explicitAction 0 .macroKw).move = .shift target) :
    let start := (Parser.mk t options).start "MACRO ?" none
    ∃ m, Reaches start.setup start.machine m ∧ m.states = [target, 0] ∧ m.input = behindMacro := by
  intro start
  have hinput := input_macroWord h options
  have hnext : start.machine.next start.setup = ⟨.macroKw, "MACRO", 0, .origin⟩ :=
    next_of_input hinput
  have hstep : start.machine.step start.setup =
      ((start.machine.look 1).shift start.setup target).markLine start.setup :=
    step_of_shift (Grammar.default?_of_shift h.build h.indexed.actions hmove)
      (by rw [hnext]; exact hmove)
  rw [markLine_of_splice rfl] at hstep
  have hshift := shift_eq (s := start.setup) (m := start.machine.look 1) hinput target
  refine ⟨_, Reaches.refl.step hstep, ?_, ?_⟩
  · rw [states_mark, hshift]
    rfl
  · rw [mark_input, hshift]

theorem viable_unknown (h : Assembly.Shipped g t w) {states : List Nat} {read : List Symbol}
    (hpath : g.Path states read) : viable t states .unknown = false := by
  refine Bool.eq_false_iff.2 fun hv => ?_
  exact not_canFollow_unknown h states
    ((Grammar.viable_iff h.hasTable h.lines h.weighted hpath).1 hv)

/-- Nothing that is ahead can follow a recovered region behind the word. -/
theorem viable_behindMacro (h : Assembly.Shipped g t w) {target landed : Nat}
    (hopens : (t.explicitAction 0 .macroKw).move = .shift target)
    (herror : (t.explicitAction target .error).move = .shift landed) :
    ∀ l ∈ behindMacro, viable t [landed, target, 0] l.token.kind = false := by
  have ht := h.hasTable
  have hpath : g.Path [landed, target, 0] [.terminal .error, .terminal .macroKw] :=
    .move (.move .start (ht.next?_of_shift hopens))
      (ht.next?_of_shift herror)
  intro l hl
  obtain rfl | hl := List.mem_cons.1 hl
  · exact viable_unknown h hpath
  · obtain rfl := List.mem_singleton.1 hl
    refine Bool.eq_false_iff.2 fun hv => ?_
    refine Grammar.Opened.not_canFollow_eof (k := .macroKw) ht (Assembly.hasBlocks h.grammar)
      h.eofOnly rfl ⟨_, _, hpath, List.mem_cons_self, fun k' he => ?_⟩
      ((Grammar.viable_iff ht h.lines h.weighted hpath).1 hv)
    exact (Symbol.terminal.inj he).symm

section BehindMacro

variable {s : Setup} {m : Machine} {target landed bottom : Nat}
  (hlimit : 1 < s.options.recoveryLimit) (hstates : m.states = [target, 0])
  (hinput : m.input = behindMacro)

include hlimit hinput

theorem scanned_behindMacro : m.scanned s = behindMacro := by
  rw [scanned, hinput, List.take_of_length_le (Nat.le_trans hlimit (Nat.le_max_left _ _))]
  rfl

include hstates

theorem not_bottomAlone_macroWord
    (herror : (s.table.explicitAction target .error).move = .shift landed) :
    ¬ m.BottomAlone s := by
  rintro (hnone | hall)
  · rw [skippable, scanned_behindMacro hlimit hinput] at hnone
    cases hnone
  · have hstands : m.Stands s ⟨0, landed, 0⟩ := stands_iff.2 ⟨target, [0], hstates, herror⟩
    have hzero : 0 = m.below.length := hall _ hstands
    rw [← List.length_map Frame.state, (List.cons.inj hstates).2] at hzero
    cases hzero

/-- The bottom frame is the innermost one that can go on. -/
theorem first_macroWord (h : Assembly.Shipped g s.table w)
    (hopens : (s.table.explicitAction 0 .macroKw).move = .shift target)
    (hgo : ∀ q, m.GoesOn s q ↔ m.Looks s q)
    (hbottom : (s.table.explicitAction 0 .error).move = .shift bottom)
    (heof : viable s.table [bottom, 0] .eof = true) : m.First s ⟨1, bottom, 1⟩ := by
  have hdrop (n : Nat) : (m.frames.drop n).map Frame.state = [target, 0].drop n := by
    rw [List.map_drop, ← hstates, states]
  have hscanned := scanned_behindMacro hlimit hinput
  constructor
  · have hstands : m.Stands s ⟨1, bottom, 1⟩ := stands_iff.2 ⟨0, [], by rw [hstates]; rfl, hbottom⟩
    refine (hgo _).2 ⟨hstands, _, by rw [hscanned]; rfl, ?_⟩
    rw [hdrop]
    exact heof
  · intro q hq
    obtain ⟨hstands, l, hl, hv⟩ := (hgo q).1 hq
    obtain ⟨state, below, hbase, hmove⟩ := stands_iff.1 hstands
    rw [hscanned] at hl
    rw [hdrop] at hv
    rw [hstates] at hbase
    obtain ⟨above, landed', skip⟩ := q
    rcases above with _ | _ | n
    · -- nothing can follow behind the word
      obtain ⟨rfl, -⟩ := List.cons.inj hbase
      have hno := viable_behindMacro h hopens hmove l (List.mem_of_getElem? hl)
      exact absurd (hno.symm.trans hv) Bool.false_ne_true
    · refine ⟨Nat.le_refl 1, fun _ => Nat.pos_of_ne_zero ?_⟩
      rintro rfl
      obtain ⟨rfl, -⟩ := List.cons.inj hbase
      cases hl
      have hno := viable_unknown h
        (.move .start (h.hasTable.next?_of_shift hmove))
      exact absurd (hno.symm.trans hv) Bool.false_ne_true
    · exact ⟨Nat.le_add_left 1 _, fun he => by cases he⟩

end BehindMacro

/-- **The bottom frame is passed over.** Behind the word nothing can follow a recovered region above
it, and the end of the text can follow one on the bottom frame. Recovery chooses the former. -/
theorem exists_table_bottom_passed : ∃ t, Assembly.table = .ok t ∧
    let start := (Parser.mk t {}).start "MACRO ?" none
    ∃ m, Reaches start.setup start.machine m ∧ t.default? m.top.state = none ∧
      (t.explicitAction m.top.state (m.next start.setup).kind).move = .error ∧
      let told := (m.look 1).report start.setup
      ∃ q m', told.First start.setup q ∧ told.recover? start.setup = some m' ∧
        m'.below ≠ told.frames.drop q.above := by
  obtain ⟨g, t, w, h⟩ := Assembly.exists_shipped
  obtain ⟨target, landed, hopens, herror⟩ := exists_next?_macroWord h
  obtain ⟨m, hreach, hstates, hinput⟩ := exists_reaches_macroWord h {} hopens
  obtain ⟨read, hlive⟩ := live_of_reaches h {} "MACRO ?" none hreach
  refine ⟨t, h.table, m, hreach, ?_⟩
  generalize hs : ((Parser.mk t {}).start "MACRO ?" none).setup = s
  have hlimit : 1 < s.options.recoveryLimit := by
    rw [← hs]
    show 1 < 1024
    decide
  obtain rfl : s.table = t := by
    rw [← hs]
    rfl
  have htop : m.top.state = target := (List.cons.inj hstates).1
  rw [htop, next_of_input hinput]
  refine ⟨Grammar.default?_of_shift h.build h.indexed.actions herror,
    Grammar.move_eq_error_of_not_mem_rhs h.wellFormed h.build h.indexed.actions
      (Assembly.unknown_not_mem_rhs h.grammar) Kind.noConfusion _, ?_⟩
  intro told
  have hlive' : Live g told read := hlive.congr (by simp [told]) (by simp [told])
  have hstates' : told.states = [target, 0] := by
    rw [← hstates, states, report_frames, look_frames, states]
  have hinput' : told.input = behindMacro := by
    rw [report_input, look_input, hinput]
  have hgo (q : Resync) : told.GoesOn s q ↔ told.Looks s q :=
    goesOn_iff (ParseTable.numbered_of_build h.wellFormed h.build) h.hasTable h.lines h.weighted
      hlive'.path
  obtain ⟨_, _, bottom, hstate, hbottom, -, heof⟩ := lands_bottom h.hasTable h.lines h.weighted
  obtain ⟨rfl, rfl⟩ := List.cons.inj hstate
  obtain ⟨m', hrecover⟩ := Option.isSome_iff_exists.1
    (recover?_isSome (s := s) h.hasTable h.lines h.weighted hlive'.path)
  obtain ⟨r, hchosen, hresumed⟩ := chosen_of_recover hlive'.ends hgo hrecover
  refine ⟨⟨1, bottom, 1⟩, m', first_macroWord hlimit hstates' hinput' h hopens hgo hbottom heof,
    hrecover, ?_⟩
  have hlength : told.frames.length = 2 := by
    rw [← List.length_map Frame.state, ← states, hstates']
    rfl
  have hlt : r.above + 1 < told.frames.length :=
    Nat.succ_lt_succ (hchosen.lt_below (not_bottomAlone_macroWord hlimit hstates' hinput' herror))
  rw [hresumed.below]
  intro he
  have hdrop : told.frames.length - r.above = told.frames.length - 1 := by
    rw [← List.length_drop, he, List.length_drop]
  omega
end Parser

end AsmTree
