import AsmTree.Proofs.Machine.Standing

/-!
# Ends of lines

A checkpoint is recorded where the machine stands behind complete lines. **Main statements:** there
is nothing else on the stack, and the trees of the lines end with a `newline`
(`frames_of_atLineEnd`); the checkpoints of a machine are in order, and the run has passed the
place of each (`Recorded.reaches_of`).
-/

namespace AsmTree

open Lookahead

/-- The last of some trees is the end of a line. The last one comes first. -/
def EndsLine (backward : List Tree) : Prop :=
  ∃ text rest, backward = .token .newline text :: rest ∧ 0 < text.utf8ByteSize

theorem EndsLine.append {a : List Tree} (h : EndsLine a) (b : List Tree) : EndsLine (a ++ b) := by
  obtain ⟨text, rest, rfl, hpos⟩ := h
  exact ⟨text, rest ++ b, rfl, hpos⟩

/-- The frames that stand for ends of lines and for complete lines end with a `newline`. -/
def Lined (lines : Nat) : List Frame → List Symbol → Prop
  | f :: frames, sym :: read =>
    (sym = .terminal .newline ∨ sym = .nonterminal lines → EndsLine f.backward) ∧
      Lined lines frames read
  | _, _ => True

theorem Lined.drop {lines : Nat} {frames : List Frame} {read : List Symbol}
    (h : Lined lines frames read) (n : Nat) : Lined lines (frames.drop n) (read.drop n) := by
  induction n generalizing frames read with
  | zero => exact h
  | succ n ih =>
    cases frames with
    | nil => simp [Lined]
    | cons f frames =>
      cases read with
      | nil => simp [Lined]
      | cons sym read => exact ih h.2

namespace Grammar

variable {g : Grammar} {lines line state : Nat} {item : Item}

theorem Complete.rhs_mem (hg : g.WellFormed) (hc : g.Complete state item)
    (hne : item.production ≠ g.productions.size) :
    g.augmented.rhs item.production ∈ g.rhsOf (g.augmented.lhs item.production) := by
  have hlt := Nat.lt_of_le_of_ne (hc.production_le hg) hne
  have hq := getElem?_augmented (Array.getElem?_eq_getElem hlt)
  exact mem_rhsOf.2 ⟨_, Array.getElem_mem hlt, (Augmented.lhs_eq hq).symm,
    (Augmented.rhs_eq hq).symm⟩

theorem HasLines.getLast?_of_mem (hl : g.HasLines lines line) {rhs : List Symbol}
    (h : rhs ∈ g.rhsOf lines) : rhs.getLast? = some (.terminal .newline) := by
  rw [hl.ofLines] at h
  simp only [List.mem_cons, List.not_mem_nil, or_false] at h
  rcases h with rfl | rfl | rfl | rfl <;> rfl

end Grammar

namespace Machine

open Grammar

variable {g : Grammar} {lines line : Nat} {s : Setup} {m m' start : Machine} {read : List Symbol}
  {source : Lexer} {before : Option Kind} {p n : Nat}

/-! ## Complete lines on the stack -/

/-- A machine whose complete lines end with the end of a line. `before` is what was consumed before
it began. -/
structure Lining (g : Grammar) (lines : Nat) (s : Setup) (source : Lexer) (before : Option Kind)
    (m : Machine) (read : List Symbol) : Prop where
  standing : Standing g s source before m read
  lined : Lined lines m.frames read

theorem Lining.congr (h : Lining g lines s source before m read) (hf : m'.frames = m.frames)
    (hi : m'.input = m.input) (hl : m'.lastConsumed = m.lastConsumed) :
    Lining g lines s source before m' read :=
  ⟨h.standing.congr hf hi hl, by rw [hf]; exact h.lined⟩

theorem Lining.mark (h : Lining g lines s source before m read) :
    Lining g lines s source before (m.mark s) read :=
  ⟨h.standing.mark, by rw [mark_frames]; exact h.lined⟩

variable (ht : g.HasTable s.table) (hl : g.HasLines lines line)

include ht

theorem Lining.shift (h : Lining g lines s source before m read) (hne : (m.next s).kind ≠ .eof)
    {target : Nat}
    (hm : (s.table.explicitAction m.top.state (m.next s).kind).move = .shift target) :
    Lining g lines s source before (m.shift s target) (.terminal (m.next s).kind :: read) := by
  refine ⟨h.standing.shift ht hne hm, ?_, h.lined⟩
  rintro (hk | hk)
  · obtain ⟨l, ls, hinput⟩ := List.exists_cons_of_ne_nil h.standing.ends.ne_nil
    have hpos := h.standing.length_pos hinput hne
    have hkind := Symbol.terminal.inj hk
    rw [next_of_input hinput] at hkind
    show EndsLine (m.ahead s 0).trees.reverse
    rw [ahead_zero hinput, Lookahead.trees, hkind, List.reverse_append]
    exact ⟨_, _, rfl, hpos⟩
  · cases hk

include hl

theorem Lining.reduce (h : Lining g lines s source before m read) (hr : m.reduction? s = some p)
    (he : (m.look n).reduce? s p = some m') : Lining g lines s source before m'
      (.nonterminal (g.augmented.lhs p) :: read.drop (g.augmented.rhs p).length) := by
  refine ⟨h.standing.reduce ht hr he, ?_⟩
  obtain ⟨item, hc, rfl, hne⟩ := complete_of_reduction ht hr
  obtain ⟨base, rest, target, hdrop, hread, -, -, heq⟩ :=
    reduce?_of_path ht h.standing.stacked.path hr
  rw [heq n] at he
  cases he
  have hlined := h.lined.drop (g.augmented.rhs item.production).length
  rw [hdrop] at hlined
  refine ⟨?_, hlined⟩
  rintro (hk | hk)
  · cases hk
  -- the production of complete lines that is reduced ends with the end of a line
  have hlhs : g.augmented.lhs item.production = lines := Symbol.nonterminal.inj hk
  have hmem := hc.rhs_mem ht.wellFormed hne
  rw [hlhs] at hmem
  have hlast := hl.getLast?_of_mem hmem
  rw [← List.head?_reverse, ← hread] at hlast
  have htop : EndsLine m.top.backward := by
    have hlined := h.lined
    cases read with
    | nil => simp at hlast
    | cons sym read =>
      refine hlined.1 (Or.inl ?_)
      rw [List.head?_take] at hlast
      split at hlast
      · cases hlast
      · exact Option.some.inj hlast
  have hpos : ∃ k, (g.augmented.rhs item.production).length = k + 1 := by
    refine Nat.exists_eq_succ_of_ne_zero fun hzero => ?_
    rw [hzero] at hlast
    cases hlast
  obtain ⟨k, hk⟩ := hpos
  show EndsLine (reducedFrame s.table _ (m.frames.take _) base target).backward
  rw [backward_of_hidden (by rw [ht.production_of_complete hc, hlhs, hl.hidden.2]), hk]
  rw [show m.frames.take (k + 1) = m.top :: m.below.take k from rfl, Frame.joined_cons]
  exact htop.append _

omit hl in
theorem Lining.recover (h : Lining g lines s source before m read) (hr : m.recover? s = some m') :
    ∃ r, (searchFrames s m.input m.frames 0 none 0).resync = some r ∧
      Lining g lines s source before m' (.terminal .error :: read.drop r.above) := by
  obtain ⟨r, hplan, hstanding⟩ := h.standing.recover ht hr
  obtain ⟨r', base, rest, looked, hplan', hdrop, -, rfl⟩ := recover?_eq_some hr
  obtain rfl := Option.some.inj (hplan.symm.trans hplan')
  refine ⟨r, hplan, hstanding, ?_⟩
  have hlined := h.lined.drop r.above
  rw [hdrop] at hlined
  rw [frames_resynchronize (m := m.look looked) hdrop]
  exact ⟨fun hk => (by rcases hk with hk | hk <;> cases hk), hlined⟩

/-- **Every step keeps the order of frames and the ends of lines.** -/
theorem Lining.step (he : s.table.EofOnly) (hs : s.splice = none)
    (h : Lining g lines s source before m read) (hstep : m.step s = .running m') :
    ∃ read', Lining g lines s source before m' read' := by
  have heffect := step_effect s m
  rw [hstep] at heffect
  generalize ho : Outcome.running m' = o at heffect
  cases heffect with
  | reduce hr _ hm =>
    rw [markLine_of_splice hs] at ho
    cases ho
    exact ⟨_, (h.reduce ht hl hr hm).mark⟩
  | shift _ hm =>
    rw [markLine_of_splice hs] at ho
    cases ho
    have hne : (m.next s).kind ≠ .eof := fun heof => he.shift _ _ (by rw [heof] at hm; exact hm)
    have hlook : Lining g lines s source before (m.look 1) read := h.congr rfl rfl rfl
    exact ⟨_, (hlook.shift ht hne hm).mark⟩
  | recover _ _ hr =>
    rw [markLine_of_splice hs] at ho
    cases ho
    have hreport : Lining g lines s source before ((m.look 1).report s) read :=
      h.congr (by simp) (by simp) (by simp)
    obtain ⟨r, -, h'⟩ := hreport.recover ht hr
    exact ⟨_, h'.mark⟩
  | stuck _ _ => cases ho
  | accept _ _ => cases ho
  | abandon _ _ _ => cases ho

theorem Lining.reaches (he : s.table.EofOnly) (hs : s.splice = none)
    (h : Lining g lines s source before m read) (hreach : Reaches s m m') :
    ∃ read', Lining g lines s source before m' read' :=
  hreach.keeps (P := fun m => ∃ read, Lining g lines s source before m read) ⟨read, h⟩
    fun _ _ ⟨_, h⟩ hstep => h.step ht hl he hs hstep

/-- **At the end of a line there are complete lines on the stack, and nothing else.** -/
theorem frames_of_atLineEnd (h : Lining g lines s source before m read)
    (hend : m.atLineEnd s = true) : ∃ state backward,
      s.table.resumeState = some state ∧ read = [.nonterminal lines] ∧
      m.frames = [⟨state, backward, m.top.stop⟩, ⟨ParseTable.startState, [], 0⟩] ∧
      EndsLine backward ∧ Tree.lengthAll backward = m.top.stop := by
  simp only [atLineEnd, Bool.and_eq_true, beq_iff_eq] at hend
  obtain ⟨⟨⟨⟨-, hlen⟩, -⟩, hstate⟩, -⟩ := hend
  have hlined := h.lined
  obtain ⟨⟨state, backward, stop⟩, below, input, seen, errors, checkpoints, last⟩ := m
  obtain ⟨bottom, rfl⟩ := List.length_eq_one_iff.1 hlen
  cases h.standing.stacked with
  | push hbelow hmove hstop =>
    cases hbelow
    -- the state names what stands on the stack
    have hresume : g.automaton.next? 0 (.nonterminal lines) = some state := by
      rw [resumeState_eq ht.build, hl.resumePoint] at hstate
      exact hstate
    obtain rfl := symbol_of_next? ht.wellFormed hmove hresume
    have hlength : stop = 0 + Tree.lengthAll backward := hstop
    exact ⟨state, backward, hstate, rfl, rfl, hlined.1 (Or.inr rfl), by dsimp only; omega⟩

/-- At the end of a line that is not the first place, the machine has passed that end. -/
theorem exists_of_atLineEnd (h : Lining g lines s source none m read)
    (hend : m.atLineEnd s = true) :
    ∃ state backward ls l lexer, s.table.resumeState = some state ∧
      m.frames = [⟨state, backward, lexer.offset⟩, ⟨ParseTable.startState, [], 0⟩] ∧
      EndsLine backward ∧ Tree.lengthAll backward = lexer.offset ∧
      m.input = s.parser.lookaheads lexer ∧ m.seen = 0 ∧ m.lastConsumed = some .newline ∧
      source.Passes s.table.isExtra (ls ++ [l]) lexer ∧ l.token.kind = .newline := by
  obtain ⟨state, backward, hstate, -, hframes, hends, hlength⟩ :=
    frames_of_atLineEnd ht hl h hend
  obtain ⟨passed, lexer, hplaced⟩ := h.standing.placed
  rw [hplaced.stop] at hframes hlength
  simp only [atLineEnd, Bool.and_eq_true, beq_iff_eq] at hend
  obtain ⟨⟨⟨⟨⟨-, hnewline⟩, -⟩, hseen⟩, -⟩, -⟩ := hend
  have hpassed : passed.getLast?.map (·.token.kind) = some .newline := by
    rw [← hnewline, hplaced.last, Option.or_none]
  obtain ⟨l, hl', hkind⟩ := Option.map_eq_some_iff.1 hpassed
  obtain ⟨ls, rfl⟩ := List.getLast?_eq_some_iff.1 hl'
  exact ⟨state, backward, ls, l, lexer, hstate, hframes, hends, hlength, hplaced.input, hseen,
    hnewline, hplaced.passes, hkind⟩

/-! ## Checkpoints -/

omit ht hl

/-- The checkpoints are in order, and the run has passed the place of each. -/
structure Recorded (s : Setup) (start m : Machine) : Prop where
  ordered : m.checkpoints.toList.Pairwise (·.offset < ·.offset)
  reaches : ∀ c ∈ m.checkpoints, ∃ m₀ : Machine, m₀.atLineEnd s = true ∧ c = m₀.checkpoint s ∧
    Reaches s start (m₀.mark s) ∧ Reaches s (m₀.mark s) m

/-- A step may drop checkpoints before it records the end of a line. -/
theorem exists_of_step (hs : s.splice = none) (hends : Ends m.input)
    (h : m.step s = .running m') :
    ∃ m₁ : Machine, m' = m₁.mark s ∧ m₁.checkpoints.toList.Sublist m.checkpoints.toList := by
  rw [step_eq_running hs] at h
  rcases h with ⟨p, m₁, -, hr, rfl⟩ | ⟨-, ⟨target, -, rfl⟩ | ⟨p, m₁, -, hr, rfl⟩ | ⟨-, m₁, hr, rfl⟩⟩
  · obtain ⟨base, rest, state, -, -, rfl⟩ := reduce?_eq_some.1 hr
    exact ⟨_, rfl, List.Sublist.refl _⟩
  · exact ⟨_, rfl, List.Sublist.refl _⟩
  · obtain ⟨base, rest, state, -, -, rfl⟩ := reduce?_eq_some.1 hr
    exact ⟨_, rfl, List.Sublist.refl _⟩
  · refine ⟨m₁, rfl, ?_⟩
    obtain ⟨r, base, rest, looked, hplan, hdrop, -, rfl⟩ := recover?_eq_some hr
    rw [report_input, look_input] at hplan
    have hskip := Nat.le_of_lt (searchFrames_lt hends hplan)
    rw [resynchronize_eq (m := ((m.look 1).report s).look looked) hdrop (by simpa using hskip)]
    dsimp only
    rw [look_checkpoints, report_checkpoints, look_checkpoints, Array.toList_filter]
    exact List.filter_sublist

/-- Recorded places lie before the end of a line that has not been recorded. -/
theorem lt_of_atLineEnd (h : m.checkpoints.toList.Pairwise (·.offset < ·.offset))
    (hend : m.atLineEnd s = true) : ∀ c ∈ m.checkpoints.toList, c.offset < m.top.stop := by
  simp only [atLineEnd, Bool.and_eq_true] at hend
  have hback := hend.2
  rw [← Array.getLast?_toList] at hback
  rcases List.eq_nil_or_concat m.checkpoints.toList with hnil | ⟨cs, last, hcs⟩
  · simp [hnil]
  · rw [hcs, List.concat_eq_append] at h hback ⊢
    rw [List.getLast?_concat] at hback
    have hlast : last.offset < m.top.stop := of_decide_eq_true hback
    intro c hc
    rcases List.mem_append.1 hc with hc | hc
    · exact Nat.lt_trans ((List.pairwise_append.1 h).2.2 c hc last List.mem_cons_self) hlast
    · rw [List.mem_singleton.1 hc]
      exact hlast

theorem ordered_mark (h : m.checkpoints.toList.Pairwise (·.offset < ·.offset)) :
    (m.mark s).checkpoints.toList.Pairwise (·.offset < ·.offset) := by
  unfold mark
  split
  · next hend =>
    rw [Array.toList_push, List.pairwise_append]
    refine ⟨h, List.pairwise_singleton _ _, fun c hc c' hc' => ?_⟩
    rw [List.mem_singleton.1 hc']
    exact lt_of_atLineEnd h hend c hc
  · exact h

theorem Recorded.step (hs : s.splice = none) (hends : Ends m.input) (hreach : Reaches s start m)
    (h : Recorded s start m) (hstep : m.step s = .running m') : Recorded s start m' := by
  obtain ⟨m₁, rfl, hsub⟩ := exists_of_step hs hends hstep
  refine ⟨ordered_mark (h.ordered.sublist hsub), fun c hc => ?_⟩
  have hold (hc : c ∈ m₁.checkpoints) : ∃ m₀ : Machine, m₀.atLineEnd s = true ∧
      c = m₀.checkpoint s ∧ Reaches s start (m₀.mark s) ∧ Reaches s (m₀.mark s) (m₁.mark s) := by
    obtain ⟨m₀, hend, rfl, hbefore, hbehind⟩ :=
      h.reaches c (Array.mem_def.2 (hsub.subset (Array.mem_def.1 hc)))
    exact ⟨m₀, hend, rfl, hbefore, .step hbehind hstep⟩
  by_cases hend : m₁.atLineEnd s = true
  · rw [mark, if_pos hend] at hc
    rcases Array.mem_push.1 hc with hc | rfl
    · exact hold hc
    · exact ⟨m₁, hend, rfl, .step hreach hstep, .refl⟩
  · rw [mark, if_neg hend] at hc
    exact hold hc

/-- **A run passes the places that it records, and records them in order.** -/
theorem Recorded.reaches_of (he : s.table.EofOnly) (hs : s.splice = none)
    (hends : Ends start.input) (hstart : start.checkpoints = #[]) (hreach : Reaches s start m) :
    Recorded s start m := by
  induction hreach with
  | refl => exact ⟨by rw [hstart]; exact List.Pairwise.nil, by rw [hstart]; simp⟩
  | step hreach hstep ih =>
    have hends' := hreach.keeps hends fun _ _ hends hstep => ends_step he hs hends hstep
    exact ih.step hs hends' hreach hstep

end Machine

end AsmTree
