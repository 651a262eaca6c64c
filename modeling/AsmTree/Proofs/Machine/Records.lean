import AsmTree.Proofs.Machine.Grounded
import AsmTree.Proofs.Machine.Ledgers
import AsmTree.Proofs.Token.Delimiters

/-!
# Records of a run

While it runs, a machine keeps a ledger of what it has reported and of the ends of lines that it has
passed. A report never lies behind the last token that has been looked at, nor before the place
where the machine stands. **Main statements:** every step keeps the ledger (`Recording.step`), and
so does a run (`Recording.reaches`).
-/

namespace AsmTree

open AsmTree.Tree Lookahead

/-! ## Where tokens lie -/

/-- What is grouped to one token is all there is, in front of the end of the text. -/
theorem Lookahead.eq_of_group_singleton {isExtra : Kind → Bool} {stop : Token}
    {waiting ts : List Token} {l : Lookahead} (h : group isExtra stop waiting ts = [l]) :
    l = ⟨waiting.reverse ++ ts, stop⟩ := by
  induction ts generalizing waiting with
  | nil =>
    rw [group] at h
    rw [List.append_nil]
    exact (List.cons.inj h).1.symm
  | cons t ts ih =>
    rw [group] at h
    split at h
    · rw [ih h, List.reverse_cons, List.append_assoc, List.singleton_append]
    · obtain ⟨l', ls', hrest, -⟩ := exists_group_cons isExtra stop [] ts
      rw [hrest] at h
      cases (List.cons.inj h).2

namespace Parser

variable {p : Parser} {lexer : Lexer} {ls xs ys : List Lookahead} {l : Lookahead}

/-- The last token is the end of the text, and the tokens in front of it make up the text. -/
theorem last_of_lookaheads (h : p.lookaheads lexer = ls ++ [l]) : l.token = stopToken lexer ∧
    lexer.offset + lengthAll ((ls ++ [l]).flatMap trees) = (stopToken lexer).offset := by
  obtain ⟨behind, hpasses, hlast⟩ := passes_of_lookaheads (List.cons_ne_nil l []) h
  have hl := Lookahead.eq_of_group_singleton hlast.symm
  rw [List.reverse_nil, List.nil_append] at hl
  obtain ⟨last, hreads, hnone⟩ := Lexer.exists_reads (List.append_nil behind.tokens).symm
  obtain ⟨a, hrest, -, -, hlength⟩ := hreads.text
  have hend : last.rest = [] := by
    by_contra hne
    rw [Lexer.tokens_of_ne_nil hne] at hnone
    cases hnone
  rw [hend, List.append_nil] at hrest
  have htrees : lengthAll l.trees = byteLength behind.rest := by
    rw [lengthAll_trees, hl, Lookahead.tokens, List.map_append, List.sum_append, ← hlength, hrest]
    rfl
  rw [stopToken_of_reads hpasses.reads] at hl
  refine ⟨by rw [hl], ?_⟩
  rw [List.flatMap_append, List.flatMap_singleton, lengthAll_append, htrees, ← Nat.add_assoc,
    ← hpasses.offset, ← stopToken_of_reads hpasses.reads]
  rfl

theorem stop_of_lookaheads (h : p.lookaheads lexer = xs ++ l :: ys) :
    l.token.stop = lexer.offset + lengthAll ((xs ++ [l]).flatMap trees) := by
  cases ys with
  | nil =>
    obtain ⟨htoken, hoffset⟩ := last_of_lookaheads h
    rw [htoken, hoffset]
    rfl
  | cons l' ys =>
    obtain ⟨behind, hpasses, -⟩ := passes_of_lookaheads (List.cons_ne_nil l' ys)
      (h.trans (List.append_cons xs l (l' :: ys)))
    rw [hpasses.stop, hpasses.offset]

theorem le_offset_of_lookaheads (h : p.lookaheads lexer = xs ++ l :: ys) :
    lexer.offset ≤ l.token.offset := by
  have hstop := stop_of_lookaheads h
  rw [List.flatMap_append, List.flatMap_singleton, lengthAll_append, lengthAll_trees,
    Lookahead.tokens, List.map_append, List.sum_append, Token.stop] at hstop
  simp only [List.map_cons, List.map_nil, List.sum_cons, List.sum_nil] at hstop
  omega

end Parser

/-! ## Where reports lie -/

theorem Frame.upto_of_opener? {t : ParseTable} {f : Frame} {k : Kind} {range : TextRange}
    (h : f.opener? t = some (k, range)) : range.Upto f.stop := by
  unfold opener? at h
  split at h
  · split at h
    · cases h
      exact ⟨Nat.sub_le _ _, Nat.le_refl _⟩
    · cases h
  · cases h

/-- The diagnostic begins at or behind an offset, and all that it points at ends at or before
another one. -/
structure Diagnostic.Between (d : Diagnostic) (a b : Nat) : Prop where
  le_start : a ≤ d.range.start
  upto : d.Upto b

theorem Diagnostic.Between.mono {d : Diagnostic} {a b c : Nat} (h : d.Between a b) (hle : b ≤ c) :
    d.Between a c :=
  ⟨h.le_start, h.upto.mono hle⟩

namespace Machine

open Grammar

variable {g : Grammar} {lines line n p : Nat} {s : Setup} {m m' : Machine}
  {read read' : List Symbol} {source lexer : Lexer} {before : Option Kind}
  {ls : List Lookahead} {l : Lookahead}

/-- Unreadable tokens are reported where they stand. -/
theorem unreadables_between {q : Parser} {xs ys : List Lookahead}
    (h : q.lookaheads lexer = xs ++ ys) : ∀ d ∈ unreadables xs,
      d.Between lexer.offset (lexer.offset + lengthAll (xs.flatMap trees)) := by
  intro d hd
  obtain ⟨l, hl, hsome⟩ := List.mem_filterMap.1 hd
  obtain ⟨as, bs, rfl⟩ := List.append_of_mem hl
  split at hsome
  · cases hsome
    rw [List.append_assoc, List.cons_append] at h
    have hstop := Parser.stop_of_lookaheads h
    have hoffset := Parser.le_offset_of_lookaheads h
    have hcover : lengthAll ((as ++ [l]).flatMap trees) ≤
        lengthAll ((as ++ l :: bs).flatMap trees) := by
      simp only [List.append_cons as l bs, List.flatMap_append, lengthAll_append]
      omega
    refine ⟨?_, ?_, ?_⟩
    · rw [Diagnostic.range_unreadable]
      exact hoffset
    · rw [Diagnostic.range_unreadable]
      exact ⟨Nat.le_add_right _ _, by show l.token.stop ≤ _; omega⟩
    · rw [Diagnostic.related_unreadable]
      simp
  · cases hsome

/-- **A token that cannot be used is reported where it stands**, or where the block was opened that
it does not close. -/
theorem report_between (h : Standing g s source before m read) (hinput : m.input = l :: ls) :
    ∃ ds, (m.report s).errors.toList = m.errors.toList ++ ds ∧
      ∀ d ∈ ds, d.Between m.top.stop (m.top.stop + lengthAll l.trees) := by
  obtain ⟨passed, lexer, hplaced⟩ := h.placed
  have hlook : s.parser.lookaheads lexer = [] ++ l :: ls := hplaced.input.symm.trans hinput
  have hstop := Parser.stop_of_lookaheads hlook
  have hoffset := Parser.le_offset_of_lookaheads hlook
  rw [← hplaced.stop] at hstop hoffset
  rw [List.nil_append, List.flatMap_singleton] at hstop
  have hunexpected (d : Diagnostic) (hrange : d.range = l.token.range) (hrelated : d.related = []) :
      d.Between m.top.stop (m.top.stop + lengthAll l.trees) := by
    refine ⟨by rw [hrange]; exact hoffset, ?_, by simp [hrelated]⟩
    rw [hrange, ← hstop]
    exact ⟨Nat.le_add_right _ _, Nat.le_refl _⟩
  unfold report
  dsimp only
  rw [ahead_zero hinput]
  split
  · exact ⟨[], by simp, by simp⟩
  · split
    · next opener range hopen =>
      obtain ⟨f, hf, hopener⟩ := List.exists_of_findSome?_eq_some hopen
      have hrange := (Frame.upto_of_opener? hopener).mono (h.stacked.stop_le hf)
      refine ⟨[_], Array.toList_push, fun d hd => ?_⟩
      rw [List.mem_singleton.1 hd]
      refine ⟨hoffset, ⟨Nat.le_refl _, ?_⟩, fun r hr => ?_⟩
      · rw [← hstop]
        exact Nat.le_add_right _ _
      · rw [List.mem_singleton.1 hr]
        exact hrange.mono (Nat.le_add_right _ _)
    · refine ⟨[_], Array.toList_push, fun d hd => ?_⟩
      rw [List.mem_singleton.1 hd]
      exact hunexpected _ rfl rfl
  · refine ⟨[_], Array.toList_push, fun d hd => ?_⟩
    rw [List.mem_singleton.1 hd]
    exact hunexpected _ rfl rfl

/-! ## How far the machine has looked -/

/-- The end of what the machine has passed or looked at. -/
def horizon (m : Machine) : Nat :=
  m.top.stop + lengthAll ((m.input.take m.seen).flatMap trees)

theorem Standing.length_stackTrees (h : Standing g s source before m read) :
    lengthAll m.stackTrees = m.top.stop := by
  rw [stackTrees, lengthAll_reverse]
  exact h.stacked.lengthAll_joined

theorem Standing.next_of_eof (h : Standing g s source before m read)
    (heof : (m.next s).kind = .eof) : m.next s = Parser.stopToken source := by
  obtain ⟨passed, lexer, hplaced⟩ := h.placed
  obtain ⟨l, ls, hinput⟩ := List.exists_cons_of_ne_nil h.ends.ne_nil
  rw [next_of_input hinput] at heof ⊢
  obtain rfl := (hinput ▸ h.ends).eq_last heof
  have hlook : s.parser.lookaheads lexer = [] ++ [l] := hplaced.input.symm.trans hinput
  rw [(Parser.last_of_lookaheads hlook).1, Parser.stopToken_of_reads hplaced.passes.reads]

theorem Standing.whole (h : Standing g s source before m read) :
    m.top.stop + lengthAll (m.input.flatMap trees) = (Parser.stopToken source).offset := by
  obtain ⟨passed, lexer, hplaced⟩ := h.placed
  rcases List.eq_nil_or_concat m.input with hnil | ⟨ls, l, hinput⟩
  · exact absurd hnil h.ends.ne_nil
  · rw [List.concat_eq_append] at hinput
    have hlast := Parser.last_of_lookaheads (hplaced.input.symm.trans hinput)
    rw [hplaced.stop, hinput, hlast.2, Parser.stopToken_of_reads hplaced.passes.reads]

theorem Standing.horizon_add (h : Standing g s source before m read) :
    m.horizon + lengthAll ((m.input.drop m.seen).flatMap trees) =
      (Parser.stopToken source).offset := by
  rw [← h.whole, horizon, Nat.add_assoc, ← lengthAll_append, ← List.flatMap_append,
    List.take_append_drop]

theorem Standing.horizon_le (h : Standing g s source before m read)
    (h' : Standing g s source before m' read')
    (hsuffix : m'.input.drop m'.seen <:+ m.input.drop m.seen) : m.horizon ≤ m'.horizon := by
  obtain ⟨ls, hls⟩ := hsuffix
  have hadd := h.horizon_add
  have hadd' := h'.horizon_add
  rw [← hls, List.flatMap_append, lengthAll_append] at hadd
  omega

/-! ## Ledgers of a machine -/

/-- A machine that keeps a ledger. What it reports lies where it has looked, and the ends of lines
that it records lie between the trees of lines. -/
structure Recording (g : Grammar) (lines : Nat) (s : Setup) (source : Lexer)
    (before : Option Kind) (m : Machine) (read : List Symbol) : Prop where
  lining : Lining g lines s source before m read
  ledger : Ledger m.errors.toList m.checkpoints.toList
  grounded : ∀ c ∈ m.checkpoints.toList, g.Grounded lines m.frames read c.offset
  upto : ∀ d ∈ m.errors.toList, d.Upto m.horizon

theorem Recording.le_stop (h : Recording g lines s source before m read) :
    ∀ c ∈ m.checkpoints.toList, c.offset ≤ m.top.stop := fun c hc =>
  (h.grounded c hc).le_stop h.lining.standing.stacked

/-- **What is reported from here on does not disturb the ledger**, and neither does it to forget
some ends of lines. -/
theorem Recording.advance (h : Recording g lines s source before m read) (ds : List Diagnostic)
    (hlining : Lining g lines s source before m' read')
    (hsuffix : m'.input.drop m'.seen <:+ m.input.drop m.seen)
    (herrors : m'.errors.toList = m.errors.toList ++ ds)
    (hds : ∀ d ∈ ds, d.Between m.top.stop m'.horizon)
    (hsub : m'.checkpoints.toList.Sublist m.checkpoints.toList)
    (hgrounded : ∀ c ∈ m'.checkpoints.toList, g.Grounded lines m'.frames read' c.offset) :
    Recording g lines s source before m' read' where
  lining := hlining
  ledger := by
    rw [herrors]
    exact (h.ledger.sublist hsub).report fun d hd c hc =>
      Nat.le_trans (h.le_stop c (hsub.subset hc)) (hds d hd).le_start
  grounded := hgrounded
  upto := by
    have hle := h.lining.standing.horizon_le hlining.standing hsuffix
    intro d hd
    rw [herrors] at hd
    rcases List.mem_append.1 hd with hd | hd
    · exact (h.upto d hd).mono hle
    · exact (hds d hd).upto

theorem Recording.look (h : Recording g lines s source before m read) (n : Nat) :
    Recording g lines s source before (m.look n) read := by
  refine h.advance [] (h.lining.congr rfl rfl rfl) ?_ (List.append_nil _).symm (by simp)
    (List.Sublist.refl _) h.grounded
  show m.input.drop (max m.seen n) <:+ m.input.drop m.seen
  rw [← Nat.add_sub_of_le (Nat.le_max_left m.seen n), ← List.drop_drop]
  exact List.drop_suffix _ _

theorem Recording.report (h : Recording g lines s source before m read) (hseen : 1 ≤ m.seen) :
    Recording g lines s source before (m.report s) read := by
  obtain ⟨l, ls, hinput⟩ := List.exists_cons_of_ne_nil h.lining.standing.ends.ne_nil
  obtain ⟨ds, herrors, hds⟩ := report_between h.lining.standing hinput
  refine h.advance ds (h.lining.congr (by simp) (by simp) (by simp)) (by simp) herrors
    (fun d hd => (hds d hd).mono ?_) (by simp) (by simpa using h.grounded)
  -- the token is among those that have been looked at
  obtain ⟨k, hk⟩ := Nat.exists_eq_add_of_le' hseen
  rw [horizon, report_top, report_input, report_seen, hinput, hk, List.take_succ_cons,
    List.flatMap_cons, lengthAll_append]
  omega

/-- The end of a line is behind all that has been reported. -/
theorem Recording.mark (ht : g.HasTable s.table) (hl : g.HasLines lines line)
    (h : Recording g lines s source before m read) :
    Recording g lines s source before (m.mark s) read := by
  by_cases hend : m.atLineEnd s = true
  · have hlt := lt_of_atLineEnd h.ledger.ordered hend
    have hground := grounded_of_atLineEnd ht hl h.lining hend
    have hhorizon : m.horizon = m.top.stop := by
      simp only [atLineEnd, Bool.and_eq_true, beq_iff_eq] at hend
      rw [horizon, hend.1.1.2]
      rfl
    have hupto := h.upto
    rw [hhorizon] at hupto
    have hlining := h.lining.mark
    rw [Machine.mark, if_pos hend] at hlining ⊢
    refine ⟨hlining, ?_, ?_, h.upto⟩
    · rw [Array.toList_push]
      exact h.ledger.record rfl hlt hupto
    · rw [Array.toList_push]
      intro c hc
      rcases List.mem_append.1 hc with hc | hc
      · exact h.grounded c hc
      · rw [List.mem_singleton.1 hc]
        exact hground
  · rw [Machine.mark, if_neg hend]
    exact h

variable (ht : g.HasTable s.table) (hl : g.HasLines lines line)

include ht

theorem Recording.shift (h : Recording g lines s source before m read)
    (hne : (m.next s).kind ≠ .eof) {target : Nat}
    (hm : (s.table.explicitAction m.top.state (m.next s).kind).move = .shift target) :
    Recording g lines s source before (m.shift s target) (.terminal (m.next s).kind :: read) := by
  have hlining := h.lining.shift ht hne hm
  obtain ⟨l, ls, hinput⟩ := List.exists_cons_of_ne_nil h.lining.standing.ends.ne_nil
  obtain ⟨passed, lexer, hplaced⟩ := h.lining.standing.placed
  have hlook : s.parser.lookaheads lexer = [l] ++ ls := hplaced.input.symm.trans hinput
  have hstop : l.token.stop = lexer.offset + lengthAll ([l].flatMap trees) :=
    Parser.stop_of_lookaheads (hlook.trans (List.nil_append _).symm)
  rw [shift_eq hinput] at hlining ⊢
  refine h.advance (unreadables [l]) hlining ?_ (by simp) (fun d hd => ?_)
    (List.Sublist.refl _) fun c hc => (h.grounded c hc).push _ _
  · show ls.drop (m.seen - 1) <:+ m.input.drop m.seen
    rw [hinput]
    cases m.seen with
    | zero => exact List.suffix_cons l ls
    | succ k => exact List.suffix_refl _
  · have hbetween := unreadables_between hlook d hd
    rw [← hstop, ← hplaced.stop] at hbetween
    exact hbetween.mono (Nat.le_add_right _ _)

theorem Recording.recover (h : Recording g lines s source before m read)
    (hr : m.recover? s = some m') : ∃ read', Recording g lines s source before m' read' := by
  obtain ⟨r, hplan, hlining⟩ := h.lining.recover ht hr
  obtain ⟨r', base, rest, looked, hplan', hdrop, -, rfl⟩ := recover?_eq_some hr
  obtain rfl := Option.some.inj (hplan.symm.trans hplan')
  have hstanding := h.lining.standing
  obtain ⟨passed, lexer, hplaced⟩ := hstanding.placed
  have hlook : s.parser.lookaheads lexer = m.input.take r.skip ++ m.input.drop r.skip := by
    rw [List.take_append_drop, hplaced.input]
  obtain ⟨-, hstop⟩ : g.Stacked (base :: rest) (read.drop r.above) ∧ m.top.stop =
    base.stop + lengthAll (Frame.joined (m.frames.take r.above)) := hstanding.stacked.drop _ hdrop
  rw [resynchronize_eq (m := m.look looked) hdrop
    (Nat.le_of_lt (searchFrames_lt hstanding.ends hplan))] at hlining ⊢
  refine ⟨_, h.advance (unreadables (m.input.take r.skip)) hlining ?_ (by simp)
    (fun d hd => ?_) ?_ fun c hc => ?_⟩
  · show (m.input.drop r.skip).drop (max m.seen looked - r.skip) <:+ m.input.drop m.seen
    rw [List.drop_drop, ← Nat.add_sub_of_le (show m.seen ≤ r.skip + _ by omega), ← List.drop_drop]
    exact List.drop_suffix _ _
  · have hbetween := unreadables_between hlook d hd
    rw [← hplaced.stop] at hbetween
    refine hbetween.mono ?_
    -- the recovered region ends with the tokens that are skipped
    show _ ≤ base.stop + lengthAll (m.recovered r) + _
    rw [recovered, lengthAll_append, lengthAll_reverse]
    omega
  · show (m.checkpoints.filter (·.offset ≤ base.stop)).toList.Sublist m.checkpoints.toList
    rw [Array.toList_filter]
    exact List.filter_sublist
  · obtain ⟨hc, hle⟩ : c ∈ m.checkpoints.toList ∧ c.offset ≤ base.stop := by
      simpa using hc
    exact ((h.grounded c hc).resume hstanding.stacked hdrop hle).push _ _

include hl

theorem Recording.reduce (h : Recording g lines s source before m read)
    (hr : m.reduction? s = some p) (he : (m.look n).reduce? s p = some m') :
    Recording g lines s source before m'
      (.nonterminal (g.augmented.lhs p) :: read.drop (g.augmented.rhs p).length) := by
  have hlining := h.lining.reduce ht hl hr he
  have hground := fun c hc =>
    grounded_reduce ht hl (h.grounded c hc) h.lining.standing.stacked hr he
  obtain ⟨base, rest, target, -, -, rfl⟩ := reduce?_eq_some.1 he
  have hlook := h.look n
  exact hlook.advance [] hlining (List.suffix_refl _) (List.append_nil _).symm (by simp)
    (List.Sublist.refl _) hground

/-! ## Runs -/

/-- **Every step keeps the ledger.** -/
theorem Recording.step (he : s.table.EofOnly) (hs : s.splice = none)
    (h : Recording g lines s source before m read) (hstep : m.step s = .running m') :
    ∃ read', Recording g lines s source before m' read' := by
  have heffect := step_effect s m
  rw [hstep] at heffect
  generalize ho : Outcome.running m' = o at heffect
  cases heffect with
  | reduce hr _ hm =>
    rw [markLine_of_splice hs] at ho
    cases ho
    exact ⟨_, (h.reduce ht hl hr hm).mark ht hl⟩
  | shift _ hm =>
    rw [markLine_of_splice hs] at ho
    cases ho
    have hne : (m.next s).kind ≠ .eof := fun heof => he.shift _ _ (by rw [heof] at hm; exact hm)
    exact ⟨_, ((h.look 1).shift ht hne hm).mark ht hl⟩
  | recover _ _ hr =>
    rw [markLine_of_splice hs] at ho
    cases ho
    obtain ⟨read', h'⟩ := ((h.look 1).report (Nat.le_max_right _ _)).recover ht hr
    exact ⟨read', h'.mark ht hl⟩
  | stuck _ _ => cases ho
  | accept _ _ => cases ho
  | abandon _ _ _ => cases ho

/-- **A run keeps the ledger.** -/
theorem Recording.reaches (he : s.table.EofOnly) (hs : s.splice = none)
    (h : Recording g lines s source before m read) (hreach : Reaches s m m') :
    ∃ read', Recording g lines s source before m' read' :=
  hreach.keeps (P := fun m => ∃ read, Recording g lines s source before m read) ⟨read, h⟩
    fun _ _ ⟨_, h⟩ hstep => h.step ht hl he hs hstep

end Machine

end AsmTree
