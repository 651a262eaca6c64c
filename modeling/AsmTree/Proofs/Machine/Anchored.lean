import AsmTree.Proofs.Machine.Moved
import AsmTree.Proofs.Table.Defaults

/-!
# Machines that began behind complete lines

A machine that begins with complete lines on the stack keeps them there: recovery finds a way to go
on above the lowest frame, and only more lines, or in the end the file, are made of them.

**Main statement (`Anchored.step`):** so its steps are the same behind any lead.
-/

namespace AsmTree

open Lookahead

namespace Grammar

variable {g : Grammar} {t : ParseTable} {lines line state target p : Nat} {k : Kind} {item : Item}
  {read : List Symbol} {rest : List Nat}

/-! ## Files are reduced at the end of the text -/

/-- Only the end of the text follows a file. -/
theorem eq_eof_of_follows_start (hg : g.WellFormed) (hl : g.HasLines lines line)
    (hstart : g.augmented.lhs item.production = g.start)
    (hf : g.Follows state item k.index) : k = .eof := by
  have h := lookahead_induction hg
    (F := fun id n => id = g.nonterminals.size ∨ id = g.start → n = Kind.eof.index)
    (fun _ => rfl) ?_ ?_ hf
  · exact Kind.index_inj.1 (h (Or.inr hstart))
  · rintro i hi id after hr n hn (rfl | rfl)
    · exact absurd rfl (Nat.ne_of_lt (lt_of_mem_rhs hg (mem_rhs_of_remaining hr)))
    · rw [(eq_of_reads_start hl hi hr).2.2] at hn
      simp [Analysis.firstOf] at hn
  · rintro i hi id after hr - n hn (rfl | rfl)
    · exact absurd rfl (Nat.ne_of_lt (lt_of_mem_rhs hg (mem_rhs_of_remaining hr)))
    · refine hn (Or.inl ?_)
      rw [(eq_of_reads_start hl hi hr).1, lhs_accept hg]

variable (ht : g.HasTable t) (hl : g.HasLines lines line)

include ht hl

theorem default?_eq_none (hm : g.automaton.next? state (.terminal .newline) = some target) :
    t.default? state = none := by
  have hmove := move_of_next? ht.wellFormed ht.fits.productions ht.fits.states ht.build
    ht.indexed.actions newline_index hl.precedence.1 hm
  exact default?_of_shift ht.build ht.indexed.actions hmove

/-- Behind complete lines, and behind a line that follows them, the end of a line can be read. -/
theorem exists_next?_newline (h : g.Path (state :: rest) read)
    (hread : read = [.nonterminal line, .nonterminal lines] ∨ read = [.nonterminal lines]) :
    ∃ target, g.automaton.next? state (.terminal .newline) = some target := by
  have hg := ht.wellFormed
  have hlines (rhs : List Symbol) (hmem : .nonterminal lines :: rhs ∈ g.rhsOf lines) {behind : Nat}
      (hm : g.automaton.next? 0 (.nonterminal lines) = some behind) :
      ∃ i, g.InState behind i ∧ g.analysis.remaining i = rhs := by
    obtain ⟨p, -, hin, hr⟩ := hl.inState_lines hg hmem
    obtain ⟨hin', hr', -⟩ := inState_of_next? hg hin hr hm
    exact ⟨_, hin', hr'⟩
  rcases hread with rfl | rfl
  · cases h with
    | move hpath hm =>
      cases hpath with
      | move hpath hm' =>
        cases hpath
        obtain ⟨i, hin, hr⟩ := hlines [.nonterminal line, .terminal .newline]
          (by rw [hl.ofLines]; simp) hm'
        obtain ⟨hin', hr', -⟩ := inState_of_next? hg hin hr hm
        exact exists_next? hg hin' hr'
  · cases h with
    | move hpath hm =>
      cases hpath
      obtain ⟨i, hin, hr⟩ := hlines [.terminal .newline] (by rw [hl.ofLines]; simp) hm
      exact exists_next? hg hin hr

end Grammar

namespace Machine

open Grammar

variable {g : Grammar} {lines line : Nat} {s : Setup} {m m' : Machine} {read : List Symbol}
  {source : Lexer} {w : Nat → Nat} {p n : Nat}

/-! ## Recovery stays above complete lines -/

/-- Where a recovered region can stand on a frame, recovery does not go below it but for the lowest
frame, and that one is not needed. -/
theorem above_le_of_lands {f bottom : Frame} (hlands : Lands s.table [f.state, bottom.state])
    {input : List Lookahead} {r : Resync} (upper : List Frame) (above : Nat)
    (fallback : Option Resync) (looked : Nat)
    (h : (searchFrames s input (upper ++ [f, bottom]) above fallback looked).resync = some r) :
    r.above ≤ above + upper.length := by
  induction upper generalizing above fallback looked with
  | nil =>
    obtain ⟨state, rest, landed, hstates, hmove, hnewline, heof⟩ := hlands
    obtain ⟨rfl, rfl⟩ := List.cons.inj hstates
    rw [List.nil_append, searchFrames_cons, if_neg (by simp), hmove] at h
    dsimp only at h
    rw [show [f, bottom].map Frame.state = [f.state, bottom.state] from rfl] at h
    rcases search_lands hnewline heof (max s.options.recoveryLimit 1) input 0 with
      ⟨n, hn⟩ | ⟨n, hn⟩
    · rw [hn] at h
      cases h
      exact Nat.le_refl _
    · rw [hn] at h
      dsimp only at h
      -- what may be skipped on the frame is useful, and the lowest one is not asked
      rw [searchFrames_cons, if_pos (by simp [Resync.useful?])] at h
      cases h
      exact Nat.le_refl _
  | cons u upper ih =>
    rw [List.length_cons]
    rw [List.cons_append, searchFrames_cons, if_neg (by simp)] at h
    split at h
    · split at h
      · cases h
        exact Nat.le_add_right _ _
      · exact Nat.le_trans (ih _ _ _ h) (by omega)
    · exact Nat.le_trans (ih _ _ _ h) (by omega)

/-! ## Complete lines stay on the stack -/

/-- A machine that began behind complete lines. -/
structure Anchored (g : Grammar) (lines : Nat) (s : Setup) (source : Lexer) (m : Machine)
    (read : List Symbol) : Prop where
  standing : Standing g s source (some .newline) m read
  /-- The lines are at the bottom of the stack, until the file is complete. -/
  anchor : read.getLast? = some (.nonterminal lines) ∨
    read = [.nonterminal g.start] ∧ (m.next s).kind = .eof
  /-- The end of the lines has been recorded. -/
  first : m.checkpoints.toList.head? = some ⟨0, {}, 0⟩

theorem Anchored.ne_nil (h : Anchored g lines s source m read) : read ≠ [] := by
  rintro rfl
  rcases h.anchor with h | ⟨h, -⟩ <;> cases h

theorem Anchored.below_ne_nil (h : Anchored g lines s source m read) : m.below ≠ [] := by
  intro hnil
  have hlen := h.standing.stacked.length
  rw [frames, hnil] at hlen
  exact h.ne_nil (List.eq_nil_of_length_eq_zero (Nat.succ.inj hlen).symm)

theorem Anchored.checkpoints_ne (h : Anchored g lines s source m read) : m.checkpoints ≠ #[] := by
  intro hnil
  have hfirst := h.first
  rw [hnil] at hfirst
  cases hfirst

theorem Anchored.congr (h : Anchored g lines s source m read) (hf : m'.frames = m.frames)
    (hi : m'.input = m.input) (hl : m'.lastConsumed = m.lastConsumed)
    (hc : m'.checkpoints.toList.head? = m.checkpoints.toList.head?) :
    Anchored g lines s source m' read := by
  refine ⟨h.standing.congr hf hi hl, ?_, hc.trans h.first⟩
  rw [next, ahead, hi]
  exact h.anchor

theorem Anchored.mark (h : Anchored g lines s source m read) :
    Anchored g lines s source (m.mark s) read := by
  refine h.congr (mark_frames s m) (mark_input s m) ?_ ?_
  · obtain ⟨cs, hcs⟩ := mark_eq s m
    rw [hcs]
  · unfold Machine.mark
    split
    · rw [Array.toList_push, List.head?_append, h.first]
      rfl
    · rfl

variable (ht : g.HasTable s.table) (hl : g.HasLines lines line)

include ht

include hl in
/-- A file is made of complete lines at the end of the text only. -/
theorem eq_eof_of_reduction (h : g.Path m.states read)
    (hread : read = [.nonterminal line, .nonterminal lines] ∨ read = [.nonterminal lines])
    (hr : m.reduction? s = some p) (hstart : g.augmented.lhs p = g.start) :
    (m.next s).kind = .eof := by
  obtain ⟨target, hnewline⟩ := exists_next?_newline ht hl h hread
  unfold reduction? at hr
  rw [default?_eq_none ht hl hnewline] at hr
  dsimp only at hr
  split at hr
  · next q hm =>
    cases hr
    obtain ⟨item, hc, hf, rfl, -⟩ := ht.complete_of_reduce hm
    exact eq_eof_of_follows_start ht.wellFormed hl hstart hf
  · cases hr

theorem Anchored.shift (h : Anchored g lines s source m read) (hne : (m.next s).kind ≠ .eof)
    {target : Nat}
    (hm : (s.table.explicitAction m.top.state (m.next s).kind).move = .shift target) :
    Anchored g lines s source (m.shift s target) (.terminal (m.next s).kind :: read) := by
  refine ⟨h.standing.shift ht hne hm, Or.inl ?_, h.first⟩
  rcases h.anchor with hlast | ⟨-, heof⟩
  · rw [List.getLast?_cons, hlast]
    rfl
  · exact absurd heof hne

include hl

/-- What is reduced down to the bottom of the stack is more lines, or the file. -/
theorem Anchored.reduce (h : Anchored g lines s source m read) (hr : m.reduction? s = some p)
    (he : (m.look n).reduce? s p = some m') :
    (∃ read', Anchored g lines s source m' read') ∧
      ((s.table.production p).length + 1 = m.frames.length →
        (s.table.production p).kind = none) := by
  have hstanding := h.standing.reduce ht hr he
  have hpath := h.standing.stacked.path
  obtain ⟨item, hc, rfl, hne⟩ := complete_of_reduction ht hr
  obtain ⟨base, rest, target, hdrop, hread, -, -, heq⟩ := reduce?_of_path ht hpath hr
  rw [ht.production_of_complete hc, h.standing.stacked.length]
  have hfirst : m'.checkpoints.toList.head? = some ⟨0, {}, 0⟩ := by
    rw [heq n] at he
    cases he
    exact h.first
  have hnext : m'.next s = m.next s := by
    rw [heq n] at he
    cases he
    rfl
  have hle : (g.augmented.rhs item.production).length ≤ read.length := by
    have hlength := congrArg List.length hdrop
    rw [List.length_drop, h.standing.stacked.length, List.length_cons] at hlength
    omega
  have hmem := hc.rhs_mem ht.wellFormed hne
  obtain ⟨q, hq, hlhs, hrhs⟩ := mem_rhsOf.1 hmem
  have hnot : .nonterminal g.start ∉ g.augmented.rhs item.production := by
    rw [← hrhs]
    exact hl.start q hq
  rcases h.anchor with hlast | ⟨rfl, heof⟩
  · rcases Nat.lt_or_eq_of_le hle with hlt | heq'
    · -- the complete lines are not touched
      refine ⟨⟨_, hstanding, Or.inl ?_, hfirst⟩, fun hlen => absurd hlen (by dsimp only; omega)⟩
      rw [List.getLast?_cons, List.getLast?_drop, if_neg (by omega), hlast]
      rfl
    · rw [heq', List.take_length] at hread
      have hhead : q.rhs.head? = some (.nonterminal lines) := by
        rw [hrhs, ← List.getLast?_reverse, ← hread, hlast]
      rw [heq', List.drop_length] at hstanding
      rcases hl.first q hq hhead with hlines | hfile
      · rw [← hlhs, hlines] at hstanding ⊢
        exact ⟨⟨_, hstanding, Or.inl rfl, hfirst⟩, fun _ => hl.hidden.2⟩
      · have hstart : g.augmented.lhs item.production = g.start := by rw [← hlhs, hfile]
        refine ⟨⟨_, hstanding, Or.inr ⟨by rw [hstart], ?_⟩, hfirst⟩, fun _ => by
          rw [hstart]
          exact hl.hidden.1⟩
        rw [hnext]
        refine eq_eof_of_reduction ht hl hpath ?_ hr hstart
        rw [hstart, hl.ofSource] at hmem
        simp only [List.mem_cons, List.not_mem_nil, or_false] at hmem
        rw [hread]
        rcases hmem with hrhs' | hrhs' | hrhs' | hrhs'
        · exact Or.inl (by rw [hrhs']; rfl)
        · exact Or.inr (by rw [hrhs']; rfl)
        · rw [hrhs, hrhs'] at hhead
          exact Or.inr (by rw [hrhs', Option.some.inj hhead]; rfl)
        · rw [hrhs, hrhs'] at hhead
          cases hhead
  · -- nothing is made of a file
    exfalso
    by_cases hempty : g.augmented.rhs item.production = []
    · exact h.ne_nil (eq_nil_of_complete_empty ht.wellFormed hl hpath hc hne hempty).1
    · have hpos := List.length_pos_of_ne_nil hempty
      rw [List.take_of_length_le (by rw [List.length_singleton]; exact hpos)] at hread
      refine hnot (List.mem_reverse.1 ?_)
      rw [← hread]
      exact List.mem_singleton_self _

/-- **Recovery leaves complete lines alone.** -/
theorem Anchored.recover (h : Anchored g lines s source m read)
    (hm : (s.table.explicitAction m.top.state (m.next s).kind).move = .error)
    (hw : g.Weighted w) (hr : m.recover? s = some m') :
    (∃ read', Anchored g lines s source m' read') ∧
      ∀ r ∈ (searchFrames s m.input m.frames 0 none 0).resync, r.above + 1 < m.frames.length := by
  rcases h.anchor with hlast | ⟨rfl, heof⟩
  · obtain ⟨upper, f, hframes, hstate⟩ := h.standing.stacked.exists_anchor hlast
    have hlands : Lands s.table [f.state, ParseTable.startState] := by
      have hpath : g.Path [f.state, 0] [.nonterminal lines] := .move .start hstate
      obtain ⟨landed, hmove, hnewline, heof⟩ := LineStart.landing ht hl
        (hl.lineStart_resume ht.wellFormed hstate) hpath
      have hpath' : g.Path [landed, f.state, 0] [.terminal .error, .nonterminal lines] :=
        .move hpath (ht.next?_of_shift hmove)
      exact ⟨f.state, [0], landed, rfl, hmove, (viable_iff ht hl hw hpath').2 hnewline,
        (viable_iff ht hl hw hpath').2 heof⟩
    have habove : ∀ r ∈ (searchFrames s m.input m.frames 0 none 0).resync,
        r.above + 1 < m.frames.length := by
      intro r hr
      rw [hframes] at hr ⊢
      have hle := above_le_of_lands hlands upper 0 none 0 hr
      rw [List.length_append, List.length_cons, List.length_singleton]
      omega
    refine ⟨?_, habove⟩
    obtain ⟨r, hplan, hstanding⟩ := h.standing.recover ht hr
    have hlt := habove r hplan
    rw [h.standing.stacked.length] at hlt
    refine ⟨_, hstanding, Or.inl ?_, ?_⟩
    · rw [List.getLast?_cons, List.getLast?_drop, if_neg (by omega), hlast]
      rfl
    · obtain ⟨r', base, rest, looked, hplan', hdrop, -, rfl⟩ := recover?_eq_some hr
      obtain rfl := Option.some.inj (hplan.symm.trans hplan')
      obtain ⟨later, hlater⟩ := List.head?_eq_some_iff.1 h.first
      have hskip := Nat.le_of_lt (searchFrames_lt h.standing.ends hplan)
      rw [resynchronize_eq (m := m.look looked) hdrop hskip]
      show (m.checkpoints.filter (·.offset ≤ base.stop)).toList.head? = _
      rw [Array.toList_filter, hlater, List.filter_cons_of_pos (by simp)]
      rfl
  · -- behind a file the end of the text is accepted
    exfalso
    obtain ⟨upper, f, hframes, hstart⟩ := h.standing.stacked.exists_anchor rfl
    have hlen := h.standing.stacked.length
    rw [hframes, List.length_append] at hlen
    obtain rfl := List.eq_nil_of_length_eq_zero (Nat.add_right_cancel (m := 2) hlen)
    rw [(List.cons.inj hframes).1, heof, canFollow_source ht hl hstart] at hm
    cases hm

/-! ## Steps and runs behind a lead -/

/-- **A step keeps complete lines on the stack, and it is the same step behind any lead.** -/
theorem Anchored.step (hw : g.Weighted w) (he : s.table.EofOnly) (hs : s.splice = none)
    (h : Anchored g lines s source m read) (hstep : m.step s = .running m') :
    (∃ read', Anchored g lines s source m' read') ∧ ∀ (lead : Lead) (incremental : Bool),
      (lead.machine m).step (lead.setup incremental s) = .running (lead.machine m') := by
  have hmark {m₁ : Machine} (h₁ : ∃ read', Anchored g lines s source m₁ read') :
      (∃ read', Anchored g lines s source (m₁.mark s) read') ∧
        ∀ (lead : Lead) (incremental : Bool),
          lead.machine (m₁.mark s) = (lead.machine m₁).mark (lead.setup incremental s) := by
    obtain ⟨read', h₁⟩ := h₁
    exact ⟨⟨read', h₁.mark⟩, fun lead incremental =>
      (mark_machine h₁.below_ne_nil h₁.checkpoints_ne).symm⟩
  have htop (lead : Lead) : (lead.machine m).top.state = m.top.state := Lead.state_frame _ _
  have hsplice (lead : Lead) (incremental : Bool) : (lead.setup incremental s).splice = none := hs
  have hlook : Anchored g lines s source (m.look 1) read := h.congr rfl rfl rfl rfl
  rw [step_eq_running hs] at hstep
  rcases hstep with ⟨p, m₁, hd, hr, rfl⟩ | ⟨hd, hmove⟩
  · have hreduction : m.reduction? s = some p := by
      unfold reduction?
      rw [hd]
    obtain ⟨hanchored, hhidden⟩ := h.reduce (n := 0) ht hl hreduction (by rw [look_zero]; exact hr)
    obtain ⟨hmarked, heq⟩ := hmark hanchored
    refine ⟨hmarked, fun lead incremental => (step_eq_running (hsplice lead incremental)).2 ?_⟩
    exact Or.inl ⟨p, _, by rw [htop]; exact hd, reduce?_machine hr h.below_ne_nil hhidden,
      heq lead incremental⟩
  · have hmoves (lead : Lead) (incremental : Bool) :
        (lead.setup incremental s).table.explicitAction (lead.machine m).top.state
          ((lead.machine m).next (lead.setup incremental s)).kind =
        s.table.explicitAction m.top.state (m.next s).kind := by
      rw [htop, next_machine]
      rfl
    simp only [step_eq_running (hsplice _ _), hmoves]
    rcases hmove with ⟨target, hm, rfl⟩ | ⟨p, m₁, hm, hr, rfl⟩ | ⟨hm, m₁, hr, rfl⟩
    · have hne : (m.next s).kind ≠ .eof := fun heof => he.shift _ _ (by rw [heof] at hm; exact hm)
      obtain ⟨l, ls, hinput⟩ := List.exists_cons_of_ne_nil h.standing.ends.ne_nil
      obtain ⟨hmarked, heq⟩ := hmark ⟨_, hlook.shift ht hne hm⟩
      refine ⟨hmarked, fun lead incremental => Or.inr ⟨by rw [htop]; exact hd,
        Or.inl ⟨target, hm, ?_⟩⟩⟩
      rw [heq lead incremental, ← look_machine,
        shift_machine (m := m.look 1) hinput h.below_ne_nil]
    · have hreduction : m.reduction? s = some p := by
        unfold reduction?
        rw [hd]
        dsimp only
        rw [hm]
      obtain ⟨hanchored, hhidden⟩ := h.reduce ht hl hreduction hr
      obtain ⟨hmarked, heq⟩ := hmark hanchored
      refine ⟨hmarked, fun lead incremental => Or.inr ⟨by rw [htop]; exact hd,
        Or.inr (Or.inl ⟨p, _, hm, ?_, heq lead incremental⟩)⟩⟩
      rw [← look_machine]
      exact reduce?_machine hr h.below_ne_nil hhidden
    · have hreport : Anchored g lines s source ((m.look 1).report s) read :=
        hlook.congr (by simp) (by simp) (by simp) (by simp)
      obtain ⟨hanchored, habove⟩ := hreport.recover ht hl (by simpa using hm) hw hr
      obtain ⟨hmarked, heq⟩ := hmark hanchored
      refine ⟨hmarked, fun lead incremental => Or.inr ⟨by rw [htop]; exact hd,
        Or.inr (Or.inr ⟨hm, _, ?_, heq lead incremental⟩)⟩⟩
      rw [← look_machine, report_machine hlook.standing.stacked]
      exact recover?_machine hreport.standing.ends hr habove

theorem Anchored.reaches (hw : g.Weighted w) (he : s.table.EofOnly) (hs : s.splice = none)
    (h : Anchored g lines s source m read) (hreach : Reaches s m m') :
    (∃ read', Anchored g lines s source m' read') ∧ ∀ (lead : Lead) (incremental : Bool),
      Reaches (lead.setup incremental s) (lead.machine m) (lead.machine m') := by
  induction hreach with
  | refl => exact ⟨⟨read, h⟩, fun _ _ => .refl⟩
  | step _ hstep ih =>
    obtain ⟨⟨read', h'⟩, hreach'⟩ := ih
    obtain ⟨hanchored, hstep'⟩ := h'.step ht hl hw he hs hstep
    exact ⟨hanchored, fun lead incremental =>
      .step (hreach' lead incremental) (hstep' lead incremental)⟩

/-- **Behind any lead a run ends with the same result behind the lead.** -/
theorem Anchored.output (hw : g.Weighted w) (he : s.table.EofOnly) (hs : s.splice = none)
    (h : Anchored g lines s source m read) (hread : weigh w read ≤ heaviest) :
    ∃ out later, m.run s (s.table.moveLimit m.input.length) = some out ∧
      out.checkpoints = ⟨0, {}, 0⟩ :: later ∧ ∀ (lead : Lead) (incremental : Bool),
        ∃ m', Reaches (lead.setup incremental s) (lead.machine m) m' ∧
          m'.Accepting (lead.setup incremental s) ∧
          (m'.look 1).accept (lead.setup incremental s) = lead.output out := by
  obtain ⟨m', hreach, hacc, hrun⟩ := h.standing.live.run_moveLimit ht hl hw hs he hread
  obtain ⟨⟨read', h'⟩, hreach'⟩ := h.reaches ht hl hw he hs hreach
  have hlook : Anchored g lines s source (m'.look 1) read' := h'.congr rfl rfl rfl rfl
  obtain ⟨later, hlater⟩ := List.head?_eq_some_iff.1 h'.first
  refine ⟨(m'.look 1).accept s, later, hrun, hlater, fun lead incremental =>
    ⟨_, hreach' lead incremental, ⟨?_, ?_⟩, ?_⟩⟩
  · rw [show (lead.machine m').top.state = m'.top.state from Lead.state_frame _ _]
    exact hacc.1
  · rw [show (lead.machine m').top.state = m'.top.state from Lead.state_frame _ _, next_machine]
    exact hacc.2
  · rw [← look_machine]
    exact accept_machine hlook.standing.stacked hlook.below_ne_nil

end Machine

end AsmTree
