import AsmTree.Proofs.Machine.Leaves
import AsmTree.Proofs.Machine.Moves
import AsmTree.Proofs.Machine.Reports

/-!
# Runs without a report

A run that reports nothing consists of shifts and reductions and ends by acceptance. That is not
said by the reports alone: an unreadable token is reported only when it leaves the input, so the
machine may recover before it without a word. But it has to leave the input before the end.
**Main statements (`parses_of_run`, `Parses.run`):** a machine runs without a report exactly if
shifts and reductions lead it to acceptance.
-/

namespace AsmTree

open Lookahead

namespace Machine

variable {s : Setup} {m m' : Machine} {ts : List Tree} {out : Output} {fuel p target : Nat}

/-! ## Machines with the same stack and input -/

/-- The same stack and the same tokens left. Nothing else decides how a machine moves. -/
structure Alike (m m' : Machine) : Prop where
  top : m'.top = m.top
  below : m'.below = m.below
  input : m'.input = m.input

namespace Alike

theorem refl (m : Machine) : Alike m m := ⟨rfl, rfl, rfl⟩

theorem symm (h : Alike m m') : Alike m' m := ⟨h.top.symm, h.below.symm, h.input.symm⟩

theorem trans {m'' : Machine} (h : Alike m m') (h' : Alike m' m'') : Alike m m'' :=
  ⟨h'.top.trans h.top, h'.below.trans h.below, h'.input.trans h.input⟩

theorem look (m : Machine) (n : Nat) : Alike m (m.look n) := ⟨rfl, rfl, rfl⟩

theorem mark (s : Setup) (m : Machine) : Alike m (m.mark s) :=
  ⟨mark_top s m, mark_below s m, mark_input s m⟩

theorem frames (h : Alike m m') : m'.frames = m.frames := by
  rw [Machine.frames, h.top, h.below, Machine.frames]

theorem ahead (h : Alike m m') (n : Nat) : m'.ahead s n = m.ahead s n := by
  rw [Machine.ahead, h.input, Machine.ahead]

theorem next (h : Alike m m') : m'.next s = m.next s := by
  rw [Machine.next, h.ahead, Machine.next]

theorem reduction? (h : Alike m m') : m'.reduction? s = m.reduction? s := by
  rw [Machine.reduction?, h.top, h.next, Machine.reduction?]

theorem accepting (h : Alike m m') (ha : m.Accepting s) : m'.Accepting s := by
  rw [Accepting, h.top, h.next]
  exact ha

theorem shift (h : Alike m m') (target : Nat) : Alike (m.shift s target) (m'.shift s target) where
  top := by
    show Frame.mk _ _ _ = Frame.mk _ _ _
    rw [h.ahead]
  below := h.frames
  input := congrArg List.tail h.input

theorem reduce? (h : Alike m m') {m₁ : Machine} (hr : m.reduce? s p = some m₁) :
    ∃ m₁', m'.reduce? s p = some m₁' ∧ Alike m₁ m₁' := by
  obtain ⟨base, rest, state, hdrop, hgoto, rfl⟩ := reduce?_eq_some.1 hr
  refine ⟨_, reduce?_eq_some.2 ⟨base, rest, state, by rw [h.frames, hdrop], hgoto, rfl⟩, ?_⟩
  exact ⟨by rw [h.frames], rfl, h.input⟩

end Alike

/-! ## Shifts and reductions up to acceptance -/

/-- Shifts and reductions lead the machine to acceptance, with given trees below the root. No token
on the way is unreadable. -/
inductive Parses (s : Setup) : Machine → List Tree → Prop where
  | accept {m : Machine} : m.Accepting s → Parses s m (m.accept s).children
  | reduce {m m' : Machine} {p : Nat} {ts : List Tree} : m.reduction? s = some p →
    m.reduce? s p = some m' → Parses s m' ts → Parses s m ts
  | shift {m : Machine} {target : Nat} {ts : List Tree} :
    s.table.default? m.top.state = none →
    (s.table.explicitAction m.top.state (m.next s).kind).move = .shift target →
    (m.next s).kind ≠ .unknown → Parses s (m.shift s target) ts → Parses s m ts

theorem Parses.alike (h : Parses s m ts) (ha : Alike m m') : Parses s m' ts := by
  induction h generalizing m' with
  | @accept m hacc =>
    have hout : (m'.accept s).children = (m.accept s).children := by
      show m'.stackTrees ++ (m'.ahead s 0).triviaTrees = m.stackTrees ++ (m.ahead s 0).triviaTrees
      rw [stackTrees, ha.frames, ha.ahead, stackTrees]
    rw [← hout]
    exact .accept (ha.accepting hacc)
  | reduce hr hm _ ih =>
    obtain ⟨m₁, hm₁, halike⟩ := ha.reduce? hm
    exact .reduce (ha.reduction?.trans hr) hm₁ (ih halike)
  | shift hd hm hk _ ih =>
    refine .shift (by rw [ha.top]; exact hd) ?_ (by rw [ha.next]; exact hk) (ih (ha.shift _))
    rw [ha.top, ha.next]
    exact hm

theorem errors_shift (hk : (m.next s).kind ≠ .unknown) (target : Nat) :
    (m.shift s target).errors = m.errors :=
  if_neg hk

/-- A reduction is a step, up to a look at the next token and a mark. -/
theorem step_of_reduction (hs : s.splice = none) (hr : m.reduction? s = some p)
    (hm : m.reduce? s p = some m') : ∃ m₁, m.step s = .running m₁ ∧ Alike m' m₁ ∧
      m₁.errors = m.errors := by
  have herrors {m₀ m₁ : Machine} {p : Nat} (h : m₀.reduce? s p = some m₁) :
      m₁.errors = m₀.errors := by
    obtain ⟨_, _, _, -, -, rfl⟩ := reduce?_eq_some.1 h
    rfl
  have hmarked : ∀ m₁ : Machine, (m₁.mark s).errors = m₁.errors := by
    intro m₁
    obtain ⟨checkpoints, h⟩ := mark_eq s m₁
    rw [h]
  unfold reduction? at hr
  split at hr
  · next q hd =>
    cases hr
    refine ⟨m'.mark s, ?_, .mark s m', (hmarked m').trans (herrors hm)⟩
    exact (step_eq_running hs).2 (Or.inl ⟨_, m', hd, hm, rfl⟩)
  · next hd =>
    split at hr
    · next q hmove =>
      cases hr
      obtain ⟨m₁, hm₁, halike⟩ := (Alike.look m 1).reduce? hm
      have herr : m₁.errors = (m.look 1).errors := herrors hm₁
      refine ⟨m₁.mark s, ?_, halike.trans (.mark s m₁), (hmarked m₁).trans herr⟩
      exact (step_eq_running hs).2 (Or.inr ⟨hd, Or.inr (Or.inl ⟨_, m₁, hmove, hm₁, rfl⟩)⟩)
    · cases hr

/-- **A machine that shifts and reductions lead to acceptance runs without a report.** -/
theorem Parses.run (hs : s.splice = none) (h : Parses s m ts) (herr : m.errors = #[]) :
    ∃ fuel out, m.run s fuel = some out ∧ out.errors = [] ∧ out.children = ts := by
  suffices hrun : ∀ m', Alike m m' → m'.errors = #[] →
      ∃ fuel out, m'.run s fuel = some out ∧ out.errors = [] ∧ out.children = ts from
    hrun m (.refl m) herr
  clear herr
  induction h with
  | @accept m hacc =>
    intro m' ha herr
    have hacc' := ha.accepting hacc
    refine ⟨1, _, run_succ_of_done hacc'.step, ?_, ?_⟩
    · show (m'.look 1).errors.toList = []
      rw [look_errors, herr]
    · show (m'.look 1).stackTrees ++ ((m'.look 1).ahead s 0).triviaTrees =
        m.stackTrees ++ (m.ahead s 0).triviaTrees
      rw [stackTrees, look_frames, ha.frames, look_ahead, ha.ahead, stackTrees]
  | reduce hr hm _ ih =>
    intro m' ha herr
    obtain ⟨m₁, hm₁, halike⟩ := ha.reduce? hm
    obtain ⟨m₂, hstep, halike', herr₂⟩ := step_of_reduction hs (ha.reduction?.trans hr) hm₁
    obtain ⟨fuel, out, hrun, hout⟩ := ih m₂ (halike.trans halike') (herr₂.trans herr)
    exact ⟨fuel + 1, out, (run_succ_of_running hstep).trans hrun, hout⟩
  | @shift m target _ hd hm hk _ ih =>
    intro m' ha herr
    have hd' : s.table.default? m'.top.state = none := by rw [ha.top]; exact hd
    have hm' : (s.table.explicitAction m'.top.state (m'.next s).kind).move = .shift target := by
      rw [ha.top, ha.next]
      exact hm
    have hstep := step_of_shift hd' hm'
    rw [markLine_of_splice hs] at hstep
    obtain ⟨checkpoints, hmark⟩ := mark_eq s ((m'.look 1).shift s target)
    obtain ⟨fuel, out, hrun, hout⟩ := ih (((m'.look 1).shift s target).mark s)
      (((ha.trans (.look m' 1)).shift target).trans (.mark s _)) (by
        rw [hmark]
        show ((m'.look 1).shift s target).errors = #[]
        rw [errors_shift (by rw [look_next, ha.next]; exact hk), look_errors, herr])
    exact ⟨fuel + 1, out, (run_succ_of_running hstep).trans hrun, hout⟩

/-! ## Unreadable tokens are reported in the end -/

/-- The end of the text has been read, or it comes last. -/
def Ending (m : Machine) : Prop := m.input = [] ∨ Ends m.input

/-- Something has been reported, or an unreadable token is left. -/
def Loud (m : Machine) : Prop := m.errors ≠ #[] ∨ ∃ l ∈ m.input, l.token.kind = .unknown

theorem Ending.drop (h : m.Ending) {n : Nat} (hi : m'.input = m.input.drop n) : m'.Ending := by
  have hdrop : ∀ (n : Nat) {ls : List Lookahead}, (ls = [] ∨ Ends ls) →
      ls.drop n = [] ∨ Ends (ls.drop n) := by
    intro n
    induction n with
    | zero => exact fun h => h
    | succ n ih =>
      rintro ls (rfl | h)
      · exact Or.inl rfl
      · cases h with
        | last _ => exact Or.inl (by simp)
        | cons _ h => exact ih (Or.inr h)
  rw [Ending, hi]
  exact hdrop n h

theorem input_report_recover (h : m.recover? s = some m') : ∃ n, m'.input = m.input.drop n := by
  unfold recover? at h
  obtain ⟨r, -, rfl⟩ := Option.map_eq_some_iff.1 h
  unfold resynchronize
  split
  · exact ⟨0, rfl⟩
  · exact ⟨r.skip, skipTokens_input _ _ _⟩

/-- A move takes tokens from the front of the input. -/
theorem input_of_running (hs : s.splice = none) (h : m.step s = .running m') :
    ∃ n, m'.input = m.input.drop n := by
  rcases (step_eq_running hs).1 h with ⟨p, m₁, -, hm, rfl⟩ | ⟨-, ⟨target, -, rfl⟩ |
    ⟨p, m₁, -, hm, rfl⟩ | ⟨-, m₁, hm, rfl⟩⟩
  · obtain ⟨_, _, _, -, -, rfl⟩ := reduce?_eq_some.1 hm
    exact ⟨0, mark_input s _⟩
  · refine ⟨1, (mark_input s _).trans ?_⟩
    show m.input.tail = m.input.drop 1
    rw [List.drop_one]
  · obtain ⟨_, _, _, -, -, rfl⟩ := reduce?_eq_some.1 hm
    exact ⟨0, mark_input s _⟩
  · obtain ⟨n, hn⟩ := input_report_recover hm
    exact ⟨n, (mark_input s m₁).trans (by rw [hn, report_input, look_input])⟩

theorem loud_of_errors (h : m.Loud) (herr : m.errors.toList <+: m'.errors.toList)
    (hi : m'.input = m.input) : m'.Loud := by
  rcases h with h | h
  · refine Or.inl fun hnil => h ?_
    rw [hnil] at herr
    exact Array.toList_eq_nil_iff.1 (List.prefix_nil.1 herr)
  · exact Or.inr (hi ▸ h)

theorem loud_consume (h : m.Loud) : (m.consume s).Loud := by
  rcases h with h | ⟨l, hl, hk⟩
  · refine Or.inl ?_
    unfold consume
    dsimp only
    split
    · simp
    · exact h
  · obtain ⟨l', ls, hinput⟩ := List.exists_cons_of_ne_nil (List.ne_nil_of_mem hl)
    rw [consume_eq hinput]
    rw [hinput] at hl
    rcases List.mem_cons.1 hl with rfl | hl
    · refine Or.inl ?_
      simp [unreadables, hk]
    · exact Or.inr ⟨l, hl, hk⟩

theorem loud_skipTokens (n : Nat) (backward : List Tree) (h : m.Loud) :
    (skipTokens s n m backward).1.Loud := by
  induction n generalizing m backward with
  | zero => exact h
  | succ n ih => exact ih _ (loud_consume h)

theorem loud_report (h : m.Loud) : (m.report s).Loud := by
  refine loud_of_errors h ?_ (report_input s m)
  obtain ⟨ds, hds, -⟩ := says_report s m
  exact ⟨ds, hds.symm⟩

theorem loud_recover (h : m.Loud) (hr : m.recover? s = some m') : m'.Loud := by
  unfold recover? at hr
  obtain ⟨r, -, rfl⟩ := Option.map_eq_some_iff.1 hr
  unfold resynchronize
  split
  · exact h
  · exact loud_skipTokens r.skip _ h

theorem loud_mark (h : m.Loud) : (m.mark s).Loud := by
  obtain ⟨checkpoints, hm⟩ := mark_eq s m
  rw [hm]
  exact h

theorem loud_step (hs : s.splice = none) (h : m.Loud) (hstep : m.step s = .running m') :
    m'.Loud := by
  rcases (step_eq_running hs).1 hstep with ⟨p, m₁, -, hm, rfl⟩ | ⟨-, ⟨target, -, rfl⟩ |
    ⟨p, m₁, -, hm, rfl⟩ | ⟨-, m₁, hm, rfl⟩⟩
  · obtain ⟨_, _, _, -, -, rfl⟩ := reduce?_eq_some.1 hm
    exact loud_mark h
  · exact loud_mark (loud_consume (m := m.look 1) h)
  · obtain ⟨_, _, _, -, -, rfl⟩ := reduce?_eq_some.1 hm
    exact loud_mark h
  · exact loud_mark (loud_recover (loud_report (m := m.look 1) h) hm)

/-- A token without a move is reported, or it is unreadable and still to be reported. -/
theorem loud_report_next (hstop : s.stop.kind = .eof) (m : Machine) : (m.report s).Loud := by
  by_cases hk : (m.next s).kind = .unknown
  · refine Or.inr ?_
    rw [report_input]
    cases hinput : m.input with
    | nil =>
      rw [next, ahead, hinput] at hk
      rw [show (List.getD [] 0 ⟨[], s.stop⟩ : Lookahead).token.kind = s.stop.kind from rfl,
        hstop] at hk
      cases hk
    | cons l ls =>
      rw [next_of_input hinput] at hk
      exact ⟨l, List.mem_cons_self, hk⟩
  · refine Or.inl ?_
    unfold report
    dsimp only
    split
    · next h => exact absurd h hk
    · split <;> simp
    · simp

/-- The end of the text stands alone, behind everything else. -/
theorem mem_takeWhile_of_ends {input : List Lookahead} {l : Lookahead} (h : Ends input)
    (hl : l ∈ input) (hk : l.token.kind ≠ .eof) :
    l ∈ input.takeWhile fun l => l.token.kind != .eof := by
  induction h with
  | last he =>
    rw [List.mem_singleton] at hl
    rw [hl] at hk
    exact absurd he hk
  | cons hne _ ih =>
    rw [List.takeWhile_cons_of_pos (by simpa using hne)]
    rcases List.mem_cons.1 hl with rfl | hl
    · exact List.mem_cons_self
    · exact List.mem_cons_of_mem _ (ih hl)

/-- What is given up is reported. -/
theorem errors_abandon (h : m.Loud) (hends : m.Ending) : (m.abandon s).errors ≠ [] := by
  show (skipTokens s (m.input.takeWhile fun l => l.token.kind != .eof).length m
    (Frame.joined m.frames.dropLast)).1.errors.toList ≠ []
  have hlen := (List.takeWhile_prefix (l := m.input) fun l => l.token.kind != .eof).length_le
  rw [skipTokens_eq hlen]
  rcases h with h | ⟨l, hl, hk⟩
  · rw [Array.toList_append]
    exact List.append_ne_nil_of_left_ne_nil (fun hnil => h (Array.toList_eq_nil_iff.1 hnil)) _
  · have hends' : Ends m.input := hends.resolve_left (List.ne_nil_of_mem hl)
    have hmem := mem_takeWhile_of_ends hends' hl (by rw [hk]; decide)
    rw [List.prefix_iff_eq_take.1 (List.takeWhile_prefix (l := m.input) _)] at hmem
    rw [Array.toList_append]
    refine List.append_ne_nil_of_right_ne_nil _ (List.ne_nil_of_mem (a := .unreadable l.token) ?_)
    exact List.mem_filterMap.2 ⟨l, hmem, if_pos hk⟩

theorem errors_of_next_eof (h : m.Loud) (hends : m.Ending) (hk : (m.next s).kind = .eof) :
    m.errors ≠ #[] := by
  refine h.resolve_right ?_
  rintro ⟨l, hl, hunknown⟩
  obtain ⟨l', ls, hinput⟩ := List.exists_cons_of_ne_nil (List.ne_nil_of_mem hl)
  rw [next_of_input hinput] at hk
  have hends' : Ends m.input := hends.resolve_left (List.ne_nil_of_mem hl)
  rw [hinput] at hends' hl
  rw [hends'.eq_last hk, List.mem_singleton] at hl
  rw [hl, hk] at hunknown
  cases hunknown

/-- Without an earlier tree a step is the last one if a reduction fails, if the input is complete,
or if there is no way to go on. -/
theorem done_cases (hs : s.splice = none) (h : m.step s = .done out) :
    (∃ m' : Machine, m'.input = m.input ∧ m'.errors ≠ #[] ∧ out = m'.abandon s) ∨
      (m.Accepting s ∧ out = (m.look 1).accept s) ∨ out = ((m.look 1).report s).abandon s := by
  have heffect := step_effect s m
  rw [h] at heffect
  generalize ho : Outcome.done out = o at heffect
  cases heffect with
  | @stuck p n _ _ =>
    cases ho
    refine Or.inl ⟨{ m.look n with errors := m.errors.push (.internalError m.top.stop) }, rfl, ?_,
      rfl⟩
    simp
  | accept hd hm =>
    cases ho
    exact Or.inr (Or.inl ⟨⟨hd, hm⟩, rfl⟩)
  | abandon _ _ _ =>
    cases ho
    exact Or.inr (Or.inr rfl)
  | reduce _ _ _ =>
    rw [markLine_of_splice hs] at ho
    cases ho
  | shift _ _ =>
    rw [markLine_of_splice hs] at ho
    cases ho
  | recover _ _ _ =>
    rw [markLine_of_splice hs] at ho
    cases ho

theorem errors_abandon_report (hstop : s.stop.kind = .eof) (hends : m.Ending) :
    (((m.look 1).report s).abandon s).errors ≠ [] := by
  refine errors_abandon (loud_report_next hstop (m.look 1)) ?_
  rw [Ending, report_input]
  exact hends

theorem errors_of_done (hs : s.splice = none) (hacc : s.table.AcceptsAtEof)
    (hstop : s.stop.kind = .eof) (h : m.Loud) (hends : m.Ending) (he : m.step s = .done out) :
    out.errors ≠ [] := by
  rcases done_cases hs he with ⟨m', hi, herr, rfl⟩ | ⟨ha, rfl⟩ | rfl
  · exact errors_abandon (Or.inl herr) (by rw [Ending, hi]; exact hends)
  · intro hnil
    exact errors_of_next_eof h hends (hacc _ _ ha.2) (Array.toList_eq_nil_iff.1 hnil)
  · exact errors_abandon_report hstop hends

/-- **A machine with something to report has reported something in the end.** -/
theorem errors_of_run (hs : s.splice = none) (hacc : s.table.AcceptsAtEof)
    (hstop : s.stop.kind = .eof) (h : m.Loud) (hends : m.Ending)
    (hrun : m.run s fuel = some out) : out.errors ≠ [] := by
  obtain ⟨m', hreach, hdone⟩ := reaches_of_run hrun
  obtain ⟨hloud, hending⟩ := hreach.keeps (P := fun m => m.Loud ∧ m.Ending) ⟨h, hends⟩ (by
    rintro m₁ m₂ ⟨hloud, hending⟩ hstep
    obtain ⟨n, hn⟩ := input_of_running hs hstep
    exact ⟨loud_step hs hloud hstep, hending.drop hn⟩)
  exact errors_of_done hs hacc hstop hloud hending hdone

/-- **A run without a report consists of shifts and reductions up to acceptance.** -/
theorem parses_of_run (hs : s.splice = none) (hacc : s.table.AcceptsAtEof)
    (hstop : s.stop.kind = .eof) (hends : m.Ending) (hrun : m.run s fuel = some out)
    (hquiet : out.errors = []) : Parses s m out.children := by
  have hsilent : ∀ {m : Machine} {fuel : Nat}, m.Ending → m.run s fuel = some out → ¬ m.Loud :=
    fun hending hrun hloud => errors_of_run hs hacc hstop hloud hending hrun hquiet
  induction fuel generalizing m with
  | zero => cases hrun
  | succ fuel ih =>
    cases hstep : m.step s with
    | done o =>
      rw [run_succ_of_done hstep] at hrun
      cases hrun
      rcases done_cases hs hstep with ⟨m', hi, herr, rfl⟩ | ⟨ha, rfl⟩ | rfl
      · refine absurd hquiet (errors_abandon (Or.inl herr) ?_)
        rw [Ending, hi]
        exact hends
      · exact .accept ha
      · exact absurd hquiet (errors_abandon_report hstop hends)
    | running m' =>
      rw [run_succ_of_running hstep] at hrun
      obtain ⟨n, hn⟩ := input_of_running hs hstep
      have hends' := hends.drop hn
      have hparses := ih hends' hrun
      have hsilent' := hsilent hends' hrun
      rcases (step_eq_running hs).1 hstep with ⟨p, m₁, hd, hm, rfl⟩ | ⟨hd, ⟨target, hm, rfl⟩ |
        ⟨p, m₁, hmove, hm, rfl⟩ | ⟨-, m₁, hm, rfl⟩⟩
      · have hr : m.reduction? s = some p := by rw [reduction?, hd]
        exact .reduce hr hm (hparses.alike (Alike.mark s m₁).symm)
      · by_cases hk : (m.next s).kind = .unknown
        · -- an unreadable token is reported when it is shifted
          refine absurd (loud_mark (Or.inl ?_)) hsilent'
          show (if (m.next s).kind = .unknown then _ else _) ≠ #[]
          rw [if_pos hk]
          simp
        · refine .shift hd hm hk (hparses.alike ?_)
          exact (((Alike.look m 1).shift target).trans (.mark s _)).symm
      · have hr : m.reduction? s = some p := by
          rw [reduction?, hd]
          dsimp only
          rw [hmove]
        obtain ⟨m₂, hm₂, halike⟩ := (Alike.look m 1).symm.reduce? hm
        exact .reduce hr hm₂ (hparses.alike (halike.symm.trans (.mark s m₁)).symm)
      · exact absurd (loud_mark (loud_recover (loud_report_next hstop (m.look 1)) hm)) hsilent'

end Machine

end AsmTree
