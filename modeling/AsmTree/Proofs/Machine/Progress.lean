import AsmTree.Proofs.Machine.Leaves
import AsmTree.Proofs.Machine.LineStarts
import AsmTree.Proofs.Machine.Runs

/-!
# Every parse is accepted

Each step lowers the cost of a machine: what its stack weighs, a sum for each token that is left,
and one for a token that cannot follow. Recovery lowers it as well, since it skips a token or finds
a place where the next one can follow, and the bottom frame always takes a recovered region.
**Main statement (`Live.run`):** for the table of a grammar of lines a run ends, by acceptance.
-/

namespace AsmTree

open Lookahead

namespace Machine

variable {s : Setup} {m m' : Machine}

/-! ## Looking along the line -/

theorem le_of_search {viable : Kind → Bool} {limit skip n : Nat} {input : List Lookahead}
    (h : search viable limit input skip = .found n) : skip ≤ n := by
  induction limit generalizing input skip with
  | zero => cases h
  | succ limit ih =>
    cases input with
    | nil =>
      rw [search] at h
      split at h
      · cases h
        exact Nat.le_refl _
      · cases h
    | cons l rest =>
      rw [search] at h
      split at h
      · cases h
        exact Nat.le_refl _
      · split at h
        · cases h
        · exact Nat.le_of_succ_le (ih h)

theorem viable_of_search {viable : Kind → Bool} {limit : Nat} {l : Lookahead}
    {ls : List Lookahead} (h : search viable limit (l :: ls) 0 = .found 0) :
    viable l.token.kind = true := by
  cases limit with
  | zero => cases h
  | succ limit =>
    rw [search] at h
    split at h
    · assumption
    · split at h
      · cases h
      · exact absurd (le_of_search h) (by decide)

/-- Where the end of the line and that of the text can follow, a search fails by its limit only. -/
theorem search_lands {viable : Kind → Bool} (hnewline : viable .newline = true)
    (heof : viable .eof = true) (limit : Nat) (input : List Lookahead) (skip : Nat) :
    (∃ n, search viable limit input skip = .found n) ∨
      ∃ looked, search viable limit input skip = .none (skip + limit) looked := by
  induction limit generalizing input skip with
  | zero => exact Or.inr ⟨skip, rfl⟩
  | succ limit ih =>
    cases input with
    | nil => exact Or.inl ⟨skip, by rw [search, if_pos heof]⟩
    | cons l rest =>
      rw [search]
      by_cases hv : viable l.token.kind = true
      · exact Or.inl ⟨skip, if_pos hv⟩
      · have hstop : ¬(l.token.kind = .newline ∨ l.token.kind = .eof) := by
          intro h
          rcases h with h | h
          · exact hv (h ▸ hnewline)
          · exact hv (h ▸ heof)
        rw [if_neg hv, if_neg (by simpa using hstop), ← Nat.add_assoc, Nat.add_right_comm]
        exact ih rest (skip + 1)

/-! ## Looking through the stack -/

/-- A recovered region can stand on a frame, with the end of the line or that of the text behind
it. -/
def Lands (t : ParseTable) (states : List Nat) : Prop :=
  ∃ state rest landed, states = state :: rest ∧
    (t.explicitAction state .error).move = .shift landed ∧
    viable t (landed :: states) .newline = true ∧ viable t (landed :: states) .eof = true

/-- If a recovered region can stand on the bottom frame, there is a way to go on. -/
theorem searchFrames_isSome {input : List Lookahead} {bottom : Frame}
    (hbottom : Lands s.table [bottom.state]) (frames : List Frame) (above : Nat)
    (fallback : Option Resync) (looked : Nat) :
    (searchFrames s input (frames ++ [bottom]) above fallback looked).resync.isSome = true := by
  induction frames generalizing above fallback looked with
  | nil =>
    obtain ⟨state, rest, landed, hstate, hmove, hnewline, heof⟩ := hbottom
    obtain ⟨rfl, rfl⟩ := List.cons.inj hstate
    rw [List.nil_append, searchFrames]
    split
    · next huseful =>
      have hsome := (Bool.and_eq_true _ _ ▸ huseful).2
      obtain ⟨r, hr⟩ := Option.isSome_iff_exists.1 hsome
      exact Option.isSome_iff_exists.2 ⟨r, (Option.mem_filter_iff.1 hr).1⟩
    · rw [hmove]
      dsimp only
      rcases search_lands hnewline heof (max s.options.recoveryLimit 1) input 0 with
        ⟨n, hn⟩ | ⟨n, hn⟩
      · rw [List.map_singleton, hn]
        rfl
      · rw [List.map_singleton, hn]
        simp [searchFrames, Resync.useful?]
  | cons f frames ih =>
    rw [List.cons_append, searchFrames, if_neg (by simp)]
    split
    · dsimp only
      split
      · rfl
      · exact ih _ _ _
    · exact ih _ _ _

/-- A way to go on skips a token or leads to where the next one can follow. -/
theorem searchFrames_progress {l : Lookahead} {ls : List Lookahead} {all : List Frame}
    (frames : List Frame) (above : Nat) (fallback : Option Resync) (looked : Nat)
    (hall : all.drop above = frames) :
    ∀ r ∈ (searchFrames s (l :: ls) frames above fallback looked).resync, 0 < r.skip ∨
      viable s.table (r.state :: (all.drop r.above).map Frame.state) l.token.kind = true := by
  induction frames generalizing above fallback looked with
  | nil =>
    intro r hr
    rw [searchFrames] at hr
    exact Or.inl (by simpa using (Option.mem_filter_iff.1 hr).2)
  | cons f rest ih =>
    have hrest : all.drop (above + 1) = rest := by
      rw [← List.drop_drop, hall]
      rfl
    rw [searchFrames]
    split
    · next huseful =>
      intro r hr
      have hsome := (Bool.and_eq_true _ _ ▸ huseful).2
      obtain ⟨r', hr'⟩ := Option.isSome_iff_exists.1 hsome
      obtain ⟨hmem, hskip⟩ := Option.mem_filter_iff.1 hr'
      have heq : r = r' := Option.some.inj (hr.symm.trans hmem)
      exact Or.inl (by simpa [heq] using hskip)
    · split
      · dsimp only
        split
        · next skip hfound =>
          intro r hr
          cases hr
          by_cases hskip : skip = 0
          · rw [hskip] at hfound
            refine Or.inr ?_
            dsimp only
            rw [hall]
            exact viable_of_search hfound
          · exact Or.inl (Nat.pos_of_ne_zero hskip)
        · exact ih _ _ _ hrest
      · exact ih _ _ _ hrest

/-! ## Each step costs something -/

open Grammar

variable {g : Grammar} {lines line : Nat} {w : Nat → Nat} {read : List Symbol}

/-- The stack is a path, and the end of the text is among the tokens that are left. -/
structure Live (g : Grammar) (m : Machine) (read : List Symbol) : Prop where
  path : g.Path m.states read
  ends : Ends m.input

theorem Live.congr (h : Live g m read) (hf : m'.frames = m.frames) (hi : m'.input = m.input) :
    Live g m' read :=
  ⟨by rw [states, hf]; exact h.path, by rw [hi]; exact h.ends⟩

def tokenCost : Nat := 2 * heaviest + 2

/-- The cost of a machine that has read some symbols. -/
def cost (w : Nat → Nat) (s : Setup) (m : Machine) (read : List Symbol) : Nat :=
  weigh w read + tokenCost * m.input.length +
    if viable s.table m.states (m.next s).kind then 0 else heaviest + 1

theorem cost_congr (hf : m'.frames = m.frames) (hi : m'.input = m.input) :
    cost w s m' read = cost w s m read := by
  rw [cost, cost, next_congr hi, states, states, hf, hi]

theorem cost_le (read : List Symbol) :
    cost w s m read ≤ weigh w read + tokenCost * m.input.length + (heaviest + 1) := by
  rw [cost]
  split <;> omega

variable (ht : g.HasTable s.table) (hl : g.HasLines lines line) (hw : g.Weighted w)

include ht

include hw

/-- A shift costs something. -/
theorem Live.shift (he : s.table.EofOnly) (h : Live g m read) {target : Nat}
    (hm : (s.table.explicitAction m.top.state (m.next s).kind).move = .shift target) :
    ∃ read', Live g (m.shift s target) read' ∧
      cost w s (m.shift s target) read' < cost w s m read := by
  obtain ⟨l, ls, hinput⟩ := List.exists_cons_of_ne_nil h.ends.ne_nil
  have hne : l.token.kind ≠ .eof := by
    intro heof
    rw [next_of_input hinput, heof] at hm
    exact he.shift _ _ hm
  have hrest : (m.shift s target).input = ls := by
    show m.input.tail = ls
    rw [hinput]
    rfl
  refine ⟨_, ⟨path_shift ht h.path hm, ?_⟩, ?_⟩
  · rw [hrest]
    exact (hinput ▸ h.ends).tail hne
  · have hadd := weigh_cons_le hw (.terminal (m.next s).kind) read 0
    have hle := cost_le (s := s) (m := m.shift s target) (w := w)
      (.terminal (m.next s).kind :: read)
    rw [hrest] at hle
    have hcost : weigh w read + tokenCost * (ls.length + 1) ≤ cost w s m read := by
      rw [cost, hinput]
      exact Nat.le_add_right _ _
    rw [List.drop_zero] at hadd
    rw [Nat.mul_succ] at hcost
    unfold tokenCost at *
    omega

/-- Recovery costs something. -/
theorem Live.recover (h : Live g m read) (hd : s.table.default? m.top.state = none)
    (hm : (s.table.explicitAction m.top.state (m.next s).kind).move = .error)
    (hr : m.recover? s = some m') :
    ∃ read', Live g m' read' ∧ cost w s m' read' < cost w s m read := by
  obtain ⟨r, base, rest, looked, hplan, hdrop, hmove, rfl⟩ := recover?_eq_some hr
  have hdrop' : (m.look looked).frames.drop r.above = base :: rest := hdrop
  obtain ⟨l, ls, hinput⟩ := List.exists_cons_of_ne_nil h.ends.ne_nil
  have hskips := searchFrames_skips h.ends m.frames 0 none 0 (fun r hr => by cases hr) r hplan
  have hpath := path_resynchronize (m := m.look looked) ht h.path hdrop' hmove
  have hends := h.ends.drop hskips
  have hrest : ((m.look looked).resynchronize s r).input = m.input.drop r.skip :=
    input_resynchronize hdrop'
  refine ⟨_, ⟨hpath, by rw [hrest]; exact hends⟩, ?_⟩
  have hadd := weigh_cons_le hw (.terminal .error) read r.above
  by_cases hskip : r.skip = 0
  · -- the next token could not follow before, and it can follow now
    have hstuck : viable s.table m.states (m.next s).kind = false := viableFrom_of_error hd hm _ _
    have hviable : viable s.table ((m.look looked).resynchronize s r).states
        (((m.look looked).resynchronize s r).next s).kind = true := by
      have hprogress := searchFrames_progress m.frames 0 none 0 (show m.frames.drop 0 = _ from rfl)
        r (by rw [← hinput]; exact hplan)
      rw [next, ahead, hrest, hskip, List.drop_zero, hinput, states_resynchronize hdrop', ← hdrop]
      exact hprogress.resolve_left (by omega)
    rw [cost, cost, hviable, hstuck, hrest, hskip, List.drop_zero]
    simp only [if_true, Bool.false_eq_true, if_false]
    omega
  · have hle := cost_le (s := s) (m := (m.look looked).resynchronize s r) (w := w)
      (.terminal .error :: read.drop r.above)
    have hlen : m.input.length = (m.input.drop r.skip).length + r.skip := by
      have hpos := List.length_pos_of_ne_nil hends.ne_nil
      rw [List.length_drop] at hpos ⊢
      omega
    have hmul : tokenCost * ((m.input.drop r.skip).length + 1) ≤ tokenCost * m.input.length :=
      Nat.mul_le_mul_left _ (by omega)
    have hcost : weigh w read + tokenCost * m.input.length ≤ cost w s m read :=
      Nat.le_add_right _ _
    rw [hrest] at hle
    rw [Nat.mul_succ] at hmul
    unfold tokenCost at *
    omega

include hl

/-- A reduction costs something. -/
theorem Live.reduce (h : Live g m read) {p n : Nat} (hr : m.reduction? s = some p)
    (he : (m.look n).reduce? s p = some m') :
    ∃ read', Live g m' read' ∧ cost w s m' read' < cost w s m read := by
  have hreduced := reduced?_of_reduction ht.numbered hr he
  obtain ⟨item, hc, rfl, hne⟩ := complete_of_reduction ht hr
  obtain ⟨base, rest, target, hdrop, hread, -, -, heq⟩ := reduce?_of_path ht h.path hr
  have hpath := path_reduced ht h.path hr n he
  have hlight := weigh_reduce ht.wellFormed hl hw h.path hc hne hread
  have hinput : m'.input = m.input := by
    rw [heq n] at he
    cases he
    rfl
  refine ⟨_, ⟨hpath, by rw [hinput]; exact h.ends⟩, ?_⟩
  have hnext : m'.next s = m.next s := next_congr hinput
  have hviable : viable s.table m'.states (m.next s).kind =
      viable s.table m.states (m.next s).kind := by
    rw [Bool.eq_iff_iff, viable_iff ht hl hw hpath, viable_iff ht hl hw h.path,
      canFollow_reduced hreduced]
  rw [cost, cost, hinput, hnext, hviable]
  omega

/-! ## Runs -/

omit hw in
theorem lands_bottom (hw : g.Weighted w) : Lands s.table [ParseTable.startState] := by
  have hstart : g.Path [0] [] := .start
  obtain ⟨landed, hmove, hnewline, heof⟩ := LineStart.landing ht hl
    (hl.lineStart_zero ht.wellFormed) hstart
  have hpath : g.Path [landed, 0] [.terminal .error] :=
    .move .start (ht.next?_of_shift hmove)
  exact ⟨0, [], landed, rfl, hmove, (viable_iff ht hl hw hpath).2 hnewline,
    (viable_iff ht hl hw hpath).2 heof⟩

/-- **Recovery always finds a way to go on.** -/
theorem recover?_isSome (h : g.Path m.states read) : (m.recover? s).isSome = true := by
  obtain ⟨above, habove⟩ := h.bottom
  obtain ⟨frames, bottoms, hframes, -, hbottoms⟩ := List.map_eq_append_iff.1 habove
  obtain ⟨bottom, rest, rfl, hbottom, hrest⟩ := List.map_eq_cons_iff.1 hbottoms
  obtain rfl := List.map_eq_nil_iff.1 hrest
  unfold recover?
  dsimp only
  rw [Option.isSome_map, hframes]
  exact searchFrames_isSome (by rw [hbottom]; exact lands_bottom ht hl hw) _ _ _ _

/-- **A step costs something, or it is acceptance.** -/
theorem Live.step (hs : s.splice = none) (he : s.table.EofOnly) (h : Live g m read) :
    (∃ m' read', m.step s = .running m' ∧ Live g m' read' ∧
      cost w s m' read' < cost w s m read) ∨ m.Accepting s := by
  have hmark {m₁ : Machine} (hstep : m.step s = m₁.markLine s)
      (h₁ : ∃ read', Live g m₁ read' ∧ cost w s m₁ read' < cost w s m read) :
      ∃ m' read', m.step s = .running m' ∧ Live g m' read' ∧
        cost w s m' read' < cost w s m read := by
    obtain ⟨read', hlive, hcost⟩ := h₁
    rw [markLine_of_splice hs] at hstep
    refine ⟨m₁.mark s, read', hstep, hlive.congr (mark_frames s m₁) (mark_input s m₁), ?_⟩
    rw [cost_congr (mark_frames s m₁) (mark_input s m₁)]
    exact hcost
  have heffect := step_effect s m
  generalize ho : m.step s = o at heffect hmark ⊢
  cases heffect with
  | reduce hr _ hm => exact Or.inl (hmark rfl (h.reduce ht hl hw hr hm))
  | @stuck p n hr hm =>
    obtain ⟨base, rest, target, -, -, -, -, heq⟩ := reduce?_of_path ht h.path hr
    rw [heq n] at hm
    cases hm
  | shift _ hm =>
    have hlook : Live g (m.look 1) read := h.congr rfl rfl
    exact Or.inl (hmark rfl (hlook.shift ht hw he hm))
  | accept hd hm => exact Or.inr ⟨hd, hm⟩
  | recover hd hm hr =>
    have hreport : Live g ((m.look 1).report s) read := h.congr (by simp) (by simp)
    have hsame : cost w s ((m.look 1).report s) read = cost w s m read :=
      cost_congr (by simp) (by simp)
    refine Or.inl (hmark rfl ?_)
    rw [← hsame]
    exact hreport.recover ht hw (by simpa using hd) (by simpa using hm) hr
  | abandon _ _ hm =>
    have hreport : g.Path ((m.look 1).report s).states read := by
      rw [states, report_frames]
      exact h.path
    have hsome := recover?_isSome ht hl hw hreport
    rw [hm] at hsome
    cases hsome

/-- **A run ends, by acceptance.** -/
theorem Live.run (hs : s.splice = none) (he : s.table.EofOnly) (h : Live g m read) {fuel : Nat}
    (hfuel : cost w s m read < fuel) : ∃ m', Reaches s m m' ∧ m'.Accepting s ∧
      m.run s fuel = some ((m'.look 1).accept s) := by
  induction fuel generalizing m read with
  | zero => cases hfuel
  | succ fuel ih =>
    rcases h.step ht hl hw hs he with ⟨m₁, read₁, hstep, hlive, hcost⟩ | hacc
    · obtain ⟨m', hreach, hacc, hrun⟩ := ih hlive (by omega)
      exact ⟨m', hreach.head hstep, hacc, by rw [run_succ_of_running hstep, hrun]⟩
    · exact ⟨m, .refl, hacc, run_succ_of_done hacc.step⟩

theorem Live.run_moveLimit (hs : s.splice = none) (he : s.table.EofOnly) (h : Live g m read)
    (hread : weigh w read ≤ heaviest) : ∃ m', Reaches s m m' ∧ m'.Accepting s ∧
      m.run s (s.table.moveLimit m.input.length) = some ((m'.look 1).accept s) := by
  refine h.run ht hl hw hs he (Nat.lt_of_lt_of_le ?_ (ht.le_moveLimit hw m.input.length))
  have hle := cost_le (s := s) (m := m) (w := w) read
  rw [Nat.mul_succ]
  unfold tokenCost at hle
  omega

theorem Live.reaches (hs : s.splice = none) (he : s.table.EofOnly) (h : Live g m read)
    (hreach : Reaches s m m') : ∃ read', Live g m' read' := by
  refine hreach.keeps (P := fun m => ∃ read, Live g m read) ⟨read, h⟩ ?_
  intro m m' ⟨read, hm⟩ hstep
  rcases hm.step ht hl hw hs he with ⟨m₁, read₁, hstep₁, hlive, -⟩ | hacc
  · rw [hstep] at hstep₁
    cases hstep₁
    exact ⟨read₁, hlive⟩
  · rw [hacc.step] at hstep
    cases hstep

/-- What a step from a machine can rely on. -/
structure Steady (s : Setup) (m : Machine) : Prop where
  /-- The end of the text is ahead, so that a look for a token stops. -/
  ends : Ends m.input
  /-- A reduction has a state to go to. -/
  reduce : ∀ p, m.reduction? s = some p → (m.reduce? s p).isSome = true
  /-- Recovery has a way to go on. -/
  recover : (((m.look 1).report s).recover? s).isSome = true
  /-- Where a recovered region can stand, the question what can follow takes finitely many moves,
  fewer than the limit. -/
  viable : ∀ above base rest landed k, m.frames.drop above = base :: rest →
    (s.table.explicitAction base.state .error).move = .shift landed →
    ∃ n < s.table.moveLimit (rest.length + 2),
      s.table.Reduces k n (landed :: (base :: rest).map Frame.state)
  /-- Nothing but acceptance ends the run. -/
  done : ∀ o, m.step s = .done o → m.Accepting s ∧ o = (m.look 1).accept s

theorem Live.steady (hs : s.splice = none) (he : s.table.EofOnly) (h : Live g m read) :
    Steady s m where
  ends := h.ends
  reduce p hr := by
    obtain ⟨base, rest, target, -, -, -, -, heq⟩ := reduce?_of_path ht h.path hr
    rw [← look_zero m, heq 0]
    rfl
  recover := by
    have hreport : g.Path ((m.look 1).report s).states read := by
      rw [states, report_frames]
      exact h.path
    exact recover?_isSome ht hl hw hreport
  viable above base rest landed k hdrop hmove := by
    have hstates : m.states.drop above = base.state :: rest.map Frame.state := by
      rw [states, ← List.map_drop, hdrop, List.map_cons]
    have hpath := Path.move (h.path.drop above hstates)
      (ht.next?_of_shift hmove)
    obtain ⟨n, hn, hreduces⟩ := exists_reduces_lt (k := k) ht hl hw hpath
    refine ⟨n, ?_, hreduces⟩
    simpa using hn
  done o ho := by
    rcases h.step ht hl hw hs he with ⟨m₁, read₁, hstep, -, -⟩ | hacc
    · rw [hstep] at ho
      cases ho
    · rw [hacc.step] at ho
      cases ho
      exact ⟨hacc, rfl⟩

end Machine

end AsmTree
