import AsmTree.Machine.Run

/-!
# What one step does

`Effect` lists the moves of a machine: a reduction, a shift, acceptance, recovery, or giving up.
**Main statement (`step_effect`):** every step is one of them. What a move leaves alone is said by
small lemmas beside it.
-/

namespace AsmTree

namespace Machine

variable {s : Setup} {m m' : Machine}

/-! ## Looking ahead -/

@[simp] theorem look_zero (m : Machine) : m.look 0 = m := by
  rw [look, Nat.max_zero]

@[simp] theorem look_top (m : Machine) (n : Nat) : (m.look n).top = m.top := rfl

@[simp] theorem look_below (m : Machine) (n : Nat) : (m.look n).below = m.below := rfl

@[simp] theorem look_frames (m : Machine) (n : Nat) : (m.look n).frames = m.frames := rfl

@[simp] theorem look_input (m : Machine) (n : Nat) : (m.look n).input = m.input := rfl

@[simp] theorem look_errors (m : Machine) (n : Nat) : (m.look n).errors = m.errors := rfl

@[simp] theorem look_checkpoints (m : Machine) (n : Nat) :
    (m.look n).checkpoints = m.checkpoints := rfl

@[simp] theorem look_lastConsumed (m : Machine) (n : Nat) :
    (m.look n).lastConsumed = m.lastConsumed := rfl

@[simp] theorem look_ahead (m : Machine) (n i : Nat) : (m.look n).ahead s i = m.ahead s i := rfl

def next (s : Setup) (m : Machine) : Token := (m.ahead s 0).token

@[simp] theorem look_next (m : Machine) (n : Nat) : (m.look n).next s = m.next s := rfl

theorem next_congr (hi : m'.input = m.input) : m'.next s = m.next s := by
  rw [next, next, ahead, ahead, hi]

/-! ## Reports change the errors only -/

theorem report_eq (s : Setup) (m : Machine) :
    ∃ errors, m.report s = { m with errors := errors } := by
  unfold report
  dsimp only
  split
  · exact ⟨m.errors, rfl⟩
  · split
    · exact ⟨_, rfl⟩
    · exact ⟨_, rfl⟩
  · exact ⟨_, rfl⟩

@[simp] theorem report_top (s : Setup) (m : Machine) : (m.report s).top = m.top := by
  obtain ⟨errors, h⟩ := report_eq s m
  rw [h]

@[simp] theorem report_frames (s : Setup) (m : Machine) : (m.report s).frames = m.frames := by
  obtain ⟨errors, h⟩ := report_eq s m
  rw [h]
  rfl

@[simp] theorem report_input (s : Setup) (m : Machine) : (m.report s).input = m.input := by
  obtain ⟨errors, h⟩ := report_eq s m
  rw [h]

@[simp] theorem report_next (s : Setup) (m : Machine) : (m.report s).next s = m.next s := by
  obtain ⟨errors, h⟩ := report_eq s m
  rw [h]
  rfl

@[simp] theorem report_checkpoints (s : Setup) (m : Machine) :
    (m.report s).checkpoints = m.checkpoints := by
  obtain ⟨errors, h⟩ := report_eq s m
  rw [h]

@[simp] theorem report_lastConsumed (s : Setup) (m : Machine) :
    (m.report s).lastConsumed = m.lastConsumed := by
  obtain ⟨errors, h⟩ := report_eq s m
  rw [h]

@[simp] theorem report_seen (s : Setup) (m : Machine) : (m.report s).seen = m.seen := by
  obtain ⟨errors, h⟩ := report_eq s m
  rw [h]

/-! ## Marks -/

/-- The machine with the end of a line recorded, if it stands at one. -/
def mark (s : Setup) (m : Machine) : Machine :=
  if m.atLineEnd s then { m with checkpoints := m.checkpoints.push (m.checkpoint s) } else m

theorem mark_eq (s : Setup) (m : Machine) :
    ∃ checkpoints, m.mark s = { m with checkpoints := checkpoints } := by
  unfold mark
  split
  · exact ⟨_, rfl⟩
  · exact ⟨m.checkpoints, rfl⟩

@[simp] theorem mark_top (s : Setup) (m : Machine) : (m.mark s).top = m.top := by
  obtain ⟨checkpoints, h⟩ := mark_eq s m
  rw [h]

@[simp] theorem mark_below (s : Setup) (m : Machine) : (m.mark s).below = m.below := by
  obtain ⟨checkpoints, h⟩ := mark_eq s m
  rw [h]

@[simp] theorem mark_frames (s : Setup) (m : Machine) : (m.mark s).frames = m.frames := by
  obtain ⟨checkpoints, h⟩ := mark_eq s m
  rw [h]
  rfl

@[simp] theorem mark_input (s : Setup) (m : Machine) : (m.mark s).input = m.input := by
  obtain ⟨checkpoints, h⟩ := mark_eq s m
  rw [h]

@[simp] theorem mark_seen (s : Setup) (m : Machine) : (m.mark s).seen = m.seen := by
  obtain ⟨checkpoints, h⟩ := mark_eq s m
  rw [h]

theorem markLine_of_splice (hs : s.splice = none) (m : Machine) :
    m.markLine s = .running (m.mark s) := by
  unfold markLine mark
  split
  · rw [hs]
    rfl
  · rfl

/-! ## Skipped tokens -/

@[simp] theorem skipTokens_input (n : Nat) (m : Machine) (backward : List Tree) :
    (skipTokens s n m backward).1.input = m.input.drop n := by
  induction n generalizing m backward with
  | zero => rfl
  | succ n ih =>
    rw [skipTokens, ih]
    simp [consume]

@[simp] theorem skipTokens_frames (n : Nat) (m : Machine) (backward : List Tree) :
    (skipTokens s n m backward).1.frames = m.frames := by
  induction n generalizing m backward with
  | zero => rfl
  | succ n ih =>
    rw [skipTokens, ih]
    rfl

/-! ## Reductions -/

/-- The frame that a reduction makes of the frames that it pops. -/
def reducedFrame (t : ParseTable) (r : Reduction) (popped : List Frame) (base : Frame)
    (state : Nat) : Frame where
  state := state
  backward := match r.kind with
    | some k => wrap t k (Frame.joined popped)
    | none => Frame.joined popped
  stop := match popped with
    | [] => base.stop
    | f :: _ => f.stop

/-- What a reduction needs and what it makes. -/
theorem reduce?_eq_some {p : Nat} : m.reduce? s p = some m' ↔ ∃ base rest state,
    m.frames.drop (s.table.production p).length = base :: rest ∧
    s.table.goto? base.state (s.table.production p).lhs = some state ∧
    m' = { m with
      top := reducedFrame s.table (s.table.production p)
        (m.frames.take (s.table.production p).length) base state
      below := base :: rest } := by
  unfold reduce?
  dsimp only
  split
  · next h => simp [h]
  · next base rest h =>
    split
    · next hgoto =>
      constructor
      · intro he
        cases he
      · rintro ⟨base', rest', state, hdrop, hgoto', -⟩
        rw [h] at hdrop
        cases hdrop
        rw [hgoto] at hgoto'
        cases hgoto'
    · next state hgoto =>
      constructor
      · intro he
        exact ⟨base, rest, state, h, hgoto, (Option.some.inj he).symm⟩
      · rintro ⟨base', rest', state', hdrop, hgoto', he⟩
        rw [h] at hdrop
        cases hdrop
        rw [hgoto] at hgoto'
        cases hgoto'
        rw [he]
        rfl

/-- The production that the machine reduces by next, if it does. -/
def reduction? (s : Setup) (m : Machine) : Option Nat :=
  match s.table.default? m.top.state with
  | some p => some p
  | none =>
    match (s.table.explicitAction m.top.state (m.next s).kind).move with
    | .reduce p => some p
    | _ => none

/-! ## Steps -/

/-- What a step can do to a machine. -/
inductive Effect (s : Setup) (m : Machine) : Outcome → Prop where
  /-- The frames of a production are replaced. `n` is how many tokens have been looked at. -/
  | reduce {p n : Nat} {m' : Machine} : m.reduction? s = some p →
    (n = 0 ∧ (s.table.default? m.top.state).isSome ∨ n = 1) →
    (m.look n).reduce? s p = some m' → Effect s m (m'.markLine s)
  /-- The table has no state for the nonterminal of a production. -/
  | stuck {p n : Nat} : m.reduction? s = some p → (m.look n).reduce? s p = none →
    Effect s m (.done (({ m.look n with
      errors := (m.look n).errors.push (.internalError (m.look n).top.stop) }).abandon s))
  /-- The next token goes to the stack. -/
  | shift {target : Nat} : s.table.default? m.top.state = none →
    (s.table.explicitAction m.top.state (m.next s).kind).move = .shift target →
    Effect s m (((m.look 1).shift s target).markLine s)
  /-- The input is complete. -/
  | accept : s.table.default? m.top.state = none →
    (s.table.explicitAction m.top.state (m.next s).kind).move = .accept →
    Effect s m (.done ((m.look 1).accept s))
  /-- The next token is reported, and something is wrapped into an error node. -/
  | recover {m' : Machine} : s.table.default? m.top.state = none →
    (s.table.explicitAction m.top.state (m.next s).kind).move = .error →
    ((m.look 1).report s).recover? s = some m' → Effect s m (m'.markLine s)
  /-- The next token is reported, and there is no way to go on. -/
  | abandon : s.table.default? m.top.state = none →
    (s.table.explicitAction m.top.state (m.next s).kind).move = .error →
    ((m.look 1).report s).recover? s = none →
    Effect s m (.done (((m.look 1).report s).abandon s))

/-- **Every step is one of the moves.** -/
theorem step_effect (s : Setup) (m : Machine) : Effect s m (m.step s) := by
  unfold step
  split
  · next p hd =>
    have hr : m.reduction? s = some p := by
      unfold reduction?
      rw [hd]
    unfold stepReduce
    split
    · next m' hm' =>
      refine .reduce (n := 0) hr (Or.inl ⟨rfl, by rw [hd]; rfl⟩) ?_
      rw [look_zero]
      exact hm'
    · next hnone =>
      have h := Effect.stuck (n := 0) hr (by rw [look_zero]; exact hnone)
      rw [look_zero] at h
      exact h
  · next hd =>
    dsimp only
    split
    · next target hmove => exact .shift hd hmove
    · next p hmove =>
      have hr : m.reduction? s = some p := by
        unfold reduction?
        rw [hd]
        dsimp only
        rw [show (s.table.explicitAction m.top.state (m.next s).kind).move = .reduce p from hmove]
      unfold stepReduce
      split
      · next m' hm' => exact .reduce hr (Or.inr rfl) hm'
      · next hnone => exact .stuck (n := 1) hr hnone
    · next hmove => exact .accept hd hmove
    · next hmove =>
      split
      · next m' hm' => exact .recover hd hmove hm'
      · next hnone => exact .abandon hd hmove hnone

end Machine

end AsmTree
