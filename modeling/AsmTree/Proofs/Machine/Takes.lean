import AsmTree.Proofs.Machine.DryRuns
import AsmTree.Proofs.Machine.Moves
import AsmTree.Proofs.Machine.Reports

/-!
# Dry runs and real ones

Before recovery goes on at some frame, it tries the next token in a dry run, which leaves the stack
of the machine alone: states are pushed over it and taken away again, and where they run out the
frames below are passed. **Main statements:**

* `dryRun_eq_some`: over the stack a dry run does what the reductions do to the list of all states;
* `takes_iff` and `rejects_or_sticks`: where a dry run says that the token can follow, the machine
  reduces until it shifts the token or accepts, and else it comes to an error or to a reduction
  that fails.
-/

namespace AsmTree

/-! ## States over a stack -/

/-- What a dry run has pushed, the last state first, and the frames that are left under it. -/
structure Overlay where
  pushed : List Nat
  frames : List Frame

namespace Overlay

variable (o : Overlay)

def top? : Option Nat := o.pushed.head?.or (o.frames.head?.map Frame.state)

def pop : Overlay :=
  match o.pushed with
  | [] => { o with frames := o.frames.tail }
  | _ :: pushed => { o with pushed }

def popMany : Nat → Overlay → Overlay
  | 0, o => o
  | n + 1, o => popMany n o.pop

def push (state : Nat) : Overlay := { o with pushed := state :: o.pushed }

def states : List Nat := o.pushed ++ o.frames.map Frame.state

@[simp] theorem states_push (state : Nat) : (o.push state).states = state :: o.states := rfl

theorem top?_eq : o.top? = o.states.head? := by
  rw [top?, states, List.head?_append, List.head?_map]

theorem states_pop : o.pop.states = o.states.tail := by
  obtain ⟨pushed, frames⟩ := o
  cases pushed with
  | nil => exact List.map_tail
  | cons state pushed => rfl

@[simp] theorem states_popMany (n : Nat) : (o.popMany n).states = o.states.drop n := by
  induction n generalizing o with
  | zero => rfl
  | succ n ih => rw [popMany, ih, states_pop, List.drop_tail]

end Overlay

namespace Machine

/-- The dry run of a token over a stack, `fuel` moves at most: whether the token would be shifted or
accepted. There is no answer if the run is not over by then. -/
def dryRun (t : ParseTable) (k : Kind) : Nat → Overlay → Option Bool
  | 0, _ => none
  | fuel + 1, o =>
    match o.top? with
    | none => some false
    | some state =>
      match (t.action state k).move with
      | .shift _ | .accept => some true
      | .error => some false
      | .reduce p =>
        let below := o.popMany (t.production p).length
        match below.top? with
        | none => some false
        | some base =>
          match t.goto? base (t.production p).lhs with
          | none => some false
          | some next => dryRun t k fuel (below.push next)

section DryRun

variable {t : ParseTable} {k : Kind} {o : Overlay} {fuel : Nat} {states : List Nat} {b : Bool}

theorem dryRun_of_some (h : t.reduced? k o.states = some states) :
    ∃ o' : Overlay, o'.states = states ∧ ∀ fuel, dryRun t k (fuel + 1) o = dryRun t k fuel o' := by
  obtain ⟨state, rest, p, base, below, next, hstates, hm, hdrop, hgoto, rfl⟩ :=
    ParseTable.reduced?_eq_some.1 h
  refine ⟨(o.popMany (t.production p).length).push next, by simp [hdrop], fun fuel => ?_⟩
  rw [dryRun, Overlay.top?_eq, hstates, List.head?_cons]
  simp only [hm, Overlay.top?_eq, Overlay.states_popMany, hdrop, List.head?_cons, hgoto]

/-- Where no reduction is left, the dry run is over. -/
theorem dryRun_of_none (h : t.reduced? k o.states = none) :
    dryRun t k (fuel + 1) o = some (viableFrom t k 1 o.states) := by
  rw [viableFrom_succ, h, dryRun, Overlay.top?_eq]
  cases hstates : o.states with
  | nil => rfl
  | cons state rest =>
    rw [hstates, ParseTable.reduced?] at h
    rw [List.head?_cons]
    cases hm : (t.action state k).move with
    | error => simp [hm]
    | accept => simp [hm]
    | shift _ => simp [hm]
    | reduce p =>
      simp only [hm, Overlay.top?_eq, Overlay.states_popMany, hstates] at h ⊢
      cases hdrop : (state :: rest).drop (t.production p).length with
      | nil => rfl
      | cons base below =>
        rw [hdrop] at h
        rw [List.head?_cons]
        dsimp only
        rw [Option.map_eq_none_iff.1 h]

/-- **A dry run over a stack has an answer if the reductions come to an end**, and the answer is
whether the token can follow on the list of all states. -/
theorem dryRun_eq_some : (∃ fuel, dryRun t k fuel o = some b) ↔
    (∃ n, t.Reduces k n o.states) ∧ (b = true ↔ CanFollow t o.states k) := by
  constructor
  · rintro ⟨fuel, h⟩
    induction fuel generalizing o with
    | zero => cases h
    | succ fuel ih =>
      cases hr : t.reduced? k o.states with
      | none =>
        rw [dryRun_of_none hr] at h
        cases h
        exact ⟨⟨0, .stop hr⟩, viableFrom_of_reduces (.stop hr) Nat.zero_lt_one⟩
      | some states =>
        obtain ⟨o', rfl, hnext⟩ := dryRun_of_some hr
        rw [hnext] at h
        obtain ⟨⟨n, hreduces⟩, hb⟩ := ih h
        exact ⟨⟨n + 1, .move hr hreduces⟩, hb.trans (canFollow_reduced hr).symm⟩
  · rintro ⟨⟨n, hreduces⟩, hb⟩
    generalize hstates : o.states = states at hreduces
    induction hreduces generalizing o with
    | stop hnone =>
      subst hstates
      have hone := viableFrom_of_reduces (.stop hnone) Nat.zero_lt_one
      refine ⟨1, ?_⟩
      rw [dryRun_of_none hnone, Bool.eq_iff_iff.2 (hone.trans hb.symm)]
    | move hsome _ ih =>
      subst hstates
      obtain ⟨o', ho', hnext⟩ := dryRun_of_some hsome
      rw [canFollow_reduced hsome, ← ho'] at hb
      obtain ⟨fuel, h⟩ := ih hb ho'
      exact ⟨fuel + 1, (hnext fuel).trans h⟩

end DryRun

/-! ## Real runs -/

/-- Machines that a machine passes as long as it reduces. -/
inductive ReducesTo (s : Setup) (m : Machine) : Machine → Prop where
  | refl : ReducesTo s m m
  | step {m₁ m₂ : Machine} {p : Nat} : ReducesTo s m m₁ → m₁.reduction? s = some p →
    m₁.step s = .running m₂ → ReducesTo s m m₂

/-- The machine reduces, and then shifts the next token or accepts. -/
def Takes (s : Setup) (m : Machine) : Prop :=
  ∃ m', ReducesTo s m m' ∧ s.table.default? m'.top.state = none ∧
    ((∃ target, (s.table.explicitAction m'.top.state (m'.next s).kind).move = .shift target) ∨
      (s.table.explicitAction m'.top.state (m'.next s).kind).move = .accept)

/-- The machine reduces, and then has no move for the next token. -/
def Rejects (s : Setup) (m : Machine) : Prop :=
  ∃ m', ReducesTo s m m' ∧ s.table.default? m'.top.state = none ∧
    (s.table.explicitAction m'.top.state (m'.next s).kind).move = .error

/-- The machine reduces, and then a reduction fails. -/
def Sticks (s : Setup) (m : Machine) : Prop := ∃ m', ReducesTo s m m' ∧ m'.Stuck s

variable {s : Setup} {m m' : Machine} {p n : Nat}

theorem skipTokens_seen (n : Nat) (m : Machine) (backward : List Tree) :
    (skipTokens s n m backward).1.seen = m.seen - n := by
  induction n generalizing m backward with
  | zero => rfl
  | succ n ih =>
    rw [skipTokens, ih]
    show m.seen - 1 - n = m.seen - (n + 1)
    omega

theorem seen_resynchronize {r : Resync} {base : Frame} {rest : List Frame}
    (h : m.frames.drop r.above = base :: rest) :
    (m.resynchronize s r).seen = m.seen - r.skip := by
  unfold resynchronize
  rw [h]
  exact skipTokens_seen _ _ _

theorem ReducesTo.head {m₁ : Machine} (hr : m.reduction? s = some p)
    (hstep : m.step s = .running m₁) (h : ReducesTo s m₁ m') : ReducesTo s m m' := by
  induction h with
  | refl => exact .step .refl hr hstep
  | step _ hr' hstep' ih => exact .step ih hr' hstep'

theorem markLine_of_seen (h : m.seen ≠ 0) : m.markLine s = .running m := by
  have hend : m.atLineEnd s = false := by simp [atLineEnd, h]
  unfold markLine
  rw [hend]
  rfl

/-- What the step of a machine is that reduces next. -/
theorem stepReduce_of_reduction (hr : m.reduction? s = some p) :
    ∃ n, m.step s = (m.look n).stepReduce s p := by
  unfold reduction? at hr
  cases hd : s.table.default? m.top.state with
  | some q =>
    rw [hd] at hr
    cases hr
    exact ⟨0, by rw [look_zero, step_of_default hd]⟩
  | none =>
    rw [hd] at hr
    dsimp only at hr
    split at hr
    · next q hm =>
      cases hr
      exact ⟨1, step_of_reduce hd hm⟩
    · cases hr

variable (ht : s.table.Numbered)

include ht

/-- A machine that has looked at its next token makes the reductions of its list of states. -/
theorem step_of_reduced? (hseen : m.seen ≠ 0) {states' : List Nat}
    (h : s.table.reduced? (m.next s).kind m.states = some states') :
    ∃ p m₁, m.reduction? s = some p ∧ m.step s = .running m₁ ∧ m₁.states = states' ∧
      m₁.input = m.input ∧ m₁.seen ≠ 0 := by
  obtain ⟨state, rest, p, base, below, next, hstates, hm, -⟩ := ParseTable.reduced?_eq_some.1 h
  obtain ⟨rfl, -⟩ := List.cons.inj (show m.top.state :: m.below.map Frame.state = _ from hstates)
  have hr := (reduction?_eq_some ht).2 hm
  obtain ⟨n, hstep⟩ := stepReduce_of_reduction hr
  have hmap := map_states_reduce? ht hr n
  rw [h, Option.map_eq_some_iff] at hmap
  obtain ⟨m₁, hreduce, hstates'⟩ := hmap
  obtain ⟨base, rest, state, -, -, he⟩ := reduce?_eq_some.1 hreduce
  have hseen' : m₁.seen ≠ 0 := by
    rw [he]
    exact Nat.ne_of_gt (Nat.lt_of_lt_of_le (Nat.pos_of_ne_zero hseen) (Nat.le_max_left _ _))
  refine ⟨p, m₁, hr, ?_, hstates', by rw [he, look_input], hseen'⟩
  rw [hstep, stepReduce, hreduce]
  exact markLine_of_seen hseen'

/-- Where no reduction of the list of states is left, the machine shifts or accepts, or it has no
move, or a reduction fails. -/
theorem cases_of_reduced?_eq_none (h : s.table.reduced? (m.next s).kind m.states = none) :
    (CanFollow s.table m.states (m.next s).kind ∧ m.Takes s) ∨
      (¬ CanFollow s.table m.states (m.next s).kind ∧ (m.Rejects s ∨ m.Sticks s)) := by
  have hcan : CanFollow s.table (m.top.state :: m.below.map Frame.state) (m.next s).kind ↔ _ :=
    canFollow_of_reduced?_eq_none h
  rw [← List.map_cons, ← frames, ← states] at hcan
  rw [hcan]
  cases hr : m.reduction? s with
  | some p =>
    rw [(reduction?_eq_some ht).1 hr]
    have hmap := map_states_reduce? ht hr 0
    rw [h, Option.map_eq_none_iff] at hmap
    exact .inr ⟨by simp, .inr ⟨m, .refl, p, hr, 0, hmap⟩⟩
  | none =>
    unfold reduction? at hr
    cases hd : s.table.default? m.top.state with
    | some q =>
      rw [hd] at hr
      cases hr
    | none =>
      rw [hd] at hr
      rw [ParseTable.action, hd]
      dsimp only at hr ⊢
      cases hm : (s.table.explicitAction m.top.state (m.next s).kind).move with
      | shift target => exact .inl ⟨.inl ⟨target, rfl⟩, m, .refl, hd, .inl ⟨target, hm⟩⟩
      | accept => exact .inl ⟨.inr rfl, m, .refl, hd, .inr hm⟩
      | error => exact .inr ⟨by simp, .inl ⟨m, .refl, hd, hm⟩⟩
      | reduce p =>
        rw [hm] at hr
        cases hr

/-- **A machine that has looked at its next token does what the dry run says**, if the dry run comes
to an end. -/
theorem takes_or_rejects {states' : List Nat} (hseen : m.seen ≠ 0) (hstates : m.states = states')
    (h : s.table.Reduces (m.next s).kind n states') :
    (CanFollow s.table m.states (m.next s).kind ∧ m.Takes s) ∨
      (¬ CanFollow s.table m.states (m.next s).kind ∧ (m.Rejects s ∨ m.Sticks s)) := by
  generalize hk : (m.next s).kind = k at h
  induction h generalizing m with
  | stop hnone =>
    subst hstates hk
    exact cases_of_reduced?_eq_none ht hnone
  | move hsome _ ih =>
    subst hstates hk
    obtain ⟨p, m₁, hr, hstep, hstates', hinput, hseen'⟩ := step_of_reduced? ht hseen hsome
    have hnext : m₁.next s = m.next s := next_congr hinput
    have hcan := canFollow_reduced hsome
    rw [← hstates'] at hcan
    have hcases := ih hseen' hstates' (by rw [hnext])
    rw [← hcan] at hcases
    rcases hcases with ⟨hyes, m', hto, htakes⟩ | ⟨hno, ⟨m', hto, hrejects⟩ | ⟨m', hto, hsticks⟩⟩
    · exact .inl ⟨hyes, m', hto.head hr hstep, htakes⟩
    · exact .inr ⟨hno, .inl ⟨m', hto.head hr hstep, hrejects⟩⟩
    · exact .inr ⟨hno, .inr ⟨m', hto.head hr hstep, hsticks⟩⟩

omit ht in
/-- A line end that is passed is recorded at most. -/
theorem eq_mark_of_markLine (h : m.markLine s = .running m') : m' = m.mark s := by
  unfold markLine at h
  unfold mark
  split at h
  · next hend =>
    rw [if_pos hend]
    dsimp only at h
    split at h
    · cases h
    · exact (Outcome.running.inj h).symm
  · next hend =>
    rw [if_neg hend]
    exact (Outcome.running.inj h).symm

/-- A reduction of the machine is one of its list of states. -/
theorem reduced?_of_step (hr : m.reduction? s = some p) (hstep : m.step s = .running m') :
    s.table.reduced? (m.next s).kind m.states = some m'.states ∧ m'.input = m.input := by
  obtain ⟨n, hsteps⟩ := stepReduce_of_reduction hr
  rw [hsteps, stepReduce] at hstep
  rw [← map_states_reduce? ht hr n]
  cases hreduce : (m.look n).reduce? s p with
  | none =>
    rw [hreduce] at hstep
    cases hstep
  | some m₁ =>
    rw [hreduce] at hstep
    obtain ⟨base, rest, state, -, -, rfl⟩ := reduce?_eq_some.1 hreduce
    rw [eq_mark_of_markLine hstep, Option.map_some, states_mark, mark_input]
    exact ⟨rfl, rfl⟩

/-- A token that the machine takes can follow. -/
theorem Takes.canFollow (h : m.Takes s) : CanFollow s.table m.states (m.next s).kind := by
  obtain ⟨m', hto, hd, hmove⟩ := h
  have haction : s.table.action m'.top.state (m'.next s).kind =
      s.table.explicitAction m'.top.state (m'.next s).kind := by rw [ParseTable.action, hd]
  have hend : CanFollow s.table (m'.top.state :: m'.below.map Frame.state) (m'.next s).kind := by
    refine canFollow_of_move ?_
    rw [haction]
    exact hmove
  rw [← List.map_cons, ← frames, ← states] at hend
  clear hd hmove haction
  induction hto with
  | refl => exact hend
  | step _ hr hstep ih =>
    obtain ⟨hreduced, hinput⟩ := reduced?_of_step ht hr hstep
    rw [next_congr hinput] at hend
    exact ih ((canFollow_reduced hreduced).2 hend)

/-- **Where the dry run of its next token comes to an end, a machine takes the token exactly if the
token can follow.** -/
theorem takes_iff (hseen : m.seen ≠ 0) (h : s.table.Reduces (m.next s).kind n m.states) :
    m.Takes s ↔ CanFollow s.table m.states (m.next s).kind := by
  refine ⟨Takes.canFollow ht, fun hcan => ?_⟩
  rcases takes_or_rejects ht hseen rfl h with ⟨-, htakes⟩ | ⟨hno, -⟩
  · exact htakes
  · exact absurd hcan hno

/-- **Else it comes to an error, or to a reduction that fails.** -/
theorem rejects_or_sticks (hseen : m.seen ≠ 0) (h : s.table.Reduces (m.next s).kind n m.states)
    (hno : ¬ CanFollow s.table m.states (m.next s).kind) : m.Rejects s ∨ m.Sticks s := by
  rcases takes_or_rejects ht hseen rfl h with ⟨hcan, -⟩ | ⟨-, hcases⟩
  · exact absurd hcan hno
  · exact hcases

end Machine

end AsmTree
