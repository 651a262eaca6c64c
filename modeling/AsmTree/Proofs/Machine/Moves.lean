import AsmTree.Proofs.Machine.Steps

/-!
# Moves written out

Equations for the moves of a machine: which move a step is, what skipping tokens leaves, and what
recovery makes of a stack. **Main statement (`resynchronize_eq`):** after recovery the frames above
one and the skipped tokens stand in one frame, and nothing else of the stack has changed.
-/

namespace AsmTree

/-- The same setup for a text that ends elsewhere, whether or not earlier trees are used. -/
def Setup.like (s : Setup) (stop : Token) (incremental : Bool) : Setup :=
  { s with stop, options := { s.options with incremental } }

section Like

variable (s : Setup) (stop : Token) (incremental : Bool)

@[simp] theorem Setup.table_like : (s.like stop incremental).table = s.table := rfl

@[simp] theorem Setup.splice_like : (s.like stop incremental).splice = s.splice := rfl

@[simp] theorem Setup.recoveryLimit_like :
    (s.like stop incremental).options.recoveryLimit = s.options.recoveryLimit := rfl

@[simp] theorem Setup.recordCheckpoints_like :
    (s.like stop incremental).options.recordCheckpoints = s.options.recordCheckpoints := rfl

end Like

namespace Machine

variable {s : Setup} {m m' : Machine} {l : Lookahead} {ls : List Lookahead}

/-! ## Which move a step is -/

theorem step_of_default {p : Nat} (hd : s.table.default? m.top.state = some p) :
    m.step s = m.stepReduce s p := by
  unfold step
  rw [hd]

theorem step_of_shift {target : Nat} (hd : s.table.default? m.top.state = none)
    (hm : (s.table.explicitAction m.top.state (m.next s).kind).move = .shift target) :
    m.step s = ((m.look 1).shift s target).markLine s := by
  unfold step
  rw [hd]
  dsimp only
  rw [show (s.table.explicitAction (m.look 1).top.state
    ((m.look 1).ahead s 0).token.kind).move = _ from hm]

theorem step_of_reduce {p : Nat} (hd : s.table.default? m.top.state = none)
    (hm : (s.table.explicitAction m.top.state (m.next s).kind).move = .reduce p) :
    m.step s = (m.look 1).stepReduce s p := by
  unfold step
  rw [hd]
  dsimp only
  rw [show (s.table.explicitAction (m.look 1).top.state
    ((m.look 1).ahead s 0).token.kind).move = _ from hm]

theorem step_of_accept (hd : s.table.default? m.top.state = none)
    (hm : (s.table.explicitAction m.top.state (m.next s).kind).move = .accept) :
    m.step s = .done ((m.look 1).accept s) := by
  unfold step
  rw [hd]
  dsimp only
  rw [show (s.table.explicitAction (m.look 1).top.state
    ((m.look 1).ahead s 0).token.kind).move = _ from hm]

theorem step_of_error (hd : s.table.default? m.top.state = none)
    (hm : (s.table.explicitAction m.top.state (m.next s).kind).move = .error) :
    m.step s = match ((m.look 1).report s).recover? s with
      | some m' => m'.markLine s
      | none => .done (((m.look 1).report s).abandon s) := by
  have hmove : (s.table.explicitAction (m.look 1).top.state
    ((m.look 1).ahead s 0).token.kind).move = .error := hm
  unfold step
  rw [hd]
  dsimp only
  split
  · next h => cases hmove.symm.trans h
  · next h => cases hmove.symm.trans h
  · next h => cases hmove.symm.trans h
  · rfl

theorem stepReduce_eq_running (hs : s.splice = none) {p : Nat} :
    m.stepReduce s p = .running m' ↔ ∃ m₁, m.reduce? s p = some m₁ ∧ m' = m₁.mark s := by
  unfold stepReduce
  cases m.reduce? s p with
  | none => simp
  | some m₁ => simp [markLine_of_splice hs, eq_comm]

/-- Without an earlier tree a step goes on by a reduction, by a shift or by recovery. -/
theorem step_eq_running (hs : s.splice = none) : m.step s = .running m' ↔
    (∃ p m₁, s.table.default? m.top.state = some p ∧ m.reduce? s p = some m₁ ∧ m' = m₁.mark s) ∨
    s.table.default? m.top.state = none ∧
      ((∃ target, (s.table.explicitAction m.top.state (m.next s).kind).move = .shift target ∧
        m' = ((m.look 1).shift s target).mark s) ∨
      (∃ p m₁, (s.table.explicitAction m.top.state (m.next s).kind).move = .reduce p ∧
        (m.look 1).reduce? s p = some m₁ ∧ m' = m₁.mark s) ∨
      (s.table.explicitAction m.top.state (m.next s).kind).move = .error ∧
        ∃ m₁, ((m.look 1).report s).recover? s = some m₁ ∧ m' = m₁.mark s) := by
  cases hd : s.table.default? m.top.state with
  | some p => simp [step_of_default hd, stepReduce_eq_running hs]
  | none =>
    cases hm : (s.table.explicitAction m.top.state (m.next s).kind).move with
    | shift target => simp [step_of_shift hd hm, markLine_of_splice hs, eq_comm]
    | reduce p => simp [step_of_reduce hd hm, stepReduce_eq_running hs]
    | accept => simp [step_of_accept hd hm]
    | error =>
      rw [step_of_error hd hm]
      cases ((m.look 1).report s).recover? s with
      | none => simp
      | some m₁ => simp [markLine_of_splice hs, eq_comm]

/-! ## Tokens that leave the input -/

/-- What is reported of tokens when they leave the input. -/
def unreadables (ls : List Lookahead) : List Diagnostic :=
  ls.filterMap fun l => if l.token.kind = .unknown then some (.unreadable l.token) else none

theorem unreadables_cons (l : Lookahead) (ls : List Lookahead) :
    unreadables (l :: ls) = unreadables [l] ++ unreadables ls := by
  rw [← List.singleton_append, unreadables, List.filterMap_append]
  rfl

theorem consume_eq (h : m.input = l :: ls) : m.consume s =
    { m with
      input := ls
      seen := m.seen - 1
      errors := m.errors ++ (unreadables [l]).toArray
      lastConsumed := some l.token.kind } := by
  have hahead : m.ahead s 0 = l := by
    rw [ahead, h]
    rfl
  unfold consume
  rw [hahead, h]
  by_cases hk : l.token.kind = .unknown
  · simp [unreadables, hk]
  · simp [unreadables, hk]

/-- What a shift makes of a machine. -/
theorem shift_eq (h : m.input = l :: ls) (target : Nat) : m.shift s target =
    { m with
      top := ⟨target, l.trees.reverse, l.token.stop⟩
      below := m.frames
      input := ls
      seen := m.seen - 1
      errors := m.errors ++ (unreadables [l]).toArray
      lastConsumed := some l.token.kind } := by
  have hahead : m.ahead s 0 = l := by
    rw [ahead, h]
    rfl
  unfold shift
  rw [hahead, consume_eq h]
  rfl

/-- What skipping some tokens leaves. -/
theorem skipTokens_eq {n : Nat} (hn : n ≤ m.input.length) (backward : List Tree) :
    skipTokens s n m backward =
      ({ m with
        input := m.input.drop n
        seen := m.seen - n
        errors := m.errors ++ (unreadables (m.input.take n)).toArray
        lastConsumed := ((m.input.take n).getLast?.map (·.token.kind)).or m.lastConsumed },
      ((m.input.take n).flatMap Lookahead.trees).reverse ++ backward) := by
  induction n generalizing m backward with
  | zero => simp [skipTokens, unreadables]
  | succ n ih =>
    obtain ⟨l, ls, hinput⟩ : ∃ l ls, m.input = l :: ls := by
      cases h : m.input with
      | nil =>
        rw [h] at hn
        exact absurd hn (Nat.not_succ_le_zero n)
      | cons l ls => exact ⟨l, ls, rfl⟩
    have hahead : m.ahead s 0 = l := by
      rw [ahead, hinput]
      rfl
    rw [hinput, List.length_cons] at hn
    rw [skipTokens, hahead, consume_eq hinput, ih (by exact Nat.le_of_succ_le_succ hn)]
    rw [hinput, List.take_succ_cons, List.drop_succ_cons, List.flatMap_cons]
    dsimp only
    have hlast : ((ls.take n).getLast?.map (·.token.kind)).or (some l.token.kind) =
        ((l :: ls.take n).getLast?.map (·.token.kind)).or m.lastConsumed := by
      cases ls.take n with
      | nil => rfl
      | cons l' ls' =>
        rw [List.getLast?_cons_cons, List.getLast?_eq_some_getLast (List.cons_ne_nil l' ls')]
        rfl
    rw [Nat.sub_sub, Nat.add_comm 1 n, hlast, unreadables_cons l (ls.take n),
      ← List.append_toArray, ← Array.append_assoc, List.reverse_append, List.append_assoc]

/-! ## Recovery -/

/-- The search through the stack at one frame. -/
theorem searchFrames_cons (s : Setup) (input : List Lookahead) (f : Frame) (rest : List Frame)
    (above : Nat) (fallback : Option Resync) (looked : Nat) :
    searchFrames s input (f :: rest) above fallback looked =
      if rest.isEmpty && (Resync.useful? fallback).isSome then ⟨fallback, looked⟩
      else
        match (s.table.explicitAction f.state .error).move with
        | .shift state =>
          match search (viable s.table (state :: (f :: rest).map Frame.state))
              (max s.options.recoveryLimit 1) input 0 with
          | .found skip => ⟨some ⟨above, state, skip⟩, max looked (skip + 1)⟩
          | .none skip n => searchFrames s input rest (above + 1) (some ⟨above, state, skip⟩)
              (max looked n)
        | _ => searchFrames s input rest (above + 1) fallback looked := rfl

/-- The trees that recovery wraps, the last one first. -/
def recovered (m : Machine) (r : Resync) : List Tree :=
  ((m.input.take r.skip).flatMap Lookahead.trees).reverse ++ Frame.joined (m.frames.take r.above)

/-- **What recovery makes of a machine.** -/
theorem resynchronize_eq {r : Resync} {base : Frame} {rest : List Frame}
    (hdrop : m.frames.drop r.above = base :: rest) (hskip : r.skip ≤ m.input.length) :
    m.resynchronize s r =
      { m with
        top := ⟨r.state, wrap s.table .error (m.recovered r),
          base.stop + Tree.lengthAll (m.recovered r)⟩
        below := base :: rest
        input := m.input.drop r.skip
        seen := m.seen - r.skip
        errors := m.errors ++ (unreadables (m.input.take r.skip)).toArray
        checkpoints := m.checkpoints.filter (·.offset ≤ base.stop)
        lastConsumed :=
          ((m.input.take r.skip).getLast?.map (·.token.kind)).or m.lastConsumed } := by
  unfold resynchronize
  rw [hdrop]
  dsimp only
  rw [skipTokens_eq hskip]
  rfl

end Machine

end AsmTree
