import AsmTree.Proofs.Machine.Moves
import AsmTree.Proofs.Machine.Runs

/-!
# Runs with an earlier tree

A run that may take over the lines of an earlier tree makes the moves of one that may not, until it
does so (`run_spliced_cases`). **Main statement (`run_spliced`):** if what it takes over is what it
would make itself, the result is the same.
-/

namespace AsmTree

def Setup.spliced (s : Setup) (splice : Splice) : Setup := { s with splice := some splice }

namespace Machine

variable {s : Setup} {m m' start : Machine} {out : Output} {splice : Splice}

/-! ## Moves do not look at the earlier tree -/

theorem searchFrames_spliced (s : Setup) (splice : Splice) (input : List Lookahead)
    (frames : List Frame) (above : Nat) (fallback : Option Resync) (looked : Nat) :
    searchFrames (s.spliced splice) input frames above fallback looked =
      searchFrames s input frames above fallback looked := by
  induction frames generalizing above fallback looked with
  | nil => rfl
  | cons f rest ih =>
    rw [searchFrames_cons, searchFrames_cons]
    simp only [ih]
    rfl

theorem skipTokens_spliced (s : Setup) (splice : Splice) (n : Nat) (m : Machine)
    (backward : List Tree) :
    skipTokens (s.spliced splice) n m backward = skipTokens s n m backward := by
  induction n generalizing m backward with
  | zero => rfl
  | succ n ih =>
    rw [skipTokens, ih]
    rfl

theorem recover?_spliced (s : Setup) (splice : Splice) (m : Machine) :
    m.recover? (s.spliced splice) = m.recover? s := by
  unfold recover?
  simp only [searchFrames_spliced]
  congr 1
  funext r
  unfold resynchronize
  simp only [skipTokens_spliced]
  rfl

theorem abandon_spliced (s : Setup) (splice : Splice) (m : Machine) :
    m.abandon (s.spliced splice) = m.abandon s := by
  unfold abandon
  simp only [skipTokens_spliced]
  rfl

/-! ## Ends of lines -/

/-- What a run takes over at the place where it stands. -/
def takeOver (m : Machine) (tail : Output) : Output :=
  ⟨m.stackTrees ++ tail.children, m.errors.toList ++ tail.errors,
    m.checkpoints.toList ++ tail.checkpoints⟩

/-- At the place where it stands, a machine takes over some lines of the earlier tree. -/
def TakesOver (s : Setup) (splice : Splice) (m : Machine) (tail : Output) : Prop :=
  m.atLineEnd s = true ∧ splice.tail? (m.checkpoint s) = some tail

/-- At the end of a line the run goes on as without the earlier tree, or takes lines over. -/
theorem markLine_spliced (s : Setup) (splice : Splice) (m : Machine) :
    m.markLine (s.spliced splice) = .running (m.mark s) ∨
      ∃ tail, TakesOver s splice m tail ∧
        m.markLine (s.spliced splice) = .done ((m.mark s).takeOver tail) := by
  have hend : m.atLineEnd (s.spliced splice) = m.atLineEnd s := rfl
  unfold markLine mark TakesOver
  rw [hend]
  split
  · next hline =>
    cases ht : splice.tail? (m.checkpoint s) with
    | none =>
      left
      dsimp only
      rw [show (s.spliced splice).splice.bind (·.tail? (m.checkpoint (s.spliced splice))) = none
        from ht]
      rfl
    | some tail =>
      refine Or.inr ⟨tail, ⟨hline, rfl⟩, ?_⟩
      dsimp only
      rw [show (s.spliced splice).splice.bind (·.tail? (m.checkpoint (s.spliced splice))) =
        some tail from ht]
      rfl
  · exact Or.inl rfl

/-! ## Steps and runs -/

/-- How a step ends without and with an earlier tree: alike, or at the end of a line, where lines of
the tree are taken over. -/
inductive Alongside (s : Setup) (splice : Splice) : Outcome → Outcome → Prop where
  | done (out : Output) : Alongside s splice (.done out) (.done out)
  | running (m : Machine) : Alongside s splice (.running (m.mark s)) (.running (m.mark s))
  | takesOver {m : Machine} {tail : Output} : TakesOver s splice m tail →
      Alongside s splice (.running (m.mark s)) (.done ((m.mark s).takeOver tail))

theorem alongside_markLine (hs : s.splice = none) (splice : Splice) (m : Machine) :
    Alongside s splice (m.markLine s) (m.markLine (s.spliced splice)) := by
  rw [markLine_of_splice hs]
  rcases markLine_spliced s splice m with h | ⟨tail, htakes, h⟩
  · rw [h]
    exact .running m
  · rw [h]
    exact .takesOver htakes

theorem alongside_stepReduce (hs : s.splice = none) (splice : Splice) (m : Machine) (p : Nat) :
    Alongside s splice (m.stepReduce s p) (m.stepReduce (s.spliced splice) p) := by
  have hsame : m.reduce? (s.spliced splice) p = m.reduce? s p := rfl
  unfold stepReduce
  rw [hsame]
  cases m.reduce? s p with
  | none =>
    dsimp only
    rw [abandon_spliced]
    exact .done _
  | some m₁ => exact alongside_markLine hs splice m₁

/-- **With an earlier tree a step is the same, or lines are taken over where it leads.** -/
theorem step_spliced (hs : s.splice = none) (splice : Splice) (m : Machine) :
    Alongside s splice (m.step s) (m.step (s.spliced splice)) := by
  -- the table and the next token do not depend on the tree, so both steps make the same move
  cases hd : s.table.default? m.top.state with
  | some p =>
    have hd' : (s.spliced splice).table.default? m.top.state = some p := hd
    rw [step_of_default hd, step_of_default hd']
    exact alongside_stepReduce hs splice m p
  | none =>
    have hd' : (s.spliced splice).table.default? m.top.state = none := hd
    have hcell : ((s.spliced splice).table.explicitAction m.top.state
        (m.next (s.spliced splice)).kind).move =
      (s.table.explicitAction m.top.state (m.next s).kind).move := rfl
    cases hm : (s.table.explicitAction m.top.state (m.next s).kind).move with
    | shift target =>
      rw [step_of_shift hd hm, step_of_shift hd' (hcell.trans hm)]
      exact alongside_markLine hs splice _
    | reduce p =>
      rw [step_of_reduce hd hm, step_of_reduce hd' (hcell.trans hm)]
      exact alongside_stepReduce hs splice _ p
    | accept =>
      rw [step_of_accept hd hm, step_of_accept hd' (hcell.trans hm)]
      exact .done _
    | error =>
      have hreport : (m.look 1).report (s.spliced splice) = (m.look 1).report s := rfl
      rw [step_of_error hd hm, step_of_error hd' (hcell.trans hm), hreport, recover?_spliced,
        abandon_spliced]
      cases ((m.look 1).report s).recover? s with
      | none => exact .done _
      | some m₁ => exact alongside_markLine hs splice m₁

/-- What a run passes that may take lines over, a run passes that may not. -/
theorem Reaches.unspliced (h : Reaches s m m') : Reaches { s with splice := none } m m' := by
  induction h with
  | refl => exact .refl
  | @step m₁ m₂ _ hstep ih =>
    refine ih.step ?_
    cases hs : s.splice with
    | none =>
      rw [show ({ s with splice := none } : Setup) = s by rw [← hs]]
      exact hstep
    | some splice =>
      have he : s = Setup.spliced { s with splice := none } splice := by
        rw [Setup.spliced, ← hs]
      have h := step_spliced (s := { s with splice := none }) rfl splice m₁
      rw [← he, hstep] at h
      generalize Machine.step { s with splice := none } m₁ = o at h
      cases h with
      | running m₃ => rfl

/-- **With an earlier tree a run has the same result, or takes lines over at a place that it
reaches.** -/
theorem run_spliced_cases (hs : s.splice = none) (splice : Splice) {fuel : Nat}
    (hreach : Reaches s start m) (hrun : m.run s fuel = some out) :
    m.run (s.spliced splice) fuel = some out ∨
      ∃ (m₁ : Machine) (tail : Output), Reaches s start (m₁.mark s) ∧
        TakesOver s splice m₁ tail ∧
        m.run (s.spliced splice) fuel = some ((m₁.mark s).takeOver tail) := by
  induction fuel generalizing m with
  | zero => cases hrun
  | succ fuel ih =>
    have hstep := step_spliced hs splice m
    generalize h : m.step s = o, h' : m.step (s.spliced splice) = o' at hstep
    cases hstep with
    | done o =>
      rw [run_succ_of_done h] at hrun
      exact Or.inl (by rw [run_succ_of_done h', hrun])
    | running m₁ =>
      rw [run_succ_of_running h] at hrun
      rw [run_succ_of_running h']
      exact ih (.step hreach h) hrun
    | takesOver htakes => exact Or.inr ⟨_, _, .step hreach h, htakes, run_succ_of_done h'⟩

/-- **An earlier tree does not change the result**, if what is taken over at each place is what the
run makes of the lines behind it. -/
theorem run_spliced (hs : s.splice = none) {fuel : Nat}
    (htail : ∀ (m₁ : Machine) (tail : Output), Reaches s start (m₁.mark s) →
      TakesOver s splice m₁ tail → out = (m₁.mark s).takeOver tail)
    (hreach : Reaches s start m) (hrun : m.run s fuel = some out) :
    m.run (s.spliced splice) fuel = some out := by
  rcases run_spliced_cases hs splice hreach hrun with h | ⟨m₁, tail, hthere, htakes, h⟩
  · exact h
  · rw [h, htail m₁ tail hthere htakes]

/-- Where no lines are ever taken over, a run is the same as without an earlier tree, finished or
not. -/
theorem run_spliced_of_never (hs : s.splice = none)
    (hnever : ∀ (m : Machine) (tail : Output), ¬TakesOver s splice m tail) (fuel : Nat)
    (m : Machine) : m.run (s.spliced splice) fuel = m.run s fuel := by
  induction fuel generalizing m with
  | zero => rfl
  | succ fuel ih =>
    have hstep := step_spliced hs splice m
    generalize h : m.step s = o, h' : m.step (s.spliced splice) = o' at hstep
    cases hstep with
    | done o => rw [run_succ_of_done h, run_succ_of_done h']
    | running m₁ => rw [run_succ_of_running h, run_succ_of_running h', ih]
    | takesOver htakes => exact absurd htakes (hnever _ _)

end Machine

end AsmTree
