import AsmTree.Proofs.Machine.Runs

/-!
# What a machine reports

A machine adds to what it has reported and takes nothing back. **Main statement
(`says_of_effect`):** what a move adds is about the text, unless a reduction has failed.
-/

namespace AsmTree

/-- A diagnostic about a text: a token that cannot be used, a block that is not closed, a token that
cannot be read. -/
inductive Diagnostic.OfText : Diagnostic → Prop where
  | unexpected (found : Kind) (context : Context) (expected : List Kind) (range : TextRange) :
    OfText (.unexpected found context expected range)
  | openBlock (opener : Kind) (range : TextRange) (stop : Nat) :
    OfText (.openBlock opener range stop)
  | unreadable (t : Token) : OfText (.unreadable t)

theorem Context.code_ne_internal (c : Context) (found : Kind) : c.code found ≠ .internal := by
  cases c <;> simp only [code] <;> (repeat' split) <;> simp

theorem Context.code_ne_unterminatedBlock (c : Context) (found : Kind) :
    c.code found ≠ .unterminatedBlock := by
  cases c <;> simp only [code] <;> (repeat' split) <;> simp

theorem Diagnostic.OfText.code_ne {d : Diagnostic} (h : d.OfText) : d.code ≠ .internal := by
  cases h with
  | unexpected found context _ _ => exact context.code_ne_internal found
  | openBlock => exact Code.noConfusion
  | unreadable t =>
    rw [Diagnostic.unreadable]
    split
    · simp
    · split <;> simp

namespace Machine

variable {s : Setup} {m m' : Machine} {o : Outcome} {before after last : List Diagnostic}

/-- What has been reported so far, and more about the text. -/
def Says (before after : List Diagnostic) : Prop :=
  ∃ ds, after = before ++ ds ∧ ∀ d ∈ ds, d.OfText

theorem Says.refl (before : List Diagnostic) : Says before before :=
  ⟨[], (List.append_nil _).symm, by simp⟩

theorem Says.trans (h : Says before after) (h' : Says after last) : Says before last := by
  obtain ⟨ds, rfl, htext⟩ := h
  obtain ⟨ds', rfl, htext'⟩ := h'
  refine ⟨ds ++ ds', List.append_assoc _ _ _, fun d hd => ?_⟩
  rcases List.mem_append.1 hd with hd | hd
  · exact htext d hd
  · exact htext' d hd

theorem Says.mem {d : Diagnostic} (h : Says before after) (hd : d ∈ after) :
    d ∈ before ∨ d.OfText := by
  obtain ⟨ds, rfl, htext⟩ := h
  exact (List.mem_append.1 hd).imp_right (htext d)

theorem says_push (errors : Array Diagnostic) {d : Diagnostic} (hd : d.OfText) :
    Says errors.toList (errors.push d).toList :=
  ⟨[d], Array.toList_push, by simpa using hd⟩

/-! ## Operations -/

theorem says_report (s : Setup) (m : Machine) :
    Says m.errors.toList (m.report s).errors.toList := by
  unfold report
  dsimp only
  split
  · exact .refl _
  · split
    · exact says_push _ (.openBlock _ _ _)
    · exact says_push _ (.unexpected _ _ _ _)
  · exact says_push _ (.unexpected _ _ _ _)

theorem says_consume (s : Setup) (m : Machine) :
    Says m.errors.toList (m.consume s).errors.toList := by
  unfold consume
  dsimp only
  split
  · exact says_push _ (.unreadable _)
  · exact .refl _

theorem says_skipTokens (n : Nat) (m : Machine) (backward : List Tree) :
    Says m.errors.toList (skipTokens s n m backward).1.errors.toList := by
  induction n generalizing m backward with
  | zero => exact .refl _
  | succ n ih => exact (says_consume s m).trans (ih _ _)

theorem says_resynchronize (s : Setup) (m : Machine) (r : Resync) :
    Says m.errors.toList (m.resynchronize s r).errors.toList := by
  unfold resynchronize
  split
  · exact .refl _
  · exact says_skipTokens r.skip m _

theorem says_recover (h : m.recover? s = some m') :
    Says m.errors.toList m'.errors.toList := by
  unfold recover? at h
  obtain ⟨r, -, rfl⟩ := Option.map_eq_some_iff.1 h
  exact says_resynchronize s _ r

theorem says_abandon (s : Setup) (m : Machine) :
    Says m.errors.toList (m.abandon s).errors :=
  says_skipTokens _ m _

theorem says_mark (s : Setup) (m : Machine) : Says m.errors.toList (m.mark s).errors.toList := by
  obtain ⟨checkpoints, h⟩ := mark_eq s m
  rw [h]
  exact .refl _

theorem says_reduce {p : Nat} (h : m.reduce? s p = some m') :
    Says m.errors.toList m'.errors.toList := by
  obtain ⟨base, rest, state, -, -, rfl⟩ := reduce?_eq_some.1 h
  exact .refl _

/-! ## Moves -/

def Outcome.errors : Outcome → List Diagnostic
  | .running m => m.errors.toList
  | .done out => out.errors

/-- The next move is a reduction that fails. -/
def Stuck (s : Setup) (m : Machine) : Prop :=
  ∃ p, m.reduction? s = some p ∧ ∃ n, (m.look n).reduce? s p = none

/-- **A move adds to what has been reported**, and what it adds is about the text unless a reduction
fails. -/
theorem says_of_effect (hs : s.splice = none) (he : Effect s m o) (hok : ¬ m.Stuck s) :
    Says m.errors.toList o.errors := by
  cases he with
  | @reduce p n m₁ _ _ hm =>
    rw [markLine_of_splice hs]
    exact (says_reduce hm).trans (says_mark s m₁)
  | @stuck p n hr hm => exact absurd ⟨p, hr, n, hm⟩ hok
  | shift _ _ =>
    rw [markLine_of_splice hs]
    exact (says_consume s (m.look 1)).trans (says_mark s _)
  | accept _ _ => exact .refl _
  | @recover m₁ _ _ hm =>
    rw [markLine_of_splice hs]
    exact ((says_report s (m.look 1)).trans (says_recover hm)).trans (says_mark s m₁)
  | abandon _ _ _ => exact (says_report s (m.look 1)).trans (says_abandon s _)

end Machine

end AsmTree
