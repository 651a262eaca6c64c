import AsmTree.Proofs.Machine.Runs

/-!
# Invariants of the stack

What is known of the trees of a result is mostly known of the stack before, and of the tokens that
are left. `Invariant` lists what has to be shown for that, a move at a time. **Main statement
(`Invariant.run`):** then the trees of every finished run are as they should be.
-/

namespace AsmTree

namespace Machine

/-- A property of stacks and inputs that every move keeps, and one of the trees that it leads to
when a run ends. -/
structure Invariant (s : Setup) (I : Machine → Prop) (Q : List Tree → Prop) : Prop where
  /-- Only the frames and the input matter. -/
  congr {m m' : Machine} : I m → m'.frames = m.frames → m'.input = m.input → I m'
  shift {m : Machine} {target : Nat} : I m →
    (s.table.explicitAction m.top.state (m.next s).kind).move = .shift target →
    I (m.shift s target)
  reduce {m m' : Machine} {p : Nat} : I m → m.reduction? s = some p → m.reduce? s p = some m' →
    I m'
  recover {m m' : Machine} : I m → m.recover? s = some m' → I m'
  accept {m : Machine} : I m → Q (m.accept s).children
  abandon {m : Machine} : I m → Q (m.abandon s).children
  /-- The lines of an earlier tree may stand behind the stack. -/
  takes {m : Machine} : I m → ∀ splice ∈ s.splice, ∀ place tail, splice.tail? place = some tail →
    Q (m.stackTrees ++ tail.children)

/-- A machine that goes on has one property, and the trees of a result have the other. -/
def Outcome.Keeps (I : Machine → Prop) (Q : List Tree → Prop) : Outcome → Prop
  | .running m => I m
  | .done out => Q out.children

namespace Invariant

variable {s : Setup} {I : Machine → Prop} {Q : List Tree → Prop} {m m' : Machine} {out : Output}

theorem markLine (h : Invariant s I Q) (hm : I m) : (m.markLine s).Keeps I Q := by
  unfold Machine.markLine
  split
  · dsimp only
    split
    · next tail htail =>
      obtain ⟨splice, hsplice, htail⟩ := Option.bind_eq_some_iff.1 htail
      exact h.takes hm splice hsplice _ tail htail
    · exact h.congr hm rfl rfl
  · exact hm

/-- **Every step keeps the invariant.** -/
theorem step (h : Invariant s I Q) (hm : I m) : (m.step s).Keeps I Q := by
  have hlook : ∀ n, I (m.look n) := fun n => h.congr hm rfl rfl
  have hreport : I ((m.look 1).report s) :=
    h.congr hm (report_frames s _) (report_input s _)
  have heffect := step_effect s m
  generalize m.step s = o at heffect
  cases heffect with
  | @reduce p n m' hr _ hm' => exact h.markLine (h.reduce (hlook n) hr hm')
  | stuck _ _ => exact h.abandon (h.congr hm rfl rfl)
  | shift _ hmove => exact h.markLine (h.shift (hlook 1) hmove)
  | accept _ _ => exact h.accept (hlook 1)
  | recover _ _ hm' => exact h.markLine (h.recover hreport hm')
  | abandon _ _ _ => exact h.abandon hreport

theorem of_reaches (h : Invariant s I Q) (hm : I m) (hreach : Reaches s m m') : I m' :=
  hreach.keeps hm fun _ _ h₁ hstep => by
    have h₂ := h.step h₁
    rw [hstep] at h₂
    exact h₂

/-- **The trees of a finished run are those that the invariant leads to.** -/
theorem run (h : Invariant s I Q) (hm : I m) {fuel : Nat} (hrun : m.run s fuel = some out) :
    Q out.children := by
  obtain ⟨m', hreach, hdone⟩ := reaches_of_run hrun
  have hlast := h.step (h.of_reaches hm hreach)
  rw [hdone] at hlast
  exact hlast

end Invariant

end Machine

end AsmTree
