import Mathlib.Computability.StateTransition

/-!
# Loops that end

A loop goes on from a state to the next one, or stops there. `StateTransition.eval` says what a
loop ends with, if it does; nothing bounds the number of its steps.

**Main statements:** a loop ends whose steps keep an invariant and lower a measure
(`exists_mem_eval`), and a loop that a bounded number of steps brings to an end has that end
(`mem_eval_of_fuel`).
-/

namespace AsmTree.Loop

open StateTransition

variable {σ : Type} {step : σ → Option σ} {a b c : σ}

theorem mem_eval_of_none (h : step a = none) : a ∈ eval step a :=
  mem_eval.2 ⟨.refl, h⟩

theorem mem_eval_of_some (h : step a = some b) (hc : c ∈ eval step b) : c ∈ eval step a := by
  obtain ⟨hreaches, hend⟩ := mem_eval.1 hc
  exact mem_eval.2 ⟨.head h hreaches, hend⟩

/-- **A loop ends** whose steps keep an invariant and lower a measure, and the invariant holds of
its end. -/
theorem exists_mem_eval {Inv : σ → Prop} (measure : σ → Nat)
    (keeps : ∀ a b, Inv a → step a = some b → Inv b ∧ measure b < measure a) (ha : Inv a) :
    ∃ b ∈ eval step a, Inv b ∧ step b = none := by
  induction hn : measure a using Nat.strong_induction_on generalizing a with
  | _ n ih =>
    cases hstep : step a with
    | none => exact ⟨a, mem_eval_of_none hstep, ha, hstep⟩
    | some b =>
      obtain ⟨hb, hlt⟩ := keeps a b ha hstep
      obtain ⟨c, hc, hinv, hend⟩ := ih _ (hn ▸ hlt) hb rfl
      exact ⟨c, mem_eval_of_some hstep hc, hinv, hend⟩

/-- A loop of a bounded number of steps that has come to the end of the loop without a bound. -/
theorem mem_eval_of_fuel (run : Nat → σ → σ) (zero : ∀ a, run 0 a = a)
    (succ : ∀ fuel a, run (fuel + 1) a = (step a).elim a (run fuel)) {fuel : Nat}
    (h : step (run fuel a) = none) : run fuel a ∈ eval step a := by
  induction fuel generalizing a with
  | zero =>
    rw [zero] at h ⊢
    exact mem_eval_of_none h
  | succ fuel ih =>
    rw [succ] at h ⊢
    cases hstep : step a with
    | none => exact mem_eval_of_none hstep
    | some b =>
      rw [hstep] at h
      exact mem_eval_of_some hstep (ih h)

end AsmTree.Loop
