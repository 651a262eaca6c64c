import AsmTree.Parser
import AsmTree.Proofs.Machine.Steps

/-!
# Runs

A run passes machine after machine until one is done. **Main statements:** what each step keeps
holds of every machine that a run passes (`Reaches.keeps`), and a finished run has passed a machine
with the last step (`reaches_of_run`), which is the same whatever the fuel (`run_of_reaches`).
-/

namespace AsmTree

namespace Machine

variable {s : Setup} {m m' : Machine} {out out' : Output} {fuel fuel' : Nat}

/-- Machines that a run passes. -/
inductive Reaches (s : Setup) (m : Machine) : Machine → Prop where
  | refl : Reaches s m m
  | step {m' m'' : Machine} : Reaches s m m' → m'.step s = .running m'' → Reaches s m m''

theorem Reaches.keeps {P : Machine → Prop} (h : Reaches s m m') (hm : P m)
    (hstep : ∀ m m' : Machine, P m → m.step s = .running m' → P m') : P m' := by
  induction h with
  | refl => exact hm
  | step _ he ih => exact hstep _ _ ih he

theorem Reaches.head {m₁ : Machine} (hstep : m.step s = .running m₁) (h : Reaches s m₁ m') :
    Reaches s m m' := by
  induction h with
  | refl => exact .step .refl hstep
  | step _ he ih => exact .step ih he

theorem run_succ_of_running (h : m.step s = .running m') : m.run s (fuel + 1) = m'.run s fuel := by
  rw [run, h]

theorem run_succ_of_done (h : m.step s = .done out) : m.run s (fuel + 1) = some out := by
  rw [run, h]

/-- More fuel does not change the result. -/
theorem run_mono (h : m.run s fuel = some out) (hle : fuel ≤ fuel') :
    m.run s fuel' = some out := by
  induction fuel generalizing m fuel' with
  | zero => cases h
  | succ fuel ih =>
    obtain ⟨fuel', rfl⟩ := Nat.exists_eq_add_of_lt hle
    cases hstep : m.step s with
    | running m' =>
      rw [run_succ_of_running hstep] at h ⊢
      exact ih h (by omega)
    | done o =>
      rw [run_succ_of_done hstep] at h ⊢
      exact h

theorem run_unique (h : m.run s fuel = some out) (h' : m.run s fuel' = some out') : out = out' := by
  have hmax := run_mono h (Nat.le_max_left fuel fuel')
  rw [run_mono h' (Nat.le_max_right fuel fuel')] at hmax
  exact (Option.some.inj hmax).symm

theorem run_of_reaches (h : Reaches s m m') (hrun : m.run s fuel = some out) :
    ∃ fuel', m'.run s fuel' = some out := by
  induction h with
  | refl => exact ⟨fuel, hrun⟩
  | step _ he ih =>
    obtain ⟨fuel', hrun'⟩ := ih
    cases fuel' with
    | zero => cases hrun'
    | succ fuel' => exact ⟨fuel', by rw [← hrun', run_succ_of_running he]⟩

/-- A finished run passes a machine with the last step. -/
theorem reaches_of_run (hrun : m.run s fuel = some out) :
    ∃ m', Reaches s m m' ∧ m'.step s = .done out := by
  suffices h : ∀ m', Reaches s m m' → m'.run s fuel = some out →
      ∃ m', Reaches s m m' ∧ m'.step s = .done out from h m .refl hrun
  clear hrun
  induction fuel with
  | zero => intro m' _ h; cases h
  | succ fuel ih =>
    intro m' hreach hrun
    cases hstep : m'.step s with
    | running m'' =>
      rw [run_succ_of_running hstep] at hrun
      exact ih m'' (.step hreach hstep) hrun
    | done o =>
      rw [run_succ_of_done hstep] at hrun
      cases hrun
      exact ⟨m', hreach, hstep⟩

/-- The next move is acceptance. -/
def Accepting (s : Setup) (m : Machine) : Prop :=
  s.table.default? m.top.state = none ∧
    (s.table.explicitAction m.top.state (m.next s).kind).move = .accept

theorem Accepting.step (h : m.Accepting s) : m.step s = .done ((m.look 1).accept s) := by
  have hm : (s.table.explicitAction (m.look 1).top.state
      ((m.look 1).ahead s 0).token.kind).move = .accept := h.2
  unfold Machine.step
  rw [h.1]
  dsimp only
  rw [hm]

theorem Accepting.run (h : m.Accepting s) (hrun : m.run s fuel = some out) :
    out = (m.look 1).accept s := by
  have hdone : m.run s (0 + 1) = _ := run_succ_of_done h.step
  exact run_unique hrun hdone

end Machine

namespace Parser

/-- A parse from scratch ends in acceptance. -/
def Accepts (p : Parser) (text : String) : Prop :=
  ∃ m, Machine.Reaches (p.fresh text).setup (p.fresh text).machine m ∧
    m.Accepting (p.fresh text).setup

end Parser

end AsmTree
