import AsmTree.Proofs.Machine.Choices
import AsmTree.Proofs.Machine.Quiet

/-!
# The recovery limit

Recovery searches each frame up to the end of the line, and the limit ends a search early. **Main
statement (`run_limited`):** with limits that no line reaches, runs are the same.
-/

namespace AsmTree

open Lookahead

def Setup.limited (s : Setup) (limit : Nat) : Setup :=
  { s with options := { s.options with recoveryLimit := limit } }

section Limited

variable (s : Setup) (limit : Nat)

@[simp] theorem Setup.table_limited : (s.limited limit).table = s.table := rfl

@[simp] theorem Setup.recoveryLimit_limited :
    (s.limited limit).options.recoveryLimit = limit := rfl

end Limited

namespace Lookahead

/-- The tokens up to the end of the line, that end left out. -/
def beforeEnd (input : List Lookahead) : List Lookahead := input.takeWhile (!·.endsLine)

end Lookahead

namespace Machine

variable {s : Setup} {m m' : Machine} {input : List Lookahead} {limit limit' : Nat}

/-! ## Searches -/

/-- A search that may look at the end of the line does not depend on its limit. -/
theorem search_limit (viable : Kind → Bool) (h : (beforeEnd input).length < limit)
    (h' : (beforeEnd input).length < limit') (skip : Nat) :
    search viable limit input skip = search viable limit' input skip := by
  induction input generalizing limit limit' skip with
  | nil =>
    obtain ⟨limit, rfl⟩ := Nat.exists_eq_add_of_lt h
    obtain ⟨limit', rfl⟩ := Nat.exists_eq_add_of_lt h'
    rfl
  | cons l ls ih =>
    obtain ⟨n, rfl⟩ := Nat.exists_eq_add_one_of_ne_zero (Nat.ne_zero_of_lt h)
    obtain ⟨n', rfl⟩ := Nat.exists_eq_add_one_of_ne_zero (Nat.ne_zero_of_lt h')
    rw [search, search]
    cases hend : l.endsLine with
    | true =>
      have hcond : (l.token.kind = .newline || l.token.kind = .eof : Bool) = true := hend
      simp only [hcond, if_true]
    | false =>
      have hlength : (beforeEnd (l :: ls)).length = (beforeEnd ls).length + 1 := by
        rw [beforeEnd, List.takeWhile_cons_of_pos (by simp [hend]), List.length_cons]
        rfl
      rw [hlength] at h h'
      rw [ih (Nat.lt_of_succ_lt_succ h) (Nat.lt_of_succ_lt_succ h')]

theorem searchFrames_limited (h : (beforeEnd input).length < limit)
    (h' : (beforeEnd input).length < limit') (fs : List Frame) (above : Nat)
    (fallback : Option Resync) (looked : Nat) :
    searchFrames (s.limited limit) input fs above fallback looked =
      searchFrames (s.limited limit') input fs above fallback looked := by
  induction fs generalizing above fallback looked with
  | nil => rfl
  | cons f rest ih =>
    have hsearch : ∀ viable, search viable (max limit 1) input 0 =
        search viable (max limit' 1) input 0 := fun viable =>
      search_limit viable (lt_max_of_lt_left h) (lt_max_of_lt_left h') 0
    simp only [searchFrames_cons, Setup.table_limited, Setup.recoveryLimit_limited, hsearch, ih]

/-! ## Moves -/

@[simp] theorem skipTokens_limited (n : Nat) (backward : List Tree) :
    skipTokens (s.limited limit) n m backward = skipTokens s n m backward := by
  induction n generalizing m backward with
  | zero => rfl
  | succ n ih =>
    rw [skipTokens, ih]
    rfl

theorem resynchronize_limited : resynchronize (s.limited limit) m = resynchronize s m := by
  funext r
  simp only [resynchronize, skipTokens_limited, Setup.table_limited]

theorem abandon_limited : m.abandon (s.limited limit) = m.abandon s := by
  simp only [abandon, skipTokens_limited]
  rfl

theorem markLine_limited : markLine (s.limited limit) = markLine s := rfl

theorem report_limited : report (s.limited limit) = report s := rfl

theorem stepReduce_limited (p : Nat) :
    m.stepReduce (s.limited limit) p = m.stepReduce s p := by
  simp only [stepReduce, abandon_limited]
  rfl

theorem recover?_limited (h : (beforeEnd m.input).length < limit)
    (h' : (beforeEnd m.input).length < limit') :
    m.recover? (s.limited limit) = m.recover? (s.limited limit') := by
  simp only [recover?, searchFrames_limited h h', resynchronize_limited]

/-! ## Runs -/

/-- **A step does not depend on the limit**, if the rest of the line and its end fit in. -/
theorem step_limited (h : (beforeEnd m.input).length < limit)
    (h' : (beforeEnd m.input).length < limit') :
    m.step (s.limited limit) = m.step (s.limited limit') := by
  have hrecover : ((m.look 1).report s).recover? (s.limited limit) =
      ((m.look 1).report s).recover? (s.limited limit') :=
    recover?_limited (by rwa [report_input]) (by rwa [report_input])
  simp only [step, stepReduce_limited, abandon_limited, markLine_limited, report_limited,
    Setup.table_limited, hrecover]
  rfl

/-- **With limits that no line reaches, runs are the same.** -/
theorem run_limited (hs : s.splice = none)
    (h : ∀ n, (beforeEnd (m.input.drop n)).length < limit ∧
      (beforeEnd (m.input.drop n)).length < limit') (fuel : Nat) :
    m.run (s.limited limit) fuel = m.run (s.limited limit') fuel := by
  induction fuel generalizing m with
  | zero => rfl
  | succ fuel ih =>
    have hstep : m.step (s.limited limit) = m.step (s.limited limit') :=
      step_limited (h 0).1 (h 0).2
    rw [run, run, ← hstep]
    cases hnext : m.step (s.limited limit) with
    | done out => rfl
    | running m' =>
      obtain ⟨k, hk⟩ := input_of_running (s := s.limited limit) hs hnext
      refine ih fun n => ?_
      rw [hk, List.drop_drop]
      exact h _

end Machine

end AsmTree
