import AsmTree.Proofs.Machine.Moves
import AsmTree.Proofs.Machine.Runs
import AsmTree.Proofs.Machine.Stacks
import AsmTree.Proofs.Tree.Places

/-!
# What is made stays in its place

A machine wraps trees and puts others behind them, and takes nothing apart. So every part of the
trees on its stack is found again later, at the same offset. **Main statements:** every move keeps
the parts (`parts_step`), and so does acceptance (`parts_accept`).
-/

namespace AsmTree

open AsmTree.Tree Located

namespace Machine

variable {s : Setup} {m m' : Machine} {t : ParseTable} {k : Kind} {e : Located} {start : Nat}
  {backward : List Tree} {frames rest : List Frame} {f base : Frame}

/-- Every part of the trees on the stack, in its place. -/
def parts (m : Machine) : List Located := Located.parts 0 m.stackTrees

/-! ## Frames that are replaced -/

theorem mem_parts_wrap (h : e ∈ Located.parts start backward.reverse) :
    e ∈ Located.parts start (wrap t k backward).reverse := by
  rw [← List.takeWhile_append_dropWhile (p := isExtraTree t) (l := backward.reverse),
    mem_parts_append] at h
  rw [reverse_wrap, mem_parts_append, mem_parts_node]
  exact h.imp_right Or.inr

theorem mem_parts_reducedFrame {r : Reduction} {popped : List Frame} {state : Nat}
    (h : e ∈ Located.parts start (Frame.joined popped).reverse) :
    e ∈ Located.parts start (reducedFrame t r popped base state).backward.reverse := by
  unfold reducedFrame
  dsimp only
  split
  · exact mem_parts_wrap h
  · exact h

theorem mem_parts_joined : e ∈ Located.parts start (Frame.joined (frames ++ rest)).reverse ↔
    e ∈ Located.parts start (Frame.joined rest).reverse ∨
      e ∈ Located.parts (start + lengthAll (Frame.joined rest))
        (Frame.joined frames).reverse := by
  rw [Frame.joined_append, List.reverse_append, mem_parts_append, lengthAll_reverse]

theorem mem_parts_replace {n : Nat} (hdrop : m.frames.drop n = rest)
    (hkeep : ∀ start e, e ∈ Located.parts start (Frame.joined (m.frames.take n)).reverse →
      e ∈ Located.parts start f.backward.reverse) (h : e ∈ m.parts) :
    e ∈ Located.parts 0 (Frame.joined (f :: rest)).reverse := by
  rw [parts, stackTrees, ← List.take_append_drop n m.frames, hdrop, mem_parts_joined] at h
  rw [← List.singleton_append, mem_parts_joined, Frame.joined_cons, Frame.joined_nil,
    List.append_nil]
  exact h.imp_right (hkeep _ e)

/-! ## Moves -/

theorem parts_congr (hf : m'.frames = m.frames) : m'.parts = m.parts := by
  rw [parts, stackTrees, hf]
  rfl

theorem parts_reduce {p : Nat} (hr : m.reduce? s p = some m') (h : e ∈ m.parts) : e ∈ m'.parts := by
  obtain ⟨base, rest, state, hdrop, -, rfl⟩ := reduce?_eq_some.1 hr
  exact mem_parts_replace hdrop (fun _ _ he => mem_parts_reducedFrame he) h

theorem parts_shift (target : Nat) (h : e ∈ m.parts) : e ∈ (m.shift s target).parts :=
  mem_parts_replace (n := 0) rfl (fun _ _ he => by cases he) h

theorem mem_skipTokens (n : Nat) (m : Machine) (backward : List Tree) :
    ∃ skipped, (skipTokens s n m backward).2 = skipped ++ backward := by
  induction n generalizing m backward with
  | zero => exact ⟨[], rfl⟩
  | succ n ih =>
    obtain ⟨skipped, hskipped⟩ := ih (m.consume s) ((m.ahead s 0).trees.reverse ++ backward)
    refine ⟨skipped ++ (m.ahead s 0).trees.reverse, ?_⟩
    rw [skipTokens, hskipped, List.append_assoc]

theorem parts_recover (hr : m.recover? s = some m') (h : e ∈ m.parts) : e ∈ m'.parts := by
  obtain ⟨r, base, rest, looked, -, hdrop, -, rfl⟩ := recover?_eq_some hr
  have hdrop' : (m.look looked).frames.drop r.above = base :: rest := hdrop
  rw [parts, stackTrees, frames_resynchronize hdrop']
  refine mem_parts_replace hdrop (fun start e he => mem_parts_wrap ?_) h
  obtain ⟨skipped, hskipped⟩ := mem_skipTokens (s := s) r.skip (m.look looked)
    (Frame.joined ((m.look looked).frames.take r.above))
  rw [hskipped, List.reverse_append, mem_parts_append]
  exact Or.inl he

theorem mem_parts_resynchronize {r : Resync} (hdrop : m.frames.drop r.above = base :: rest)
    (hskip : r.skip ≤ m.input.length)
    (h : e ∈ Located.parts (lengthAll (Frame.joined (base :: rest)))
      (wrap s.table .error (m.recovered r)).reverse) : e ∈ (m.resynchronize s r).parts := by
  rw [resynchronize_eq hdrop hskip]
  show e ∈ Located.parts 0 (Frame.joined ([_] ++ (base :: rest))).reverse
  rw [mem_parts_joined, Nat.zero_add]
  exact Or.inr h

/-- **A step keeps the parts of the stack.** -/
theorem parts_step (hs : s.splice = none) (hstep : m.step s = .running m') (h : e ∈ m.parts) :
    e ∈ m'.parts := by
  have hmark {m₁ : Machine} (he : m₁.markLine s = .running m') (h : e ∈ m₁.parts) :
      e ∈ m'.parts := by
    rw [markLine_of_splice hs] at he
    cases he
    rw [parts_congr (mark_frames s m₁)]
    exact h
  have heffect := step_effect s m
  rw [hstep] at heffect
  generalize ho : Outcome.running m' = o at heffect
  cases heffect with
  | @reduce p n m₁ _ _ hr => exact hmark ho.symm (parts_reduce (m := m.look n) hr h)
  | @shift target _ _ => exact hmark ho.symm (parts_shift (m := m.look 1) target h)
  | @recover m₁ _ _ hr =>
    refine hmark ho.symm (parts_recover hr ?_)
    rw [parts_congr (report_frames s _)]
    exact h
  | stuck _ _ => cases ho
  | accept _ _ => cases ho
  | abandon _ _ _ => cases ho

/-- **What is accepted has the parts of the stack.** -/
theorem parts_accept (h : e ∈ m.parts) : e ∈ Located.parts 0 (m.accept s).children :=
  mem_parts_append.2 (Or.inl h)

end Machine

end AsmTree
