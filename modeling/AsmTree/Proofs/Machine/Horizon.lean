import AsmTree.Proofs.Machine.Moves
import AsmTree.Proofs.Machine.Progress

/-!
# How far a machine looks

What a machine does depends on the tokens that it has looked at, and on no others. The horizon of a
machine, the number of tokens that have been looked at from the start of the text on, never moves
back (`seen_step`), so a machine that has looked at none of the tokens that are left is reached
whatever they are.

**Main statement (`Reaches.withInput`):** a run that leaves tokens unseen passes the same machines
with other tokens in their place.
-/

namespace AsmTree

open Lookahead

namespace Machine

variable {s : Setup} {m m' : Machine} {x y z : List Lookahead}

/-! ## Looks along the line -/

def Search.looked : Search → Nat
  | .found skip => skip + 1
  | .none _ looked => looked

theorem le_looked_search (viable : Kind → Bool) (limit : Nat) (input : List Lookahead)
    (skip : Nat) : skip ≤ (search viable limit input skip).looked := by
  induction limit generalizing input skip with
  | zero => exact Nat.le_refl skip
  | succ limit ih =>
    cases input with
    | nil =>
      rw [search]
      split <;> exact Nat.le_succ skip
    | cons l ls =>
      rw [search]
      split
      · exact Nat.le_succ skip
      · split
        · exact Nat.le_succ skip
        · exact Nat.le_of_succ_le (ih ls (skip + 1))

/-- What may be skipped has been looked at. -/
theorem le_of_search_none {viable : Kind → Bool} {limit skip n looked : Nat}
    {input : List Lookahead} (h : search viable limit input skip = .none n looked) :
    n ≤ looked := by
  induction limit generalizing input skip with
  | zero =>
    cases h
    exact Nat.le_refl _
  | succ limit ih =>
    cases input with
    | nil =>
      rw [search] at h
      split at h
      · cases h
      · cases h
        exact Nat.le_succ _
    | cons l ls =>
      rw [search] at h
      split at h
      · cases h
      · split at h
        · cases h
          exact Nat.le_succ _
        · exact ih h

/-- A search depends on the tokens that it looks at. -/
theorem search_append (viable : Kind → Bool) (limit : Nat) (x : List Lookahead) (skip : Nat)
    (h : (search viable limit (x ++ y) skip).looked ≤ skip + x.length) :
    search viable limit (x ++ z) skip = search viable limit (x ++ y) skip := by
  induction limit generalizing x skip with
  | zero => rfl
  | succ limit ih =>
    cases x with
    | nil =>
      -- a search that may go on looks at one token at least
      have hlooked : skip + 1 ≤ (search viable (limit + 1) y skip).looked := by
        cases y with
        | nil =>
          rw [search]
          split <;> exact Nat.le_refl _
        | cons l ls =>
          rw [search]
          split
          · exact Nat.le_refl _
          · split
            · exact Nat.le_refl _
            · exact le_looked_search viable limit ls (skip + 1)
      exact absurd (Nat.le_trans hlooked h) (Nat.not_succ_le_self skip)
    | cons l x =>
      rw [List.cons_append, search] at h
      rw [List.cons_append, List.cons_append, search, search]
      by_cases hv : viable l.token.kind = true
      · rw [if_pos hv, if_pos hv]
      · rw [if_neg hv] at h
        rw [if_neg hv, if_neg hv]
        split
        · rfl
        · next hstop =>
          rw [if_neg hstop, List.length_cons] at h
          exact ih x (skip + 1) (by omega)

/-! ## Looks through the stack -/

theorem le_looked_searchFrames (input : List Lookahead) (frames : List Frame) (above : Nat)
    (fallback : Option Resync) (looked : Nat) :
    looked ≤ (searchFrames s input frames above fallback looked).looked := by
  induction frames generalizing above fallback looked with
  | nil => exact Nat.le_refl looked
  | cons f rest ih =>
    rw [searchFrames]
    split
    · exact Nat.le_refl looked
    · split
      · dsimp only
        split
        · exact Nat.le_max_left _ _
        · exact Nat.le_trans (Nat.le_max_left _ _) (ih _ _ _)
      · exact ih _ _ _

/-- What is skipped has been looked at. -/
theorem skip_le_looked (input : List Lookahead) (frames : List Frame) (above : Nat)
    (fallback : Option Resync) (looked : Nat) (hfall : ∀ r ∈ fallback, r.skip ≤ looked) :
    ∀ r ∈ (searchFrames s input frames above fallback looked).resync,
      r.skip ≤ (searchFrames s input frames above fallback looked).looked := by
  induction frames generalizing above fallback looked with
  | nil =>
    intro r hr
    exact hfall r (Option.mem_filter_iff.1 hr).1
  | cons f rest ih =>
    rw [searchFrames]
    split
    · exact hfall
    · split
      · dsimp only
        split
        · intro r hr
          cases hr
          exact Nat.le_trans (Nat.le_succ _) (Nat.le_max_right _ _)
        · next hnone =>
          refine ih _ _ _ fun r hr => ?_
          cases hr
          exact Nat.le_trans (le_of_search_none hnone) (Nat.le_max_right _ _)
      · exact ih _ _ _ hfall

/-- A search through the stack depends on the tokens that it looks at. -/
theorem searchFrames_append (stop : Token) (incremental : Bool) (frames : List Frame) (above : Nat)
    (fallback : Option Resync) (looked : Nat)
    (h : (searchFrames s (x ++ y) frames above fallback looked).looked ≤ x.length) :
    searchFrames (s.like stop incremental) (x ++ z) frames above fallback looked =
      searchFrames s (x ++ y) frames above fallback looked := by
  induction frames generalizing above fallback looked with
  | nil => rfl
  | cons f rest ih =>
    rw [searchFrames_cons] at h
    rw [searchFrames_cons, searchFrames_cons, Setup.table_like, Setup.recoveryLimit_like]
    by_cases hbottom : (rest.isEmpty && (Resync.useful? fallback).isSome) = true
    · rw [if_pos hbottom, if_pos hbottom]
    rw [if_neg hbottom] at h
    rw [if_neg hbottom, if_neg hbottom]
    cases hmove : (s.table.explicitAction f.state .error).move with
    | shift state =>
      rw [hmove] at h
      dsimp only at h ⊢
      have hsearch : search (viable s.table (state :: (f :: rest).map Frame.state))
          (max s.options.recoveryLimit 1) (x ++ z) 0 = search (viable s.table
          (state :: (f :: rest).map Frame.state)) (max s.options.recoveryLimit 1) (x ++ y) 0 := by
        refine search_append _ _ x 0 ?_
        rw [Nat.zero_add]
        refine Nat.le_trans ?_ h
        split
        · next hfound =>
          rw [hfound]
          exact Nat.le_max_right _ _
        · next hnone =>
          rw [hnone]
          exact Nat.le_trans (Nat.le_max_right _ _) (le_looked_searchFrames _ _ _ _ _)
      rw [hsearch]
      split
      · rfl
      · next hnone =>
        rw [hnone] at h
        exact ih _ _ _ h
    | _ =>
      rw [hmove] at h
      exact ih _ _ _ h

/-! ## Steps -/

def withInput (m : Machine) (input : List Lookahead) : Machine := { m with input }

/-- The first token stands at a position. -/
def StandsAt (pos : Position) (input : List Lookahead) : Prop :=
  ∃ l ls, input = l :: ls ∧ l.first.position = pos

section WithInput

variable (stop : Token) (incremental : Bool) {pos : Position} {l : Lookahead}

theorem position_withInput (hm : m.input = x ++ y) (h₁ : StandsAt pos y) (h₂ : StandsAt pos z) :
    (m.withInput (x ++ z)).position (s.like stop incremental) = m.position s := by
  obtain ⟨l₁, ls₁, rfl, rfl⟩ := h₁
  obtain ⟨l₂, ls₂, rfl, hpos⟩ := h₂
  rw [position, position, ahead, ahead, withInput, hm]
  cases x with
  | nil => exact hpos
  | cons l x => rfl

theorem mark_withInput (hm : m.input = x ++ y) (h₁ : StandsAt pos y) (h₂ : StandsAt pos z) :
    (m.withInput (x ++ z)).mark (s.like stop incremental) =
      (m.mark s).withInput (x ++ z) := by
  have hend : (m.withInput (x ++ z)).atLineEnd (s.like stop incremental) = m.atLineEnd s := rfl
  have hpos := position_withInput (s := s) stop incremental hm h₁ h₂
  rw [mark, mark, hend, checkpoint, hpos]
  split <;> rfl

theorem ahead_withInput (hm : m.input = l :: x ++ y) :
    (m.withInput (l :: x ++ z)).ahead (s.like stop incremental) 0 = m.ahead s 0 := by
  rw [ahead, ahead, withInput, hm]
  rfl

theorem next_withInput (hm : m.input = l :: x ++ y) :
    (m.withInput (l :: x ++ z)).next (s.like stop incremental) = m.next s := by
  rw [next, next, ahead_withInput stop incremental hm]

theorem report_withInput (hm : m.input = l :: x ++ y) :
    (m.withInput (l :: x ++ z)).report (s.like stop incremental) =
      (m.report s).withInput (l :: x ++ z) := by
  unfold report
  rw [ahead_withInput stop incremental hm]
  dsimp only
  split
  · rfl
  · rw [show (m.withInput (l :: x ++ z)).openBlock? (s.like stop incremental) =
      m.openBlock? s from rfl]
    split <;> rfl
  · rfl

theorem reduce?_withInput {p : Nat} (h : m.reduce? s p = some m') (input : List Lookahead) :
    (m.withInput input).reduce? (s.like stop incremental) p = some (m'.withInput input) ∧
      m'.input = m.input ∧ m'.seen = m.seen := by
  obtain ⟨base, rest, state, hdrop, hgoto, rfl⟩ := reduce?_eq_some.1 h
  exact ⟨reduce?_eq_some.2 ⟨base, rest, state, hdrop, hgoto, rfl⟩, rfl, rfl⟩

/-- So is a recovery that leaves some tokens unseen. -/
theorem recover?_withInput (hm : m.input = x ++ y) (hy : 0 < y.length)
    (h : m.recover? s = some m') (hseen : m'.seen + y.length ≤ m'.input.length) :
    m.seen ≤ x.length ∧ ∃ x', m'.input = x' ++ y ∧
      (m.withInput (x ++ z)).recover? (s.like stop incremental) =
        some (m'.withInput (x' ++ z)) := by
  unfold recover? at h
  dsimp only at h
  obtain ⟨r, hr, rfl⟩ := Option.map_eq_some_iff.1 h
  obtain ⟨base, rest, hdrop, -⟩ := searchFrames_shift m.frames 0 none 0
    (show m.frames.drop 0 = m.frames from rfl) (fun r hr => by cases hr) r hr
  have hlooked := skip_le_looked m.input m.frames 0 none 0 (fun r hr => by cases hr) r hr
  have happend := searchFrames_append (s := s) (x := x) (y := y) (z := z) stop incremental
    m.frames 0 none 0
  rw [← hm] at happend
  generalize hn : (searchFrames s m.input m.frames 0 none 0).looked = n at *
  have hdrop' : (m.look n).frames.drop r.above = base :: rest := hdrop
  rw [input_resynchronize hdrop', look_input] at hseen
  have hlen : m.input.length = x.length + y.length := by rw [hm, List.length_append]
  have hskip : r.skip ≤ m.input.length := by
    rw [List.length_drop] at hseen
    omega
  have heq := resynchronize_eq (s := s) (m := m.look n) hdrop' hskip
  obtain ⟨hle, hseen⟩ : n ≤ x.length ∧ m.seen ≤ x.length := by
    rw [heq, List.length_drop] at hseen
    simp only [look] at hseen
    omega
  have htake (y : List Lookahead) : (x ++ y).take r.skip = x.take r.skip :=
    List.take_append_of_le_length (Nat.le_trans hlooked hle)
  have hrest (y : List Lookahead) : (x ++ y).drop r.skip = x.drop r.skip ++ y :=
    List.drop_append_of_le_length (Nat.le_trans hlooked hle)
  refine ⟨hseen, x.drop r.skip, by rw [input_resynchronize hdrop', look_input, hm, hrest], ?_⟩
  have hplan : searchFrames (s.like stop incremental) (m.withInput (x ++ z)).input
      (m.withInput (x ++ z)).frames 0 none 0 = searchFrames s m.input m.frames 0 none 0 :=
    happend hle
  have hskip' : r.skip ≤ ((m.withInput (x ++ z)).look n).input.length := by
    show r.skip ≤ (x ++ z).length
    rw [List.length_append]
    omega
  unfold recover?
  dsimp only
  rw [hplan, hr, Option.map_some, hn, heq,
    resynchronize_eq (m := (m.withInput (x ++ z)).look n) hdrop' hskip']
  simp only [recovered, withInput, look, hm, htake, hrest]
  rfl

/-- **A step that leaves some tokens unseen is the same step with other tokens in their place.** -/
theorem step_withInput (hs : s.splice = none) (h₁ : StandsAt pos y) (h₂ : StandsAt pos z)
    (hm : m.input = x ++ y) (h : m.step s = .running m')
    (hseen : m'.seen + y.length ≤ m'.input.length) : ∃ x', m'.input = x' ++ y ∧
      (m.withInput (x ++ z)).step (s.like stop incremental) =
        .running (m'.withInput (x' ++ z)) := by
  have hy : 0 < y.length := by
    obtain ⟨l₁, ls₁, rfl, -⟩ := h₁
    exact Nat.succ_pos _
  have hlike : (s.like stop incremental).splice = none := hs
  rw [step_eq_running hs] at h
  simp only [step_eq_running hlike, Setup.table_like]
  rcases h with ⟨p, m₁, hd, hr, rfl⟩ | ⟨hd, ⟨target, hmove, rfl⟩ | ⟨p, m₁, hmove, hr, rfl⟩ |
    ⟨hmove, m₁, hr, rfl⟩⟩
  · obtain ⟨hr', hinput, -⟩ := reduce?_withInput stop incremental hr (x ++ z)
    refine ⟨x, by rw [mark_input, hinput, hm], Or.inl ⟨p, _, hd, hr', ?_⟩⟩
    exact (mark_withInput stop incremental (hinput.trans hm) h₁ h₂).symm
  · obtain ⟨l, x', rfl⟩ : ∃ l x', x = l :: x' := by
      have hinput : (((m.look 1).shift s target).mark s).input = (x ++ y).tail := by
        rw [mark_input, ← hm]
        rfl
      rw [hinput, List.length_tail, List.length_append] at hseen
      exact List.exists_cons_of_length_pos (by omega)
    have hm' : (m.look 1).input = l :: (x' ++ y) := hm
    refine ⟨x', by rw [mark_input, shift_eq hm'], Or.inr ⟨hd, Or.inl ⟨target, ?_, ?_⟩⟩⟩
    · rw [← hmove, next_withInput stop incremental hm]
      rfl
    · have hshift : ((m.withInput (l :: x' ++ z)).look 1).shift (s.like stop incremental) target =
          ((m.look 1).shift s target).withInput (x' ++ z) := by
        have hinput : ((m.withInput (l :: x' ++ z)).look 1).input = l :: (x' ++ z) := rfl
        rw [shift_eq hm', shift_eq hinput]
        rfl
      rw [hshift]
      exact (mark_withInput stop incremental (by rw [shift_eq hm']) h₁ h₂).symm
  · obtain ⟨hr', hinput, hseen'⟩ := reduce?_withInput stop incremental hr (x ++ z)
    obtain ⟨l, x', rfl⟩ : ∃ l x', x = l :: x' := by
      have hlook : 1 ≤ m₁.seen := by
        rw [hseen']
        exact Nat.le_max_right _ _
      rw [mark_input, mark_seen, hinput, look_input, hm, List.length_append] at hseen
      exact List.exists_cons_of_length_pos (by omega)
    refine ⟨l :: x', by rw [mark_input, hinput, look_input, hm], Or.inr ⟨hd, Or.inr (Or.inl
      ⟨p, _, ?_, hr', ?_⟩)⟩⟩
    · rw [← hmove, next_withInput stop incremental hm]
      rfl
    · exact (mark_withInput stop incremental (hinput.trans hm) h₁ h₂).symm
  · rw [mark_input, mark_seen] at hseen
    obtain ⟨hlook, x', hinput, hr'⟩ := recover?_withInput (z := z) stop incremental
      (by rw [report_input, look_input, hm]) hy hr hseen
    rw [report_seen] at hlook
    obtain ⟨l, x, rfl⟩ : ∃ l x', x = l :: x' :=
      List.exists_cons_of_length_pos (Nat.lt_of_lt_of_le (Nat.le_max_right m.seen 1) hlook)
    refine ⟨x', by rw [mark_input, hinput], Or.inr ⟨hd, Or.inr (Or.inr ⟨?_, _, ?_,
      (mark_withInput stop incremental hinput h₁ h₂).symm⟩)⟩⟩
    · rw [← hmove, next_withInput stop incremental hm]
      rfl
    · have hreport := report_withInput (s := s) (z := z) stop incremental (m := m.look 1) hm
      rw [← hr', ← hreport]
      rfl

end WithInput

/-! ## Runs -/

theorem searchFrames_lt {frames : List Frame} {r : Resync} (hends : Ends m.input)
    (h : (searchFrames s m.input frames 0 none 0).resync = some r) : r.skip < m.input.length := by
  have hskips := searchFrames_skips hends frames 0 none 0 (fun r hr => by cases hr) r h
  simpa using (hends.drop hskips).ne_nil

theorem seen_recover (hends : Ends m.input) (h : m.recover? s = some m') :
    m.seen + m'.input.length ≤ m'.seen + m.input.length := by
  obtain ⟨r, base, rest, n, hplan, hdrop, -, rfl⟩ := recover?_eq_some h
  have hskip := Nat.le_of_lt (searchFrames_lt hends hplan)
  rw [resynchronize_eq (m := m.look n) hdrop hskip]
  show m.seen + (m.input.drop r.skip).length ≤ max m.seen n - r.skip + m.input.length
  rw [List.length_drop]
  omega

/-- **The horizon never moves back.** -/
theorem seen_step (hs : s.splice = none) (hends : Ends m.input) (h : m.step s = .running m') :
    m.seen + m'.input.length ≤ m'.seen + m.input.length := by
  rw [step_eq_running hs] at h
  rcases h with ⟨p, m₁, -, hr, rfl⟩ | ⟨-, ⟨target, -, rfl⟩ | ⟨p, m₁, -, hr, rfl⟩ | ⟨-, m₁, hr, rfl⟩⟩
  · obtain ⟨base, rest, state, -, -, rfl⟩ := reduce?_eq_some.1 hr
    simp
  · obtain ⟨l, ls, hinput⟩ := List.exists_cons_of_ne_nil hends.ne_nil
    have hshift := shift_eq (s := s) (m := m.look 1) (show (m.look 1).input = l :: ls from hinput)
      target
    rw [mark_seen, mark_input, hshift, hinput, List.length_cons]
    show m.seen + ls.length ≤ max m.seen 1 - 1 + (ls.length + 1)
    omega
  · obtain ⟨base, rest, state, -, -, rfl⟩ := reduce?_eq_some.1 hr
    simp [look]
  · have hseen := seen_recover (m := (m.look 1).report s) (by rw [report_input]; exact hends) hr
    rw [report_seen, report_input] at hseen
    rw [mark_seen, mark_input]
    exact Nat.le_trans (Nat.add_le_add_right (Nat.le_max_left m.seen 1) _) hseen

theorem ends_step (he : s.table.EofOnly) (hs : s.splice = none) (hends : Ends m.input)
    (h : m.step s = .running m') : Ends m'.input := by
  have hbalanced := Balanced.step he hs (m := m) ⟨rfl, hends⟩
  rw [h] at hbalanced
  exact hbalanced.ends

/-- **A run that leaves some tokens unseen passes the same machines with other tokens in their
place.** -/
theorem Reaches.withInput (he : s.table.EofOnly) (hs : s.splice = none) (hends : Ends m.input)
    (stop : Token) (incremental : Bool) {pos : Position} (h₁ : StandsAt pos y)
    (h₂ : StandsAt pos z) (hm : m.input = x ++ y) (h : Reaches s m m')
    (hseen : m'.seen + y.length ≤ m'.input.length) : ∃ x', m'.input = x' ++ y ∧
      Reaches (s.like stop incremental) (m.withInput (x ++ z)) (m'.withInput (x' ++ z)) := by
  induction h with
  | refl => exact ⟨x, hm, .refl⟩
  | @step m₁ m₂ hreach hstep ih =>
    have hends₁ := hreach.keeps hends fun _ _ hends hstep => ends_step he hs hends hstep
    have hle := seen_step hs hends₁ hstep
    obtain ⟨x₁, hx₁, hreach₁⟩ := ih (by omega)
    obtain ⟨x₂, hx₂, hstep₂⟩ := step_withInput stop incremental hs h₁ h₂ hx₁ hstep hseen
    exact ⟨x₂, hx₂, .step hreach₁ hstep₂⟩

end Machine

end AsmTree
