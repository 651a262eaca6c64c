import AsmTree.Proofs.Machine.Nodes
import AsmTree.Proofs.Machine.Quiet
import AsmTree.Proofs.Machine.Skeletons

/-!
# What is reported lies in recovered regions

Only a recovery reports anything, and only it takes unreadable tokens if no state reads them. A
region once made stays, inside of whatever is made of it. **Main statement (`Contained.run`):** a
finished run that has reported something has made a region, and the unreadable tokens lie in such
regions.
-/

namespace AsmTree

open AsmTree.Tree Lookahead

namespace Machine

variable {s : Setup} {m m' : Machine} {t : ParseTable} {l : Lookahead} {out : Output}

/-! ## Trees and what is reported of them -/

/-- Trees that contain all that goes wrong with them. -/
structure Contained (ts : List Tree) (ds : List Diagnostic) : Prop where
  /-- Without a recovered region nothing has been reported. -/
  reported : (∀ t ∈ ts, t.Whole) → ds = []
  /-- The unreadable tokens lie in recovered regions. -/
  sheltered : ∀ t ∈ ts, t.Sheltered

theorem Contained.of_region {ts : List Tree} {ds : List Diagnostic} {cs : List Tree}
    (hregion : .node .error cs ∈ ts) (h : ∀ t ∈ ts, t.Sheltered) : Contained ts ds where
  reported hwhole := absurd rfl (hwhole _ hregion).1
  sheltered := h

/-- Of the machine, the trees on its stack count. -/
abbrev Contains (m : Machine) : Prop := Contained (Frame.joined m.frames) m.errors.toList

/-! ## Tokens -/

theorem sheltered_triviaTrees (hunknown : t.isExtra .unknown = false) (hl : Sorted t.isExtra l) :
    ∀ tree ∈ l.triviaTrees, tree.Sheltered := by
  intro tree htree
  obtain ⟨token, htoken, rfl⟩ := List.mem_map.1 htree
  intro hk
  have hextra := hl.trivia token htoken
  rw [hk, hunknown] at hextra
  cases hextra

theorem sheltered_trees (hunknown : t.isExtra .unknown = false) (hl : Sorted t.isExtra l)
    (hk : l.token.kind ≠ .unknown) : ∀ tree ∈ l.trees, tree.Sheltered := by
  intro tree htree
  rcases List.mem_append.1 htree with htree | htree
  · exact sheltered_triviaTrees hunknown hl tree htree
  · rw [List.mem_singleton.1 htree]
    exact hk

/-! ## Moves -/

/-- A region takes whatever is wrapped into it, and extras stay outside. -/
theorem sheltered_wrap_error (hunknown : t.isExtra .unknown = false) (backward : List Tree) :
    ∀ tree ∈ wrap t .error backward, tree.Sheltered := by
  intro tree htree
  rcases mem_wrap.1 htree with rfl | htree
  · exact Or.inl rfl
  · have hextra := isExtraTree_of_mem_takeWhile htree
    cases tree with
    | token k text =>
      rintro rfl
      simp [isExtraTree, Tree.kind, hunknown] at hextra
    | node k cs => cases hextra

theorem sheltered_wrap {k : Kind} {backward : List Tree}
    (h : ∀ tree ∈ backward, tree.Sheltered) : ∀ tree ∈ wrap t k backward, tree.Sheltered := by
  obtain ⟨houtside, hinside⟩ := (forall_mem_wrapped t backward).1 h
  intro tree htree
  rcases mem_wrap.1 htree with rfl | htree
  · exact sheltered_node.2 (Or.inr hinside)
  · exact houtside tree htree

theorem sheltered_reducedFrame {r : Reduction} {popped : List Frame} {base : Frame} {state : Nat}
    (h : ∀ tree ∈ Frame.joined popped, tree.Sheltered) :
    ∀ tree ∈ (reducedFrame t r popped base state).backward, tree.Sheltered := by
  unfold reducedFrame
  cases r.kind with
  | none => exact h
  | some k => exact sheltered_wrap h

theorem Contains.reduce (h : m.Contains) {p : Nat} (hr : m.reduce? s p = some m') :
    m'.Contains := by
  obtain ⟨base, rest, state, hdrop, -, rfl⟩ := reduce?_eq_some.1 hr
  have hsplit := List.take_append_drop (s.table.production p).length m.frames
  obtain ⟨hreported, hsheltered⟩ := h
  rw [← hsplit, hdrop, Frame.joined_append] at hreported hsheltered
  rw [List.forall_mem_append] at hreported hsheltered
  constructor
  · intro hwhole
    rw [frames, Frame.joined_cons, List.forall_mem_append, everywhere_reducedFrame] at hwhole
    exact hreported ⟨hwhole.1.2, hwhole.2⟩
  · rw [frames, Frame.joined_cons, List.forall_mem_append]
    exact ⟨sheltered_reducedFrame hsheltered.1, hsheltered.2⟩

variable (hunknown : s.table.isExtra .unknown = false)

include hunknown

theorem Contains.shift (h : m.Contains) (hl : Sorted s.table.isExtra (m.ahead s 0))
    (hk : (m.next s).kind ≠ .unknown) (target : Nat) : (m.shift s target).Contains := by
  have hjoined : Frame.joined (m.shift s target).frames =
      (m.ahead s 0).trees.reverse ++ Frame.joined m.frames := Frame.joined_cons _ _
  constructor
  · intro hwhole
    rw [hjoined, List.forall_mem_append] at hwhole
    rw [errors_shift hk]
    exact h.reported hwhole.2
  · rw [hjoined, List.forall_mem_append]
    exact ⟨fun tree htree => sheltered_trees hunknown hl hk tree (List.mem_reverse.1 htree),
      h.sheltered⟩

/-- A recovery leaves a region on top, whatever it has reported. -/
theorem Contains.recover (h : ∀ t ∈ Frame.joined m.frames, t.Sheltered)
    (hr : m.recover? s = some m') : m'.Contains := by
  obtain ⟨r, base, rest, n, -, hdrop, -, rfl⟩ := recover?_eq_some hr
  have hdrop' : (m.look n).frames.drop r.above = base :: rest := hdrop
  unfold Contains
  rw [frames_resynchronize hdrop', Frame.joined_cons]
  refine .of_region (List.mem_append_left _ (mem_wrap.2 (Or.inl rfl))) ?_
  rw [List.forall_mem_append]
  refine ⟨sheltered_wrap_error hunknown _, fun t ht => h t ?_⟩
  rw [← List.take_append_drop r.above m.frames, hdrop, Frame.joined_append]
  exact List.mem_append_right _ ht

theorem Contains.accept (h : m.Contains) (hl : Sorted s.table.isExtra (m.ahead s 0)) :
    Contained (m.accept s).children (m.accept s).errors := by
  have hchildren : (m.accept s).children =
      (Frame.joined m.frames).reverse ++ (m.ahead s 0).triviaTrees := rfl
  constructor
  · intro hwhole
    rw [hchildren, List.forall_mem_append] at hwhole
    exact h.reported fun t ht => hwhole.1 t (List.mem_reverse.2 ht)
  · rw [hchildren, List.forall_mem_append]
    exact ⟨fun t ht => h.sheltered t (List.mem_reverse.1 ht), sheltered_triviaTrees hunknown hl⟩

theorem contained_abandon (h : ∀ t ∈ Frame.joined m.frames, t.Sheltered)
    (hl : ∀ n, Sorted s.table.isExtra (m.ahead s n)) :
    Contained (m.abandon s).children (m.abandon s).errors := by
  obtain ⟨n, hchildren⟩ := children_abandon s m
  rw [hchildren]
  refine .of_region (List.mem_append_left _ (List.mem_append_right _
    (List.mem_reverse.2 (mem_wrap.2 (Or.inl rfl))))) ?_
  rw [joined_frames, List.forall_mem_append] at h
  simp only [List.forall_mem_append, List.mem_reverse]
  exact ⟨⟨h.2, sheltered_wrap_error hunknown _⟩, sheltered_triviaTrees hunknown (hl n)⟩

/-! ## Runs -/

def Outcome.Contains : Outcome → Prop
  | .running m => m.Contains
  | .done out => Contained out.children out.errors

omit hunknown in
theorem Contains.markLine (hs : s.splice = none) (h : m.Contains) : (m.markLine s).Contains := by
  rw [markLine_of_splice hs]
  obtain ⟨checkpoints, hm⟩ := mark_eq s m
  rw [hm]
  exact h

variable (hs : s.splice = none)
  (hshift : ∀ state target, (s.table.explicitAction state .unknown).move ≠ .shift target)

include hs hshift

/-- **A step keeps what goes wrong within regions.** -/
theorem Contains.step (hl : ∀ n, Sorted s.table.isExtra (m.ahead s n)) (h : m.Contains) :
    (m.step s).Contains := by
  have hreport : ∀ t ∈ Frame.joined ((m.look 1).report s).frames, t.Sheltered := by
    rw [report_frames]
    exact h.sheltered
  have hahead : ∀ n, Sorted s.table.isExtra (((m.look 1).report s).ahead s n) := by
    intro n
    rw [ahead, report_input]
    exact hl n
  have heffect := step_effect s m
  generalize m.step s = o at heffect
  cases heffect with
  | @reduce p n m' _ _ hr => exact (Contains.reduce (m := m.look n) h hr).markLine hs
  | @stuck p n _ _ => exact contained_abandon hunknown h.sheltered hl
  | @shift target _ hm =>
    have hk : (m.next s).kind ≠ .unknown := fun hk => hshift _ _ (hk ▸ hm)
    exact (Contains.shift (m := m.look 1) hunknown h (hl 0) hk target).markLine hs
  | accept _ _ => exact Contains.accept (m := m.look 1) hunknown h (hl 0)
  | recover _ _ hr => exact (Contains.recover hunknown hreport hr).markLine hs
  | abandon _ _ _ => exact contained_abandon hunknown hreport hahead

/-- **In a finished run all that goes wrong is contained in regions.** -/
theorem Contains.run (hstop : s.table.isExtra s.stop.kind = false)
    (hinput : ∀ l ∈ m.input, Sorted s.table.isExtra l) (h : m.Contains) {fuel : Nat}
    (hrun : m.run s fuel = some out) : Contained out.children out.errors := by
  obtain ⟨m', hreach, hdone⟩ := reaches_of_run hrun
  obtain ⟨hm', hinput'⟩ := hreach.keeps
    (P := fun m => m.Contains ∧ ∀ l ∈ m.input, Sorted s.table.isExtra l) ⟨h, hinput⟩
    fun m₁ m₂ ⟨h₁, hinput₁⟩ hstep => by
      have h₂ := h₁.step hunknown hs hshift (sorted_ahead hinput₁ hstop)
      rw [hstep] at h₂
      obtain ⟨n, hn⟩ := input_of_running hs hstep
      exact ⟨h₂, fun l hl => hinput₁ l (List.mem_of_mem_drop (hn ▸ hl))⟩
  have hlast := hm'.step hunknown hs hshift (sorted_ahead hinput' hstop)
  rw [hdone] at hlast
  exact hlast

end Machine

end AsmTree
