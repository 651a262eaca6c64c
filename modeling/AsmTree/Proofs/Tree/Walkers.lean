import AsmTree.Proofs.Tree.Paths
import AsmTree.Walker

/-!
# Walkers do not leave home

All moves look for their goal in the whole tree. A walker stays at and below its home because the
number that it counts is the length of its way from there (`Stands`), which every move keeps
(`Stands.of_goto`).

**Main statement (`stands_run`):** after any requests a walker is at the end of a way from its home,
as long as its count says. It makes a move exactly if the place that the move asks for is there, and
is on that place then; otherwise nothing changes. Moves down and to a sibling can be taken back.
-/

namespace AsmTree

namespace Walker

/-- The walker is at the end of a way down from its home, and has counted its steps. -/
structure Stands (w : Walker) (home : Cursor) (path : List Nat) : Prop where
  home_eq : w.home = home
  here : home.place? path = some w.here
  depth : w.depth = path.length

/-- Where a move is to lead, by the ways from home: behind which way, to the end of which way. It is
not said that there is a place at the end. -/
inductive Leads (home : Cursor) : Move → List Nat → List Nat → Prop where
  | firstChild (path : List Nat) : Leads home .firstChild path (path ++ [0])
  | lastChild {path : List Nat} {i : Nat} : home.place? (path ++ [i + 1]) = none →
    Leads home .lastChild path (path ++ [i])
  | childAt {path : List Nat} {i offset : Nat} :
    (∀ c, home.place? (path ++ [i]) = some c → offset < c.focus.stop) →
    (∀ j < i, ∀ c, home.place? (path ++ [j]) = some c → c.focus.stop ≤ offset) →
    Leads home (.childAt offset) path (path ++ [i])
  | nextSibling (path : List Nat) (i : Nat) :
    Leads home .nextSibling (path ++ [i]) (path ++ [i + 1])
  | previousSibling (path : List Nat) (i : Nat) :
    Leads home .previousSibling (path ++ [i + 1]) (path ++ [i])
  | parent (path : List Nat) (i : Nat) : Leads home .parent (path ++ [i]) path

def Move.isDescent : Move → Bool
  | .firstChild | .lastChild | .childAt _ => true
  | .nextSibling | .previousSibling | .parent => false

variable {w w' : Walker} {home c d : Cursor} {path path' : List Nat} {i offset : Nat} {m : Move}

/-! ## Where moves lead -/

theorem stands_of (home : Cursor) : (of home).Stands home [] := ⟨rfl, rfl, rfl⟩

theorem Stands.path_eq_nil (h : w.Stands home path) (hdepth : w.depth = 0) : path = [] :=
  List.eq_nil_of_length_eq_zero (h.depth.symm.trans hdepth)

theorem Stands.exists_parent (h : w.Stands home path) (hdepth : w.depth ≠ 0) :
    ∃ path₀ i e, path = path₀ ++ [i] ∧ home.place? path₀ = some e ∧
      e.child? i = some w.here := by
  obtain rfl | ⟨path₀, i, rfl⟩ := path.eq_nil_or_concat
  · exact absurd h.depth hdepth
  · rw [List.concat_eq_append] at h ⊢
    obtain ⟨e, he, hchild⟩ := Cursor.exists_of_place?_concat h.here
    exact ⟨path₀, i, e, rfl, he, hchild⟩

theorem Stands.down (h : w.Stands home path) (hc : w.here.child? i = some c) :
    Stands { w with here := c, depth := w.depth + 1 } home (path ++ [i]) where
  home_eq := h.home_eq
  here := by rw [Cursor.place?_concat h.here, hc]
  depth := by rw [List.length_append, h.depth]; rfl

theorem Stands.aside {j : Nat} (h : w.Stands home (path ++ [j])) (he : home.place? path = some d)
    (hc : d.child? i = some c) : Stands { w with here := c } home (path ++ [i]) where
  home_eq := h.home_eq
  here := by rw [Cursor.place?_concat he, hc]
  depth := by rw [h.depth, List.length_append, List.length_append]; rfl

theorem Stands.up (h : w.Stands home (path ++ [i])) (he : home.place? path = some d) :
    Stands { w with here := d, depth := w.depth - 1 } home path where
  home_eq := h.home_eq
  here := he
  depth := by rw [h.depth, List.length_append]; rfl

theorem childAt?_eq_some (h : c.childAt? offset = some d) : ∃ i, c.child? i = some d ∧
    offset < d.focus.stop ∧ ∀ j < i, ∀ e, c.child? j = some e → e.focus.stop ≤ offset := by
  rw [Cursor.childAt?_eq] at h
  obtain ⟨i, hi, hd⟩ := Option.bind_eq_some_iff.1 h
  obtain ⟨hlt, hstop, hbefore⟩ := List.findIdx?_eq_some_iff_getElem.1 hi
  refine ⟨i, hd, ?_, fun j hj e he => ?_⟩
  · obtain ⟨before, x, after, hcs, rfl, rfl⟩ := Cursor.exists_of_child? hd
    simpa [hcs] using hstop
  · have hnot := hbefore j hj
    obtain ⟨before, x, after, hcs, rfl, rfl⟩ := Cursor.exists_of_child? he
    simpa [hcs] using hnot

theorem childAt?_eq_none (h : c.childAt? offset = none) (hd : c.child? i = some d) :
    d.focus.stop ≤ offset := by
  rw [Cursor.childAt?_eq, Option.bind_eq_none_iff] at h
  cases hfind : c.focus.children.findIdx? (offset < ·.stop) with
  | none =>
    have hnot := List.findIdx?_eq_none_iff.1 hfind _ (Cursor.mem_children_of_child? hd)
    simpa using hnot
  | some n =>
    have hlt := (List.findIdx?_eq_some_iff_getElem.1 hfind).1
    exact absurd (Cursor.child?_eq_none.1 (h n hfind)) (Nat.not_le.2 hlt)

/-! ## One move -/

/-- **A move that is made leads where it is to lead.** -/
theorem Stands.of_goto (h : w.Stands home path) (hgoto : w.goto m = (true, w')) :
    ∃ path', Leads home m path path' ∧ w'.Stands home path' := by
  cases m with
  | firstChild =>
    obtain ⟨c, hc, rfl⟩ := descend_eq_true hgoto
    rw [Cursor.firstChild?_eq] at hc
    exact ⟨_, .firstChild path, h.down hc⟩
  | lastChild =>
    obtain ⟨c, hc, rfl⟩ := descend_eq_true hgoto
    rw [Cursor.lastChild?_eq] at hc
    refine ⟨_, .lastChild ?_, h.down hc⟩
    rw [Cursor.place?_concat h.here, Cursor.child?_eq_none]
    exact Nat.le_add_of_sub_le (Nat.le_refl _)
  | childAt offset =>
    obtain ⟨c, hc, rfl⟩ := descend_eq_true hgoto
    obtain ⟨i, hi, hstop, hbefore⟩ := childAt?_eq_some hc
    refine ⟨_, .childAt (fun d hd => ?_) (fun j hj d hd => ?_), h.down hi⟩
    · rw [Cursor.place?_concat h.here, hi] at hd
      cases hd
      exact hstop
    · rw [Cursor.place?_concat h.here] at hd
      exact hbefore j hj d hd
  | nextSibling =>
    obtain ⟨hdepth, c, hc, rfl⟩ := sidestep_eq_true hgoto
    obtain ⟨path₀, i, e, rfl, he, hchild⟩ := h.exists_parent hdepth
    rw [Cursor.nextSibling?_of_child? hchild] at hc
    exact ⟨_, .nextSibling path₀ i, h.aside he hc⟩
  | previousSibling =>
    obtain ⟨hdepth, c, hc, rfl⟩ := sidestep_eq_true hgoto
    obtain ⟨path₀, i, e, rfl, he, hchild⟩ := h.exists_parent hdepth
    cases i with
    | zero =>
      rw [Cursor.previousSibling?_of_first hchild] at hc
      cases hc
    | succ i =>
      rw [Cursor.previousSibling?_of_child? hchild] at hc
      exact ⟨_, .previousSibling path₀ i, h.aside he hc⟩
  | parent =>
    obtain ⟨hdepth, c, hc, rfl⟩ := ascend_eq_true hgoto
    obtain ⟨path₀, i, e, rfl, he, hchild⟩ := h.exists_parent hdepth
    obtain rfl := Option.some.inj ((Cursor.parent?_of_child? hchild).symm.trans hc)
    exact ⟨_, .parent path₀ i, h.up he⟩

/-- **A move that is not made has nowhere to lead** at or below home. -/
theorem Stands.place?_eq_none (h : w.Stands home path) (hgoto : w.goto m = (false, w'))
    (hleads : Leads home m path path') : home.place? path' = none := by
  cases hleads with
  | firstChild =>
    have hnone := (descend_eq_false hgoto).2
    rwa [Cursor.firstChild?_eq, ← Cursor.place?_concat h.here] at hnone
  | @lastChild _ i hlast =>
    have hnone := (descend_eq_false hgoto).2
    rw [Cursor.lastChild?_eq, Cursor.child?_eq_none] at hnone
    rw [Cursor.place?_concat h.here, Cursor.child?_eq_none]
    omega
  | @childAt _ i offset hstop =>
    have hnone := (descend_eq_false hgoto).2
    rw [Option.eq_none_iff_forall_ne_some]
    intro c hc
    have hle : c.focus.stop ≤ offset := by
      rw [Cursor.place?_concat h.here] at hc
      exact childAt?_eq_none hnone hc
    exact absurd (hstop c hc) (Nat.not_lt.2 hle)
  | nextSibling path₀ i =>
    obtain ⟨e, he, hchild⟩ := Cursor.exists_of_place?_concat h.here
    rcases (sidestep_eq_false hgoto).2 with hdepth | hnone
    · exact absurd (h.path_eq_nil hdepth) (List.concat_ne_nil _ _)
    · rwa [Cursor.nextSibling?_of_child? hchild, ← Cursor.place?_concat he] at hnone
  | previousSibling path₀ i =>
    obtain ⟨e, he, hchild⟩ := Cursor.exists_of_place?_concat h.here
    rcases (sidestep_eq_false hgoto).2 with hdepth | hnone
    · exact absurd (h.path_eq_nil hdepth) (List.concat_ne_nil _ _)
    · rwa [Cursor.previousSibling?_of_child? hchild, ← Cursor.place?_concat he] at hnone
  | parent path₀ i =>
    obtain ⟨e, he, hchild⟩ := Cursor.exists_of_place?_concat h.here
    rcases (ascend_eq_false hgoto).2 with hdepth | hnone
    · exact absurd (h.path_eq_nil hdepth) (List.concat_ne_nil _ _)
    · rw [Cursor.parent?_of_child? hchild] at hnone
      cases hnone

/-! ## There and back -/

theorem goto_parent_of_child (hc : w.here.child? i = some c) :
    goto { w with here := c, depth := w.depth + 1 } .parent = (true, w) := by
  simp [goto, ascend, Cursor.parent?_of_child? hc]

theorem goto_parent_of_descent (hm : m.isDescent = true) (hgoto : w.goto m = (true, w')) :
    w'.goto .parent = (true, w) := by
  cases m with
  | firstChild =>
    obtain ⟨c, hc, rfl⟩ := descend_eq_true hgoto
    rw [Cursor.firstChild?_eq] at hc
    exact goto_parent_of_child hc
  | lastChild =>
    obtain ⟨c, hc, rfl⟩ := descend_eq_true hgoto
    rw [Cursor.lastChild?_eq] at hc
    exact goto_parent_of_child hc
  | childAt offset =>
    obtain ⟨c, hc, rfl⟩ := descend_eq_true hgoto
    obtain ⟨i, hi, -⟩ := childAt?_eq_some hc
    exact goto_parent_of_child hi
  | nextSibling => cases hm
  | previousSibling => cases hm
  | parent => cases hm

theorem goto_previousSibling_of_nextSibling (hgoto : w.goto .nextSibling = (true, w')) :
    w'.goto .previousSibling = (true, w) := by
  obtain ⟨hdepth, c, hc, rfl⟩ := sidestep_eq_true hgoto
  simp [goto, sidestep, hdepth, Cursor.previousSibling_nextSibling hc]

theorem goto_nextSibling_of_previousSibling (hgoto : w.goto .previousSibling = (true, w')) :
    w'.goto .nextSibling = (true, w) := by
  obtain ⟨hdepth, c, hc, rfl⟩ := sidestep_eq_true hgoto
  simp [goto, sidestep, hdepth, Cursor.nextSibling_previousSibling hc]

/-! ## Any requests -/

theorem Stands.step (h : w.Stands home path) (r : Request) :
    ∃ path', (w.step r).Stands home path' := by
  cases r with
  | reset => exact ⟨[], h.home_eq, congrArg some h.home_eq.symm, rfl⟩
  | move m =>
    cases hgoto : w.goto m with
    | mk moved w' =>
      rw [Walker.step, hgoto]
      cases moved with
      | false => exact ⟨path, (eq_of_goto_eq_false hgoto).symm ▸ h⟩
      | true =>
        obtain ⟨path', -, h'⟩ := h.of_goto hgoto
        exact ⟨path', h'⟩

theorem Stands.run (h : w.Stands home path) (requests : List Request) :
    ∃ path', (w.run requests).Stands home path' := by
  induction requests generalizing w path with
  | nil => exact ⟨path, h⟩
  | cons r requests ih =>
    obtain ⟨path', h'⟩ := h.step r
    exact ih h'

/-- **Walkers do not leave home, and moves that lead nowhere change nothing.** Behind any requests a
walker stands at the end of a way from its home, and its count is the number of steps back up. A
move is refused exactly if the place that it asks for is not there, at or below home. -/
theorem stands_run (home : Cursor) (requests : List Request) :
    let w := (of home).run requests
    ∃ path, w.Stands home path ∧ w.here.up? w.depth = some home ∧
      (∀ m, (w.goto m).1 = false ↔
        ∀ path', Leads home m path path' → home.place? path' = none) ∧
      (∀ m w', w.goto m = (false, w') → w' = w) ∧
      (∀ m w', w.goto m = (true, w') →
        ∃ path', Leads home m path path' ∧ w'.Stands home path') ∧
      (∀ m w', m.isDescent = true → w.goto m = (true, w') → w'.goto .parent = (true, w)) ∧
      (∀ w', w.goto .nextSibling = (true, w') → w'.goto .previousSibling = (true, w)) ∧
      ∀ w', w.goto .previousSibling = (true, w') → w'.goto .nextSibling = (true, w) := by
  obtain ⟨path, h⟩ := (stands_of home).run requests
  refine ⟨path, h, ?_, fun m => ⟨fun hrefused path' hleads => ?_, fun hnone => ?_⟩,
    fun m w' => eq_of_goto_eq_false, fun m w' => h.of_goto, fun m w' => goto_parent_of_descent,
    fun w' => goto_previousSibling_of_nextSibling, fun w' => goto_nextSibling_of_previousSibling⟩
  · rw [h.depth]
    exact Cursor.up?_place? h.here
  · exact h.place?_eq_none (Prod.ext hrefused rfl) hleads
  · refine Bool.eq_false_iff.2 fun hmade => ?_
    obtain ⟨path', hleads, h'⟩ := h.of_goto (m := m) (Prod.ext hmade rfl)
    cases (hnone path' hleads).symm.trans h'.here

end Walker

end AsmTree
