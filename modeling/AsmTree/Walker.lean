import AsmTree.Cursor
import AsmTree.SyntaxTree

/-!
# Walkers

A walker goes about at and below the place that it was made on, its home. It is asked to move, and
says whether there was somewhere to go. Where it might go is looked up in the whole tree, which
goes on around its home: what keeps it inside is that it counts the steps that it has made down. A
traversal has a walker of its own, and hands out places one at a time. **Main statement here:** each
step of a traversal, and each step down, leaves fewer trees to visit, so both end.
-/

namespace AsmTree

/-- A place in a tree, seen from another one at or above it. -/
structure Walker where
  /-- The place that the walker was made on. -/
  home : Cursor
  /-- The place that it is on. -/
  here : Cursor
  /-- The steps down that it has made and not taken back. -/
  depth : Nat
deriving Repr, Inhabited, BEq

namespace Walker

/-- Where a walker can be asked to go. -/
inductive Move where
  | firstChild
  | lastChild
  /-- To the first child that ends behind an offset. -/
  | childAt (offset : Nat)
  | nextSibling
  | previousSibling
  | parent
deriving DecidableEq, Repr

/-- What a walker can be asked for: to make a move, or to go back to its home. -/
inductive Request where
  | move (m : Move)
  | reset
deriving DecidableEq, Repr

/-- A walker that is made on a place. -/
def of (c : Cursor) : Walker := ⟨c, c, 0⟩

/-- A walker that is made on the root of a parsed text. -/
def ofRoot (t : SyntaxTree) : Walker := of (.of ⟨0, t.root⟩)

/-! ## Moves -/

/-- Down to a child, if there is one. -/
def descend (w : Walker) : Option Cursor → Bool × Walker
  | some child => (true, { w with here := child, depth := w.depth + 1 })
  | none => (false, w)

/-- To a sibling, if there is one. From home there is no way to it. -/
def sidestep (w : Walker) (sibling : Option Cursor) : Bool × Walker :=
  if w.depth = 0 then (false, w)
  else
    match sibling with
    | some sibling => (true, { w with here := sibling })
    | none => (false, w)

/-- Up to the node that holds the place, but not above home. -/
def ascend (w : Walker) : Bool × Walker :=
  if w.depth = 0 then (false, w)
  else
    match w.here.parent? with
    | some parent => (true, { w with here := parent, depth := w.depth - 1 })
    | none => (false, w)

/-- Makes a move, and says whether there was somewhere to go. -/
def goto (w : Walker) : Move → Bool × Walker
  | .firstChild => w.descend w.here.firstChild?
  | .lastChild => w.descend w.here.lastChild?
  | .childAt offset => w.descend (w.here.childAt? offset)
  | .nextSibling => w.sidestep w.here.nextSibling?
  | .previousSibling => w.sidestep w.here.previousSibling?
  | .parent => w.ascend

/-- Back home. -/
def reset (w : Walker) : Walker := { w with here := w.home, depth := 0 }

/-- The walker after a request. -/
def step (w : Walker) : Request → Walker
  | .move m => (w.goto m).2
  | .reset => w.reset

/-- The walker after some requests. -/
def run (w : Walker) (requests : List Request) : Walker := requests.foldl step w

/-! ## Small facts about moves -/

variable {w w' : Walker} {c : Cursor} {m : Move}

theorem descend_eq_true {child : Option Cursor} (h : w.descend child = (true, w')) :
    ∃ c, child = some c ∧ w' = { w with here := c, depth := w.depth + 1 } := by
  cases child with
  | none => cases h
  | some c => exact ⟨c, rfl, (Prod.mk.inj h).2.symm⟩

theorem descend_eq_false {child : Option Cursor} (h : w.descend child = (false, w')) :
    w' = w ∧ child = none := by
  cases child with
  | none => exact ⟨(Prod.mk.inj h).2.symm, rfl⟩
  | some c => cases h

theorem sidestep_eq_true {sibling : Option Cursor} (h : w.sidestep sibling = (true, w')) :
    w.depth ≠ 0 ∧ ∃ c, sibling = some c ∧ w' = { w with here := c } := by
  unfold sidestep at h
  split at h
  · cases h
  · next hdepth =>
    cases sibling with
    | none => cases h
    | some c => exact ⟨hdepth, c, rfl, (Prod.mk.inj h).2.symm⟩

theorem sidestep_eq_false {sibling : Option Cursor} (h : w.sidestep sibling = (false, w')) :
    w' = w ∧ (w.depth = 0 ∨ sibling = none) := by
  unfold sidestep at h
  split at h
  · next hdepth => exact ⟨(Prod.mk.inj h).2.symm, Or.inl hdepth⟩
  · cases sibling with
    | none => exact ⟨(Prod.mk.inj h).2.symm, Or.inr rfl⟩
    | some c => cases h

theorem ascend_eq_true (h : w.ascend = (true, w')) :
    w.depth ≠ 0 ∧ ∃ c, w.here.parent? = some c ∧
      w' = { w with here := c, depth := w.depth - 1 } := by
  unfold ascend at h
  split at h
  · cases h
  · next hdepth =>
    split at h
    · next c hc => exact ⟨hdepth, c, hc, (Prod.mk.inj h).2.symm⟩
    · cases h

theorem ascend_eq_false (h : w.ascend = (false, w')) :
    w' = w ∧ (w.depth = 0 ∨ w.here.parent? = none) := by
  unfold ascend at h
  split at h
  · next hdepth => exact ⟨(Prod.mk.inj h).2.symm, Or.inl hdepth⟩
  · split at h
    · cases h
    · next hparent => exact ⟨(Prod.mk.inj h).2.symm, Or.inr hparent⟩

/-- A move that leads nowhere changes nothing. -/
theorem eq_of_goto_eq_false (h : w.goto m = (false, w')) : w' = w := by
  cases m with
  | firstChild => exact (descend_eq_false h).1
  | lastChild => exact (descend_eq_false h).1
  | childAt offset => exact (descend_eq_false h).1
  | nextSibling => exact (sidestep_eq_false h).1
  | previousSibling => exact (sidestep_eq_false h).1
  | parent => exact (ascend_eq_false h).1

theorem depth_lt_of_parent (h : w.goto .parent = (true, w')) : w'.depth < w.depth := by
  obtain ⟨hdepth, c, -, rfl⟩ := ascend_eq_true h
  exact Nat.sub_lt (Nat.pos_of_ne_zero hdepth) Nat.one_pos

/-! ## Down to an offset -/

theorem remaining_of_enter? {l : Located} {above : List Crumb} {ok : Located → Bool}
    {before rest : List Located} {d : Cursor} (h : Cursor.enter? l above ok before rest = some d) :
    d.remaining ≤ Tree.sizeAll (rest.map Located.tree) + Cursor.behind above := by
  induction rest generalizing before with
  | nil => cases h
  | cons x rest ih =>
    rw [List.map_cons, Tree.sizeAll]
    unfold Cursor.enter? at h
    split at h
    · cases h
      simp [Cursor.remaining, Cursor.behind, Nat.add_assoc]
    · have := ih h
      omega

/-- A step down to an offset leaves fewer trees to visit. -/
theorem remaining_childAt {offset : Nat} (h : w.goto (.childAt offset) = (true, w')) :
    w'.here.remaining < w.here.remaining := by
  obtain ⟨d, hd, rfl⟩ := descend_eq_true h
  have hle := remaining_of_enter? hd
  rw [Located.map_tree_children] at hle
  refine Nat.lt_of_le_of_lt hle (Nat.add_lt_add_right ?_ _)
  cases w.here.focus.tree with
  | token k text => exact Nat.one_pos
  | node k cs => exact Nat.lt_add_of_pos_left Nat.one_pos

/-- The stations of a walker that is asked for the child at an offset until there is none. -/
def descent (offset : Nat) (w : Walker) : List Walker :=
  w ::
    match _ : w.goto (.childAt offset) with
    | (true, w') => descent offset w'
    | (false, _) => []
termination_by w.here.remaining
decreasing_by exact remaining_childAt ‹_›

/-! ## Traversals -/

/-- To the next sibling or, if there is none, to that of the nearest node around that has one. -/
def climb? (w : Walker) : Option Walker :=
  match _ : w.goto .nextSibling with
  | (true, w') => some w'
  | (false, w') =>
    match _ : w'.goto .parent with
    | (true, w'') => climb? w''
    | (false, _) => none
termination_by w.depth
decreasing_by
  obtain rfl := eq_of_goto_eq_false ‹w.goto .nextSibling = _›
  exact depth_lt_of_parent ‹_›

end Walker

/-- A traversal of the places at and below another one. -/
structure Traversal where
  /-- The walker on the place that comes next, as long as there is one. -/
  walker : Option Walker
  /-- The place that the traversal begins on, if a token stands there. -/
  single : Option Cursor
deriving Repr, Inhabited

/-- A traversal from the place that a walker is on. On a node it has a walker whose home is there,
on a token one that is a copy. -/
def Walker.traversal (w : Walker) : Traversal :=
  let start := if w.here.focus.isToken then w else Walker.of w.here
  ⟨some start, if start.here.focus.isToken then some start.here else none⟩

namespace Traversal

/-- The next place, if there is one, and the traversal behind it. -/
def next (t : Traversal) : Option Cursor × Traversal :=
  match t.single with
  | some token => (some token, ⟨none, none⟩)
  | none =>
    match t.walker with
    | none => (none, t)
    | some w =>
      match w.goto .firstChild with
      | (true, w') => (some w.here, ⟨some w', none⟩)
      | (false, w') => (some w.here, ⟨w'.climb?, none⟩)

/-- Number of trees that the traversal has not visited. -/
def remaining (t : Traversal) : Nat :=
  match t.single with
  | some _ => 1
  | none => (t.walker.map (·.here.remaining)).getD 0

theorem remaining_climb? {w w' : Walker} (h : w.climb? = some w') :
    w'.here.remaining ≤ Cursor.behind w.here.above := by
  fun_induction Walker.climb? w with
  | case1 w d hnext =>
    cases h
    obtain ⟨-, c, hc, rfl⟩ := Walker.sidestep_eq_true hnext
    unfold Cursor.nextSibling? at hc
    split at hc
    · cases hc
    · next k above habove =>
      split at hc
      · cases hc
      · next x after hafter =>
        cases hc
        simp [habove, hafter, Cursor.remaining, Cursor.behind, Tree.sizeAll, Nat.add_assoc]
  | case2 w d hnext d' hparent ih =>
    obtain rfl := Walker.eq_of_goto_eq_false hnext
    refine Nat.le_trans (ih h) ?_
    obtain ⟨-, c, hc, rfl⟩ := Walker.ascend_eq_true hparent
    unfold Cursor.parent? at hc
    split at hc
    · cases hc
    · next k above habove =>
      cases hc
      rw [habove]
      exact Nat.le_add_left _ _
  | case3 => cases h

/-- A step of a traversal leaves fewer trees to visit. -/
theorem remaining_next {t t' : Traversal} {c : Cursor} (h : t.next = (some c, t')) :
    t'.remaining < t.remaining := by
  unfold next at h
  split at h
  · next token hsingle =>
    cases h
    simp [remaining, hsingle]
  · next hsingle =>
    split at h
    · cases h
    · next w hw =>
      have hleft : t.remaining = w.here.remaining := by simp [remaining, hsingle, hw]
      rw [hleft]
      split at h
      · next w' hchild =>
        cases h
        obtain ⟨d, hd, rfl⟩ := Walker.descend_eq_true hchild
        exact Cursor.remaining_firstChild hd
      · next w' hchild =>
        cases h
        obtain rfl := Walker.eq_of_goto_eq_false hchild
        have hsize := Cursor.size_pos w'.here.focus.tree
        cases hclimb : w'.climb? with
        | none => exact Nat.add_pos_left hsize _
        | some d =>
          have := remaining_climb? hclimb
          simp only [remaining, Option.map_some, Option.getD_some]
          unfold Cursor.remaining at *
          omega

/-- All places that a traversal hands out, in order. -/
def places (t : Traversal) : List Cursor :=
  match _ : t.next with
  | (some c, t') => c :: places t'
  | (none, _) => []
termination_by t.remaining
decreasing_by exact remaining_next ‹_›

end Traversal

end AsmTree
