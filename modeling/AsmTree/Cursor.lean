import AsmTree.Tree.Located

/-!
# Cursors

A cursor stands on one tree and remembers the way down to it: for each node passed, the children
on both sides of the way. Moves go to neighbours, so a cursor can be everywhere below the node that
it was made on, and nowhere else. **Main statements here:** a step in preorder leaves fewer trees
to visit, so the walk ends; going to a sibling and back ends where it began.
-/

namespace AsmTree

/-- A node that a cursor has passed on its way down, without the child that it went to. -/
structure Crumb where
  start : Nat
  kind : Kind
  /-- The children before the way, the nearest first. -/
  before : List Located
  /-- The children behind the way, the nearest first. -/
  after : List Located
deriving Repr, Inhabited, BEq

/-- A place in a tree. -/
structure Cursor where
  /-- The tree that the cursor stands on. -/
  focus : Located
  /-- The nodes above, the nearest first. -/
  above : List Crumb
deriving Repr, Inhabited, BEq

/-- The node of a crumb, with the child back in its place. -/
def Crumb.close (k : Crumb) (child : Located) : Located :=
  ⟨k.start, .node k.kind ((k.before.reverse ++ child :: k.after).map Located.tree)⟩

namespace Cursor

/-- A cursor on a tree that does not leave it. -/
def of (l : Located) : Cursor := ⟨l, []⟩

/-- Number of nodes above, up to the one that the cursor was made on. -/
def depth (c : Cursor) : Nat := c.above.length

/-- The trees before the cursor in the same node, the nearest first. -/
def before (c : Cursor) : List Located := (c.above.head?.map Crumb.before).getD []

/-! ## Moves -/

/-- Goes down to the first of some children for which a condition holds. `before` are those that
have been passed. -/
def enter? (l : Located) (above : List Crumb) (ok : Located → Bool) (before : List Located) :
    List Located → Option Cursor
  | [] => none
  | x :: after =>
    if ok x then some ⟨x, ⟨l.start, l.kind, before, after⟩ :: above⟩
    else enter? l above ok (x :: before) after

/-- Down to the first child. -/
def firstChild? (c : Cursor) : Option Cursor :=
  enter? c.focus c.above (fun _ => true) [] c.focus.children

/-- Down to the first child that ends behind an offset. -/
def childAt? (c : Cursor) (offset : Nat) : Option Cursor :=
  enter? c.focus c.above (offset < ·.stop) [] c.focus.children

/-- Down to the last child. -/
def lastChild? (c : Cursor) : Option Cursor :=
  match c.focus.children.reverse with
  | [] => none
  | x :: before => some ⟨x, ⟨c.focus.start, c.focus.kind, before, []⟩ :: c.above⟩

/-- To the next tree in the same node. -/
def nextSibling? (c : Cursor) : Option Cursor :=
  match c.above with
  | [] => none
  | k :: above =>
    match k.after with
    | [] => none
    | x :: after => some ⟨x, { k with before := c.focus :: k.before, after } :: above⟩

/-- To the previous tree in the same node. -/
def previousSibling? (c : Cursor) : Option Cursor :=
  match c.above with
  | [] => none
  | k :: above =>
    match k.before with
    | [] => none
    | x :: before => some ⟨x, { k with before, after := c.focus :: k.after } :: above⟩

/-- Up to the node that holds the tree. -/
def parent? (c : Cursor) : Option Cursor :=
  match c.above with
  | [] => none
  | k :: above => some ⟨k.close c.focus, above⟩

/-- The tree at the end of the way up. -/
def rootFrom (l : Located) : List Crumb → Located
  | [] => l
  | k :: above => rootFrom (k.close l) above

/-- Back to the node that the cursor was made on. -/
def reset (c : Cursor) : Cursor := of (rootFrom c.focus c.above)

/-- A cursor of its own on the node. It does not see what is above. -/
def rebase? (c : Cursor) : Option Cursor := if c.focus.isToken then none else some (of c.focus)

/-! ## Preorder -/

/-- Up to the nearest place with a next sibling, and on to it. -/
def climb? (l : Located) : List Crumb → Option Cursor
  | [] => none
  | k :: above =>
    match k.after with
    | x :: after => some ⟨x, { k with before := l :: k.before, after } :: above⟩
    | [] => climb? (k.close l) above

/-- The next place in preorder. -/
def next? (c : Cursor) : Option Cursor :=
  match c.firstChild? with
  | some d => some d
  | none => climb? c.focus c.above

/-- Number of trees behind the way down. -/
def behind : List Crumb → Nat
  | [] => 0
  | k :: above => Tree.sizeAll (k.after.map Located.tree) + behind above

/-- Number of trees that a walk from here passes. -/
def remaining (c : Cursor) : Nat := c.focus.tree.size + behind c.above

theorem remaining_firstChild {c d : Cursor} (h : c.firstChild? = some d) :
    d.remaining < c.remaining := by
  unfold firstChild? at h
  cases ht : c.focus.tree with
  | token k text => simp [Located.children, ht, Tree.children, enter?] at h
  | node k cs =>
    cases cs with
    | nil => simp [Located.children, ht, Tree.children, enter?] at h
    | cons t ts =>
      simp only [Located.children, ht, Tree.children, Located.row_cons, enter?, ↓reduceIte,
        Option.some.injEq] at h
      subst h
      simp [remaining, behind, ht, Tree.size, Tree.sizeAll]
      omega

theorem remaining_climb {l : Located} {above : List Crumb} {d : Cursor}
    (h : climb? l above = some d) : d.remaining ≤ behind above := by
  induction above generalizing l with
  | nil => cases h
  | cons k above ih =>
    unfold climb? at h
    split at h
    · next x after hk =>
      cases h
      simp [remaining, behind, hk, Tree.sizeAll]
      omega
    · exact Nat.le_trans (ih h) (Nat.le_add_left _ _)

theorem size_pos (t : Tree) : 0 < t.size := by
  cases t with
  | token k text => exact Nat.one_pos
  | node k cs => exact Nat.lt_add_right _ Nat.one_pos

/-- A step in preorder leaves fewer trees to visit. -/
theorem remaining_next {c d : Cursor} (h : c.next? = some d) : d.remaining < c.remaining := by
  unfold next? at h
  split at h
  · next hd => cases h; exact remaining_firstChild hd
  · have := remaining_climb h
    have := size_pos c.focus.tree
    unfold remaining at *
    omega

/-- The places from here on in preorder, this one first. -/
def walk (c : Cursor) : List Cursor :=
  c :: match _ : c.next? with
    | some d => walk d
    | none => []
termination_by c.remaining
decreasing_by exact remaining_next ‹_›

/-- The trees here and below, a node before what is below it. -/
def preorder (c : Cursor) : List Located := (of c.focus).walk.map focus

/-! ## There and back -/

theorem previousSibling_nextSibling {c d : Cursor} (h : c.nextSibling? = some d) :
    d.previousSibling? = some c := by
  obtain ⟨focus, above⟩ := c
  match above with
  | [] => cases h
  | ⟨_, _, _, []⟩ :: _ => cases h
  | ⟨_, _, _, _ :: _⟩ :: _ => cases h; rfl

theorem nextSibling_previousSibling {c d : Cursor} (h : c.previousSibling? = some d) :
    d.nextSibling? = some c := by
  obtain ⟨focus, above⟩ := c
  match above with
  | [] => cases h
  | ⟨_, _, [], _⟩ :: _ => cases h
  | ⟨_, _, _ :: _, _⟩ :: _ => cases h; rfl

end Cursor

end AsmTree
