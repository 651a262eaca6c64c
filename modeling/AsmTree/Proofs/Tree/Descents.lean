import AsmTree.Proofs.Tree.Places
import AsmTree.Proofs.Tree.Walkers

/-!
# The way down to an offset

The children of a node lie edge to edge: each begins where the one before it ends (`edge`), and
together they cover the node. So the first child that ends behind an offset of the node covers the
offset, and it is the only one that does, however many empty children stand beside it.

**Main statement (`exists_lands`):** a walker that is asked for the child at an offset until there
is none passes only what covers the offset, and ends on the only token that does.
-/

namespace AsmTree

open AsmTree.Tree

/-! ## Children lie edge to edge -/

theorem Located.getElem?_row (start : Nat) (ts : List Tree) (i : Nat) :
    (row start ts)[i]? = ts[i]?.map (⟨start + lengthAll (ts.take i), ·⟩) := by
  induction ts generalizing start i with
  | nil => rfl
  | cons t ts ih =>
    cases i with
    | zero => rfl
    | succ i =>
      rw [row_cons, List.getElem?_cons_succ, ih, List.getElem?_cons_succ, List.take_succ_cons,
        lengthAll_cons, Nat.add_assoc]

namespace Cursor

variable {c d e : Cursor} {i j offset : Nat} {path : List Nat}

/-- Where the child with a number begins, which is where the one before it ends. -/
def edge (c : Cursor) (i : Nat) : Nat := c.focus.start + lengthAll (c.focus.tree.children.take i)

@[simp] theorem edge_zero (c : Cursor) : c.edge 0 = c.focus.start := rfl

theorem edge_le (c : Cursor) (h : i ≤ j) : c.edge i ≤ c.edge j := by
  have hsplit := List.take_append_drop i (c.focus.tree.children.take j)
  rw [List.take_take, Nat.min_eq_left h] at hsplit
  rw [edge, edge, ← hsplit, lengthAll_append]
  omega

theorem edge_length (h : c.focus.isToken = false) :
    c.edge c.focus.children.length = c.focus.stop := by
  obtain ⟨⟨start, tree⟩, above⟩ := c
  cases tree with
  | token k text => cases h
  | node k cs =>
    have hlength : (Located.row start cs).length = cs.length := by
      rw [← List.length_map (f := Located.tree), Located.map_tree_row]
    show start + lengthAll (cs.take (Located.row start cs).length) = start + lengthAll cs
    rw [hlength, List.take_length]

theorem start_of_child? (h : c.child? i = some d) : d.focus.start = c.edge i := by
  have hfocus := focus_of_child? h
  rw [Located.children, Located.getElem?_row] at hfocus
  obtain ⟨t, -, hd⟩ := Option.map_eq_some_iff.1 hfocus
  rw [← hd]
  rfl

theorem stop_of_child? (h : c.child? i = some d) : d.focus.stop = c.edge (i + 1) := by
  have hfocus := focus_of_child? h
  rw [Located.children, Located.getElem?_row] at hfocus
  obtain ⟨t, ht, hd⟩ := Option.map_eq_some_iff.1 hfocus
  rw [← hd, Located.stop, edge, List.take_add_one, ht, lengthAll_append, Nat.add_assoc]
  rfl

theorem within_of_child? (h : c.child? i = some d) :
    c.focus.start ≤ d.focus.start ∧ d.focus.stop ≤ c.focus.stop := by
  have hfirst := c.edge_le (Nat.zero_le i)
  have hlast := c.edge_le (lt_of_child? h)
  rw [edge_length (isToken_of_child? h), ← stop_of_child? h] at hlast
  rw [edge_zero, ← start_of_child? h] at hfirst
  exact ⟨hfirst, hlast⟩

theorem within_of_place? (h : c.place? path = some d) :
    c.focus.start ≤ d.focus.start ∧ d.focus.stop ≤ c.focus.stop := by
  induction path generalizing c with
  | nil =>
    cases h
    exact ⟨Nat.le_refl _, Nat.le_refl _⟩
  | cons i path ih =>
    obtain ⟨e, he, hd⟩ := Option.bind_eq_some_iff.1 h
    have hchild := within_of_child? he
    have hbelow := ih hd
    omega

end Cursor

/-! ## What covers an offset -/

/-- The offset is that of one of the bytes of the tree. -/
def Located.Covers (l : Located) (offset : Nat) : Prop := l.range.contains offset = true

theorem Located.covers_iff {l : Located} {offset : Nat} :
    l.Covers offset ↔ l.start ≤ offset ∧ offset < l.stop := by
  rw [Covers, TextRange.contains, Bool.and_eq_true, decide_eq_true_eq, decide_eq_true_eq]
  rfl

theorem Located.text_ne_empty {l : Located} {offset : Nat} (h : l.Covers offset)
    (htoken : l.isToken = true) : l.text ≠ "" := by
  obtain ⟨start, tree⟩ := l
  cases tree with
  | node k cs => cases htoken
  | token k text =>
    have hlt : start ≤ offset ∧ offset < start + text.utf8ByteSize := covers_iff.1 h
    intro hempty
    obtain rfl : text = "" := by
      simpa [Located.text, Tree.text, Tree.leaves, leavesOnto] using hempty
    rw [String.utf8ByteSize_empty] at hlt
    omega

namespace Cursor

variable {c d e : Cursor} {i j offset : Nat} {path : List Nat}

theorem covers_of_place? (h : c.place? path = some d) (hd : d.focus.Covers offset) :
    c.focus.Covers offset := by
  have hwithin := within_of_place? h
  rw [Located.covers_iff] at hd ⊢
  omega

theorem eq_of_covers (hd : c.child? i = some d) (he : c.child? j = some e)
    (hcd : d.focus.Covers offset) (hce : e.focus.Covers offset) : i = j := by
  rw [Located.covers_iff, start_of_child? hd, stop_of_child? hd] at hcd
  rw [Located.covers_iff, start_of_child? he, stop_of_child? he] at hce
  rcases Nat.lt_trichotomy i j with hij | rfl | hij
  · have := c.edge_le (i := i + 1) hij
    omega
  · rfl
  · have := c.edge_le (i := j + 1) hij
    omega

/-- **The child at an offset of a node covers it.** The children before are those that end before
the offset, so it begins at the offset or before it, with or without empty ones among them. -/
theorem covers_childAt? (h : c.focus.Covers offset) (hd : c.childAt? offset = some d) :
    d.focus.Covers offset := by
  obtain ⟨i, hi, hstop, hbefore⟩ := Walker.childAt?_eq_some hd
  rw [Located.covers_iff] at h ⊢
  refine ⟨?_, hstop⟩
  rw [start_of_child? hi]
  cases i with
  | zero => exact h.1
  | succ j =>
    obtain ⟨e, he⟩ := exists_child? (Nat.lt_of_succ_lt (lt_of_child? hi))
    rw [← stop_of_child? he]
    exact hbefore j (Nat.lt_succ_self j) e he

/-- A node that covers an offset has a child at it. -/
theorem isToken_of_childAt?_eq_none (h : c.focus.Covers offset) (hnone : c.childAt? offset = none) :
    c.focus.isToken = true := by
  by_contra hnode
  have hend := edge_length (Bool.eq_false_iff.2 hnode)
  rw [Located.covers_iff] at h
  cases hlength : c.focus.children.length with
  | zero =>
    rw [hlength, edge_zero] at hend
    omega
  | succ n =>
    obtain ⟨d, hd⟩ : ∃ d, c.child? n = some d := exists_child? (by omega)
    have hle := Walker.childAt?_eq_none hnone hd
    rw [stop_of_child? hd, ← hlength, hend] at hle
    omega

end Cursor

/-! ## All the way down -/

namespace Walker

variable {w w' : Walker} {token : Cursor} {offset : Nat}

/-- Asked for the child at an offset until there is none, the walker goes down to a token. -/
structure Lands (w : Walker) (offset : Nat) (token : Cursor) : Prop where
  /-- Each station but the last is left by the move down. -/
  chain : (w.descent offset).IsChain fun w w' => w.goto (.childAt offset) = (true, w')
  first : (w.descent offset).head? = some w
  last : ∃ w', (w.descent offset).getLast? = some w' ∧ w'.here = token ∧
    w'.goto (.childAt offset) = (false, w')
  /-- All that is passed covers the offset. -/
  covers : ∀ w' ∈ w.descent offset, w'.here.focus.Covers offset
  isToken : token.focus.isToken = true
  filled : token.focus.text ≠ ""
  below : ∃ path, w.here.place? path = some token
  /-- No other token at or below the walker covers the offset. -/
  unique : ∀ path c, w.here.place? path = some c → c.focus.isToken = true →
    c.focus.Covers offset → c = token

theorem Lands.covers_token (h : w.Lands offset token) : token.focus.Covers offset := by
  obtain ⟨w', hlast, rfl, -⟩ := h.last
  exact h.covers w' (List.mem_of_getLast? hlast)

theorem descent_of_step (hgoto : w.goto (.childAt offset) = (true, w')) :
    w.descent offset = w :: w'.descent offset := by
  rw [descent]
  split
  · next h => cases hgoto.symm.trans h; rfl
  · next h => cases hgoto.symm.trans h

theorem descent_of_refused (hgoto : w.goto (.childAt offset) = (false, w')) :
    w.descent offset = [w] := by
  rw [descent]
  split
  · next h => cases hgoto.symm.trans h
  · rfl

/-- The token that is found from a child is the one that is found from the node: the other children
do not cover the offset. -/
theorem Lands.of_step (h : w'.Lands offset token) (hw : w.here.focus.Covers offset)
    (hgoto : w.goto (.childAt offset) = (true, w')) : w.Lands offset token where
  chain := by
    obtain ⟨rest, hrest⟩ := List.head?_eq_some_iff.1 h.first
    have hchain := h.chain
    rw [descent_of_step hgoto]
    rw [hrest] at hchain ⊢
    exact .cons_cons hgoto hchain
  first := by rw [descent_of_step hgoto, List.head?_cons]
  last := by
    obtain ⟨rest, hrest⟩ := List.head?_eq_some_iff.1 h.first
    obtain ⟨w'', hlast, hend⟩ := h.last
    refine ⟨w'', ?_, hend⟩
    rw [descent_of_step hgoto]
    rw [hrest] at hlast ⊢
    rw [List.getLast?_cons_cons, hlast]
  covers := by
    rw [descent_of_step hgoto]
    exact List.forall_mem_cons.2 ⟨hw, h.covers⟩
  isToken := h.isToken
  filled := h.filled
  below := by
    obtain ⟨d, hd, rfl⟩ := descend_eq_true hgoto
    obtain ⟨i, hi, -⟩ := childAt?_eq_some hd
    obtain ⟨path, hpath⟩ := h.below
    exact ⟨i :: path, by rw [Cursor.place?, hi]; exact hpath⟩
  unique := by
    intro path c hc htoken hcovers
    obtain ⟨d, hd, rfl⟩ := descend_eq_true hgoto
    obtain ⟨i, hi, -⟩ := childAt?_eq_some hd
    cases path with
    | nil =>
      cases hc
      cases (Cursor.isToken_of_child? hi).symm.trans htoken
    | cons j path =>
      obtain ⟨e, he, hc⟩ := Option.bind_eq_some_iff.1 hc
      obtain rfl := Cursor.eq_of_covers he hi (Cursor.covers_of_place? hc hcovers)
        (Cursor.covers_childAt? hw hd)
      obtain rfl := Option.some.inj (hi.symm.trans he)
      exact h.unique path c hc htoken hcovers

/-- Where there is no child at the offset, a token stands. -/
theorem lands_of_refused (hw : w.here.focus.Covers offset)
    (hgoto : w.goto (.childAt offset) = (false, w')) : w.Lands offset w.here := by
  obtain ⟨rfl, hnone⟩ := descend_eq_false hgoto
  have htoken := Cursor.isToken_of_childAt?_eq_none hw hnone
  have hstations := descent_of_refused hgoto
  exact {
    chain := by
      rw [hstations]
      exact .singleton w'
    first := by rw [hstations, List.head?_cons]
    last := ⟨w', by rw [hstations, List.getLast?_singleton], rfl, hgoto⟩
    covers := by
      rw [hstations]
      exact List.forall_mem_singleton.2 hw
    isToken := htoken
    filled := Located.text_ne_empty hw htoken
    below := ⟨[], rfl⟩
    unique := by
      intro path c hc _ _
      cases path with
      | nil => exact (Option.some.inj hc).symm
      | cons j path =>
        obtain ⟨e, he, -⟩ := Option.bind_eq_some_iff.1 hc
        cases (Cursor.isToken_of_child? he).symm.trans htoken }

/-- **The way down to an offset ends on the only token that covers it**, and all that is passed
covers it as well. -/
theorem exists_lands (h : w.here.focus.Covers offset) : ∃ token, w.Lands offset token := by
  induction hleft : w.here.remaining using Nat.strongRecOn generalizing w with
  | _ n ih =>
    cases hgoto : w.goto (.childAt offset) with
    | mk moved w' =>
      cases moved with
      | false => exact ⟨w.here, lands_of_refused h hgoto⟩
      | true =>
        obtain ⟨d, hd, rfl⟩ := descend_eq_true hgoto
        obtain ⟨token, htoken⟩ := ih _ (hleft ▸ remaining_childAt hgoto)
          (Cursor.covers_childAt? h hd) rfl
        exact ⟨token, htoken.of_step h hgoto⟩

end Walker

end AsmTree
