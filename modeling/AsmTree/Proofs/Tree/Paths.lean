import AsmTree.Cursor
import AsmTree.Proofs.Tree.Subtrees

/-!
# Ways down a tree

A place below another one is named by the way to it, the numbers of the children that are gone to.
Texts of tokens, kinds and ranges may be the same at many places; ways are not.

**Main statements:** the neighbours of a place are those that the number of the child says
(`firstChild?_eq` and so on, `up?_place?`); a place is at the end of one way only (`place?_inj`);
and a tree has the ways that its recursive list gives, each once (`mem_paths`, `nodup_paths`).
-/

namespace AsmTree

/-! ## Children by number -/

namespace Cursor

def child? (c : Cursor) (i : Nat) : Option Cursor :=
  c.focus.children[i]?.map fun x =>
    ⟨x, ⟨c.focus.start, c.focus.kind, (c.focus.children.take i).reverse,
      c.focus.children.drop (i + 1)⟩ :: c.above⟩

def place? (c : Cursor) : List Nat → Option Cursor
  | [] => some c
  | i :: path => (c.child? i).bind (·.place? path)

def up? (c : Cursor) : Nat → Option Cursor
  | 0 => some c
  | n + 1 => (c.up? n).bind parent?

variable {c d : Cursor} {i : Nat} {path path' : List Nat}

theorem child?_eq_none : c.child? i = none ↔ c.focus.children.length ≤ i := by
  rw [child?, Option.map_eq_none_iff, List.getElem?_eq_none_iff]

theorem exists_child? (h : i < c.focus.children.length) : ∃ d, c.child? i = some d :=
  Option.ne_none_iff_exists'.1 fun hnone => Nat.not_le.2 h (child?_eq_none.1 hnone)

theorem lt_of_child? (h : c.child? i = some d) : i < c.focus.children.length := by
  rw [← Nat.not_le, ← child?_eq_none, h]
  exact Option.some_ne_none d

theorem isToken_of_child? (h : c.child? i = some d) : c.focus.isToken = false := by
  obtain ⟨⟨start, tree⟩, above⟩ := c
  cases tree with
  | token k text => cases i <;> cases h
  | node k cs => rfl

theorem child?_length {before after : List Located} {x : Located}
    (h : c.focus.children = before ++ x :: after) : c.child? before.length =
      some ⟨x, ⟨c.focus.start, c.focus.kind, before.reverse, after⟩ :: c.above⟩ := by
  simp [child?, h]

theorem exists_of_child? (h : c.child? i = some d) : ∃ before x after,
    c.focus.children = before ++ x :: after ∧ before.length = i ∧
      d = ⟨x, ⟨c.focus.start, c.focus.kind, before.reverse, after⟩ :: c.above⟩ := by
  obtain ⟨x, hx, rfl⟩ := Option.map_eq_some_iff.1 h
  obtain ⟨hi, rfl⟩ := List.getElem?_eq_some_iff.1 hx
  refine ⟨_, _, _, ?_, List.length_take_of_le (Nat.le_of_lt hi), rfl⟩
  rw [← List.drop_eq_getElem_cons hi, List.take_append_drop]

theorem focus_of_child? (h : c.child? i = some d) : c.focus.children[i]? = some d.focus := by
  obtain ⟨before, x, after, hcs, rfl, rfl⟩ := exists_of_child? h
  simp [hcs]

theorem mem_children_of_child? (h : c.child? i = some d) : d.focus ∈ c.focus.children :=
  List.mem_of_getElem? (focus_of_child? h)

theorem exists_child?_of_drop {x : Located} {rest : List Located}
    (h : c.focus.children.drop i = x :: rest) :
    ∃ d, c.child? i = some d ∧ d.focus = x ∧ c.focus.children.drop (i + 1) = rest := by
  have hx : c.focus.children[i]? = some x := by rw [← List.head?_drop, h, List.head?_cons]
  refine ⟨_, Option.map_eq_some_iff.2 ⟨x, hx, rfl⟩, rfl, ?_⟩
  rw [← List.tail_drop, h, List.tail_cons]

/-! ## Moves by number -/

/-- Among the children behind some that are passed, the first for which a condition holds. -/
theorem enter?_eq {ok : Located → Bool} {before rest : List Located}
    (h : c.focus.children = before.reverse ++ rest) :
    enter? c.focus c.above ok before rest =
      (rest.findIdx? ok).bind fun n => c.child? (before.length + n) := by
  induction rest generalizing before with
  | nil => rfl
  | cons x rest ih =>
    rw [enter?, List.findIdx?_cons]
    by_cases hx : ok x = true
    · have hchild := child?_length h
      rw [List.length_reverse, List.reverse_reverse] at hchild
      rw [if_pos hx, if_pos hx, Option.bind_some, Nat.add_zero, hchild]
    · rw [if_neg hx, if_neg hx, ih (by simpa using h), Option.bind_map]
      refine congrArg _ (funext fun n => ?_)
      rw [Function.comp_apply, List.length_cons, Nat.add_right_comm, Nat.add_assoc]

theorem childAt?_eq (c : Cursor) (offset : Nat) :
    c.childAt? offset = (c.focus.children.findIdx? (offset < ·.stop)).bind c.child? := by
  rw [childAt?, enter?_eq rfl]
  simp

theorem firstChild?_eq (c : Cursor) : c.firstChild? = c.child? 0 := by
  rw [firstChild?, enter?_eq rfl]
  cases hcs : c.focus.children with
  | nil => rw [child?_eq_none.2 (by simp [hcs])]; rfl
  | cons x xs => simp [List.findIdx?_cons]

theorem lastChild?_eq (c : Cursor) : c.lastChild? = c.child? (c.focus.children.length - 1) := by
  unfold lastChild?
  split
  · next hnil => rw [child?_eq_none.2 (by simp [List.reverse_eq_nil_iff.1 hnil])]
  · next x before hcons =>
    have hcs : c.focus.children = before.reverse ++ [x] := by
      rw [← List.reverse_reverse c.focus.children, hcons, List.reverse_cons]
    have hlength : c.focus.children.length - 1 = before.reverse.length := by simp [hcs]
    rw [hlength, child?_length hcs, List.reverse_reverse]

theorem nextSibling?_of_child? (h : c.child? i = some d) : d.nextSibling? = c.child? (i + 1) := by
  obtain ⟨before, x, after, hcs, rfl, rfl⟩ := exists_of_child? h
  cases after with
  | nil => rw [child?_eq_none.2 (by simp [hcs])]; rfl
  | cons y after =>
    have hnext : c.focus.children = (before ++ [x]) ++ y :: after := by simp [hcs]
    have hchild := child?_length hnext
    rw [List.length_append, List.length_singleton] at hchild
    rw [hchild, List.reverse_append]
    rfl

theorem previousSibling?_of_child? (h : c.child? (i + 1) = some d) :
    d.previousSibling? = c.child? i := by
  obtain ⟨before, x, after, hcs, hlength, rfl⟩ := exists_of_child? h
  obtain rfl | ⟨before, y, rfl⟩ := before.eq_nil_or_concat
  · cases hlength
  · rw [List.concat_eq_append] at hcs hlength ⊢
    rw [List.length_append, List.length_singleton] at hlength
    obtain rfl := Nat.succ.inj hlength
    have hchild : c.focus.children = before ++ y :: x :: after := by simp [hcs]
    rw [child?_length hchild, previousSibling?, List.reverse_append]
    rfl

theorem previousSibling?_of_first (h : c.child? 0 = some d) : d.previousSibling? = none := by
  obtain ⟨before, x, after, -, hlength, rfl⟩ := exists_of_child? h
  obtain rfl := List.eq_nil_of_length_eq_zero hlength
  rfl

theorem parent?_of_child? (h : c.child? i = some d) : d.parent? = some c := by
  obtain ⟨before, x, after, hcs, -, rfl⟩ := exists_of_child? h
  unfold parent? Crumb.close
  dsimp only
  rw [List.reverse_reverse, ← hcs, Located.map_tree_children]
  obtain ⟨⟨start, tree⟩, above⟩ := c
  cases tree with
  | token k text => cases before <;> cases hcs
  | node k cs => rfl

/-! ## Ways -/

@[simp] theorem place?_nil (c : Cursor) : c.place? [] = some c := rfl

theorem place?_append (c : Cursor) (path path' : List Nat) :
    c.place? (path ++ path') = (c.place? path).bind (·.place? path') := by
  induction path generalizing c with
  | nil => rfl
  | cons i path ih =>
    rw [List.cons_append, place?, place?]
    cases c.child? i with
    | none => rfl
    | some d => exact ih d

theorem map_place?_cons (h : c.child? i = some d) (paths : List (List Nat)) :
    (paths.map (i :: ·)).map c.place? = paths.map d.place? := by
  rw [List.map_map]
  refine List.map_congr_left fun path _ => ?_
  rw [Function.comp_apply, place?, h, Option.bind_some]

theorem place?_concat (h : c.place? path = some d) (i : Nat) :
    c.place? (path ++ [i]) = d.child? i := by
  rw [place?_append, h, Option.bind_some, place?]
  exact Option.bind_fun_some _

theorem exists_of_place?_concat (h : c.place? (path ++ [i]) = some d) :
    ∃ e, c.place? path = some e ∧ e.child? i = some d := by
  obtain ⟨e, he, -⟩ := Option.bind_eq_some_iff.1 ((place?_append c path [i]).symm.trans h)
  exact ⟨e, he, (place?_concat he i).symm.trans h⟩

theorem up?_place? (h : c.place? path = some d) : d.up? path.length = some c := by
  induction path generalizing c with
  | nil => exact h.symm
  | cons i path ih =>
    obtain ⟨e, he, hd⟩ := Option.bind_eq_some_iff.1 h
    rw [List.length_cons, up?, ih hd]
    exact parent?_of_child? he

theorem exists_above_of_place? (h : c.place? path = some d) :
    ∃ crumbs, d.above = crumbs ++ c.above ∧ crumbs.map (·.before.length) = path.reverse := by
  induction path generalizing c with
  | nil =>
    cases h
    exact ⟨[], rfl, rfl⟩
  | cons i path ih =>
    obtain ⟨e, he, hd⟩ := Option.bind_eq_some_iff.1 h
    obtain ⟨crumbs, habove, hcrumbs⟩ := ih hd
    obtain ⟨before, x, after, -, rfl, rfl⟩ := exists_of_child? he
    refine ⟨crumbs ++ [_], by rw [habove, List.append_assoc]; rfl, ?_⟩
    rw [List.map_append, hcrumbs, List.reverse_cons, List.map_singleton, List.length_reverse]

/-- **A place is at the end of one way only.** -/
theorem place?_inj (h : c.place? path = some d) (h' : c.place? path' = some d) : path = path' := by
  obtain ⟨crumbs, habove, hcrumbs⟩ := exists_above_of_place? h
  obtain ⟨crumbs', habove', hcrumbs'⟩ := exists_above_of_place? h'
  obtain rfl := List.append_cancel_right (habove.symm.trans habove')
  exact List.reverse_inj.1 (hcrumbs.symm.trans hcrumbs')

end Cursor

/-! ## The ways in a tree -/

namespace Tree

mutual

/-- The ways to all places in a tree: to the tree itself, then to those in its children from left
to right. -/
def paths : Tree → List (List Nat)
  | token .. => [[]]
  | node _ cs => [] :: pathsFrom 0 cs

/-- The ways to all places in neighbouring trees, of which the first is the child with a number. -/
def pathsFrom (i : Nat) : List Tree → List (List Nat)
  | [] => []
  | t :: ts => (paths t).map (i :: ·) ++ pathsFrom (i + 1) ts

end

theorem mem_pathsFrom {i : Nat} {ts : List Tree} {path : List Nat} :
    path ∈ pathsFrom i ts ↔ ∃ j t rest, ts[j]? = some t ∧ rest ∈ t.paths ∧
      path = (i + j) :: rest := by
  induction ts generalizing i with
  | nil => simp [pathsFrom]
  | cons t ts ih =>
    rw [pathsFrom, List.mem_append, List.mem_map, ih]
    constructor
    · rintro (⟨rest, hrest, rfl⟩ | ⟨j, t', rest, ht, hrest, rfl⟩)
      · exact ⟨0, t, rest, rfl, hrest, rfl⟩
      · exact ⟨j + 1, t', rest, ht, hrest, by rw [Nat.add_right_comm]; rfl⟩
    · rintro ⟨j | j, t', rest, ht, hrest, rfl⟩
      · exact Or.inl ⟨rest, Option.some.inj ht ▸ hrest, rfl⟩
      · exact Or.inr ⟨j, t', rest, ht, hrest, by rw [Nat.add_right_comm]; rfl⟩

mutual

/-- **No way is listed twice.** -/
theorem nodup_paths (t : Tree) : t.paths.Nodup := by
  cases t with
  | token k text => exact List.pairwise_singleton _ _
  | node k cs =>
    refine List.nodup_cons.2 ⟨fun h => ?_, nodup_pathsFrom 0 cs⟩
    obtain ⟨_, _, _, -, -, h⟩ := mem_pathsFrom.1 h
    cases h

theorem nodup_pathsFrom (i : Nat) (ts : List Tree) : (pathsFrom i ts).Nodup := by
  cases ts with
  | nil => exact List.Pairwise.nil
  | cons t ts =>
    have hfirst : (t.paths.map (i :: ·)).Nodup :=
      List.Pairwise.map _ (fun _ _ hne h => hne (List.cons.inj h).2) (nodup_paths t)
    refine List.nodup_append.2
      ⟨hfirst, nodup_pathsFrom (i + 1) ts, fun path hpath path' hpath' => ?_⟩
    obtain ⟨rest, -, rfl⟩ := List.mem_map.1 hpath
    obtain ⟨j, _, rest', -, -, rfl⟩ := mem_pathsFrom.1 hpath'
    intro h
    have := (List.cons.inj h).1
    omega

end

end Tree

/-- **The ways in a tree are those that lead somewhere.** -/
theorem Cursor.mem_paths {c : Cursor} {path : List Nat} :
    path ∈ c.focus.tree.paths ↔ ∃ d, c.place? path = some d := by
  induction path generalizing c with
  | nil =>
    refine iff_of_true ?_ ⟨c, rfl⟩
    cases c.focus.tree <;> exact List.mem_cons_self
  | cons i path ih =>
    have hstep : i :: path ∈ c.focus.tree.paths ↔
        ∃ t, c.focus.tree.children[i]? = some t ∧ path ∈ t.paths := by
      cases c.focus.tree with
      | token k text => simp [Tree.paths, Tree.children]
      | node k cs =>
        rw [Tree.paths, List.mem_cons, Tree.mem_pathsFrom]
        constructor
        · rintro (h | ⟨j, t, rest, ht, hrest, h⟩)
          · cases h
          · obtain ⟨rfl, rfl⟩ := List.cons.inj h
            exact ⟨t, (Nat.zero_add j).symm ▸ ht, hrest⟩
        · rintro ⟨t, ht, hrest⟩
          exact Or.inr ⟨i, t, path, ht, hrest, by rw [Nat.zero_add]⟩
    rw [hstep, place?]
    constructor
    · rintro ⟨t, ht, hpath⟩
      rw [← Located.map_tree_children, List.getElem?_map] at ht
      obtain ⟨x, hx, rfl⟩ := Option.map_eq_some_iff.1 ht
      have hchild : c.child? i = some _ := Option.map_eq_some_iff.2 ⟨x, hx, rfl⟩
      rw [hchild]
      exact ih.1 hpath
    · rintro ⟨d, hd⟩
      obtain ⟨e, he, hd⟩ := Option.bind_eq_some_iff.1 hd
      refine ⟨e.focus.tree, ?_, ih.2 ⟨d, hd⟩⟩
      rw [← Located.map_tree_children, List.getElem?_map, focus_of_child? he]
      rfl

/-! ## What stands at the ends of the ways -/

namespace Cursor

mutual

theorem map_focus_paths {c : Cursor} {start : Nat} {t : Tree} (ht : c.focus = ⟨start, t⟩) :
    (t.paths.map c.place?).map (·.map focus) = (Located.subtrees ⟨start, t⟩).map some := by
  cases t with
  | token k text => exact congrArg (fun x => [some x]) ht
  | node k cs =>
    have hcs : c.focus.children.drop 0 = Located.row start cs := by rw [ht]; rfl
    rw [Tree.paths, List.map_cons, List.map_cons, map_focus_pathsFrom hcs, Located.subtrees,
      Located.subtreesOnto, Located.subtreesOntoAll_eq, List.append_nil, List.map_cons]
    exact congrArg (· :: _) (congrArg some ht)

theorem map_focus_pathsFrom {c : Cursor} {i start : Nat} {ts : List Tree}
    (hts : c.focus.children.drop i = Located.row start ts) :
    ((Tree.pathsFrom i ts).map c.place?).map (·.map focus) =
      ((Located.row start ts).flatMap Located.subtrees).map some := by
  cases ts with
  | nil => rfl
  | cons t ts =>
    obtain ⟨d, hd, hfocus, hrest⟩ := exists_child?_of_drop hts
    rw [Tree.pathsFrom, List.map_append, List.map_append, map_place?_cons hd,
      map_focus_paths hfocus, map_focus_pathsFrom hrest, Located.row_cons, List.flatMap_cons,
      List.map_append]

end

theorem focus_mem_subtrees {c d : Cursor} {path : List Nat} (h : c.place? path = some d) :
    d.focus ∈ c.focus.subtrees := by
  have hpath := List.mem_map_of_mem (f := c.place?) (mem_paths.2 ⟨d, h⟩)
  have hfocus := List.mem_map_of_mem (f := (·.map focus)) hpath
  rw [map_focus_paths rfl, h] at hfocus
  obtain ⟨x, hx, hd⟩ := List.mem_map.1 hfocus
  exact Option.some.inj hd ▸ hx

end Cursor

end AsmTree
