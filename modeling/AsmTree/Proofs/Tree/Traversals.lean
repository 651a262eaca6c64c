import AsmTree.Proofs.Tree.Paths
import AsmTree.Walker
import Mathlib.Data.List.Nodup
import Mathlib.Data.Option.Basic

/-!
# Traversals hand out all places

A traversal goes down to first children and, where there is none, climbs until there is a sibling.
Both lead to the child with the next number or, behind the last child, to where the climb from the
node leads (`onward?`). That is what the recursive list of ways does as well, so the two are
compared by induction on the tree (`map_some_places_walker`).

**Main statement (`places_traversal`):** a traversal hands out the places at and below the one that
it was made on, each once, in the order of the recursive list, and then no more; whatever its walker
is asked for in between. From a root it goes as a cursor does (`places_eq_walk`).
-/

namespace AsmTree

/-! ## Onward -/

namespace Walker

variable {w w' : Walker} {c : Cursor} {i : Nat}

/-- To the child with a number or, if there is none, to where the climb leads. -/
def onward? (w : Walker) (i : Nat) : Option Walker :=
  match w.here.child? i with
  | some c => some { w with here := c, depth := w.depth + 1 }
  | none => w.climb?

theorem climb?_of_sibling (h : w.goto .nextSibling = (true, w')) : w.climb? = some w' := by
  rw [climb?]
  split
  · next h' => cases h.symm.trans h'; rfl
  · next h' => cases h.symm.trans h'

theorem climb?_of_parent (hsibling : w.goto .nextSibling = (false, w))
    (hparent : w.goto .parent = (true, w')) : w.climb? = w'.climb? := by
  rw [climb?]
  split
  · next h' => cases hsibling.symm.trans h'
  · next h' =>
    cases hsibling.symm.trans h'
    split
    · next h' => cases hparent.symm.trans h'; rfl
    · next h' => cases hparent.symm.trans h'

theorem climb?_of (c : Cursor) : (of c).climb? = none := by
  rw [climb?]
  rfl

theorem climb?_of_child (hc : w.here.child? i = some c) :
    climb? { w with here := c, depth := w.depth + 1 } = w.onward? (i + 1) := by
  have hnext := Cursor.nextSibling?_of_child? hc
  rw [onward?]
  cases hsibling : w.here.child? (i + 1) with
  | some d => exact climb?_of_sibling (by simp [goto, sidestep, hnext, hsibling])
  | none =>
    exact climb?_of_parent (by simp [goto, sidestep, hnext, hsibling])
      (by simp [goto, ascend, Cursor.parent?_of_child? hc])

end Walker

namespace Traversal

open Walker

variable {t : Traversal}

/-! ## What a traversal hands out -/

theorem traversal_of_token {w : Walker} (h : w.here.focus.isToken = true) :
    w.traversal = ⟨some w, some w.here⟩ := by
  simp [traversal, h]

theorem traversal_of_node {w : Walker} (h : w.here.focus.isToken = false) :
    w.traversal = ⟨some (Walker.of w.here), none⟩ := by
  simp [traversal, Walker.of, h]

theorem eq_of_next_eq_none (h : t.next.1 = none) : t.next.2 = t := by
  unfold next at h ⊢
  split
  · next hsingle => simp [hsingle] at h
  · next hsingle =>
    split
    · rfl
    · next w hw =>
      rw [hsingle, hw] at h
      dsimp only at h
      split at h <;> cases h

theorem head?_places (t : Traversal) : t.places.head? = t.next.1 := by
  rw [places]
  split
  · next h => rw [h]; rfl
  · next h => rw [h]; rfl

theorem tail_places (t : Traversal) : t.places.tail = t.next.2.places := by
  cases hnext : t.next.1 with
  | none =>
    have hnil : t.places = [] := List.head?_eq_none_iff.1 ((head?_places t).trans hnext)
    rw [eq_of_next_eq_none hnext, hnil]
    rfl
  | some c =>
    have hpair : t.next = (some c, t.next.2) := Prod.ext hnext rfl
    rw [places]
    split
    · next h => rw [h]; rfl
    · next h => rw [h] at hpair; cases hpair

theorem places_of_next {t' : Traversal} {c : Cursor} (h : t.next = (some c, t')) :
    t.places = c :: t'.places := by
  have hhead := head?_places t
  have htail := tail_places t
  rw [h] at hhead htail
  rw [List.head?_eq_some_iff] at hhead
  obtain ⟨rest, hrest⟩ := hhead
  rw [hrest, List.tail_cons] at htail
  rw [hrest, htail]

@[simp] theorem places_none : places ⟨none, none⟩ = [] :=
  List.head?_eq_none_iff.1 (head?_places _)

theorem places_single (w : Option Walker) (c : Cursor) : places ⟨w, some c⟩ = [c] :=
  (places_of_next rfl).trans (congrArg _ places_none)

theorem places_walker (w : Walker) :
    places ⟨some w, none⟩ = w.here :: places ⟨w.onward? 0, none⟩ := by
  refine places_of_next ?_
  rw [next, onward?]
  dsimp only [goto]
  rw [Cursor.firstChild?_eq]
  cases w.here.child? 0 <;> rfl

mutual

/-- The places from a walker on are those at and below it, in the order of the ways there, and then
those from where its climb leads. -/
theorem map_some_places_walker {w : Walker} {start : Nat} {t : Tree}
    (ht : w.here.focus = ⟨start, t⟩) : (places ⟨some w, none⟩).map some =
      t.paths.map w.here.place? ++ (places ⟨w.climb?, none⟩).map some := by
  cases t with
  | token k text =>
    have honward : w.onward? 0 = w.climb? := by
      rw [onward?, Cursor.child?_eq_none.2 (by rw [ht]; exact Nat.zero_le _)]
    rw [places_walker, honward]
    rfl
  | node k cs =>
    have hcs : w.here.focus.children.drop 0 = Located.row start cs := by rw [ht]; rfl
    rw [places_walker, List.map_cons, map_some_places_onward hcs]
    rfl

theorem map_some_places_onward {w : Walker} {i start : Nat} {ts : List Tree}
    (hts : w.here.focus.children.drop i = Located.row start ts) :
    (places ⟨w.onward? i, none⟩).map some =
      (Tree.pathsFrom i ts).map w.here.place? ++ (places ⟨w.climb?, none⟩).map some := by
  cases ts with
  | nil =>
    rw [onward?, Cursor.child?_eq_none.2 (List.drop_eq_nil_iff.1 hts)]
    rfl
  | cons t ts =>
    obtain ⟨c, hc, hfocus, hrest⟩ := Cursor.exists_child?_of_drop hts
    have honward : w.onward? i = some { w with here := c, depth := w.depth + 1 } := by
      rw [onward?, hc]
    rw [honward, map_some_places_walker hfocus, climb?_of_child hc, map_some_places_onward hrest,
      Tree.pathsFrom, List.map_append, Cursor.map_place?_cons hc, List.append_assoc]

end

/-- The places at and below the one that a walker is on, in the order of the ways there. -/
theorem map_some_places (w : Walker) :
    w.traversal.places.map some = w.here.focus.tree.paths.map w.here.place? := by
  cases ht : w.here.focus.tree with
  | token k text =>
    have htoken : w.here.focus.isToken = true := by rw [Located.isToken, ht]; rfl
    rw [traversal_of_token htoken, places_single]
    rfl
  | node k cs =>
    have hnode : w.here.focus.isToken = false := by rw [Located.isToken, ht]; rfl
    have hplaces := map_some_places_walker (w := Walker.of w.here) rfl
    rw [climb?_of, places_none, List.map_nil, List.append_nil] at hplaces
    rw [traversal_of_node hnode, hplaces, ← ht]
    rfl

end Traversal

/-! ## The walk of a cursor -/

namespace Walker

/-- A walker that has counted all nodes above climbs as its cursor does. -/
theorem climb?_eq (home : Cursor) (l : Located) (above : List Crumb) :
    climb? ⟨home, ⟨l, above⟩, above.length⟩ =
      (Cursor.climb? l above).map fun c => ⟨home, c, c.depth⟩ := by
  induction above generalizing l with
  | nil =>
    rw [climb?]
    rfl
  | cons k above ih =>
    rw [Cursor.climb?]
    split
    · next x after hafter =>
      exact climb?_of_sibling (by simp [goto, sidestep, Cursor.nextSibling?, hafter, Cursor.depth])
    · next hafter =>
      rw [← ih]
      exact climb?_of_parent (by simp [goto, sidestep, Cursor.nextSibling?, hafter])
        (by simp [goto, ascend, Cursor.parent?])

theorem onward?_eq (home c : Cursor) :
    onward? ⟨home, c, c.depth⟩ 0 = c.next?.map fun d => ⟨home, d, d.depth⟩ := by
  rw [onward?, Cursor.next?, Cursor.firstChild?_eq]
  dsimp only
  cases hchild : c.child? 0 with
  | some d =>
    obtain ⟨before, x, after, -, -, rfl⟩ := Cursor.exists_of_child? hchild
    rfl
  | none => exact climb?_eq home c.focus c.above

end Walker

/-- **A traversal goes as its cursor does**, if nothing is above its home. -/
theorem Traversal.places_eq_walk (home c : Cursor) :
    places ⟨some ⟨home, c, c.depth⟩, none⟩ = c.walk := by
  induction hleft : c.remaining using Nat.strongRecOn generalizing c with
  | _ n ih =>
    rw [places_walker, Walker.onward?_eq, Cursor.walk]
    split
    · next d hd =>
      rw [hd]
      exact congrArg _ (ih _ (hleft ▸ Cursor.remaining_next hd) d rfl)
    · next hnone =>
      rw [hnone]
      exact congrArg _ Traversal.places_none

/-! ## In between -/

/-- What can be asked of a walker and of a traversal that was made on it. -/
inductive Asking where
  | walker (r : Walker.Request)
  | next
deriving DecidableEq, Repr

/-- What the walker is asked for. -/
def Asking.request? : Asking → Option Walker.Request
  | walker r => some r
  | next => none

/-- A walker and a traversal, which are asked in any order. -/
structure Outing where
  walker : Walker
  traversal : Traversal
  /-- What the traversal has answered, the first answer first. -/
  answers : List (Option Cursor)

namespace Outing

/-- A walker, and a traversal that is made on it. -/
def of (w : Walker) : Outing := ⟨w, w.traversal, []⟩

def step (o : Outing) : Asking → Outing
  | .walker r => { o with walker := o.walker.step r }
  | .next =>
    { o with
      traversal := o.traversal.next.2
      answers := o.answers ++ [o.traversal.next.1] }

def run (o : Outing) (asked : List Asking) : Outing := asked.foldl step o

/-- The walker goes where it is asked to go, the traversal answers with its places, and neither
minds the other. -/
theorem run_eq (o : Outing) (asked : List Asking) :
    (o.run asked).walker = o.walker.run (asked.filterMap Asking.request?) ∧
      (o.run asked).answers =
        o.answers ++ (List.range (asked.count .next)).map (o.traversal.places[·]?) := by
  induction asked generalizing o with
  | nil => exact ⟨rfl, (List.append_nil _).symm⟩
  | cons a asked ih =>
    obtain ⟨hwalker, hanswers⟩ := ih (o.step a)
    refine ⟨?_, hanswers.trans ?_⟩
    · cases a <;> exact hwalker
    · cases a with
      | walker r => rw [List.count_cons_of_ne (by simp)]; rfl
      | next =>
        have hrest (i : Nat) : o.traversal.next.2.places[i]? = o.traversal.places[i + 1]? := by
          rw [← Traversal.tail_places, List.getElem?_tail]
        have hfirst : o.traversal.next.1 = o.traversal.places[0]? := by
          rw [← Traversal.head?_places, List.head?_eq_getElem?]
        rw [List.count_cons_self, List.range_succ_eq_map, List.map_cons, List.map_map]
        simp [step, hfirst, hrest, Function.comp_def]

end Outing

/-- **A traversal hands out all places at and below the one that it was made on, each once, a node
before what is below it and children from left to right, and then no more.** It makes no difference
what the walker is asked for meanwhile, nor to the walker that there is a traversal. -/
theorem Walker.places_traversal (w : Walker) :
    let places := w.traversal.places
    places.map some = w.here.focus.tree.paths.map w.here.place? ∧
      places.map Cursor.focus = w.here.focus.subtrees ∧
      places.Nodup ∧
      (∀ c, c ∈ places ↔ ∃ path, w.here.place? path = some c) ∧
      ∀ asked : List Asking,
        ((Outing.of w).run asked).walker = w.run (asked.filterMap Asking.request?) ∧
          ((Outing.of w).run asked).answers =
            (List.range (asked.count .next)).map (places[·]?) := by
  intro places
  have hplaces : places.map some = w.here.focus.tree.paths.map w.here.place? :=
    Traversal.map_some_places w
  refine ⟨hplaces, ?_, ?_, fun c => ?_, (Outing.of w).run_eq⟩
  · have hfoci := Cursor.map_focus_paths (c := w.here) rfl
    rw [← hplaces, List.map_map] at hfoci
    refine List.map_injective_iff.2 (Option.some_injective _) ?_
    rw [List.map_map]
    exact hfoci
  · refine List.Nodup.of_map some ?_
    rw [hplaces]
    refine (Tree.nodup_paths _).map_on fun path hpath path' _ heq => ?_
    obtain ⟨c, hc⟩ := Cursor.mem_paths.1 hpath
    exact Cursor.place?_inj hc (heq ▸ hc)
  · rw [← List.mem_map_of_injective (Option.some_injective _), hplaces, List.mem_map]
    constructor
    · rintro ⟨path, -, hpath⟩
      exact ⟨path, hpath⟩
    · rintro ⟨path, hpath⟩
      exact ⟨path, Cursor.mem_paths.2 ⟨c, hpath⟩, hpath⟩

end AsmTree
