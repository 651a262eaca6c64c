import AsmTree.Proofs.Machine.Leaves
import AsmTree.Proofs.Tree.Subtrees
import Mathlib.Algebra.GroupWithZero.Nat

/-!
# Parts and their places

The parts of neighbouring trees, each in its place. **Main statement (`exists_leaf_of_mem_parts`):**
a token among them is one of the leaves, and begins where the leaves before it end.
-/

namespace AsmTree

open AsmTree.Tree

namespace Located

variable {e : Located} {start : Nat} {t : Tree} {ts a b : List Tree} {k : Kind}

theorem text_token {word : String} : (⟨start, token k word⟩ : Located).text = word := by
  simp [text, Tree.text, leaves, leavesOnto]

theorem row_append (start : Nat) (a b : List Tree) :
    row start (a ++ b) = row start a ++ row (start + lengthAll a) b := by
  induction a generalizing start with
  | nil => rfl
  | cons t a ih => simp [ih, Nat.add_assoc]

theorem le_start {start : Nat} {ts : List Tree} {l : Located} (h : l ∈ row start ts) :
    start ≤ l.start := by
  induction ts generalizing start with
  | nil => cases h
  | cons t ts ih =>
    rcases List.mem_cons.1 h with rfl | h
    · exact Nat.le_refl _
    · exact Nat.le_trans (Nat.le_add_right _ _) (ih h)

theorem stop_le {start : Nat} {ts : List Tree} {l : Located} (h : l ∈ row start ts) :
    l.stop ≤ start + Tree.lengthAll ts := by
  induction ts generalizing start with
  | nil => cases h
  | cons t ts ih =>
    rw [Tree.lengthAll_cons]
    rcases List.mem_cons.1 h with rfl | h
    · show start + t.length ≤ _
      omega
    · have hle := ih h
      omega

/-- Every part of neighbouring trees, the first of which starts at an offset. -/
def parts (start : Nat) (ts : List Tree) : List Located := subtreesOntoAll start ts []

@[simp] theorem parts_nil : parts start [] = [] := rfl

theorem mem_parts_cons :
    e ∈ parts start (t :: ts) ↔ e ∈ subtreesOnto start t [] ∨ e ∈ parts (start + t.length) ts :=
  mem_subtreesOntoAll_cons

theorem mem_parts_append :
    e ∈ parts start (a ++ b) ↔ e ∈ parts start a ∨ e ∈ parts (start + lengthAll a) b := by
  induction a generalizing start with
  | nil => simp
  | cons t a ih =>
    rw [List.cons_append, mem_parts_cons, mem_parts_cons, ih, or_assoc, lengthAll_cons,
      Nat.add_assoc]

theorem mem_parts_node :
    e ∈ parts start [node k ts] ↔ e = ⟨start, node k ts⟩ ∨ e ∈ parts start ts := by
  rw [mem_parts_cons, subtreesOnto, List.mem_cons, parts_nil]
  simp only [List.not_mem_nil, or_false]
  rfl

theorem mem_subtrees_node :
    e ∈ (⟨start, node k ts⟩ : Located).subtrees ↔
      e = ⟨start, node k ts⟩ ∨ e ∈ parts start ts := by
  rw [subtrees, subtreesOnto, List.mem_cons]
  rfl

theorem mem_parts_of_mem_row (h : e ∈ row start ts) : e ∈ parts start ts := by
  induction ts generalizing start with
  | nil => cases h
  | cons t ts ih =>
    rw [mem_parts_cons]
    rcases List.mem_cons.1 h with rfl | h
    · left
      cases t <;> exact List.mem_cons_self
    · exact Or.inr (ih h)

mutual

/-- What is below a part of a tree is a part of the tree. -/
theorem subtreesOnto_trans {x : Located} {cs : List Tree} (htree : x.tree = node k cs)
    (he : e ∈ parts x.start cs) (start : Nat) (t : Tree) (hx : x ∈ subtreesOnto start t []) :
    e ∈ subtreesOnto start t [] := by
  cases t with
  | token k' text =>
    rw [List.mem_singleton.1 hx] at htree
    cases htree
  | node k' ts =>
    rw [subtreesOnto, List.mem_cons] at hx ⊢
    rcases hx with rfl | hx
    · cases htree
      exact Or.inr he
    · exact Or.inr (parts_trans htree he start ts hx)

theorem parts_trans {x : Located} {cs : List Tree} (htree : x.tree = node k cs)
    (he : e ∈ parts x.start cs) (start : Nat) (ts : List Tree) (hx : x ∈ parts start ts) :
    e ∈ parts start ts := by
  cases ts with
  | nil => cases hx
  | cons t ts =>
    rw [mem_parts_cons] at hx ⊢
    exact hx.imp (subtreesOnto_trans htree he start t) (parts_trans htree he _ ts)

end

end Located

/-! ## Tokens among the parts -/

def Leaf.lengthAll (leaves : List Leaf) : Nat := (leaves.map (·.text.utf8ByteSize)).sum

theorem Leaf.lengthAll_append (a b : List Leaf) :
    lengthAll (a ++ b) = lengthAll a + lengthAll b := by
  rw [lengthAll, List.map_append, List.sum_append]
  rfl

namespace Tree

mutual

theorem lengthAll_leaves (t : Tree) : Leaf.lengthAll t.leaves = t.length := by
  cases t with
  | token k text => rfl
  | node k cs => exact lengthAll_leavesAll cs

theorem lengthAll_leavesAll (ts : List Tree) : Leaf.lengthAll (leavesAll ts) = lengthAll ts := by
  cases ts with
  | nil => rfl
  | cons t ts =>
    rw [leavesAll_cons, Leaf.lengthAll_append, lengthAll_leaves t, lengthAll_leavesAll ts,
      lengthAll_cons]

end

end Tree

namespace Located

variable {k : Kind} {text : String} {off : Nat}

mutual

theorem exists_leaf_of_mem_subtreesOnto (start : Nat) (t : Tree)
    (h : ⟨off, token k text⟩ ∈ subtreesOnto start t []) : ∃ before behind,
      t.leaves = before ++ ⟨k, text⟩ :: behind ∧ off = start + Leaf.lengthAll before := by
  cases t with
  | token k' text' =>
    obtain ⟨rfl, htree⟩ := Located.mk.inj (List.mem_singleton.1 h)
    cases htree
    exact ⟨[], [], rfl, rfl⟩
  | node k' cs =>
    rcases List.mem_cons.1 h with he | h
    · cases he
    · exact exists_leaf_of_mem_parts start cs h

/-- **A token among the parts is one of the leaves**, and begins where the leaves before it end. -/
theorem exists_leaf_of_mem_parts (start : Nat) (ts : List Tree)
    (h : ⟨off, token k text⟩ ∈ parts start ts) : ∃ before behind,
      leavesAll ts = before ++ ⟨k, text⟩ :: behind ∧ off = start + Leaf.lengthAll before := by
  cases ts with
  | nil => cases h
  | cons t ts =>
    rcases mem_parts_cons.1 h with h | h
    · obtain ⟨before, behind, hleaves, hoff⟩ := exists_leaf_of_mem_subtreesOnto start t h
      exact ⟨before, behind ++ leavesAll ts, by simp [leavesAll_cons, hleaves], hoff⟩
    · obtain ⟨before, behind, hleaves, hoff⟩ := exists_leaf_of_mem_parts _ ts h
      refine ⟨t.leaves ++ before, behind, by simp [leavesAll_cons, hleaves], ?_⟩
      rw [hoff, Leaf.lengthAll_append, lengthAll_leaves, Nat.add_assoc]

end

end Located

end AsmTree
