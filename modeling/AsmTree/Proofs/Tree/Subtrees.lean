import AsmTree.SyntaxTree
import AsmTree.Tree.Located

/-!
# What holds everywhere in a tree

A property of nodes that holds of every node of a tree, and tokens that lie in recovered regions.
Both are said by recursion over the tree, which is how trees are made, and by the lists of parts in
their places, which is how trees are read. **Main statements:** they agree
(`everywhere_of_mem_subtrees`, `Sheltered.inRegion`, `SyntaxTree.errorRanges_eq_nil`).
-/

namespace AsmTree

variable {P Q : Kind → List Tree → Prop}

namespace Tree

/-! ## Properties of every node -/

mutual

/-- Every node of the tree has a property, which is asked of its kind and the trees below it. -/
def Everywhere (P : Kind → List Tree → Prop) : Tree → Prop
  | token .. => True
  | node k cs => P k cs ∧ EverywhereAll P cs

def EverywhereAll (P : Kind → List Tree → Prop) : List Tree → Prop
  | [] => True
  | t :: ts => Everywhere P t ∧ EverywhereAll P ts

end

theorem everywhereAll_iff {ts : List Tree} :
    EverywhereAll P ts ↔ ∀ t ∈ ts, Everywhere P t := by
  induction ts with
  | nil => simp [EverywhereAll]
  | cons t ts ih => simp [EverywhereAll, ih]

theorem everywhere_node {k : Kind} {cs : List Tree} :
    Everywhere P (node k cs) ↔ P k cs ∧ ∀ t ∈ cs, Everywhere P t := by
  rw [Everywhere, everywhereAll_iff]

/-! ## Tokens in recovered regions -/

mutual

/-- Every unreadable token of the tree lies in a recovered region. -/
def Sheltered : Tree → Prop
  | token k _ => k ≠ .unknown
  | node k cs => k = .error ∨ ShelteredAll cs

def ShelteredAll : List Tree → Prop
  | [] => True
  | t :: ts => Sheltered t ∧ ShelteredAll ts

end

theorem shelteredAll_iff {ts : List Tree} : ShelteredAll ts ↔ ∀ t ∈ ts, Sheltered t := by
  induction ts with
  | nil => simp [ShelteredAll]
  | cons t ts ih => simp [ShelteredAll, ih]

theorem sheltered_node {k : Kind} {cs : List Tree} :
    Sheltered (node k cs) ↔ k = .error ∨ ∀ t ∈ cs, Sheltered t := by
  rw [Sheltered, shelteredAll_iff]

end Tree

open AsmTree.Tree

/-! ## Parts in their places -/

namespace Located

variable {e x : Located}

mutual

theorem subtreesOnto_eq (start : Nat) (t : Tree) (rest : List Located) :
    subtreesOnto start t rest = (⟨start, t⟩ : Located).subtrees ++ rest := by
  cases t with
  | token k text => rfl
  | node k cs =>
    rw [subtrees, subtreesOnto, subtreesOnto, subtreesOntoAll_eq start cs rest,
      subtreesOntoAll_eq start cs [], List.append_nil, List.cons_append]

theorem subtreesOntoAll_eq (start : Nat) (ts : List Tree) (rest : List Located) :
    subtreesOntoAll start ts rest = (row start ts).flatMap subtrees ++ rest := by
  cases ts with
  | nil => rfl
  | cons t ts =>
    rw [subtreesOntoAll, subtreesOnto_eq start t, subtreesOntoAll_eq _ ts rest, row_cons,
      List.flatMap_cons, List.append_assoc]

end

theorem mem_subtreesOnto (start : Nat) (t : Tree) (rest : List Located) :
    e ∈ subtreesOnto start t rest ↔ e ∈ subtreesOnto start t [] ∨ e ∈ rest := by
  rw [subtreesOnto_eq, subtreesOnto_eq start t [], List.append_nil, List.mem_append]

theorem mem_subtreesOntoAll_cons {start : Nat} {t : Tree} {ts : List Tree} :
    e ∈ subtreesOntoAll start (t :: ts) [] ↔
      e ∈ subtreesOnto start t [] ∨ e ∈ subtreesOntoAll (start + t.length) ts [] := by
  rw [subtreesOntoAll, mem_subtreesOnto]

mutual

theorem everywhere_of_mem_subtreesOnto {start : Nat} {t : Tree} (h : t.Everywhere P)
    (he : e ∈ subtreesOnto start t []) : e.tree.Everywhere P := by
  cases t with
  | token k text =>
    obtain rfl := List.mem_singleton.1 he
    exact h
  | node k cs =>
    rcases List.mem_cons.1 he with rfl | he
    · exact h
    · exact everywhere_of_mem_subtreesOntoAll h.2 he

theorem everywhere_of_mem_subtreesOntoAll {start : Nat} {ts : List Tree}
    (h : EverywhereAll P ts) (he : e ∈ subtreesOntoAll start ts []) : e.tree.Everywhere P := by
  cases ts with
  | nil => cases he
  | cons t ts =>
    rcases mem_subtreesOntoAll_cons.1 he with he | he
    · exact everywhere_of_mem_subtreesOnto h.1 he
    · exact everywhere_of_mem_subtreesOntoAll h.2 he

end

/-- **What holds everywhere in a tree holds of every part of it.** -/
theorem everywhere_of_mem_subtrees (h : x.tree.Everywhere P) (he : e ∈ x.subtrees) :
    e.tree.Everywhere P :=
  everywhere_of_mem_subtreesOnto h he

/-- The token lies in a recovered region among some parts. -/
def InRegion (parts : List Located) (x : Located) : Prop :=
  ∃ e ∈ parts, e.kind = .error ∧ e.isToken = false ∧ x ∈ e.subtrees

theorem InRegion.mono {parts parts' : List Located} (h : InRegion parts x)
    (hsub : ∀ e ∈ parts, e ∈ parts') : InRegion parts' x := by
  obtain ⟨e, he, hkind⟩ := h
  exact ⟨e, hsub e he, hkind⟩

mutual

theorem inRegion_of_mem_subtreesOnto {start : Nat} {t : Tree} (h : t.Sheltered)
    (hx : x ∈ subtreesOnto start t []) (htoken : x.isToken = true) (hk : x.kind = .unknown) :
    InRegion (subtreesOnto start t []) x := by
  cases t with
  | token k text =>
    obtain rfl := List.mem_singleton.1 hx
    exact absurd hk h
  | node k cs =>
    rcases List.mem_cons.1 hx with rfl | hmem
    · cases htoken
    · rcases h with rfl | h
      · exact ⟨⟨start, node .error cs⟩, List.mem_cons_self, rfl, rfl, hx⟩
      · exact (inRegion_of_mem_subtreesOntoAll h hmem htoken hk).mono fun e he =>
          List.mem_cons_of_mem _ he

theorem inRegion_of_mem_subtreesOntoAll {start : Nat} {ts : List Tree} (h : ShelteredAll ts)
    (hx : x ∈ subtreesOntoAll start ts []) (htoken : x.isToken = true) (hk : x.kind = .unknown) :
    InRegion (subtreesOntoAll start ts []) x := by
  cases ts with
  | nil => cases hx
  | cons t ts =>
    rcases mem_subtreesOntoAll_cons.1 hx with hx | hx
    · exact (inRegion_of_mem_subtreesOnto h.1 hx htoken hk).mono fun e he =>
        mem_subtreesOntoAll_cons.2 (Or.inl he)
    · exact (inRegion_of_mem_subtreesOntoAll h.2 hx htoken hk).mono fun e he =>
        mem_subtreesOntoAll_cons.2 (Or.inr he)

end

end Located

/-- **An unreadable token of a tree that shelters them all lies in a recovered region.** -/
theorem Tree.Sheltered.inRegion {e x : Located} (h : e.tree.Sheltered) (hx : x ∈ e.subtrees)
    (htoken : x.isToken = true) (hk : x.kind = .unknown) : x.InRegion e.subtrees :=
  Located.inRegion_of_mem_subtreesOnto h hx htoken hk

/-! ## Recovered regions -/

/-- No recovered region is in the tree. -/
abbrev Tree.Whole (t : Tree) : Prop := t.Everywhere fun k _ => k ≠ .error

def Element.IsRegion (e : Element) : Prop := e.kind = .error ∧ e.text = none

namespace Tree

mutual

theorem whole_iff_elementsOnto (depth start : Nat) (t : Tree) (rest : List Element) :
    (∀ e ∈ elementsOnto depth start t rest, ¬ e.IsRegion) ↔
      t.Whole ∧ ∀ e ∈ rest, ¬ e.IsRegion := by
  cases t with
  | token k text => simp [elementsOnto, Element.IsRegion, Everywhere]
  | node k cs =>
    rw [elementsOnto, List.forall_mem_cons, whole_iff_elementsOntoAll, ← and_assoc]
    simp [Element.IsRegion, Everywhere]

theorem whole_iff_elementsOntoAll (depth start : Nat) (ts : List Tree) (rest : List Element) :
    (∀ e ∈ elementsOntoAll depth start ts rest, ¬ e.IsRegion) ↔
      EverywhereAll (fun k _ => k ≠ .error) ts ∧ ∀ e ∈ rest, ¬ e.IsRegion := by
  cases ts with
  | nil => simp [elementsOntoAll, EverywhereAll]
  | cons t ts =>
    rw [elementsOntoAll, whole_iff_elementsOnto, whole_iff_elementsOntoAll, ← and_assoc,
      EverywhereAll]

end

end Tree

/-- **A parsed text has no recovered regions exactly if none of its trees has one.** -/
theorem SyntaxTree.errorRanges_eq_nil {tree : SyntaxTree} :
    tree.errorRanges = [] ↔ ∀ t ∈ tree.children, t.Whole := by
  have hranges : tree.errorRanges = [] ↔ ∀ e ∈ tree.elements, ¬ e.IsRegion := by
    rw [errorRanges, List.filterMap_eq_nil_iff]
    refine forall₂_congr fun e _ => ?_
    simp [Element.IsRegion]
  rw [hranges, elements, Tree.elements, whole_iff_elementsOnto, root, Whole, everywhere_node]
  simp

end AsmTree
