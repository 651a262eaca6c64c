import Std.Data.ExtTreeMap

/-!
# Sparse arrays

An array most of whose places are empty, kept as its length and the places that are filled. A parse
table has such an array: a state moves on with few of the nonterminals.
-/

namespace AsmTree

/-- An array most of whose places are empty. -/
structure SparseArray (α : Type) where
  size : Nat
  /-- What the filled places hold. -/
  filled : Std.ExtTreeMap Nat α compare
  /-- There are no places behind the end. -/
  lt_size : ∀ i ∈ filled, i < size
deriving DecidableEq, Repr

namespace SparseArray

variable {α : Type}

/-- An array with empty places only. -/
def empty (n : Nat) : SparseArray α := ⟨n, ∅, by simp⟩

instance : Inhabited (SparseArray α) := ⟨empty 0⟩

/-- Fills a place, if there is one of this number. -/
def set (a : SparseArray α) (i : Nat) (x : α) : SparseArray α :=
  if h : i < a.size then
    ⟨a.size, a.filled.insert i x, fun j hj => by
      rcases Std.ExtTreeMap.mem_insert.1 hj with heq | hj
      · rwa [← Std.LawfulEqCmp.eq_of_compare heq]
      · exact a.lt_size j hj⟩
  else a

/-- An array of some length with what fills its places. Of two entries for a place the first
counts. -/
def ofEntries (n : Nat) (entries : List (Nat × α)) : SparseArray α :=
  entries.foldr (fun (i, x) a => a.set i x) (empty n)

/-- The array with these places. -/
def ofList (places : List (Option α)) : SparseArray α :=
  ofEntries places.length (places.zipIdx.filterMap fun (place, i) => place.map (i, ·))

instance : GetElem? (SparseArray α) Nat (Option α) fun a i => i < a.size where
  getElem a i _ := a.filled[i]?
  getElem? a i := if i < a.size then some a.filled[i]? else none

instance : Membership (Option α) (SparseArray α) := ⟨fun a place => ∃ i : Nat, a[i]? = some place⟩

/-- The places in order. -/
def toList (a : SparseArray α) : List (Option α) := (List.range a.size).map fun i => a.filled[i]?

end SparseArray

end AsmTree
