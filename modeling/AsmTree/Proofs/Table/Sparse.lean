import AsmTree.Table.Sparse

/-!
# Places of sparse arrays

What stands in a place of a sparse array. **Main statements:** `getElem?_ofEntries` for an array
that is made from entries, and `ofList_toList` for one that is made from its places.
-/

namespace AsmTree

namespace SparseArray

variable {α : Type} {a b : SparseArray α}

theorem getElem?_eq (a : SparseArray α) (i : Nat) :
    a[i]? = if i < a.size then some a.filled[i]? else none := rfl

theorem mem_iff {place : Option α} : place ∈ a ↔ ∃ i : Nat, a[i]? = some place := Iff.rfl

@[simp] theorem some_not_mem_empty {n : Nat} {x : α} : some x ∉ empty n := by
  rintro ⟨i, hi⟩
  rw [getElem?_eq] at hi
  split at hi <;> simp [empty] at hi

theorem ext_getElem? (hsize : a.size = b.size) (h : ∀ i < a.size, a[i]? = b[i]?) : a = b := by
  obtain ⟨n, filled, hlt⟩ := a
  obtain ⟨m, filled', hlt'⟩ := b
  obtain rfl : n = m := hsize
  congr 1
  refine Std.ExtTreeMap.ext_getElem? fun i => ?_
  by_cases hi : i < n
  · have heq := h i hi
    rw [getElem?_eq, getElem?_eq, if_pos hi, if_pos hi] at heq
    exact Option.some_inj.1 heq
  · rw [Std.ExtTreeMap.getElem?_eq_none fun hmem => hi (hlt i hmem),
      Std.ExtTreeMap.getElem?_eq_none fun hmem => hi (hlt' i hmem)]

@[simp] theorem size_set (a : SparseArray α) (i : Nat) (x : α) : (a.set i x).size = a.size := by
  unfold set
  split <;> rfl

theorem getElem?_set (a : SparseArray α) (i j : Nat) (x : α) :
    (a.set i x)[j]? = if i = j ∧ j < a.size then some (some x) else a[j]? := by
  rw [getElem?_eq, size_set, getElem?_eq]
  by_cases hj : j < a.size
  · by_cases hij : i = j
    · subst hij
      rw [if_pos hj, if_pos ⟨rfl, hj⟩, set, dif_pos hj, Std.ExtTreeMap.getElem?_insert_self]
    · rw [if_pos hj, if_neg fun h => hij h.1, if_pos hj, set]
      split
      · rw [Std.ExtTreeMap.getElem?_insert, if_neg (by rwa [Std.LawfulEqCmp.compare_eq_iff_eq])]
      · rfl
  · rw [if_neg hj, if_neg fun h => hj h.2, if_neg hj]

@[simp] theorem size_ofEntries (n : Nat) (entries : List (Nat × α)) :
    (ofEntries n entries).size = n := by
  induction entries with
  | nil => rfl
  | cons e entries ih => rw [ofEntries, List.foldr_cons, size_set, ← ofEntries, ih]

/-- A place holds the first entry for it. -/
theorem getElem?_ofEntries (n : Nat) (entries : List (Nat × α)) (i : Nat) :
    (ofEntries n entries)[i]? = if i < n then some (entries.lookup i) else none := by
  induction entries with
  | nil => rfl
  | cons e entries ih =>
    obtain ⟨j, x⟩ := e
    rw [ofEntries, List.foldr_cons, ← ofEntries, getElem?_set, ih, size_ofEntries,
      List.lookup_cons]
    by_cases hi : i < n
    · by_cases hij : j = i
      · rw [if_pos ⟨hij, hi⟩, if_pos hi, hij, beq_self_eq_true]
      · rw [if_neg fun h => hij h.1, if_pos hi, if_pos hi, beq_false_of_ne (Ne.symm hij)]
    · rw [if_neg fun h => hi h.2, if_neg hi, if_neg hi]

/-! ## Lists of places -/

@[simp] theorem length_toList (a : SparseArray α) : a.toList.length = a.size := by
  simp [toList]

theorem getElem?_toList (a : SparseArray α) (i : Nat) : a.toList[i]? = a[i]? := by
  rw [toList, List.getElem?_map, getElem?_eq]
  by_cases hi : i < a.size
  · rw [List.getElem?_range hi, if_pos hi]
    rfl
  · rw [List.getElem?_eq_none (by simpa using hi), if_neg hi]
    rfl

theorem mem_toList {place : Option α} : place ∈ a.toList ↔ place ∈ a := by
  rw [List.mem_iff_getElem?, mem_iff]
  simp only [getElem?_toList]

@[simp] theorem size_ofList (places : List (Option α)) : (ofList places).size = places.length :=
  size_ofEntries _ _

/-- The entry of a place is what stands there. -/
theorem lookup_zipIdx (places : List (Option α)) (k i : Nat) :
    ((places.zipIdx k).filterMap fun (place, i) => place.map (i, ·)).lookup (k + i) =
      places[i]?.join := by
  induction places generalizing k i with
  | nil => rfl
  | cons place places ih =>
    rw [List.zipIdx_cons, List.filterMap_cons]
    cases i with
    | zero =>
      cases place with
      | none =>
        -- the entries of the places behind have higher numbers
        refine List.lookup_eq_none_iff.2 fun e he => ?_
        obtain ⟨⟨p, j⟩, hp, hj⟩ := List.mem_filterMap.1 he
        obtain ⟨x, -, rfl⟩ := Option.map_eq_some_iff.1 hj
        have hle : k + 1 ≤ j := List.le_snd_of_mem_zipIdx hp
        exact bne_iff_ne.2 (show k + 0 ≠ j by omega)
      | some x => simp
    | succ i =>
      have htail := ih (k + 1) i
      rw [show k + 1 + i = k + (i + 1) by omega] at htail
      cases place with
      | none => exact htail
      | some x =>
        refine (List.lookup_cons ..).trans ?_
        rw [beq_false_of_ne (show k + (i + 1) ≠ k by omega)]
        exact htail

theorem getElem?_ofList (places : List (Option α)) (i : Nat) :
    (ofList places)[i]? = places[i]? := by
  have hlookup := lookup_zipIdx places 0 i
  rw [Nat.zero_add] at hlookup
  rw [ofList, getElem?_ofEntries, hlookup]
  by_cases hi : i < places.length
  · rw [if_pos hi, List.getElem?_eq_getElem hi]
    rfl
  · rw [if_neg hi, List.getElem?_eq_none (Nat.le_of_not_lt hi)]

@[simp] theorem ofList_toList (a : SparseArray α) : ofList a.toList = a :=
  ext_getElem? (by simp) fun i _ => by rw [getElem?_ofList, getElem?_toList]

end SparseArray

end AsmTree
