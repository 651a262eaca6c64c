import AsmTree.Blob
import AsmTree.Proofs.Blob.Wire
import AsmTree.Proofs.Table.Sparse

/-!
# Blobs are read back

A blob has a header of fixed length, and behind it the fields of a table, each of which delimits
itself. **Main statement (`ofBlob_toBlob`):** a table without fault is read back from its blob
whatever follows, and a blob that is cut short is malformed.
-/

namespace AsmTree

open Wire

/-- The numbers of a reduction fit into the sixteen bits that a blob has for each. -/
structure Reduction.Sized (r : Reduction) : Prop where
  lhs : r.lhs < 2 ^ 16
  length : r.length < 2 ^ 16

/-- The numbers of a table fit into the words that a blob has for them, and the lengths of its lists
into those of the machine. -/
structure ParseTable.Sized (t : ParseTable) : Prop where
  grammarVersion : t.grammarVersion < 2 ^ 32
  terminalCount : t.terminalCount < 2 ^ 32
  nonterminalCount : t.nonterminalCount < 2 ^ 32
  gotos : ∀ n, some n ∈ t.gotos → n + 1 < 2 ^ 32
  defaults : ∀ n, some n ∈ t.defaults → n + 1 < 2 ^ 32
  productions : ∀ r ∈ t.productions, r.Sized
  resumeState : ∀ n ∈ t.resumeState, n < 2 ^ 32
  actionsSize : t.actions.size < 2 ^ 64
  gotosSize : t.gotos.size < 2 ^ 64
  defaultsSize : t.defaults.size < 2 ^ 64
  productionsSize : t.productions.size < 2 ^ 64
  contextsSize : t.contexts.size < 2 ^ 64
  extrasLength : t.extras.length < 2 ^ 64

/-! ## Fields -/

namespace Blob

theorem delimits_action (a : Action) :
    Delimits (do return (⟨(← getNat 32).toUInt32⟩ : Action)) (putNat a.code.toNat) a := by
  have h := (delimits_nat (by decide) a.code.toNat_lt).map fun n => (⟨n.toUInt32⟩ : Action)
  rwa [Nat.toUInt32_eq, UInt32.ofNat_toNat] at h

theorem delimits_target {target : Option Nat} (h : ∀ n, target = some n → n + 1 < 2 ^ 32) :
    Delimits getTarget (putTarget target) target := by
  rw [← List.append_nil (putTarget target)]
  cases target with
  | none => exact (delimits_nat (by decide) (by decide)).bind (.pure none)
  | some n => exact (delimits_nat (by decide) (h n rfl)).bind (.pure (some n))

theorem delimits_targets {a : SparseArray Nat} (hsize : a.size < 2 ^ 64)
    (h : ∀ n, some n ∈ a → n + 1 < 2 ^ 32) :
    Delimits getTargets (putList putTarget a.toList) a := by
  have hlength : a.toList.toArray.size < 2 ^ 64 := by
    rw [List.size_toArray, SparseArray.length_toList]
    exact hsize
  have hlist := (delimits_array hlength fun place hplace => delimits_target fun n hn =>
    h n (SparseArray.mem_toList.1 (List.mem_toArray.1 (hn ▸ hplace)))).map
      fun places => SparseArray.ofList places.toList
  rwa [SparseArray.ofList_toList] at hlist

theorem index_lt_two_pow (k : Kind) : k.index < 2 ^ 32 := by
  have hsize : Kind.all.size = 163 := rfl
  have hreserved : Kind.reserved.index = 163 := rfl
  by_cases h : k = .reserved
  · rw [h, hreserved]
    decide
  · have hlt := Kind.index_lt_size_iff.2 h
    omega

theorem delimits_kind (k : Kind) : Delimits getKind (putKind k) k := by
  rw [← List.append_nil (putKind k)]
  refine (delimits_nat (by decide) (index_lt_two_pow k)).bind ?_
  by_cases hk : k = .reserved
  · subst hk
    have hnone : Kind.all.size ≤ Kind.reserved.index :=
      Nat.le_of_not_lt fun h => Kind.index_lt_size_iff.1 h rfl
    rw [Kind.ofIndex?, Array.getElem?_eq_none hnone]
    exact .pure _
  · rw [Kind.ofIndex?_index hk]
    exact .pure k

theorem delimits_reduction {r : Reduction} (h : r.Sized) :
    Delimits getReduction (putReduction r) r := by
  rw [putReduction, List.append_assoc]
  exact (delimits_nat (by decide) h.lhs).bind <| (delimits_nat (by decide) h.length).bind <|
    (delimits_option fun k _ => delimits_kind k).map _

/-- **The form of a table delimits itself**, since each of its fields does. -/
theorem delimits_table {t : ParseTable} (h : t.Sized) : Delimits getTable (putTable t) t := by
  have hextras : t.extras.toArray.size < 2 ^ 64 := h.extrasLength
  simp only [putTable, List.append_assoc]
  exact (delimits_nat (by decide) h.grammarVersion).bind <|
    (delimits_nat (by decide) h.terminalCount).bind <|
    (delimits_nat (by decide) h.nonterminalCount).bind <|
    (delimits_array h.actionsSize fun a _ => delimits_action a).bind <|
    (delimits_targets h.gotosSize h.gotos).bind <|
    (delimits_array h.defaultsSize fun _ hx =>
      delimits_target fun n hn => h.defaults n (hn ▸ hx)).bind <|
    (delimits_array h.productionsSize fun r hr => delimits_reduction (h.productions r hr)).bind <|
    (delimits_array h.contextsSize fun _ _ => delimits_option fun k _ => delimits_kind k).bind <|
    (delimits_option fun n hn => delimits_nat (by decide) (h.resumeState n hn)).bind <|
    (delimits_array hextras fun k _ => delimits_kind k).map _

end Blob

/-! ## Blobs -/

namespace ParseTable

variable {t : ParseTable}

/-- The six bytes in front of a table. -/
def blobHeader : Bytes :=
  Blob.magic ++ [Blob.schemaVersion.toUInt8, (Blob.schemaVersion / 256).toUInt8]

theorem toBlob_eq (t : ParseTable) : t.toBlob = blobHeader ++ Blob.putTable t := rfl

theorem length_blobHeader : blobHeader.length = Blob.headerSize := rfl

theorem ofBlob_header (body : Bytes) : ofBlob (blobHeader ++ body) =
    match Blob.getTable body with
    | .ok (t, _) => t.accept
    | .error e => .error (.malformed (.wire e)) := by
  unfold ofBlob
  rw [if_neg (by rw [List.length_append, length_blobHeader]; omega)]
  rfl

/-- The table of a blob is judged whatever follows in it. -/
theorem ofBlob_toBlob_append (h : t.Sized) (rest : Bytes) :
    ofBlob (t.toBlob ++ rest) = t.accept := by
  rw [toBlob_eq, List.append_assoc, ofBlob_header, (Blob.delimits_table h).whole]

theorem accept_eq_ok (hversion : t.grammarVersion = Grammar.version) (hcheck : t.check = true) :
    t.accept = .ok t := by
  rw [accept, if_neg (not_not_intro hversion), Option.isNone_iff_eq_none.1 hcheck]

theorem ofBlob_take_toBlob (h : t.Sized) {n : Nat} (hn : n < t.toBlob.length) :
    ofBlob (t.toBlob.take n) = .error (.malformed
      (if n < Blob.headerSize then .shortHeader else .wire .endOfInput)) := by
  split
  · next hshort =>
    unfold ofBlob
    rw [if_pos (Nat.lt_of_le_of_lt (List.length_take_le n t.toBlob) hshort)]
  · next hlong =>
    rw [toBlob_eq, List.length_append, length_blobHeader] at hn
    rw [toBlob_eq, List.take_append, length_blobHeader,
      List.take_of_length_le (by rw [length_blobHeader]; omega), ofBlob_header,
      (Blob.delimits_table h).take (by omega)]

/-- **A table without fault is read back from its blob, whatever follows; from no part of the blob
that is cut off is a table read.** -/
theorem ofBlob_toBlob (hsized : t.Sized) (hversion : t.grammarVersion = Grammar.version)
    (hcheck : t.check = true) :
    (∀ rest, ofBlob (t.toBlob ++ rest) = .ok t) ∧
      ∀ n < t.toBlob.length, ofBlob (t.toBlob.take n) = .error (.malformed
        (if n < Blob.headerSize then .shortHeader else .wire .endOfInput)) :=
  ⟨fun rest => (ofBlob_toBlob_append hsized rest).trans (accept_eq_ok hversion hcheck),
    fun _ hn => ofBlob_take_toBlob hsized hn⟩

/-- A table without fault that no grammar has: its only state reduces more than can be on the stack
there. -/
def overdrawn : ParseTable where
  grammarVersion := Grammar.version
  terminalCount := Kind.tokenCount
  nonterminalCount := 1
  actions := Array.replicate Kind.tokenCount .error
  gotos := .empty 1
  defaults := #[some 0]
  productions := #[⟨0, 300, some .label⟩]
  contexts := #[none]
  resumeState := some 0
  extras := [.whitespace]

theorem sized_overdrawn : overdrawn.Sized where
  grammarVersion := by decide
  terminalCount := by decide
  nonterminalCount := by decide
  gotos := by simp [overdrawn]
  defaults := by simp [overdrawn]
  productions := by
    simp only [overdrawn, List.mem_toArray, List.mem_singleton, forall_eq]
    exact ⟨by decide, by decide⟩
  resumeState := by simp [overdrawn]
  actionsSize := by decide
  gotosSize := by decide
  defaultsSize := by decide
  productionsSize := by decide
  contextsSize := by decide
  extrasLength := by decide

theorem check_overdrawn : overdrawn.check = true := by decide +kernel

/-- The blob of a table that no grammar has. -/
theorem ofBlob_toBlob_overdrawn : overdrawn.Sized ∧
    overdrawn.grammarVersion = Grammar.version ∧ overdrawn.check = true ∧
    (∀ rest, ofBlob (overdrawn.toBlob ++ rest) = .ok overdrawn) ∧
      ∀ n < overdrawn.toBlob.length, ofBlob (overdrawn.toBlob.take n) = .error (.malformed
        (if n < Blob.headerSize then .shortHeader else .wire .endOfInput)) :=
  ⟨sized_overdrawn, rfl, check_overdrawn, ofBlob_toBlob sized_overdrawn rfl check_overdrawn⟩

end ParseTable

end AsmTree
