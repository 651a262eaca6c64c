import AsmTree.SyntaxTree

/-!
# What was reported, and where lines end

A checkpoint says how many diagnostics were reported before its place. A `Ledger` is a list of
diagnostics with checkpoints that say so rightly. **Main statements:** diagnostics that are reported
behind all checkpoints keep a ledger (`Ledger.report`), and so does the end of a line behind all
diagnostics (`Ledger.record`); a ledger goes on with the end of another one, moved
(`Ledger.extend`).
-/

namespace AsmTree

/-! ## Ranges up to an offset -/

theorem shiftOffset_mono {delta : Int} {a b : Nat} (h : a ≤ b) :
    shiftOffset delta a ≤ shiftOffset delta b := by
  unfold shiftOffset
  omega

def TextRange.Upto (r : TextRange) (offset : Nat) : Prop := r.start ≤ r.stop ∧ r.stop ≤ offset

theorem TextRange.Upto.mono {r : TextRange} {a b : Nat} (h : r.Upto a) (hle : a ≤ b) : r.Upto b :=
  ⟨h.1, Nat.le_trans h.2 hle⟩

theorem TextRange.Upto.shift {r : TextRange} {offset : Nat} (h : r.Upto offset) (delta : Int) :
    (r.shift delta).Upto (shiftOffset delta offset) :=
  ⟨shiftOffset_mono h.1, shiftOffset_mono h.2⟩

/-- All that the diagnostic points at ends at or before an offset. -/
def Diagnostic.Upto (d : Diagnostic) (offset : Nat) : Prop :=
  d.range.Upto offset ∧ ∀ r ∈ d.related, r.range.Upto offset

namespace Diagnostic.Upto

variable {d : Diagnostic} {a b offset : Nat}

theorem mono (h : d.Upto a) (hle : a ≤ b) : d.Upto b :=
  ⟨h.1.mono hle, fun r hr => (h.2 r hr).mono hle⟩

theorem shift (h : d.Upto offset) (delta : Int) :
    (d.shift delta).Upto (shiftOffset delta offset) := by
  refine ⟨h.1.shift delta, fun r hr => ?_⟩
  obtain ⟨r', hr', rfl⟩ := List.mem_map.1 hr
  exact (h.2 r' hr').shift delta

end Diagnostic.Upto

/-! ## Checkpoints among diagnostics -/

/-- The diagnostics that a checkpoint counts end at or before its place, and the others begin at or
behind it. -/
structure Checkpoint.Marks (c : Checkpoint) (errors : List Diagnostic) : Prop where
  count_le : c.errorCount ≤ errors.length
  before : ∀ d ∈ errors.take c.errorCount, d.Upto c.offset
  behind : ∀ d ∈ errors.drop c.errorCount, c.offset ≤ d.range.start

namespace Checkpoint.Marks

variable {c : Checkpoint} {errors ds : List Diagnostic} {n : Nat}

/-- More diagnostics behind the place. -/
theorem append (h : c.Marks errors) (hds : ∀ d ∈ ds, c.offset ≤ d.range.start) :
    c.Marks (errors ++ ds) where
  count_le := by
    rw [List.length_append]
    exact Nat.le_add_right_of_le h.count_le
  before := by
    rw [List.take_append_of_le_length h.count_le]
    exact h.before
  behind := by
    intro d hd
    rw [List.drop_append_of_le_length h.count_le] at hd
    rcases List.mem_append.1 hd with hd | hd
    · exact h.behind d hd
    · exact hds d hd

/-- More diagnostics before the place. -/
theorem prepend (h : c.Marks errors) (hds : ∀ d ∈ ds, d.Upto c.offset) (position : Position) :
    (Checkpoint.mk c.offset position (c.errorCount + ds.length)).Marks (ds ++ errors) where
  count_le := by
    have hle := h.count_le
    rw [List.length_append]
    dsimp only
    omega
  before := by
    intro d hd
    rw [Nat.add_comm, List.take_length_add_append] at hd
    rcases List.mem_append.1 hd with hd | hd
    · exact hds d hd
    · exact h.before d hd
  behind := by
    intro d hd
    rw [Nat.add_comm, List.drop_length_add_append] at hd
    exact h.behind d hd

theorem of_length (hcount : c.errorCount = errors.length) (h : ∀ d ∈ errors, d.Upto c.offset) :
    c.Marks errors where
  count_le := Nat.le_of_eq hcount
  before := fun d hd => h d (List.mem_of_mem_take hd)
  behind := by
    intro d hd
    rw [hcount, List.drop_length] at hd
    cases hd

theorem take (h : c.Marks errors) (hle : c.errorCount ≤ n) : c.Marks (errors.take n) where
  count_le := by
    rw [List.length_take]
    exact Nat.le_min.2 ⟨hle, h.count_le⟩
  before := by
    intro d hd
    rw [List.take_take, Nat.min_eq_left hle] at hd
    exact h.before d hd
  behind := by
    intro d hd
    rw [List.drop_take] at hd
    exact h.behind d (List.mem_of_mem_take hd)

/-- A place among the last diagnostics, moved. -/
theorem drop (h : c.Marks errors) (hle : n ≤ c.errorCount) (delta : Int) (position : Position) :
    (Checkpoint.mk (shiftOffset delta c.offset) position (c.errorCount - n)).Marks
      ((errors.drop n).map (·.shift delta)) where
  count_le := by
    rw [List.length_map, List.length_drop]
    exact Nat.sub_le_sub_right h.count_le n
  before := by
    intro d hd
    rw [← List.map_take, List.take_drop, Nat.add_sub_cancel' hle] at hd
    obtain ⟨d', hd', rfl⟩ := List.mem_map.1 hd
    exact (h.before d' (List.mem_of_mem_drop hd')).shift delta
  behind := by
    intro d hd
    rw [← List.map_drop, List.drop_drop, Nat.add_sub_cancel' hle] at hd
    obtain ⟨d', hd', rfl⟩ := List.mem_map.1 hd
    exact shiftOffset_mono (h.behind d' hd')

end Checkpoint.Marks

/-! ## Ledgers -/

/-- Diagnostics, and checkpoints in order that say how many of them come before. -/
structure Ledger (errors : List Diagnostic) (checkpoints : List Checkpoint) : Prop where
  ordered : checkpoints.Pairwise (·.offset < ·.offset)
  counts : checkpoints.Pairwise (·.errorCount ≤ ·.errorCount)
  marks : ∀ c ∈ checkpoints, c.Marks errors

namespace Ledger

variable {errors olds ds : List Diagnostic} {checkpoints cs xs ys : List Checkpoint}
  {c matched : Checkpoint}

theorem nil (errors : List Diagnostic) : Ledger errors [] := ⟨.nil, .nil, by simp⟩

theorem sublist (h : Ledger errors checkpoints) (hs : cs.Sublist checkpoints) : Ledger errors cs :=
  ⟨h.ordered.sublist hs, h.counts.sublist hs, fun c hc => h.marks c (hs.subset hc)⟩

/-- **Diagnostics behind all checkpoints.** -/
theorem report (h : Ledger errors checkpoints)
    (hds : ∀ d ∈ ds, ∀ c ∈ checkpoints, c.offset ≤ d.range.start) :
    Ledger (errors ++ ds) checkpoints :=
  ⟨h.ordered, h.counts, fun c hc => (h.marks c hc).append fun d hd => hds d hd c hc⟩

/-- **A checkpoint behind all diagnostics.** -/
theorem record (h : Ledger errors checkpoints) (hcount : c.errorCount = errors.length)
    (hlt : ∀ c' ∈ checkpoints, c'.offset < c.offset) (hupto : ∀ d ∈ errors, d.Upto c.offset) :
    Ledger errors (checkpoints ++ [c]) where
  ordered := by
    refine List.pairwise_append.2 ⟨h.ordered, List.pairwise_singleton _ _, fun c' hc' x hx => ?_⟩
    rw [List.mem_singleton.1 hx]
    exact hlt c' hc'
  counts := by
    refine List.pairwise_append.2 ⟨h.counts, List.pairwise_singleton _ _, fun c' hc' x hx => ?_⟩
    rw [List.mem_singleton.1 hx, hcount]
    exact (h.marks c' hc').count_le
  marks := by
    intro x hx
    rcases List.mem_append.1 hx with hx | hx
    · exact h.marks x hx
    · rw [List.mem_singleton.1 hx]
      exact .of_length hcount hupto

theorem upto (h : Ledger errors (xs ++ c :: ys)) :
    Ledger (errors.take c.errorCount) (xs ++ [c]) := by
  have hsub : (xs ++ [c]).Sublist (xs ++ c :: ys) := by simp
  have hfirst := h.sublist hsub
  refine ⟨hfirst.ordered, hfirst.counts, fun x hx => (hfirst.marks x hx).take ?_⟩
  rcases List.mem_append.1 hx with hx | hx
  · exact (List.pairwise_append.1 h.counts).2.2 x hx c List.mem_cons_self
  · exact Nat.le_of_eq (congrArg Checkpoint.errorCount (List.mem_singleton.1 hx))

theorem upto_offset (h : Ledger errors (xs ++ c :: ys)) :
    ∀ d ∈ errors.take c.errorCount, d.Upto c.offset :=
  (h.marks c (List.mem_append_right xs List.mem_cons_self)).before

/-- **A ledger that ends with a checkpoint goes on with what comes behind a checkpoint of another
one**, moved from that place to this one. -/
theorem extend (h : Ledger errors (cs ++ [c])) (hcount : c.errorCount = errors.length)
    (hold : Ledger olds (xs ++ matched :: ys)) {delta : Int}
    (hplace : c.offset = shiftOffset delta matched.offset) (hdelta : 0 ≤ matched.offset + delta)
    (position : Checkpoint → Position) :
    Ledger (errors ++ (olds.drop matched.errorCount).map (·.shift delta))
      (cs ++ [c] ++ ys.map fun c' =>
        { offset := shiftOffset delta c'.offset
          position := position c'
          errorCount := c'.errorCount - matched.errorCount + c.errorCount }) := by
  have hupto : ∀ d ∈ errors, d.Upto c.offset := by
    intro d hd
    refine h.upto_offset d ?_
    rw [hcount, List.take_length]
    exact hd
  have hle : ∀ x ∈ cs ++ [c], x.offset ≤ c.offset := by
    intro x hx
    rcases List.mem_append.1 hx with hx | hx
    · exact Nat.le_of_lt ((List.pairwise_append.1 h.ordered).2.2 x hx c List.mem_cons_self)
    · exact Nat.le_of_eq (congrArg Checkpoint.offset (List.mem_singleton.1 hx))
  have hordered := List.pairwise_cons.1 (List.pairwise_append.1 hold.ordered).2.1
  have hcounts := List.pairwise_cons.1 (List.pairwise_append.1 hold.counts).2.1
  have hlt {a b : Nat} (ha : matched.offset ≤ a) (hab : a < b) :
      shiftOffset delta a < shiftOffset delta b := by
    unfold shiftOffset
    omega
  refine ⟨?_, ?_, fun x hx => ?_⟩
  · refine List.pairwise_append.2 ⟨h.ordered, List.pairwise_map.2 ?_, ?_⟩
    · refine hordered.2.imp_of_mem fun {a b} ha _ hab => ?_
      exact hlt (Nat.le_of_lt (hordered.1 a ha)) hab
    · intro x hx y hy
      obtain ⟨c', hc', rfl⟩ := List.mem_map.1 hy
      refine Nat.lt_of_le_of_lt (hle x hx) ?_
      rw [hplace]
      exact hlt (Nat.le_refl _) (hordered.1 c' hc')
  · refine List.pairwise_append.2 ⟨h.counts, List.pairwise_map.2 ?_, ?_⟩
    · exact hcounts.2.imp fun hab => Nat.add_le_add_right (Nat.sub_le_sub_right hab _) _
    · intro x hx y hy
      obtain ⟨c', -, rfl⟩ := List.mem_map.1 hy
      refine Nat.le_trans (h.marks x hx).count_le ?_
      rw [← hcount]
      exact Nat.le_add_left _ _
  · rcases List.mem_append.1 hx with hx | hx
    · refine (h.marks x hx).append fun d hd => ?_
      obtain ⟨d', hd', rfl⟩ := List.mem_map.1 hd
      have hmatched := hold.marks matched (List.mem_append_right xs List.mem_cons_self)
      refine Nat.le_trans (hle x hx) ?_
      rw [hplace]
      exact shiftOffset_mono (hmatched.behind d' hd')
    · obtain ⟨c', hc', rfl⟩ := List.mem_map.1 hx
      have hmarks := hold.marks c' (List.mem_append_right xs (List.mem_cons_of_mem _ hc'))
      have hmoved := hmarks.drop (hcounts.1 c' hc') delta (position c')
      rw [hcount]
      refine hmoved.prepend (fun d hd => (hupto d hd).mono ?_) _
      rw [hplace]
      exact Nat.le_of_lt (hlt (Nat.le_refl _) (hordered.1 c' hc'))

end Ledger

end AsmTree
