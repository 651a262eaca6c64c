import AsmTree.Text.Position
import Mathlib.Data.List.GetD

/-!
# Two ways to a position

The lexer moves a position along while it reads; the line index of a text looks the position of an
offset up. **Main statements:** both say the same at every edge of a character (`position_ofText`).
The line that is looked up is the last one that starts at or before the offset, since the starts
ascend (`exists_lineStart?`), and positions are in the order of offsets (`position_ble`).
-/

namespace AsmTree

namespace LineIndex

variable {offset start : Nat}

theorem startsFrom_append (offset : Nat) (a b : List Char) :
    startsFrom offset (a ++ b) = startsFrom offset a ++ startsFrom (offset + byteLength a) b := by
  induction a generalizing offset with
  | nil => rfl
  | cons c a ih =>
    rw [List.cons_append, startsFrom, startsFrom, ih, byteLength_cons, Nat.add_assoc]
    split <;> rfl

/-- A line starts behind the character that ends the line before it. -/
theorem lt_of_mem_startsFrom {cs : List Char} (h : start ∈ startsFrom offset cs) :
    offset < start := by
  induction cs generalizing offset with
  | nil => cases h
  | cons c cs ih =>
    have hc := Char.utf8Size_pos c
    rw [startsFrom] at h
    split at h
    · rcases List.mem_cons.1 h with rfl | h
      · omega
      · have := ih h
        omega
    · have := ih h
      omega

theorem le_of_mem_startsFrom {cs : List Char} (h : start ∈ startsFrom offset cs) :
    start ≤ offset + byteLength cs := by
  induction cs generalizing offset with
  | nil => cases h
  | cons c cs ih =>
    rw [byteLength_cons, ← Nat.add_assoc]
    rw [startsFrom] at h
    split at h
    · rcases List.mem_cons.1 h with rfl | h
      · omega
      · exact ih h
    · exact ih h

/-- A position that is moved over `cs` counts the lines that start in `cs`, and the bytes behind the
last start. -/
theorem advance_eq (line : Nat) {cs : List Char} (h : start ≤ offset) :
    (⟨line, offset - start⟩ : Position).advance cs =
      ⟨line + (startsFrom offset cs).length,
        offset + byteLength cs - (start :: startsFrom offset cs).getD (startsFrom offset cs).length
          0⟩ := by
  induction cs generalizing offset start line with
  | nil => rfl
  | cons c cs ih =>
    rw [Position.advance, List.foldl_cons, ← Position.advance, Position.step, byteLength_cons,
      startsFrom, ← Nat.add_assoc]
    split
    · have hnext := ih (line + 1) (Nat.le_refl (offset + c.utf8Size))
      rw [Nat.sub_self] at hnext
      rw [hnext, List.length_cons, List.getD_cons_succ, Nat.add_right_comm, Nat.add_assoc line]
    · have hnext := ih line (Nat.le_add_right_of_le (k := c.utf8Size) h)
      rw [Nat.sub_add_comm h] at hnext
      exact hnext

/-- The lines that start at or before an edge of a character are those of the text in front of
it. -/
theorem lineOf_ofText (a b : List Char) :
    (ofText (.ofList (a ++ b))).lineOf (byteLength a) = (startsFrom 0 a).length := by
  have hbefore : (startsFrom 0 a).countP (· ≤ byteLength a) = (startsFrom 0 a).length := by
    refine List.countP_eq_length.2 fun start hstart => ?_
    simpa using le_of_mem_startsFrom hstart
  have hbehind : (startsFrom (byteLength a) b).countP (· ≤ byteLength a) = 0 := by
    refine List.countP_eq_zero.2 fun start hstart => ?_
    simpa using lt_of_mem_startsFrom hstart
  simp [lineOf, ofText, startsFrom_append, hbefore, hbehind]

/-- **The index gives an offset the position that reading up to it gives.** -/
theorem position_ofText (a b : List Char) :
    (ofText (.ofList (a ++ b))).position (byteLength a) = Position.origin.advance a := by
  have hmin : min (byteLength a) (ofText (.ofList (a ++ b))).length = byteLength a := by
    rw [ofText, utf8ByteSize_ofList, byteLength_append]
    exact Nat.min_eq_left (Nat.le_add_right _ _)
  have hline : (startsFrom 0 a).length < (0 :: startsFrom 0 a).length := Nat.lt_succ_self _
  have hadvance : Position.origin.advance a = ⟨(startsFrom 0 a).length,
      byteLength a - (0 :: startsFrom 0 a).getD (startsFrom 0 a).length 0⟩ := by
    simpa [Position.origin] using advance_eq 0 (Nat.le_refl 0)
  have hstart : (ofText (.ofList (a ++ b))).lineStarts.getD (startsFrom 0 a).length 0 =
      (0 :: startsFrom 0 a).getD (startsFrom 0 a).length 0 := by
    rw [ofText, String.toList_ofList, startsFrom_append, ← List.cons_append]
    simpa using List.getD_append _ (startsFrom (0 + byteLength a) b) 0 _ hline
  rw [position, hmin, lineOf_ofText, hstart]
  exact hadvance.symm

/-! ## Where lines start -/

theorem pairwise_startsFrom (offset : Nat) (cs : List Char) :
    (startsFrom offset cs).Pairwise (· < ·) := by
  induction cs generalizing offset with
  | nil => exact .nil
  | cons c cs ih =>
    rw [startsFrom]
    split
    · exact List.pairwise_cons.2 ⟨fun _ => lt_of_mem_startsFrom, ih _⟩
    · exact ih _

theorem pairwise_lineStarts (text : String) :
    (ofText text).lineStarts.toList.Pairwise (· < ·) :=
  List.pairwise_cons.2 ⟨fun _ => lt_of_mem_startsFrom, pairwise_startsFrom 0 _⟩

/-- Among ascending offsets, as many are at or before another one as come before the first that is
behind it. -/
theorem le_iff_lt_countP {starts : List Nat} (h : starts.Pairwise (· < ·)) {i : Nat}
    (hi : starts[i]? = some start) : start ≤ offset ↔ i < starts.countP (· ≤ offset) := by
  induction starts generalizing i with
  | nil => cases hi
  | cons first starts ih =>
    obtain ⟨hbehind, hrest⟩ := List.pairwise_cons.1 h
    by_cases hfirst : first ≤ offset
    · rw [List.countP_cons_of_pos (by simpa using hfirst)]
      cases i with
      | zero =>
        obtain rfl := Option.some.inj hi
        exact iff_of_true hfirst (Nat.succ_pos _)
      | succ i => exact (ih hrest hi).trans Nat.succ_lt_succ_iff.symm
    · have hlt : ∀ start ∈ first :: starts, offset < start := List.forall_mem_cons.2
        ⟨Nat.not_le.1 hfirst, fun start hstart =>
          Nat.lt_trans (Nat.not_le.1 hfirst) (hbehind start hstart)⟩
      have hnone : (first :: starts).countP (· ≤ offset) = 0 :=
        List.countP_eq_zero.2 fun start hstart => by simpa using hlt start hstart
      rw [hnone]
      exact iff_of_false (Nat.not_le.2 (hlt start (List.mem_of_getElem? hi))) (Nat.not_lt_zero i)

theorem length_startsFrom (offset : Nat) (cs : List Char) :
    (startsFrom offset cs).length = cs.count '\n' := by
  induction cs generalizing offset with
  | nil => rfl
  | cons c cs ih =>
    rw [startsFrom]
    split
    · next hc => rw [List.length_cons, ih, hc, List.count_cons_self]
    · next hc => rw [ih, List.count_cons_of_ne hc]

theorem lineCount_ofText (text : String) :
    (ofText text).lineCount = text.toList.count '\n' + 1 := by
  rw [lineCount, ofText, List.size_toArray, List.length_cons, length_startsFrom]

theorem count_newline_le (cs : List Char) : cs.count '\n' ≤ byteLength cs := by
  induction cs with
  | nil => exact Nat.le_refl 0
  | cons c cs ih =>
    have hc := Char.utf8Size_pos c
    rw [List.count_cons, byteLength_cons]
    split <;> omega

/-! ## Looking up any offset -/

variable (text : String) (offset : Nat)

theorem lineStart?_le_iff {i start : Nat} (hstart : (ofText text).lineStart? i = some start) :
    start ≤ offset ↔ i < (ofText text).lineStarts.countP (· ≤ offset) := by
  rw [← Array.countP_toList]
  exact le_iff_lt_countP (pairwise_lineStarts text) (Array.getElem?_toList.trans hstart)

/-- The line of an offset starts at or before it, and the next one does not. -/
theorem exists_lineStart? : ∃ start,
    (ofText text).lineStart? ((ofText text).lineOf offset) = some start ∧ start ≤ offset ∧
      ∀ next, (ofText text).lineStart? ((ofText text).lineOf offset + 1) = some next →
        offset < next := by
  have hzero : (ofText text).lineStart? 0 = some 0 := rfl
  have hfirst : 0 < (ofText text).lineStarts.countP (· ≤ offset) :=
    (lineStart?_le_iff text offset hzero).1 (Nat.zero_le _)
  have hline : (ofText text).lineOf offset < (ofText text).lineStarts.countP (· ≤ offset) :=
    Nat.sub_lt hfirst Nat.one_pos
  have hlast : (ofText text).lineOf offset < (ofText text).lineStarts.size :=
    Nat.lt_of_lt_of_le hline Array.countP_le_size
  refine ⟨_, Array.getElem?_eq_getElem hlast, ?_, fun next hnext => ?_⟩
  · exact (lineStart?_le_iff text offset (Array.getElem?_eq_getElem hlast)).2 hline
  · have := (lineStart?_le_iff text offset hnext).not.2 (by rw [lineOf]; omega)
    omega

/-- The line that is looked up starts as many bytes before the offset as the column says. -/
theorem lineStart?_position (h : offset ≤ text.utf8ByteSize) :
    (ofText text).lineStart? ((ofText text).position offset).line =
        some (offset - ((ofText text).position offset).column) ∧
      ((ofText text).position offset).column ≤ offset := by
  obtain ⟨start, hstart, hle, -⟩ := exists_lineStart? text offset
  have hmin : min offset (ofText text).length = offset := Nat.min_eq_left h
  have hcolumn : ((ofText text).position offset).column = offset - start := by
    rw [position, hmin, Array.getD_eq_getD_getElem?,
      show (ofText text).lineStarts[_]? = _ from hstart]
    rfl
  have hline : ((ofText text).position offset).line = (ofText text).lineOf offset := by
    rw [position, hmin]
  rw [hline, hstart, hcolumn, Nat.sub_sub_self hle]
  exact ⟨rfl, Nat.sub_le _ _⟩

theorem line_position_le : ((ofText text).position offset).line ≤ text.utf8ByteSize := by
  have hsize : (ofText text).lineStarts.countP (· ≤ min offset (ofText text).length) ≤
      (ofText text).lineStarts.size := Array.countP_le_size
  have hlines := lineCount_ofText text
  have hnewlines := count_newline_le text.toList
  rw [← utf8ByteSize_eq_byteLength] at hnewlines
  rw [lineCount] at hlines
  show (ofText text).lineStarts.countP (· ≤ min offset (ofText text).length) - 1 ≤ _
  omega

theorem column_position_le : ((ofText text).position offset).column ≤ text.utf8ByteSize :=
  Nat.le_trans (Nat.sub_le _ _) (Nat.min_le_right _ _)

/-- **Positions are in the order of offsets.** -/
theorem position_ble (index : LineIndex) {offset offset' : Nat} (h : offset ≤ offset') :
    (index.position offset).ble (index.position offset') = true := by
  have hmin : min offset index.length ≤ min offset' index.length := by omega
  have hline : (index.position offset).line ≤ (index.position offset').line := by
    refine Nat.sub_le_sub_right (Array.countP_mono_left fun start _ hstart => ?_) 1
    simp only [decide_eq_true_eq] at hstart ⊢
    omega
  rw [Position.ble, Bool.or_eq_true, Bool.and_eq_true, decide_eq_true_eq, decide_eq_true_eq,
    beq_iff_eq]
  refine (Nat.lt_or_eq_of_le hline).imp_right fun heq => ⟨heq, ?_⟩
  have hsame : index.lineOf (min offset index.length) =
      index.lineOf (min offset' index.length) := heq
  rw [position, position, hsame]
  exact Nat.sub_le_sub_right hmin _

end LineIndex

end AsmTree
