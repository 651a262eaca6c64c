import AsmTree.Proofs.Text.WordPositions

/-!
# From offsets to positions and back

A position is in a text if its column is on its line, at the end of the line at most.

**Main statement (`offset?_position`):** looking up the position of an offset and looking up the
offset of a position are inverse to each other between the offsets and the positions of a text. But
an offset is found for more positions than these: only the end of the text bounds a column, not the
end of its line. Such an offset belongs to a position on a later line, if the sum that makes it does
not start over at zero.
-/

namespace AsmTree

/-- The position is in the text: its line is one of the text, and its column is on the line or at
the end of it. -/
def Position.IsIn (p : Position) (text : String) : Prop :=
  ∃ line, (text.toList.splitOn '\n')[p.line]? = some line ∧ p.column ≤ byteLength line

namespace LineIndex

/-- The sum of a column and the start of its line fits in thirty-two bits, if there is the line. -/
def SumFits (index : LineIndex) (p : Position) : Prop :=
  ∀ start, index.lineStart? p.line = some start → start + p.column < 2 ^ 32

/-! ## Lines and where they start -/

variable {cs line : List Char} {text : String} {i offset start next : Nat} {p : Position}

theorem length_splitOn (offset : Nat) (cs : List Char) :
    (cs.splitOn '\n').length = (offset :: startsFrom offset cs).length := by
  induction cs generalizing offset with
  | nil => rfl
  | cons c cs ih =>
    have hrest := ih (offset + c.utf8Size)
    rw [List.splitOn] at hrest ⊢
    rw [List.splitOnP_cons_eq_if_modifyHead, startsFrom]
    by_cases hc : c = '\n'
    · simp [hc, hrest]
    · simp [hc, hrest]

/-- A line ends in front of the newline that the next one starts behind, or with the text. -/
theorem start_add_byteLength (hstart : (offset :: startsFrom offset cs)[i]? = some start)
    (hline : (cs.splitOn '\n')[i]? = some line) :
    start + byteLength line + 1 =
      ((startsFrom offset cs)[i]?).getD (offset + byteLength cs + 1) := by
  induction cs generalizing offset i start line with
  | nil =>
    cases i with
    | zero =>
      cases hstart
      cases hline
      rfl
    | succ i => cases hstart
  | cons c cs ih =>
    rw [List.splitOn, List.splitOnP_cons_eq_if_modifyHead] at hline
    rw [startsFrom] at hstart ⊢
    rw [byteLength_cons, ← Nat.add_assoc]
    by_cases hc : c = '\n'
    · have hsize : c.utf8Size = 1 := by rw [hc]; rfl
      simp only [hc, beq_self_eq_true, if_true] at hstart hline ⊢
      rw [← hc, hsize] at hstart ⊢
      cases i with
      | zero =>
        cases hstart
        cases hline
        rfl
      | succ i => exact ih hstart hline
    · simp only [beq_iff_eq, hc, if_false] at hstart hline ⊢
      cases i with
      | zero =>
        -- the line goes on with the first line of the rest
        cases hstart
        cases hrest : cs.splitOn '\n' with
        | nil => exact absurd hrest (List.splitOnP_ne_nil _ cs)
        | cons first lines =>
          rw [show List.splitOnP _ cs = _ from hrest] at hline
          obtain rfl : c :: first = line := Option.some.inj hline
          have hfirst := ih (i := 0) (rfl : _ = some (offset + c.utf8Size)) (by rw [hrest]; rfl)
          rw [byteLength_cons, ← Nat.add_assoc]
          exact hfirst
      | succ i =>
        refine ih (i := i + 1) hstart ?_
        rw [List.getElem?_modifyHead] at hline
        exact hline

theorem lineStart?_eq : (ofText text).lineStart? i = (0 :: startsFrom 0 text.toList)[i]? :=
  List.getElem?_toArray

theorem stop_of_next (hstart : (ofText text).lineStart? i = some start)
    (hline : (text.toList.splitOn '\n')[i]? = some line)
    (hnext : (ofText text).lineStart? (i + 1) = some next) : start + byteLength line + 1 = next := by
  rw [lineStart?_eq] at hstart hnext
  rw [start_add_byteLength hstart hline]
  rw [List.getElem?_cons_succ] at hnext
  rw [hnext, Option.getD_some]

theorem stop_of_last (hstart : (ofText text).lineStart? i = some start)
    (hline : (text.toList.splitOn '\n')[i]? = some line)
    (hlast : (ofText text).lineStart? (i + 1) = none) :
    start + byteLength line = text.utf8ByteSize := by
  rw [lineStart?_eq] at hstart hlast
  have hstop := start_add_byteLength hstart hline
  rw [List.getElem?_cons_succ] at hlast
  rw [hlast, Option.getD_none, Nat.zero_add, ← utf8ByteSize_eq_byteLength] at hstop
  exact Nat.succ.inj hstop

theorem lineStart?_le (hstart : (ofText text).lineStart? i = some start) :
    start ≤ text.utf8ByteSize := by
  rw [lineStart?_eq] at hstart
  rcases List.mem_cons.1 (List.mem_of_getElem? hstart) with rfl | hmem
  · exact Nat.zero_le _
  · have hle := le_of_mem_startsFrom hmem
    rwa [Nat.zero_add, ← utf8ByteSize_eq_byteLength] at hle

theorem start_add_byteLength_le (hstart : (ofText text).lineStart? i = some start)
    (hline : (text.toList.splitOn '\n')[i]? = some line) :
    start + byteLength line ≤ text.utf8ByteSize := by
  cases hnext : (ofText text).lineStart? (i + 1) with
  | none => exact Nat.le_of_eq (stop_of_last hstart hline hnext)
  | some next =>
    have hstop := stop_of_next hstart hline hnext
    have hle := lineStart?_le hnext
    omega

theorem exists_line_iff : (∃ line, (text.toList.splitOn '\n')[i]? = some line) ↔
    ∃ start, (ofText text).lineStart? i = some start := by
  rw [← Option.isSome_iff_exists, ← Option.isSome_iff_exists, lineStart?_eq]
  simp [length_splitOn 0]

/-! ## Looking up -/

theorem offset?_eq_some : (ofText text).offset? p = some offset ↔
    ∃ start, (ofText text).lineStart? p.line = some start ∧
      (start + p.column) % 4294967296 = offset ∧ offset ≤ text.utf8ByteSize := by
  have hlength : (ofText text).length = text.utf8ByteSize := rfl
  simp only [offset?, hlength, Option.bind_eq_bind, Option.bind_eq_some_iff,
    Option.ite_none_right_eq_some, Option.some.injEq]
  refine exists_congr fun start => and_congr_right fun _ => ?_
  constructor
  · rintro ⟨hle, rfl⟩
    exact ⟨rfl, hle⟩
  · rintro ⟨rfl, hle⟩
    exact ⟨hle, rfl⟩

theorem offset?_eq_some_of_sumFits (hfits : (ofText text).SumFits p) :
    (ofText text).offset? p = some offset ↔
      ∃ start, (ofText text).lineStart? p.line = some start ∧ start + p.column = offset ∧
        offset ≤ text.utf8ByteSize := by
  rw [offset?_eq_some]
  refine exists_congr fun start => and_congr_right fun hstart => ?_
  have hsum : (start + p.column) % 4294967296 = start + p.column :=
    Nat.mod_eq_of_lt (hfits start hstart)
  rw [hsum]

theorem sumFits_of_isIn (hshort : text.utf8ByteSize < 2 ^ 32) (h : p.IsIn text) :
    (ofText text).SumFits p := by
  intro start hstart
  obtain ⟨line, hline, hcolumn⟩ := h
  calc start + p.column ≤ start + byteLength line := Nat.add_le_add_left hcolumn start
    _ ≤ text.utf8ByteSize := start_add_byteLength_le hstart hline
    _ < 2 ^ 32 := hshort

theorem le_lineOf (hstart : (ofText text).lineStart? i = some start) (hle : start ≤ offset) :
    i ≤ (ofText text).lineOf offset :=
  Nat.le_sub_one_of_lt ((lineStart?_le_iff text offset hstart).1 hle)

/-- The line of an offset is the one that starts at or before it, if the next one does not. -/
theorem lineOf_eq (hstart : (ofText text).lineStart? i = some start) (hle : start ≤ offset)
    (hnext : ∀ next, (ofText text).lineStart? (i + 1) = some next → offset < next) :
    (ofText text).lineOf offset = i := by
  refine Nat.le_antisymm (Nat.le_of_not_lt fun hlt => ?_) (le_lineOf hstart hle)
  -- a later line starts at or before the offset, and then the next one does so too
  have hcount : i + 1 < (ofText text).lineStarts.countP (· ≤ offset) := by
    rw [lineOf] at hlt
    omega
  have hsize : i + 1 < (ofText text).lineStarts.size :=
    Nat.lt_of_lt_of_le hcount Array.countP_le_size
  have hstart' : (ofText text).lineStart? (i + 1) = some (ofText text).lineStarts[i + 1] :=
    Array.getElem?_eq_getElem hsize
  exact Nat.not_le.2 (hnext _ hstart') ((lineStart?_le_iff text offset hstart').2 hcount)

theorem position_eq (hoffset : offset ≤ text.utf8ByteSize)
    (hstart : (ofText text).lineStart? i = some start) (hle : start ≤ offset)
    (hnext : ∀ next, (ofText text).lineStart? (i + 1) = some next → offset < next) :
    (ofText text).position offset = ⟨i, offset - start⟩ := by
  have hmin : min offset (ofText text).length = offset := Nat.min_eq_left hoffset
  rw [position, hmin, lineOf_eq hstart hle hnext, Array.getD_eq_getD_getElem?,
    show (ofText text).lineStarts[i]? = some start from hstart, Option.getD_some]

/-- **The offset of the position of an offset is the offset.** -/
theorem offset?_position_of_le (hoffset : offset ≤ text.utf8ByteSize) (hword : offset < 2 ^ 32) :
    (ofText text).offset? ((ofText text).position offset) = some offset := by
  obtain ⟨hstart, hcolumn⟩ := lineStart?_position text offset hoffset
  refine offset?_eq_some.2 ⟨_, hstart, ?_, hoffset⟩
  rw [Nat.sub_add_cancel hcolumn]
  exact Nat.mod_eq_of_lt hword

/-- The position of an offset is in the text. -/
theorem isIn_position (hoffset : offset ≤ text.utf8ByteSize) :
    ((ofText text).position offset).IsIn text := by
  obtain ⟨start, hstart, hle, hnext⟩ := exists_lineStart? text offset
  obtain ⟨line, hline⟩ := exists_line_iff.2 ⟨start, hstart⟩
  rw [position_eq hoffset hstart hle hnext]
  refine ⟨line, hline, ?_⟩
  dsimp only
  cases hlast : (ofText text).lineStart? ((ofText text).lineOf offset + 1) with
  | none =>
    have hstop := stop_of_last hstart hline hlast
    omega
  | some next =>
    have hstop := stop_of_next hstart hline hlast
    have hbefore := hnext next hlast
    omega

theorem position_start_add (h : p.IsIn text)
    (hstart : (ofText text).lineStart? p.line = some start) :
    start + p.column ≤ text.utf8ByteSize ∧ (ofText text).position (start + p.column) = p := by
  obtain ⟨line, hline, hcolumn⟩ := h
  have hle : start + p.column ≤ text.utf8ByteSize :=
    Nat.le_trans (Nat.add_le_add_left hcolumn start) (start_add_byteLength_le hstart hline)
  refine ⟨hle, ?_⟩
  rw [position_eq hle hstart (Nat.le_add_right _ _), Nat.add_sub_cancel_left]
  intro next hnext
  have hstop := stop_of_next hstart hline hnext
  omega

theorem exists_lineStart?_of_isIn (h : p.IsIn text) :
    ∃ start, (ofText text).lineStart? p.line = some start := by
  obtain ⟨line, hline, -⟩ := h
  exact exists_line_iff.1 ⟨line, hline⟩

theorem exists_offset?_of_isIn (h : p.IsIn text) :
    ∃ offset, (ofText text).offset? p = some offset := by
  obtain ⟨start, hstart⟩ := exists_lineStart?_of_isIn h
  have hle := (position_start_add h hstart).1
  exact ⟨_, offset?_eq_some.2 ⟨start, hstart, rfl, Nat.le_trans (Nat.mod_le _ _) hle⟩⟩

/-- **The position of the offset of a position is the position**, if that is in the text. -/
theorem position_of_isIn (hfits : (ofText text).SumFits p) (h : p.IsIn text)
    (hoffset : (ofText text).offset? p = some offset) : (ofText text).position offset = p := by
  obtain ⟨start, hstart, rfl, -⟩ := (offset?_eq_some_of_sumFits hfits).1 hoffset
  exact (position_start_add h hstart).2

/-- A column behind its line is taken for one of a later line. -/
theorem line_lt_of_not_isIn (hfits : (ofText text).SumFits p) (h : ¬p.IsIn text)
    (hoffset : (ofText text).offset? p = some offset) :
    p.line < ((ofText text).position offset).line := by
  obtain ⟨start, hstart, rfl, hle⟩ := (offset?_eq_some_of_sumFits hfits).1 hoffset
  have hmin : min (start + p.column) (ofText text).length = start + p.column := Nat.min_eq_left hle
  have hline : ((ofText text).position (start + p.column)).line =
      (ofText text).lineOf (start + p.column) := by rw [position, hmin]
  have hge := le_lineOf hstart (Nat.le_add_right start p.column)
  refine Nat.lt_of_le_of_ne (hline ▸ hge) fun heq => h ?_
  -- on the line itself it would be the position that is looked up
  have hsame : (ofText text).position (start + p.column) = p := by
    obtain ⟨first, hfirst, hfirstLe, hnext⟩ := exists_lineStart? text (start + p.column)
    rw [← hline, ← heq] at hfirst hnext
    rw [position_eq hle hstart (Nat.le_add_right _ _) hnext, Nat.add_sub_cancel_left]
  rw [← hsame]
  exact isIn_position hle

/-- **Offsets and positions of a text are looked up without loss.** Every offset up to the length of
the text, a word of 32 bits, is found again from its position, and every position in the text from
its offset. These positions are those of offsets. For a position that is not in the text an offset
is found all the same, if the line exists but is too short for the column, and the text is not; the
position of that offset is on a later line. The sum of the column and the start of the line has to
fit in 32 bits. For a text whose length does so the words say the same. -/
theorem offset?_position (text : String) :
    let index := ofText text
    (∀ offset ≤ text.utf8ByteSize, offset < 2 ^ 32 →
      index.offset? (index.position offset) = some offset) ∧
    (∀ p offset, index.SumFits p → index.offset? p = some offset →
      (index.position offset = p ↔ p.IsIn text) ∧
      (¬p.IsIn text → p.line < (index.position offset).line)) ∧
    (∀ p : Position, p.IsIn text → ∃ offset, index.offset? p = some offset) ∧
    (∀ p : Position, p.IsIn text ↔ ∃ offset ≤ text.utf8ByteSize, index.position offset = p) ∧
    (text.utf8ByteSize < 2 ^ 32 →
      (∀ offset ≤ text.utf8ByteSize,
        index.offset? (index.lineCol offset).toPosition = some offset) ∧
      ∀ (p : LineCol) offset, index.offset? p.toPosition = some offset →
        (index.lineCol offset = p ↔ p.toPosition.IsIn text)) := by
  intro index
  have hle {p : Position} {offset : Nat} (h : index.offset? p = some offset) :
      offset ≤ text.utf8ByteSize := by
    obtain ⟨-, -, -, hle⟩ := offset?_eq_some.1 h
    exact hle
  have hback {p : Position} {offset : Nat} (hfits : p.IsIn text → index.SumFits p)
      (h : index.offset? p = some offset) : index.position offset = p ↔ p.IsIn text :=
    ⟨fun hp => hp ▸ isIn_position (hle h), fun hp => position_of_isIn (hfits hp) hp h⟩
  refine ⟨fun _ h hword => offset?_position_of_le h hword,
    fun p offset hfits h => ⟨hback (fun _ => hfits) h, fun hp => line_lt_of_not_isIn hfits hp h⟩,
    fun p hp => exists_offset?_of_isIn hp, fun p => ⟨fun hp => ?_, ?_⟩,
    fun hshort => ⟨fun offset h => ?_, fun p offset h => ?_⟩⟩
  · obtain ⟨start, hstart⟩ := exists_lineStart?_of_isIn hp
    exact ⟨_, position_start_add hp hstart⟩
  · rintro ⟨offset, h, rfl⟩
    exact isIn_position h
  · rw [toPosition_lineCol hshort]
    exact offset?_position_of_le h (Nat.lt_of_le_of_lt h hshort)
  · rw [← hback (sumFits_of_isIn hshort) h, ← toPosition_lineCol hshort]
    constructor
    · intro hp
      rw [hp]
    · intro hp
      rw [← WordPosition.toWords_toPosition p, ← hp, WordPosition.toWords_toPosition]

/-- The first of two lines is too short for the column, and the offset is that of the second. -/
theorem not_position_offset? : ¬∀ (text : String) (p : Position) (offset : Nat),
    (ofText text).offset? p = some offset → (ofText text).position offset = p := by
  intro h
  have hline := h "a\nb" ⟨0, 2⟩ 2 (by decide)
  exact absurd hline (by decide)

end LineIndex

end AsmTree
