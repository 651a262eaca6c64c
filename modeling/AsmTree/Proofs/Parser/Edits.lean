import AsmTree.Proofs.Parser.Foreign
import AsmTree.Proofs.Text.WordPositions
import AsmTree.Proofs.Tree.Places

/-!
# Computed edits describe the texts

The points of an edit are found by moving over the parts of the old text and over the replacement;
the text that results is never looked at. **Main statement (`replace_fits`):** they are nevertheless
what looking up in the two texts gives, and with a tree of the old text the edit passes its check
for the new text and for those texts only that are as long.
-/

namespace AsmTree

/-! ## Moving over a part of a text -/

namespace WordPosition

variable {width : Nat} {a b : List Char}

theorem uaddOverflow_ofNat {x : BitVec width} {n : Nat} (h : x.toNat + n < 2 ^ width) :
    x.uaddOverflow (.ofNat width n) = false := by
  simp [BitVec.uaddOverflow, Nat.mod_eq_of_lt (Nat.lt_of_le_of_lt (Nat.le_add_left n _) h), h]

theorem line_advance_origin_le (a : List Char) :
    ((origin : WordPosition width).advance a).line.toNat ≤ byteLength a := by
  rw [line_advance, origin, BitVec.ofNat_eq_ofNat, BitVec.zero_add, BitVec.toNat_ofNat]
  exact (Nat.mod_le _ _).trans (LineIndex.count_newline_le a)

theorem column_advance_origin_le (a : List Char) :
    ((origin : WordPosition width).advance a).column.toNat ≤ byteLength a := by
  cases hlast : lastNewline? a with
  | some last =>
    rw [advance_of_some _ hlast, BitVec.toNat_ofNat]
    exact (Nat.mod_le _ _).trans ((Nat.sub_le _ _).trans (Nat.sub_le _ _))
  | none =>
    rw [advance_of_none _ hlast, origin, BitVec.ofNat_eq_ofNat, BitVec.zero_add, BitVec.toNat_ofNat]
    exact Nat.mod_le _ _

theorem overflows_advance_origin (h : byteLength (a ++ b) < 2 ^ width) :
    ((origin : WordPosition width).advance a).overflows b = false := by
  have hline := @line_advance_origin_le width a
  have hcolumn := @column_advance_origin_le width a
  have hcount := LineIndex.count_newline_le b
  rw [byteLength_append] at h
  rw [overflows]
  split
  · exact uaddOverflow_ofNat (by omega)
  · exact uaddOverflow_ofNat (by omega)

/-- The position after a run of characters, unless a sum on the way does not fit in a word. -/
def advance? (p : WordPosition width) (cs : List Char) : Option (WordPosition width) :=
  if p.overflows cs then none else some (p.advance cs)

end WordPosition

namespace LineIndex

variable {text : String} {a b : List Char}

theorem position_of_append (h : text.toList = a ++ b) :
    (ofText text).position (byteLength a) = Position.origin.advance a := by
  rw [← position_ofText a b, ← h, String.ofList_toList]

theorem lineCol_of_append (h : text.toList = a ++ b) (hshort : text.utf8ByteSize < 2 ^ 32) :
    (ofText text).lineCol (byteLength a) = WordPosition.origin.advance a := by
  rw [utf8ByteSize_eq_byteLength, h, byteLength_append] at hshort
  rw [lineCol, position_of_append h, ← WordPosition.toPosition_advance_origin
    (Nat.lt_of_le_of_lt (Nat.le_add_right _ _) hshort), WordPosition.toWords_toPosition]

end LineIndex

theorem TextRange.slice?_of_append {text : String} {a b c : List Char}
    (h : text.toList = a ++ b ++ c) :
    slice? ⟨byteLength a, byteLength (a ++ b)⟩ text = some (.ofList b) := by
  simp [slice?, h, splitBytes?_byteLength]

/-! ## What a computed edit says -/

theorem SyntaxTree.utf8ByteSize_text (tree : SyntaxTree) :
    tree.text.utf8ByteSize = tree.length := by
  have hjoin (leaves : List Leaf) :
      (String.join (leaves.map Leaf.text)).utf8ByteSize = Leaf.lengthAll leaves := by
    induction leaves with
    | nil => rfl
    | cons l leaves ih =>
      rw [List.map_cons, String.join_cons, String.utf8ByteSize_append, ih]
      rfl
  rw [text, Tree.text, hjoin, Tree.lengthAll_leaves, length]

namespace InputEdit

variable {e : InputEdit} {text text' : String} {range : TextRange}

/-- An edit replaces a range of a text, and its length and its points are those of the text before
and of the text after it. -/
structure Describes (e : InputEdit) (range : TextRange) (text text' : String) : Prop where
  start : e.start = range.start
  oldEnd : e.oldEnd = range.stop
  delta : e.delta = (text'.utf8ByteSize : Int) - text.utf8ByteSize
  oldStartPoint : e.startPoint = (LineIndex.ofText text).position e.start
  oldEndPoint : e.oldEndPoint = (LineIndex.ofText text).position e.oldEnd
  newStartPoint : e.startPoint = (LineIndex.ofText text').position e.start
  newEndPoint : e.newEndPoint = (LineIndex.ofText text').position e.newEnd

/-- The points of the edit that replaces a range, moved to in words of 32 bits: start, old end and
new end. -/
def wordPoints? (oldText : String) (range : TextRange) (replacement : String) :
    Option (LineCol × LineCol × LineCol) := do
  let before := (TextRange.slice? ⟨0, range.start⟩ oldText).getD ""
  let removed := (range.slice? oldText).getD ""
  let start ← WordPosition.origin.advance? before.toList
  return (start, ← start.advance? removed.toList, ← start.advance? replacement.toList)

/-- With a tree an edit passes the check of its grammar and its recovery for the texts of one
length only. For all others that length is what the error expects. -/
def Fits (e : InputEdit) (old : SyntaxTree) (length : Nat) : Prop :=
  ∀ (table : ParseTable) (options : ParseOptions) (text : String),
    old.grammarVersion = table.grammarVersion → old.recoveryLimit = options.recoveryLimit →
      e.fault? old text table options =
        if text.utf8ByteSize = length then none
        else some (.lengthMismatch text.utf8ByteSize length)

/-- What a range names is what stands between the parts around it. -/
theorem replace_eq (h : (range.slice? text).isSome) (inserted : String) :
    ∃ before removed behind, text.toList = before ++ removed ++ behind ∧
      (range.replace text inserted).toList = before ++ inserted.toList ++ behind ∧
      byteLength before = range.start ∧ byteLength (before ++ removed) = range.stop ∧
      TextRange.slice? ⟨0, range.start⟩ text = some (.ofList before) ∧
      range.slice? text = some (.ofList removed) := by
  obtain ⟨before, removed, behind, hedit⟩ := replaces_of_slice? h inserted
  have hstart : range.start = byteLength before := hedit.start
  have hstop : range.stop = byteLength (before ++ removed) := hedit.oldEnd
  have hbefore : text.toList = [] ++ before ++ (removed ++ behind) := by
    rw [hedit.old, List.nil_append, List.append_assoc]
  refine ⟨before, removed, behind, hedit.old, hedit.new, hstart.symm, hstop.symm, ?_, ?_⟩
  · rw [hstart]
    exact TextRange.slice?_of_append hbefore
  · rw [show range = ⟨range.start, range.stop⟩ from rfl, hstart, hstop]
    exact TextRange.slice?_of_append hedit.old

theorem describes_replace (h : (range.slice? text).isSome) (inserted : String) :
    (replace text range inserted).Describes range text (range.replace text inserted) := by
  obtain ⟨before, removed, behind, hold, hnew, hstart, hstop, hbefore, hremoved⟩ :=
    replace_eq h inserted
  have hpoint : (replace text range inserted).startPoint = Position.origin.advance before := by
    simp [replace, hbefore]
  have holdPoint : (replace text range inserted).oldEndPoint =
      Position.origin.advance (before ++ removed) := by
    simp [replace, hbefore, hremoved, Position.advance_append]
  have hnewPoint : (replace text range inserted).newEndPoint =
      Position.origin.advance (before ++ inserted.toList) := by
    simp [replace, hbefore, Position.advance_append]
  have hnewEnd : (replace text range inserted).newEnd =
      byteLength (before ++ inserted.toList) := by
    rw [byteLength_append, hstart, ← utf8ByteSize_eq_byteLength]
    rfl
  have holdEnd : (replace text range inserted).oldEnd = byteLength (before ++ removed) := hstop.symm
  have hstart' : (replace text range inserted).start = byteLength before := hstart.symm
  refine ⟨rfl, rfl, ?_, ?_, ?_, ?_, ?_⟩
  · rw [delta, hnewEnd, holdEnd, utf8ByteSize_eq_byteLength, utf8ByteSize_eq_byteLength, hold, hnew]
    simp only [byteLength_append]
    omega
  · rw [hpoint, hstart', LineIndex.position_of_append (hold.trans (List.append_assoc _ _ _))]
  · rw [holdPoint, holdEnd, LineIndex.position_of_append hold]
  · rw [hpoint, hstart', LineIndex.position_of_append (hnew.trans (List.append_assoc _ _ _))]
  · rw [hnewPoint, hnewEnd, LineIndex.position_of_append hnew]

/-- For short texts no sum on the way to a point overflows. -/
theorem wordPoints?_eq (h : (range.slice? text).isSome) (inserted : String)
    (hshort : text.utf8ByteSize < 2 ^ 32)
    (hshort' : (range.replace text inserted).utf8ByteSize < 2 ^ 32) :
    let e := replace text range inserted
    let old := LineIndex.ofText text
    let new := LineIndex.ofText (range.replace text inserted)
    wordPoints? text range inserted =
      some (old.lineCol e.start, old.lineCol e.oldEnd, new.lineCol e.newEnd) ∧
    new.lineCol e.start = old.lineCol e.start := by
  intro e old new
  obtain ⟨before, removed, behind, hold, hnew, hstart, hstop, hbefore, hremoved⟩ :=
    replace_eq h inserted
  have holdShort := hshort
  have hnewShort := hshort'
  rw [utf8ByteSize_eq_byteLength, hold, byteLength_append] at holdShort
  rw [utf8ByteSize_eq_byteLength, hnew, byteLength_append] at hnewShort
  have hbeforeShort : byteLength before < 2 ^ 32 := by
    rw [byteLength_append] at holdShort
    omega
  have hnewEnd : e.newEnd = byteLength (before ++ inserted.toList) := by
    rw [byteLength_append, hstart, ← utf8ByteSize_eq_byteLength]
    rfl
  have hpoint : old.lineCol e.start = WordPosition.origin.advance before := by
    rw [show e.start = byteLength before from hstart.symm]
    exact LineIndex.lineCol_of_append (hold.trans (List.append_assoc _ _ _)) hshort
  have hpoint' : new.lineCol e.start = WordPosition.origin.advance before := by
    rw [show e.start = byteLength before from hstart.symm]
    exact LineIndex.lineCol_of_append (hnew.trans (List.append_assoc _ _ _)) hshort'
  have holdPoint : old.lineCol e.oldEnd = (WordPosition.origin.advance before).advance removed := by
    rw [show e.oldEnd = byteLength (before ++ removed) from hstop.symm,
      ← WordPosition.advance_append]
    exact LineIndex.lineCol_of_append hold hshort
  have hnewPoint : new.lineCol e.newEnd =
      (WordPosition.origin.advance before).advance inserted.toList := by
    rw [hnewEnd, ← WordPosition.advance_append]
    exact LineIndex.lineCol_of_append hnew hshort'
  refine ⟨?_, hpoint'.trans hpoint.symm⟩
  rw [hpoint, holdPoint, hnewPoint]
  simp [wordPoints?, WordPosition.advance?, hbefore, hremoved,
    WordPosition.overflows_origin hbeforeShort,
    WordPosition.overflows_advance_origin (show byteLength (before ++ removed) < 2 ^ 32 by omega),
    WordPosition.overflows_advance_origin
      (show byteLength (before ++ inserted.toList) < 2 ^ 32 by omega)]

/-- **An edit that describes two texts fits every tree of the first.** -/
theorem Describes.fits (h : e.Describes range text text') (hrange : range.start ≤ range.stop)
    (hstop : range.stop ≤ text.utf8ByteSize) (hnewEnd : e.start ≤ e.newEnd)
    (hshort : text'.utf8ByteSize < 2 ^ 32) {old : SyntaxTree} (hold : old.text = text) :
    e.Fits old text'.utf8ByteSize := by
  intro table options other hversion hlimit
  have hlength : old.length = text.utf8ByteSize := by rw [← hold, old.utf8ByteSize_text]
  have hexpected : e.expectedLength old.length = text'.utf8ByteSize := by
    have hshift : shiftOffset e.delta old.length = text'.utf8ByteSize := by
      rw [shiftOffset, h.delta, hlength]
      omega
    rw [expectedLength, hshift]
    exact Nat.mod_eq_of_lt hshort
  have hin : ¬(e.oldEnd < e.start ∨ old.length < e.oldEnd) := by
    rw [h.start, h.oldEnd, hlength]
    omega
  rw [fault?, if_neg (not_not.2 hversion), if_neg (not_not.2 hlimit), if_neg (by simpa using hin),
    if_neg (Nat.not_lt.2 hnewEnd), hexpected]
  simp only [ne_eq, ite_not]

end InputEdit

namespace Parser

variable {g : Grammar} {t : ParseTable} {w : Nat → Nat} {text : String} {tree : SyntaxTree}

theorem Makes.text_eq (hshipped : Assembly.Shipped g t w) (h : Makes t text tree) :
    tree.text = text := by
  have hjoin := Lexer.join_tokens (.ofText text)
  rw [show (Lexer.ofText text).rest = text.toList from rfl, String.ofList_toList] at hjoin
  rw [SyntaxTree.text, Tree.text, h.leaves hshipped, List.map_map]
  exact hjoin

/-- **A computed edit describes the text before and the text after it, and fits every tree of the
text before.** Its points are those that looking up gives in the one and in the other text, and
moving to them in words of 32 bits overflows for no texts whose lengths fit. With a tree of the old
text of the same grammar version and recovery limit the edit is accepted for the new text, if its
length fits too, and every text of another length is rejected. The assembly language has such trees
for all options. -/
theorem replace_fits (text : String) (range : TextRange) (inserted : String)
    (h : (range.slice? text).isSome) :
    let e := InputEdit.replace text range inserted
    let text' := range.replace text inserted
    e.Describes range text text' ∧
    (text.utf8ByteSize < 2 ^ 32 → text'.utf8ByteSize < 2 ^ 32 →
      let old := LineIndex.ofText text
      let new := LineIndex.ofText text'
      InputEdit.wordPoints? text range inserted =
        some (old.lineCol e.start, old.lineCol e.oldEnd, new.lineCol e.newEnd) ∧
      new.lineCol e.start = old.lineCol e.start) ∧
    (text'.utf8ByteSize < 2 ^ 32 →
      ∀ old : SyntaxTree, old.text = text → e.Fits old text'.utf8ByteSize) ∧
    ∃ t, Assembly.table = .ok t ∧
      (∀ options, ∃ old, parse ⟨t, options⟩ text none = .ok old ∧
        old.recoveryLimit = options.recoveryLimit) ∧
      ∀ old, Makes t text old → old.text = text ∧ old.grammarVersion = t.grammarVersion := by
  intro e text'
  obtain ⟨g, t, w, hshipped⟩ := Assembly.exists_shipped
  have hdescribes := InputEdit.describes_replace h inserted
  refine ⟨hdescribes, InputEdit.wordPoints?_eq h inserted, fun hshort old hold => ?_, t,
    hshipped.table, fun options => ?_,
    fun old hmakes => ⟨hmakes.text_eq hshipped, hmakes.grammarVersion⟩⟩
  · obtain ⟨before, removed, behind, htext, -, hstart, hstop, -, -⟩ :=
      InputEdit.replace_eq h inserted
    refine hdescribes.fits ?_ ?_ (Nat.le_add_right _ _) hshort hold
    · rw [← hstart, ← hstop, byteLength_append]
      exact Nat.le_add_right _ _
    · rw [← hstop, utf8ByteSize_eq_byteLength, htext, byteLength_append _ behind]
      exact Nat.le_add_right _ _
  · obtain ⟨out, hrun⟩ := exists_run (p := ⟨t, options⟩) hshipped text
    exact ⟨_, parse_of_run hrun, rfl⟩

/-- A deletion that joins the first of three lines and the last. -/
theorem replace_fits_lines : ∃ old : SyntaxTree, old.text = "nop\nld a, b\nhalt\n" ∧
    (⟨2, 13⟩ : TextRange).replace old.text "" = "noalt\n" ∧
    (InputEdit.delete old.text ⟨2, 13⟩).oldEndPoint = ⟨2, 1⟩ ∧
    (InputEdit.delete old.text ⟨2, 13⟩).newEndPoint = ⟨0, 2⟩ ∧
    (InputEdit.delete old.text ⟨2, 13⟩).Fits old 6 := by
  have hedit := replace_fits "nop\nld a, b\nhalt\n" ⟨2, 13⟩ "" (by decide)
  obtain ⟨hdescribes, -, hfits, t, -, hparse, hmakes⟩ := hedit
  obtain ⟨old, hold, -⟩ := hparse {}
  obtain ⟨htext, -⟩ := hmakes old (.scratch hold)
  refine ⟨old, htext, ?_, ?_, ?_, ?_⟩
  · rw [htext]
    decide
  · rw [htext, InputEdit.delete, hdescribes.oldEndPoint]
    decide
  · rw [htext, InputEdit.delete, hdescribes.newEndPoint]
    decide
  · rw [htext]
    exact hfits (by decide) old htext

end Parser

end AsmTree
