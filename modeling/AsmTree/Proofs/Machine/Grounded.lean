import AsmTree.Proofs.Machine.LineEnds

/-!
# Ends of lines among the trees of the root

What a machine makes of complete lines becomes a row of children of the root. An end of a line that
is recorded lies between two trees of that row. **Main statements:** every move leaves it there
(`Grounded.push`, `Grounded.resume`, `grounded_reduce`), and it is there when it is recorded
(`grounded_of_atLineEnd`).
-/

namespace AsmTree

open AsmTree.Tree

/-! ## Ends of lines in a row of trees -/

/-- At an offset, counted from the first of some trees, a line ends between them. The last tree
comes first. -/
def LineEndAt (backward : List Tree) (offset : Nat) : Prop :=
  ∃ later earlier, backward = later ++ earlier ∧ EndsLine earlier ∧ lengthAll earlier = offset

theorem EndsLine.length_pos {backward : List Tree} (h : EndsLine backward) :
    0 < lengthAll backward := by
  obtain ⟨text, rest, rfl, hpos⟩ := h
  rw [lengthAll_cons, Tree.length]
  omega

theorem EndsLine.of_append {a b : List Tree} (h : EndsLine (a ++ b)) (hne : a ≠ []) :
    EndsLine a := by
  obtain ⟨text, rest, heq, hpos⟩ := h
  obtain ⟨t, ts, rfl⟩ := List.exists_cons_of_ne_nil hne
  obtain ⟨rfl, -⟩ := List.cons.inj heq
  exact ⟨text, ts, rfl, hpos⟩

theorem EndsLine.lineEndAt {backward : List Tree} (h : EndsLine backward) :
    LineEndAt backward (lengthAll backward) :=
  ⟨[], backward, rfl, h, rfl⟩

namespace LineEndAt

variable {backward later earlier : List Tree} {offset : Nat}

theorem append (h : LineEndAt backward offset) (later : List Tree) :
    LineEndAt (later ++ backward) offset := by
  obtain ⟨x, earlier, rfl, hends, hlength⟩ := h
  exact ⟨later ++ x, earlier, (List.append_assoc ..).symm, hends, hlength⟩

theorem pos (h : LineEndAt backward offset) : 0 < offset := by
  obtain ⟨-, earlier, -, hends, rfl⟩ := h
  exact hends.length_pos

theorem le_length (h : LineEndAt backward offset) : offset ≤ lengthAll backward := by
  obtain ⟨later, earlier, rfl, -, rfl⟩ := h
  rw [lengthAll_append]
  exact Nat.le_add_left _ _

theorem within (h : LineEndAt (later ++ earlier) offset) (hle : offset ≤ lengthAll earlier) :
    LineEndAt earlier offset := by
  obtain ⟨x, y, heq, hends, rfl⟩ := h
  rcases List.append_eq_append_iff.1 heq with ⟨between, -, rfl⟩ | ⟨between, -, rfl⟩
  · exact ⟨between, y, rfl, hends, rfl⟩
  · -- nothing lies between, since the end of a line is not empty
    cases between with
    | nil => exact hends.lineEndAt
    | cons t ts =>
      have hpos := (hends.of_append (List.cons_ne_nil t ts)).length_pos
      rw [lengthAll_append] at hle
      omega

/-- What comes earlier can be replaced. -/
theorem replace (h : LineEndAt (later ++ earlier) offset) (hlt : lengthAll earlier < offset)
    (others : List Tree) :
    LineEndAt (later ++ others) (offset - lengthAll earlier + lengthAll others) := by
  obtain ⟨x, y, heq, hends, rfl⟩ := h
  rcases List.append_eq_append_iff.1 heq with ⟨between, -, rfl⟩ | ⟨between, rfl, rfl⟩
  · rw [lengthAll_append] at hlt
    omega
  · have hne : between ≠ [] := by
      rintro rfl
      exact Nat.lt_irrefl _ hlt
    refine ⟨x, between ++ others, List.append_assoc .., (hends.of_append hne).append others, ?_⟩
    rw [lengthAll_append, lengthAll_append]
    omega

end LineEndAt

/-! ## Ends of lines on the stack -/

namespace Grammar

variable {g : Grammar} {lines offset n : Nat} {f base : Frame} {frames rest : List Frame}
  {read : List Symbol}

theorem Stacked.stop_le (h : g.Stacked (f :: frames) read) (hb : base ∈ f :: frames) :
    base.stop ≤ f.stop := by
  obtain ⟨above, rest, heq⟩ := List.append_of_mem hb
  have hdrop : (f :: frames).drop above.length = base :: rest := by rw [heq, List.drop_left]
  obtain ⟨-, hstop⟩ := h.drop above.length hdrop
  omega

/-- At an offset a line ends between the trees of complete lines, or of a file. -/
structure Grounded (g : Grammar) (lines : Nat) (frames : List Frame) (read : List Symbol)
    (offset : Nat) : Prop where
  anchor : ∃ id, read.getLast? = some (.nonterminal id) ∧ (id = lines ∨ id = g.start)
  place : ∃ upper f, frames = upper ++ [f, ⟨ParseTable.startState, [], 0⟩] ∧
    LineEndAt f.backward offset

namespace Grounded

theorem ne_nil (h : g.Grounded lines frames read offset) : read ≠ [] := by
  rintro rfl
  obtain ⟨id, hid, -⟩ := h.anchor
  cases hid

theorem pos (h : g.Grounded lines frames read offset) : 0 < offset := by
  obtain ⟨upper, f, -, hline⟩ := h.place
  exact hline.pos

theorem exists_all (h : g.Grounded lines frames read offset) :
    ∃ all, frames = all ++ [⟨ParseTable.startState, [], 0⟩] ∧
      LineEndAt (Frame.joined all) offset := by
  obtain ⟨upper, f, rfl, hline⟩ := h.place
  refine ⟨upper ++ [f], (List.append_assoc upper [f] _).symm, ?_⟩
  rw [Frame.joined_append, Frame.joined_cons, Frame.joined_nil, List.append_nil]
  exact hline.append _

theorem lineEndAt (h : g.Grounded lines frames read offset) :
    LineEndAt (Frame.joined frames) offset := by
  obtain ⟨all, rfl, hline⟩ := h.exists_all
  rw [Frame.joined_append, Frame.joined_cons, Frame.joined_nil, List.append_nil, List.append_nil]
  exact hline

theorem le_stop (h : g.Grounded lines (f :: frames) read offset)
    (hs : g.Stacked (f :: frames) read) : offset ≤ f.stop := by
  obtain ⟨upper, base, heq, hline⟩ := h.place
  have hmem : base ∈ f :: frames := by
    rw [heq]
    simp
  exact Nat.le_trans hline.le_length (Nat.le_trans (hs.length_le hmem) (hs.stop_le hmem))

theorem push (h : g.Grounded lines frames read offset) (f : Frame) (sym : Symbol) :
    g.Grounded lines (f :: frames) (sym :: read) offset := by
  obtain ⟨id, hid, hcase⟩ := h.anchor
  obtain ⟨upper, f', rfl, hline⟩ := h.place
  refine ⟨⟨id, ?_, hcase⟩, f :: upper, f', rfl, hline⟩
  rw [List.getLast?_cons, hid]
  rfl

theorem drop (h : g.Grounded lines frames read offset) (hs : g.Stacked frames read)
    (hn : n < read.length) : g.Grounded lines (frames.drop n) (read.drop n) offset := by
  obtain ⟨id, hid, hcase⟩ := h.anchor
  obtain ⟨upper, f, rfl, hline⟩ := h.place
  have hlength := hs.length
  rw [List.length_append, List.length_cons, List.length_singleton] at hlength
  refine ⟨⟨id, ?_, hcase⟩, upper.drop n, f, ?_, hline⟩
  · rw [List.getLast?_drop, if_neg (by omega), hid]
  · rw [List.drop_append_of_le_length (by omega)]

/-- Frames above one can be given up if the place does not lie behind it. -/
theorem resume (h : g.Grounded lines frames read offset) (hs : g.Stacked frames read)
    (hdrop : frames.drop n = base :: rest) (hle : offset ≤ base.stop) :
    g.Grounded lines (base :: rest) (read.drop n) offset := by
  by_cases hn : n < read.length
  · rw [← hdrop]
    exact h.drop hs hn
  · -- the lowest frame ends at the start of the text
    exfalso
    obtain ⟨all, rfl, -⟩ := h.exists_all
    have hlength := hs.length
    have hrest := congrArg List.length hdrop
    rw [List.length_append, List.length_singleton] at hlength
    rw [List.length_drop, List.length_append, List.length_singleton, List.length_cons] at hrest
    obtain rfl : n = all.length := by omega
    rw [List.drop_left] at hdrop
    obtain ⟨rfl, -⟩ := List.cons.inj hdrop
    exact Nat.lt_irrefl 0 (Nat.lt_of_lt_of_le h.pos hle)

end Grounded

theorem HasLines.hidden_of_head {line lhs id : Nat} {rhs : List Symbol}
    (hl : g.HasLines lines line) (hmem : rhs ∈ g.rhsOf lhs)
    (hhead : rhs.head? = some (.nonterminal id)) (hid : id = lines ∨ id = g.start) :
    (lhs = lines ∨ lhs = g.start) ∧ g.kindOf? lhs = none := by
  obtain ⟨q, hq, rfl, rfl⟩ := mem_rhsOf.1 hmem
  have hlines : id = lines := hid.resolve_right fun hstart =>
    hl.start q hq (hstart ▸ List.mem_of_head? hhead)
  rw [hlines] at hhead
  rcases hl.first q hq hhead with hlhs | hlhs
  · exact ⟨Or.inl hlhs, by rw [hlhs, hl.hidden.2]⟩
  · exact ⟨Or.inr hlhs, by rw [hlhs, hl.hidden.1]⟩

end Grammar

namespace Machine

open Grammar

variable {g : Grammar} {lines line offset p n : Nat} {s : Setup} {m m' : Machine}
  {read : List Symbol} {source : Lexer} {before : Option Kind}

variable (ht : g.HasTable s.table) (hl : g.HasLines lines line)

include ht hl

/-- **What is reduced down to the bottom of the stack is more lines, or the file**, and the trees
below stay in one row. -/
theorem grounded_reduce (h : g.Grounded lines m.frames read offset)
    (hs : g.Stacked m.frames read) (hr : m.reduction? s = some p)
    (he : (m.look n).reduce? s p = some m') : g.Grounded lines m'.frames
      (.nonterminal (g.augmented.lhs p) :: read.drop (g.augmented.rhs p).length) offset := by
  obtain ⟨item, hc, rfl, hne⟩ := complete_of_reduction ht hr
  obtain ⟨base, rest, target, hdrop, hread, -, -, heq⟩ := reduce?_of_path ht hs.path hr
  rw [heq n] at he
  cases he
  by_cases hlt : (g.augmented.rhs item.production).length < read.length
  · have hdropped := h.drop hs hlt
    rw [hdrop] at hdropped
    exact hdropped.push _ _
  · obtain ⟨id, hid, hcase⟩ := h.anchor
    obtain ⟨all, hframes, hline⟩ := h.exists_all
    have hlength := hs.length
    have hrest := congrArg List.length hdrop
    rw [hframes, List.length_append, List.length_singleton] at hlength
    rw [hframes, List.length_drop, List.length_append, List.length_singleton,
      List.length_cons] at hrest
    have hall : (g.augmented.rhs item.production).length = all.length := by omega
    rw [hall, hframes, List.drop_left] at hdrop
    obtain ⟨rfl, rfl⟩ := List.cons.inj hdrop
    rw [List.take_of_length_le (by omega)] at hread
    have hhead : (g.augmented.rhs item.production).head? = some (.nonterminal id) := by
      rw [← List.getLast?_reverse, ← hread, hid]
    obtain ⟨hlhs, hhidden⟩ := hl.hidden_of_head (hc.rhs_mem ht.wellFormed hne) hhead hcase
    refine ⟨⟨_, ?_, hlhs⟩, [], _, rfl, ?_⟩
    · rw [List.drop_of_length_le (by omega)]
      rfl
    · show LineEndAt (reducedFrame s.table _ (m.frames.take _) _ target).backward offset
      rw [backward_of_hidden (by rw [ht.production_of_complete hc, hhidden]), hall, hframes,
        List.take_left]
      exact hline

/-- **Where the machine stands at the end of a line, a line ends between the trees of lines.** -/
theorem grounded_of_atLineEnd (h : Lining g lines s source before m read)
    (hend : m.atLineEnd s = true) : g.Grounded lines m.frames read m.top.stop := by
  obtain ⟨state, backward, -, rfl, hframes, hends, hlength⟩ := frames_of_atLineEnd ht hl h hend
  rw [hframes]
  refine ⟨⟨lines, rfl, Or.inl rfl⟩, [], _, rfl, ?_⟩
  rw [← hlength]
  exact hends.lineEndAt

end Machine

end AsmTree
