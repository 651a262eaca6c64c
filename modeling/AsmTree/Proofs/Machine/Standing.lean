import AsmTree.Proofs.Machine.Horizon
import AsmTree.Proofs.Token.Reading

/-!
# Where a machine stands

The frames of a stack lie one behind the other in the text, up to the place where the lexer stands.
**Main statements:** every move keeps it so (`Standing.shift`, `Standing.reduce`,
`Standing.recover`), and what has been read is named by the states of the stack
(`symbol_of_next?`).
-/

namespace AsmTree

open Lookahead

namespace Grammar

variable {g : Grammar} {f base : Frame} {frames rest : List Frame} {read : List Symbol}

/-! ## Stacks of frames -/

/-- Frames on a path of the automaton, the top first, and the symbols that the path reads. The
bottom frame is empty, and each other one ends where its trees end. -/
inductive Stacked (g : Grammar) : List Frame → List Symbol → Prop where
  | bottom : Stacked g [⟨ParseTable.startState, [], 0⟩] []
  | push {f base : Frame} {rest : List Frame} {sym : Symbol} {read : List Symbol} :
    Stacked g (base :: rest) read → g.automaton.next? base.state sym = some f.state →
    f.stop = base.stop + Tree.lengthAll f.backward → Stacked g (f :: base :: rest) (sym :: read)

theorem Stacked.path (h : g.Stacked frames read) : g.Path (frames.map Frame.state) read := by
  induction h with
  | bottom => exact .start
  | push _ hm _ ih => exact .move ih hm

theorem Stacked.length (h : g.Stacked frames read) : frames.length = read.length + 1 := by
  rw [← h.path.length, List.length_map]

theorem Stacked.exists_bottom (h : g.Stacked frames read) :
    ∃ upper, frames = upper ++ [⟨ParseTable.startState, [], 0⟩] := by
  induction h with
  | bottom => exact ⟨[], rfl⟩
  | @push f base rest sym read _ _ _ ih =>
    obtain ⟨upper, hupper⟩ := ih
    exact ⟨f :: upper, by rw [hupper, List.cons_append]⟩

/-- The first symbol is that of the frame on the lowest one. -/
theorem Stacked.exists_anchor (h : g.Stacked frames read) {sym : Symbol}
    (hlast : read.getLast? = some sym) :
    ∃ upper f, frames = upper ++ [f, ⟨ParseTable.startState, [], 0⟩] ∧
      g.automaton.next? 0 sym = some f.state := by
  induction h with
  | bottom => cases hlast
  | @push f base rest x read hbelow hmove _ ih =>
    cases hbelow with
    | bottom =>
      cases hlast
      exact ⟨[], f, rfl, hmove⟩
    | push hbelow' hmove' hstop' =>
      rw [List.getLast?_cons_cons] at hlast
      obtain ⟨upper, f', hframes, hanchor⟩ := ih hlast
      exact ⟨f :: upper, f', by rw [hframes, List.cons_append], hanchor⟩

/-- What lies above a frame ends where the top ends. -/
theorem Stacked.drop (h : g.Stacked (f :: frames) read) (n : Nat)
    (hdrop : (f :: frames).drop n = base :: rest) : g.Stacked (base :: rest) (read.drop n) ∧
      f.stop = base.stop + Tree.lengthAll (Frame.joined ((f :: frames).take n)) := by
  induction n generalizing f frames read with
  | zero =>
    cases hdrop
    exact ⟨h, rfl⟩
  | succ n ih =>
    cases h with
    | bottom => simp at hdrop
    | push hbelow _ hstop =>
      obtain ⟨hbase, hstop'⟩ := ih hbelow hdrop
      refine ⟨hbase, ?_⟩
      rw [List.take_succ_cons, Frame.joined_cons, Tree.lengthAll_append]
      omega

theorem Stacked.lengthAll_joined (h : g.Stacked (f :: frames) read) :
    Tree.lengthAll (Frame.joined (f :: frames)) = f.stop := by
  generalize hall : f :: frames = all at h
  induction h generalizing f frames with
  | bottom =>
    cases hall
    rfl
  | push _ _ hstop ih =>
    cases hall
    rw [Frame.joined_cons, Tree.lengthAll_append, ih rfl, hstop, Nat.add_comm]

theorem Stacked.length_le (h : g.Stacked frames read) {f : Frame} (hf : f ∈ frames) :
    Tree.lengthAll f.backward ≤ f.stop := by
  induction h with
  | bottom =>
    rw [List.mem_singleton.1 hf]
    exact Nat.le_refl 0
  | push _ _ hstop ih =>
    rcases List.mem_cons.1 hf with rfl | hf
    · omega
    · exact ih hf

/-- **All moves into a state read the same symbol.** -/
theorem symbol_of_next? (hg : g.WellFormed) {a b target : Nat} {x y : Symbol}
    (hx : g.automaton.next? a x = some target) (hy : g.automaton.next? b y = some target) :
    x = y := by
  obtain ⟨j, hj⟩ := List.exists_mem_of_ne_nil _ (kernel_ne_nil (lt_of_next? hg hx).2)
  obtain ⟨i, -, hi, rfl⟩ := exists_of_next? hg hx hj
  obtain ⟨i', -, hi', heq⟩ := exists_of_next? hg hy hj
  obtain ⟨after, hr⟩ := List.head?_eq_some_iff.1 hi
  obtain ⟨after', hr'⟩ := List.head?_eq_some_iff.1 hi'
  have hsame : i = i' := by
    obtain ⟨hp, hd⟩ := Item.mk.inj heq
    cases i
    cases i'
    simp_all
  rw [hsame, hr'] at hr
  exact (List.cons.inj hr).1.symm

end Grammar

def Setup.parser (s : Setup) : Parser := ⟨s.table, s.options⟩

theorem Parser.ends_lookaheads (p : Parser) (lexer : Lexer) : Ends (p.lookaheads lexer) :=
  ends_group rfl fun t ht he => Lexer.tokens_kind lexer t ht (Or.inl he)

namespace Machine

open Grammar

variable {g : Grammar} {s : Setup} {m m' : Machine} {read : List Symbol} {source lexer : Lexer}
  {before : Option Kind} {passed : List Lookahead} {l : Lookahead} {ls : List Lookahead} {p n : Nat}

/-! ## The place in the text -/

/-- The machine has passed some tokens and stands at a lexer. `before` is what was consumed before
them. -/
structure Placed (s : Setup) (source : Lexer) (before : Option Kind) (m : Machine)
    (passed : List Lookahead) (lexer : Lexer) : Prop where
  passes : source.Passes s.table.isExtra passed lexer
  input : m.input = s.parser.lookaheads lexer
  stop : m.top.stop = lexer.offset
  last : m.lastConsumed = (passed.getLast?.map (·.token.kind)).or before

theorem Placed.consumed (h : Placed s source before m passed lexer) (hn : n < m.input.length) :
    ∃ behind, lexer.Passes s.table.isExtra (m.input.take n) behind ∧
      source.Passes s.table.isExtra (passed ++ m.input.take n) behind ∧
      m.input.drop n = s.parser.lookaheads behind ∧
      ((m.input.take n).getLast?.map (·.token.kind)).or m.lastConsumed =
        ((passed ++ m.input.take n).getLast?.map (·.token.kind)).or before := by
  have hinput : s.parser.lookaheads lexer = m.input.take n ++ m.input.drop n := by
    rw [List.take_append_drop, h.input]
  obtain ⟨behind, hpasses, hrest⟩ := s.parser.passes_of_lookaheads (by simpa using hn) hinput
  refine ⟨behind, hpasses, h.passes.append hpasses, hrest, ?_⟩
  rw [h.last, List.getLast?_append, Option.map_or, Option.or_assoc]

/-- The frames of a machine lie one behind the other, up to the place where it stands. -/
structure Standing (g : Grammar) (s : Setup) (source : Lexer) (before : Option Kind) (m : Machine)
    (read : List Symbol) : Prop where
  stacked : g.Stacked m.frames read
  placed : ∃ passed lexer, Placed s source before m passed lexer

theorem Standing.ends (h : Standing g s source before m read) : Ends m.input := by
  obtain ⟨passed, lexer, hplaced⟩ := h.placed
  rw [hplaced.input]
  exact s.parser.ends_lookaheads lexer

/-- The next token is not empty, unless the text is at its end. -/
theorem Standing.length_pos (h : Standing g s source before m read) (hinput : m.input = l :: ls)
    (hne : (m.next s).kind ≠ .eof) : 0 < l.token.length := by
  obtain ⟨passed, lexer, hplaced⟩ := h.placed
  rw [next_of_input hinput] at hne
  have hls := ((hinput ▸ h.ends).tail hne).ne_nil
  obtain ⟨behind, hpasses, -⟩ := hplaced.consumed (n := 1) (by
    rw [hinput, List.length_cons]
    exact Nat.succ_lt_succ (List.length_pos_of_ne_nil hls))
  exact hpasses.length_pos (by rw [hinput]; exact List.mem_cons_self)

theorem Standing.live (h : Standing g s source before m read) : Live g m read :=
  ⟨h.stacked.path, h.ends⟩

theorem Standing.congr (h : Standing g s source before m read) (hf : m'.frames = m.frames)
    (hi : m'.input = m.input) (hl : m'.lastConsumed = m.lastConsumed) :
    Standing g s source before m' read := by
  obtain ⟨passed, lexer, hplaced⟩ := h.placed
  have htop : m'.top = m.top := (List.cons.inj hf).1
  exact ⟨by rw [hf]; exact h.stacked, passed, lexer, hplaced.passes, by rw [hi, hplaced.input],
    by rw [htop, hplaced.stop], by rw [hl, hplaced.last]⟩

theorem Standing.mark (h : Standing g s source before m read) :
    Standing g s source before (m.mark s) read :=
  h.congr (mark_frames s m) (mark_input s m) (by obtain ⟨cs, hcs⟩ := mark_eq s m; rw [hcs])

/-! ## Moves -/

variable (ht : g.HasTable s.table)

theorem lengthAll_wrap (t : ParseTable) (k : Kind) (backward : List Tree) :
    Tree.lengthAll (wrap t k backward) = Tree.lengthAll backward := by
  rw [← Tree.lengthAll_reverse, reverse_wrap, Tree.lengthAll_append, Tree.lengthAll_cons,
    Tree.lengthAll_nil, Tree.length, Nat.add_zero, ← Tree.lengthAll_append,
    List.takeWhile_append_dropWhile, Tree.lengthAll_reverse]

theorem lengthAll_reducedFrame (t : ParseTable) (r : Reduction) (popped : List Frame)
    (base : Frame) (state : Nat) :
    Tree.lengthAll (reducedFrame t r popped base state).backward =
      Tree.lengthAll (Frame.joined popped) := by
  unfold reducedFrame
  dsimp only
  split
  · exact lengthAll_wrap _ _ _
  · rfl

theorem backward_of_hidden {t : ParseTable} {r : Reduction} (h : r.kind = none)
    (popped : List Frame) (base : Frame) (state : Nat) :
    (reducedFrame t r popped base state).backward = Frame.joined popped := by
  unfold reducedFrame
  rw [h]

theorem stop_reducedFrame (t : ParseTable) (r : Reduction) {base : Frame} {rest : List Frame}
    (hdrop : m.frames.drop n = base :: rest) (state : Nat) :
    (reducedFrame t r (m.frames.take n) base state).stop = m.top.stop := by
  cases n with
  | zero =>
    cases hdrop
    rfl
  | succ n => rfl

include ht

theorem Standing.shift (h : Standing g s source before m read) (hne : (m.next s).kind ≠ .eof)
    {target : Nat}
    (hm : (s.table.explicitAction m.top.state (m.next s).kind).move = .shift target) :
    Standing g s source before (m.shift s target) (.terminal (m.next s).kind :: read) := by
  obtain ⟨passed, lexer, hplaced⟩ := h.placed
  obtain ⟨l, ls, hinput⟩ := List.exists_cons_of_ne_nil h.ends.ne_nil
  rw [next_of_input hinput] at hne hm ⊢
  have hls := ((hinput ▸ h.ends).tail hne).ne_nil
  obtain ⟨behind, hpasses, hpassed, hrest, hlast⟩ := hplaced.consumed (n := 1) (by
    rw [hinput, List.length_cons]
    exact Nat.succ_lt_succ (List.length_pos_of_ne_nil hls))
  rw [hinput] at hpasses hpassed hrest hlast
  have hone : lexer.Passes s.table.isExtra ([] ++ [l]) behind := hpasses
  have hstop := hone.stop
  have hoffset := hpasses.offset
  rw [shift_eq hinput]
  refine ⟨.push h.stacked (ht.next?_of_shift hm) ?_,
    passed ++ [l], behind, hpassed, hrest, hstop, hlast⟩
  show l.token.stop = m.top.stop + Tree.lengthAll l.trees.reverse
  rw [hstop, hoffset, hplaced.stop, Tree.lengthAll_reverse, List.take_succ_cons, List.take_zero,
    List.flatMap_singleton]

theorem Standing.reduce (h : Standing g s source before m read) (hr : m.reduction? s = some p)
    (he : (m.look n).reduce? s p = some m') : Standing g s source before m'
      (.nonterminal (g.augmented.lhs p) :: read.drop (g.augmented.rhs p).length) := by
  obtain ⟨passed, lexer, hplaced⟩ := h.placed
  obtain ⟨base, rest, target, hdrop, -, -, hmove, heq⟩ := reduce?_of_path ht h.stacked.path hr
  rw [heq n] at he
  cases he
  obtain ⟨hbase, hstop⟩ := h.stacked.drop _ hdrop
  have htop := stop_reducedFrame s.table (s.table.production p) hdrop target
  refine ⟨.push hbase hmove ?_, passed, lexer, hplaced.passes, hplaced.input, ?_, hplaced.last⟩
  · show (reducedFrame s.table _ (m.frames.take _) base target).stop = _
    rw [htop, hstop]
    exact congrArg _ (lengthAll_reducedFrame _ _ _ _ _).symm
  · show (reducedFrame s.table _ (m.frames.take _) base target).stop = _
    rw [htop, hplaced.stop]

theorem Standing.recover (h : Standing g s source before m read) (hr : m.recover? s = some m') :
    ∃ r, (searchFrames s m.input m.frames 0 none 0).resync = some r ∧
      Standing g s source before m' (.terminal .error :: read.drop r.above) := by
  obtain ⟨passed, lexer, hplaced⟩ := h.placed
  obtain ⟨r, base, rest, looked, hplan, hdrop, hmove, rfl⟩ := recover?_eq_some hr
  have hskip := searchFrames_lt h.ends hplan
  obtain ⟨behind, hpasses, hpassed, hrest, hlast⟩ := hplaced.consumed hskip
  obtain ⟨hbase, hstop⟩ : g.Stacked (base :: rest) (read.drop r.above) ∧ m.top.stop =
    base.stop + Tree.lengthAll (Frame.joined (m.frames.take r.above)) := h.stacked.drop _ hdrop
  rw [resynchronize_eq (m := m.look looked) hdrop (Nat.le_of_lt hskip)]
  refine ⟨r, hplan, .push hbase (ht.next?_of_shift hmove) ?_,
    _, behind, hpassed, hrest, ?_, hlast⟩
  · exact congrArg _ (lengthAll_wrap _ _ _).symm
  · show base.stop + Tree.lengthAll (m.recovered r) = behind.offset
    rw [hpasses.offset, ← hplaced.stop, hstop, recovered, Tree.lengthAll_append,
      Tree.lengthAll_reverse]
    omega

end Machine

end AsmTree
