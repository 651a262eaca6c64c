import AsmTree.Proofs.Machine.Accounts
import AsmTree.Proofs.Token.Letters

/-!
# Machines over small letters

A machine goes by the kinds, the places and the lengths of tokens. It copies their texts into the
tree and quotes the ones that it cannot read, so small letters in its input are small letters in its
result.

**Main statements:** every operation of a machine commutes with small letters (`shift_lower`,
`reduce?_lower`, `report_lower`, `recover?_lower`, `markLine_lower`), and so do a step (`step_lower`)
and a run (`run_lower`).
-/

namespace AsmTree

/-! ## Results -/

namespace Tree

mutual

/-- The tree over the text in small letters. -/
def lower : Tree → Tree
  | token k text => token k text.toLower
  | node k cs => node k (lowerAll cs)

def lowerAll : List Tree → List Tree
  | [] => []
  | t :: ts => lower t :: lowerAll ts

end

theorem lowerAll_eq_map (ts : List Tree) : lowerAll ts = ts.map lower := by
  induction ts with
  | nil => rfl
  | cons t ts ih => rw [lowerAll, ih, List.map_cons]

@[simp] theorem lower_node (k : Kind) (cs : List Tree) :
    (node k cs).lower = node k (cs.map lower) := by
  rw [lower, lowerAll_eq_map]

@[simp] theorem kind_lower (t : Tree) : t.lower.kind = t.kind := by
  cases t <;> rfl

@[simp] theorem isToken_lower (t : Tree) : t.lower.isToken = t.isToken := by
  cases t <;> rfl

mutual

theorem length_lower (t : Tree) : t.lower.length = t.length := by
  cases t with
  | token k text => exact utf8ByteSize_toLower text
  | node k cs => exact lengthAll_lowerAll cs

theorem lengthAll_lowerAll (ts : List Tree) : lengthAll (lowerAll ts) = lengthAll ts := by
  cases ts with
  | nil => rfl
  | cons t ts => rw [lowerAll, lengthAll_cons, length_lower t, lengthAll_lowerAll ts, lengthAll_cons]

end

@[simp] theorem lengthAll_map_lower (ts : List Tree) : lengthAll (ts.map lower) = lengthAll ts := by
  rw [← lowerAll_eq_map, lengthAll_lowerAll]

end Tree

namespace Diagnostic

/-- The diagnostic for the text in small letters. Only what is said of unreadable tokens quotes the
text. -/
def lower (d : Diagnostic) : Diagnostic :=
  if d.code.isLexical then { d with message := d.message.toLower } else d

theorem lower_of_not_isLexical {d : Diagnostic} (h : d.code.isLexical = false) : d.lower = d := by
  rw [lower, h]
  rfl

theorem startsWith_toLower {w : String} (hw : w.toList.all (Caseless ·) = true) (text : String) :
    text.toLower.startsWith w = text.startsWith w := by
  rw [Bool.eq_iff_iff, String.startsWith_string_iff, String.startsWith_string_iff, toList_toLower,
    prefix_map_toLower hw]

/-- **What is said of an unreadable token in small letters.** -/
theorem unreadable_lower (t : Token) : unreadable t.lower = (unreadable t).lower := by
  have hmessage : "invalid character '" ++ Quoted.inMessage t.text.toLower ++ "'" =
      ("invalid character '" ++ Quoted.inMessage t.text ++ "'").toLower := by
    rw [Quoted.inMessage_toLower, ← String.toList_inj]
    simp only [String.toList_append, toList_toLower, List.map_append]
    congr 1
  have hcomment : Code.unterminatedComment.defaultMessage.toLower =
      Code.unterminatedComment.defaultMessage := by
    rw [← String.toList_inj, toList_toLower]
    decide
  have hstring : Code.unterminatedString.defaultMessage.toLower =
      Code.unterminatedString.defaultMessage := by
    rw [← String.toList_inj, toList_toLower]
    decide
  rw [lower, isLexical_unreadable, if_pos rfl, unreadable, unreadable, Token.range_lower,
    show t.lower.text = t.text.toLower from rfl, startsWith_toLower (by decide),
    startsWith_toLower (by decide), startsWith_toLower (by decide), hmessage]
  split
  · exact congrArg (Diagnostic.mk _ _ · _ _ _) hcomment.symm
  · split
    · exact congrArg (Diagnostic.mk _ _ · _ _ _) hstring.symm
    · rfl

end Diagnostic

def Lookahead.lower (l : Lookahead) : Lookahead := ⟨l.trivia.map Token.lower, l.token.lower⟩

def Frame.lower (f : Frame) : Frame := { f with backward := f.backward.map Tree.lower }

def Output.lower (o : Output) : Output :=
  { o with children := o.children.map Tree.lower, errors := o.errors.map Diagnostic.lower }

namespace Machine

/-- The machine over small letters. -/
def lower (m : Machine) : Machine :=
  { m with
    top := m.top.lower
    below := m.below.map Frame.lower
    input := m.input.map Lookahead.lower
    errors := m.errors.map Diagnostic.lower }

def Outcome.lower : Outcome → Outcome
  | running m => running m.lower
  | done o => done o.lower

variable {s : Setup} {m : Machine}

/-! ## Tokens and stacks -/

@[simp] theorem triviaTrees_lower (l : Lookahead) :
    l.lower.triviaTrees = l.triviaTrees.map Tree.lower := by
  simp [Lookahead.triviaTrees, Lookahead.lower, Token.lower, Tree.lower]

@[simp] theorem trees_lower (l : Lookahead) : l.lower.trees = l.trees.map Tree.lower := by
  rw [Lookahead.trees, triviaTrees_lower, Lookahead.trees, List.map_append]
  rfl

theorem first_lower (l : Lookahead) : l.lower.first = l.first.lower := by
  obtain ⟨trivia, token⟩ := l
  cases trivia <;> rfl

theorem ahead_lower (hstop : s.stop.lower = s.stop) (m : Machine) (n : Nat) :
    m.lower.ahead s n = (m.ahead s n).lower := by
  have hend : (⟨[], s.stop⟩ : Lookahead) = (⟨[], s.stop⟩ : Lookahead).lower := by
    rw [Lookahead.lower, hstop]
    rfl
  rw [ahead, ahead, show m.lower.input = m.input.map Lookahead.lower from rfl]
  conv_lhs => rw [hend]
  exact List.getD_map m.input _ Lookahead.lower

theorem consume_lower (hstop : s.stop.lower = s.stop) (m : Machine) :
    m.lower.consume s = (m.consume s).lower := by
  unfold consume
  rw [ahead_lower hstop]
  simp only [lower, List.map_tail]
  congr 1
  by_cases hk : (m.ahead s 0).token.kind = .unknown
  · rw [if_pos hk, if_pos (show (m.ahead s 0).lower.token.kind = .unknown from hk),
      Array.map_push]
    exact congrArg _ (Diagnostic.unreadable_lower _)
  · rw [if_neg hk, if_neg (show ¬(m.ahead s 0).lower.token.kind = .unknown from hk)]

@[simp] theorem frames_lower (m : Machine) : m.lower.frames = m.frames.map Frame.lower := rfl

@[simp] theorem states_lower (fs : List Frame) :
    (fs.map Frame.lower).map Frame.state = fs.map Frame.state := by
  rw [List.map_map]
  rfl

@[simp] theorem joined_lower (fs : List Frame) :
    Frame.joined (fs.map Frame.lower) = (Frame.joined fs).map Tree.lower := by
  fun_induction Frame.joined fs with
  | case1 => rfl
  | case2 f => rfl
  | case3 f fs hne ih =>
    rw [List.map_cons, Frame.joined, ih, List.map_append]
    · rfl
    · exact fun h => hne (List.map_eq_nil_iff.1 h)

theorem wrap_lower (t : ParseTable) (k : Kind) (backward : List Tree) :
    wrap t k (backward.map Tree.lower) = (wrap t k backward).map Tree.lower := by
  have hextra : isExtraTree t ∘ Tree.lower = isExtraTree t :=
    funext fun tree => by simp [isExtraTree]
  simp only [wrap, List.span_eq_takeWhile_dropWhile, ← List.map_reverse, List.takeWhile_map,
    List.dropWhile_map, hextra, List.map_cons, Tree.lower_node]

/-! ## Moves -/

theorem shift_lower (hstop : s.stop.lower = s.stop) (m : Machine) (target : Nat) :
    m.lower.shift s target = (m.shift s target).lower := by
  unfold shift
  rw [ahead_lower hstop, consume_lower hstop]
  simp only [trees_lower, ← List.map_reverse]
  rw [show (m.ahead s 0).lower.token.stop = _ from Token.stop_lower _]
  rfl

theorem reducedFrame_lower (t : ParseTable) (r : Reduction) (popped : List Frame) (base : Frame)
    (state : Nat) : reducedFrame t r (popped.map Frame.lower) base.lower state =
      (reducedFrame t r popped base state).lower := by
  unfold reducedFrame
  rw [joined_lower, Frame.lower]
  congr 1
  · cases r.kind with
    | none => rfl
    | some k => exact wrap_lower t k _
  · cases popped <;> rfl

theorem reduce?_lower (m : Machine) (p : Nat) :
    m.lower.reduce? s p = (m.reduce? s p).map lower := by
  have hsome {m' : Machine} (h : m.reduce? s p = some m') :
      m.lower.reduce? s p = some m'.lower := by
    obtain ⟨base, rest, state, hdrop, hgoto, rfl⟩ := reduce?_eq_some.1 h
    refine reduce?_eq_some.2 ⟨base.lower, rest.map Frame.lower, state, ?_, hgoto, ?_⟩
    · rw [frames_lower, ← List.map_drop, hdrop, List.map_cons]
    · rw [frames_lower, ← List.map_take, reducedFrame_lower]
      rfl
  cases h : m.reduce? s p with
  | some m' => exact hsome h
  | none =>
    refine Option.eq_none_iff_forall_ne_some.2 fun m' hm' => ?_
    obtain ⟨base, rest, state, hdrop, hgoto, -⟩ := reduce?_eq_some.1 hm'
    rw [frames_lower, ← List.map_drop] at hdrop
    obtain ⟨base', rest', hdrop', rfl, -⟩ := List.map_eq_cons_iff.1 hdrop
    have hreduce := reduce?_eq_some.2 ⟨base', rest', state, hdrop', hgoto, rfl⟩
    rw [h] at hreduce
    cases hreduce

/-! ## Reports -/

theorem opener?_lower (t : ParseTable) (f : Frame) : f.lower.opener? t = f.opener? t := by
  obtain ⟨state, backward, stop⟩ := f
  unfold Frame.opener? Frame.lower
  cases backward with
  | nil => rfl
  | cons tree rest =>
    cases tree with
    | token k text => simp [Tree.lower]
    | node k cs => rfl

theorem openBlock?_lower (m : Machine) : m.lower.openBlock? s = m.openBlock? s := by
  rw [openBlock?, frames_lower, List.findSome?_map]
  exact congrArg (m.frames.findSome? ·) (funext fun f => opener?_lower s.table f)

theorem context_lower (m : Machine) : m.lower.context s = m.context s := by
  have hbelow : (m.below.map Frame.lower).findSome? (Frame.context? s.table false) =
      m.below.findSome? (Frame.context? s.table false) := by
    rw [List.findSome?_map]
    rfl
  unfold context
  rw [openBlock?_lower]
  dsimp only [lower]
  rw [hbelow]
  rcases m with ⟨⟨state, backward, stop⟩, below, input, seen, errors, checkpoints, last⟩
  cases backward with
  | nil => rfl
  | cons tree rest => cases tree <;> rfl

theorem report_lower (hstop : s.stop.lower = s.stop) (m : Machine) :
    m.lower.report s = (m.report s).lower := by
  have hadd {d : Diagnostic} (hd : d.code.isLexical = false) :
      { m.lower with errors := m.lower.errors.push d } =
        lower { m with errors := m.errors.push d } := by
    simp only [lower, Array.map_push, Diagnostic.lower_of_not_isLexical hd]
  unfold report
  dsimp only
  rw [ahead_lower hstop, openBlock?_lower, context_lower]
  rw [show (m.ahead s 0).lower.token.kind = (m.ahead s 0).token.kind from rfl,
    show (m.ahead s 0).lower.token.range = _ from Token.range_lower _,
    show (m.ahead s 0).lower.token.offset = (m.ahead s 0).token.offset from rfl]
  split
  · rfl
  · split
    · exact hadd rfl
    · exact hadd (Context.isLexical_code _ _)
  · exact hadd (Context.isLexical_code _ _)

/-! ## Recovery -/

theorem search_lower (viable : Kind → Bool) (limit : Nat) (input : List Lookahead) (skip : Nat) :
    search viable limit (input.map Lookahead.lower) skip = search viable limit input skip := by
  induction limit generalizing input skip with
  | zero => rfl
  | succ limit ih =>
    cases input with
    | nil => rfl
    | cons l ls =>
      rw [List.map_cons, search, search, ih]
      rfl

theorem searchFrames_lower (input : List Lookahead) (fs : List Frame) (above : Nat)
    (fallback : Option Resync) (looked : Nat) :
    searchFrames s (input.map Lookahead.lower) (fs.map Frame.lower) above fallback looked =
      searchFrames s input fs above fallback looked := by
  induction fs generalizing above fallback looked with
  | nil => rfl
  | cons f rest ih =>
    rw [List.map_cons, searchFrames_cons, searchFrames_cons]
    simp only [search_lower, ih, List.map_cons, states_lower, List.isEmpty_map]
    rfl

theorem skipTokens_lower (hstop : s.stop.lower = s.stop) (n : Nat) (m : Machine)
    (backward : List Tree) :
    skipTokens s n m.lower (backward.map Tree.lower) =
      ((skipTokens s n m backward).1.lower, (skipTokens s n m backward).2.map Tree.lower) := by
  induction n generalizing m backward with
  | zero => rfl
  | succ n ih =>
    rw [skipTokens, skipTokens, consume_lower hstop, ahead_lower hstop, trees_lower,
      ← List.map_reverse, ← List.map_append, ih]

theorem resynchronize_lower (hstop : s.stop.lower = s.stop) (m : Machine) (r : Resync) :
    m.lower.resynchronize s r = (m.resynchronize s r).lower := by
  unfold resynchronize
  rw [frames_lower, ← List.map_drop, ← List.map_take]
  cases m.frames.drop r.above with
  | nil => rfl
  | cons base rest =>
    dsimp only [List.map_cons]
    rw [joined_lower, skipTokens_lower hstop, wrap_lower, Tree.lengthAll_map_lower]
    rfl

theorem recover?_lower (hstop : s.stop.lower = s.stop) (m : Machine) :
    m.lower.recover? s = (m.recover? s).map lower := by
  unfold recover?
  dsimp only
  rw [frames_lower, show m.lower.input = m.input.map Lookahead.lower from rfl, searchFrames_lower,
    Option.map_map]
  exact congrArg (Option.map · _) (funext fun r => resynchronize_lower hstop (m.look _) r)

theorem abandon_lower (hstop : s.stop.lower = s.stop) (m : Machine) :
    m.lower.abandon s = (m.abandon s).lower := by
  have hrest : m.lower.input.takeWhile (fun l => l.token.kind != .eof) =
      (m.input.takeWhile fun l => l.token.kind != .eof).map Lookahead.lower := by
    rw [show m.lower.input = m.input.map Lookahead.lower from rfl, List.takeWhile_map]
    rfl
  have hbottom : m.lower.frames.getLastD m.lower.top = (m.frames.getLastD m.top).lower := by
    rw [frames_lower, List.getLastD_eq_getLast?, List.getLastD_eq_getLast?, List.getLast?_map]
    exact Option.getD_map ..
  unfold abandon
  dsimp only
  rw [hrest, hbottom, List.length_map, ahead_lower hstop, triviaTrees_lower, frames_lower,
    ← List.map_dropLast, joined_lower, skipTokens_lower hstop, wrap_lower]
  simp [output, Output.lower, dropCheckpoints, lower, Frame.lower]

/-! ## Steps and runs -/

theorem accept_lower (hstop : s.stop.lower = s.stop) (m : Machine) :
    m.lower.accept s = (m.accept s).lower := by
  rw [accept, ahead_lower hstop, triviaTrees_lower, stackTrees, frames_lower, joined_lower]
  simp [output, Output.lower, lower, accept, stackTrees]

theorem markLine_lower (hstop : s.stop.lower = s.stop) (hsplice : s.splice = none) (m : Machine) :
    m.lower.markLine s = (m.markLine s).lower := by
  have hposition : m.lower.position s = m.position s := by
    rw [position, ahead_lower hstop, first_lower]
    rfl
  have hend : m.lower.atLineEnd s = m.atLineEnd s := by
    unfold atLineEnd
    simp only [lower, List.length_map]
    rfl
  have hplace : m.lower.checkpoint s = m.checkpoint s := by
    rw [checkpoint, hposition]
    simp [lower, Frame.lower, checkpoint]
  rw [markLine_of_splice hsplice, markLine_of_splice hsplice, mark, hend, hplace, mark]
  split <;> rfl

theorem stepReduce_lower (hstop : s.stop.lower = s.stop) (hsplice : s.splice = none) (m : Machine)
    (p : Nat) : m.lower.stepReduce s p = (m.stepReduce s p).lower := by
  unfold stepReduce
  rw [reduce?_lower]
  cases m.reduce? s p with
  | some m' => exact markLine_lower hstop hsplice m'
  | none =>
    have hadd : { m.lower with errors := m.lower.errors.push (.internalError m.lower.top.stop) } =
        lower { m with errors := m.errors.push (.internalError m.top.stop) } := by
      have hcode : (Diagnostic.internalError m.top.stop).code.isLexical = false := rfl
      simp only [lower, Array.map_push, Diagnostic.lower_of_not_isLexical hcode]
      rfl
    exact congrArg Outcome.done ((congrArg (abandon s) hadd).trans (abandon_lower hstop _))

/-- **A step over small letters is the step, in small letters.** -/
theorem step_lower (hstop : s.stop.lower = s.stop) (hsplice : s.splice = none) (m : Machine) :
    m.lower.step s = (m.step s).lower := by
  have hnext : (m.lower.next s).kind = (m.next s).kind := by
    rw [next, ahead_lower hstop]
    rfl
  have htop : m.lower.top.state = m.top.state := rfl
  cases hd : s.table.default? m.top.state with
  | some p => rw [step_of_default hd, step_of_default (m := m.lower) hd,
      stepReduce_lower hstop hsplice]
  | none =>
    cases hm : (s.table.explicitAction m.top.state (m.next s).kind).move with
    | shift target =>
      rw [step_of_shift hd hm, step_of_shift (m := m.lower) hd (by rw [hnext]; exact hm),
        ← markLine_lower hstop hsplice, ← shift_lower hstop]
      rfl
    | reduce p =>
      rw [step_of_reduce hd hm, step_of_reduce (m := m.lower) hd (by rw [hnext]; exact hm),
        ← stepReduce_lower hstop hsplice]
      rfl
    | accept =>
      rw [step_of_accept hd hm, step_of_accept (m := m.lower) hd (by rw [hnext]; exact hm)]
      exact congrArg Outcome.done (accept_lower hstop (m.look 1))
    | error =>
      have hreport : (m.lower.look 1).report s = ((m.look 1).report s).lower :=
        report_lower hstop (m.look 1)
      rw [step_of_error hd hm, step_of_error (m := m.lower) hd (by rw [hnext]; exact hm), hreport,
        recover?_lower hstop]
      cases ((m.look 1).report s).recover? s with
      | some m' => exact markLine_lower hstop hsplice m'
      | none => exact congrArg Outcome.done (abandon_lower hstop _)

/-- **A run over small letters ends as the run does, in small letters.** -/
theorem run_lower (hstop : s.stop.lower = s.stop) (hsplice : s.splice = none) (fuel : Nat)
    (m : Machine) : m.lower.run s fuel = (m.run s fuel).map Output.lower := by
  induction fuel generalizing m with
  | zero => rfl
  | succ fuel ih =>
    rw [run, run, step_lower hstop hsplice]
    cases m.step s with
    | running m' => exact ih m'
    | done o => rfl

end Machine

end AsmTree
