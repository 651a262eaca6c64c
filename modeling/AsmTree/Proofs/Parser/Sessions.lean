import AsmTree.Proofs.Machine.Splices
import AsmTree.Proofs.Parser.LineEnds
import AsmTree.Proofs.Text.Bytes

/-!
# Sessions

In a session a text is edited again and again, and each of its forms is parsed with the tree of the
one before. **Main statement (`session_eq`):** each tree is the one that a parse from scratch makes,
whatever the options and the edits.
-/

namespace AsmTree

open Machine

/-! ## Offsets in a text -/

/-- What is no longer than the beginning of a text is a part of it. -/
theorem exists_append_of_byteLength_le {a b c d : List Char} (h : a ++ b = c ++ d)
    (hle : byteLength c ≤ byteLength a) : ∃ e, a = c ++ e ∧ d = e ++ b := by
  induction c generalizing a with
  | nil => exact ⟨a, rfl, h.symm⟩
  | cons x c ih =>
    cases a with
    | nil =>
      have hpos := Char.utf8Size_pos x
      rw [byteLength_cons, byteLength_nil] at hle
      omega
    | cons y a =>
      obtain ⟨rfl, hrest⟩ := List.cons.inj h
      rw [byteLength_cons, byteLength_cons] at hle
      obtain ⟨e, rfl, rfl⟩ := ih hrest (by omega)
      exact ⟨e, rfl, rfl⟩

theorem append_inj_of_byteLength {a b c d : List Char} (h : a ++ b = c ++ d)
    (heq : byteLength a = byteLength c) : a = c ∧ b = d := by
  obtain ⟨e, rfl, rfl⟩ := exists_append_of_byteLength_le h (Nat.le_of_eq heq.symm)
  cases e with
  | nil => exact ⟨List.append_nil c, rfl⟩
  | cons x e =>
    have hpos := Char.utf8Size_pos x
    rw [byteLength_append, byteLength_cons] at heq
    omega

/-- An edit replaces `removed` by `inserted`, between what stays before it and behind it. -/
structure InputEdit.Replaces (e : InputEdit) (text text' : String)
    (before removed inserted behind : List Char) : Prop where
  old : text.toList = before ++ removed ++ behind
  new : text'.toList = before ++ inserted ++ behind
  start : e.start = byteLength before
  oldEnd : e.oldEnd = byteLength (before ++ removed)
  newEnd : e.newEnd = byteLength (before ++ inserted)

/-- Behind the edit, places at its distance in the two texts have the same text behind them. -/
theorem InputEdit.Replaces.behind_eq {e : InputEdit} {text text' : String}
    {before removed inserted behind a b a' b' : List Char}
    (h : e.Replaces text text' before removed inserted behind) (hnew : text'.toList = a ++ b)
    (hold : text.toList = a' ++ b') (hmin : e.newEnd ≤ byteLength a)
    (hdistance : byteLength a' + e.newEnd = byteLength a + e.oldEnd) : b' = b := by
  have hsplit : a ++ b = (before ++ inserted) ++ behind := hnew.symm.trans h.new
  obtain ⟨x, rfl, rfl⟩ := exists_append_of_byteLength_le hsplit (h.newEnd ▸ hmin)
  rw [h.newEnd, h.oldEnd, byteLength_append _ x] at hdistance
  have hlength : byteLength a' = byteLength (before ++ removed ++ x) := by
    rw [byteLength_append _ x]
    omega
  have hsplit' : a' ++ b' = (before ++ removed ++ x) ++ b := by
    rw [← hold, h.old, List.append_assoc (before ++ removed)]
  exact (append_inj_of_byteLength hsplit' hlength).2

/-- A range that names a part of a text is replaced. -/
theorem InputEdit.replaces_of_slice? {text : String} {range : TextRange}
    (h : (range.slice? text).isSome) (inserted : String) : ∃ before removed behind,
      (replace text range inserted).Replaces text (range.replace text inserted) before removed
        inserted.toList behind := by
  obtain ⟨slice, hslice⟩ := Option.isSome_iff_exists.1 h
  obtain ⟨before, behind, hbefore, hstart, hstop⟩ := TextRange.between_of_slice? hslice
  have hreplaced : range.replace text inserted =
      String.ofList (before ++ inserted.toList ++ behind) := by
    have hfirst := splitBytes?_byteLength before (slice.toList ++ behind)
    have hboth := splitBytes?_byteLength (before ++ slice.toList) behind
    rw [hstart, ← List.append_assoc, ← hbefore] at hfirst
    rw [hstop, ← hbefore] at hboth
    rw [TextRange.replace, hfirst, hboth]
  refine ⟨before, slice.toList, behind, hbefore, by rw [hreplaced, String.toList_ofList],
    hstart.symm, hstop.symm, ?_⟩
  rw [byteLength_append, ← utf8ByteSize_eq_byteLength, hstart]
  rfl

theorem InputEdit.fault?_eq_none {e : InputEdit} {old : SyntaxTree} {text : String}
    {table : ParseTable} {options : ParseOptions} : e.fault? old text table options = none ↔
      old.grammarVersion = table.grammarVersion ∧ old.recoveryLimit = options.recoveryLimit ∧
        (e.start ≤ e.oldEnd ∧ e.oldEnd ≤ old.length) ∧ e.start ≤ e.newEnd ∧
        text.utf8ByteSize = e.expectedLength old.length := by
  unfold fault?
  simp only [ite_eq_iff, reduceCtorEq, and_false, false_or, and_true, not_not, ne_eq,
    Bool.or_eq_true, decide_eq_true_eq, not_or, Nat.not_lt]

/-! ## What is taken over -/

/-- The lines that are taken over are those behind a place of the earlier tree. -/
theorem Splice.tail?_eq_some {old : SyntaxTree} {delta : Int} {minOffset : Nat}
    {place : Checkpoint} {tail : Output} (h : tail? ⟨old, delta, minOffset⟩ place = some tail) :
    minOffset ≤ place.offset ∧
      ∃ before matched after, old.checkpoints = before ++ matched :: after ∧
        matched.offset = shiftOffset (-delta) place.offset ∧
        tail.children = ((Located.row 0 old.children).filter
          (matched.offset ≤ ·.start)).map Located.tree ∧
        tail.errors = (old.errors.drop matched.errorCount).map (·.shift delta) ∧
        tail.checkpoints = after.map fun c =>
          { offset := shiftOffset delta c.offset
            position :=
              c.position.shiftLine ((place.position.line : Int) - matched.position.line)
            errorCount := c.errorCount - matched.errorCount + place.errorCount } := by
  unfold tail? at h
  dsimp only at h
  split at h
  · cases h
  next hmin =>
  simp only [Option.bind_eq_bind, Option.bind_eq_some_iff] at h
  obtain ⟨i, hfind, matched, hmatched, htail⟩ := h
  obtain rfl := Option.some.inj htail
  obtain ⟨hi, hoffset, -⟩ := List.findIdx?_eq_some_iff_getElem.1 hfind
  rw [List.getElem?_eq_getElem hi] at hmatched
  obtain rfl := Option.some.inj hmatched
  have hsplit := List.take_append_drop i old.checkpoints
  rw [List.drop_eq_getElem_cons hi] at hsplit
  refine ⟨Nat.le_of_not_lt hmin, _, _, _, hsplit.symm, eq_of_beq hoffset, ?_, rfl, rfl⟩
  rw [eq_of_beq hoffset]

/-- A parse is taken up again at a place of the earlier tree at or before an offset. -/
theorem SyntaxTree.resumePoint?_eq_some {old : SyntaxTree} {offset : Nat} {point : ResumePoint}
    (h : old.resumePoint? offset = some point) : ∃ before c after,
      old.checkpoints = before ++ c :: after ∧ c.offset ≤ offset ∧ point = {
        checkpoint := c
        children :=
          ((Located.row 0 old.children).takeWhile (·.start < c.offset)).map Located.tree
        errors := old.errors.take c.errorCount
        checkpoints := before ++ [c] } := by
  unfold resumePoint? at h
  split at h
  · cases h
  next c earlier hdrop =>
  cases h
  have hsplit : old.checkpoints = earlier.reverse ++ c ::
      (old.checkpoints.reverse.takeWhile (offset < ·.offset)).reverse := by
    have happend := List.takeWhile_append_dropWhile (p := fun d : Checkpoint => offset < d.offset)
      (l := old.checkpoints.reverse)
    rw [hdrop] at happend
    have hreverse := congrArg List.reverse happend
    rw [List.reverse_reverse] at hreverse
    exact hreverse.symm.trans (by simp)
  have hle := List.head?_dropWhile_not (fun d : Checkpoint => decide (offset < d.offset))
    old.checkpoints.reverse
  rw [hdrop] at hle
  refine ⟨earlier.reverse, c, _, hsplit, by simpa using hle, ?_⟩
  rw [List.reverse_cons]

/-- Where a parse is taken up again: behind a lead. -/
def Lead.resumePoint (lead : Lead) : ResumePoint where
  checkpoint := lead.checkpoint ⟨0, {}, 0⟩
  children := lead.backward.reverse
  errors := lead.errors.toList
  checkpoints := (lead.checkpoints.push (lead.checkpoint ⟨0, {}, 0⟩)).toList

namespace Parser

variable {g : Grammar} {w : Nat → Nat} {p : Parser} {options : ParseOptions} {text text' : String}
  {old : SyntaxTree} {e : InputEdit} {before removed inserted behind : List Char} {state : Nat}
  {a b : List Char} {lead : Lead} {out : Output}

theorem behind_of_limit (hlimit : options.recoveryLimit = p.options.recoveryLimit) :
    (Parser.mk p.table options).behind = p.behind := by
  funext state rest
  unfold Parser.behind
  rw [hlimit]

theorem Leads.of_limit (hlimit : options.recoveryLimit = p.options.recoveryLimit)
    (h : (Parser.mk p.table options).Leads state a lead) : p.Leads state a lead where
  offset := h.offset
  length := h.length
  setup := fun options' b hrecord hlimit' => by
    rw [← behind_of_limit hlimit]
    exact h.setup options' b hrecord (hlimit'.trans hlimit.symm)
  reaches := fun options' b hrecord hlimit' => by
    rw [← behind_of_limit hlimit]
    exact h.reaches options' b hrecord (hlimit'.trans hlimit.symm)

theorem shiftLine_checkpoint (lead lead' : Lead) (c : Checkpoint) :
    ({ offset := shiftOffset ((lead'.offset : Int) - lead.offset) (lead.checkpoint c).offset
       position := (lead.checkpoint c).position.shiftLine
        (((lead'.checkpoint ⟨0, {}, 0⟩).position.line : Int) -
          (lead.checkpoint ⟨0, {}, 0⟩).position.line)
       errorCount := (lead.checkpoint c).errorCount - lead.errors.size +
        (lead'.checkpoint ⟨0, {}, 0⟩).errorCount } : Checkpoint) = lead'.checkpoint c := by
  simp only [Lead.checkpoint, Position.moved, Position.shiftLine, shiftOffset, Checkpoint.mk.injEq,
    Position.mk.injEq, and_true]
  omega

/-- What stands behind a lead of an earlier tree, moved and put behind another lead, is what the
lines make there. -/
theorem takeOver_lead {lead' : Lead} {rest tail : Output} {later : List Checkpoint} {e : InputEdit}
    (hlater : rest.checkpoints = ⟨0, {}, 0⟩ :: later)
    (hlength : Tree.lengthAll lead'.backward = lead'.offset)
    (hdelta : e.delta = (lead.offset : Int) - lead'.offset)
    (hchildren : tail.children = ((Located.row 0 (lead'.output rest).children).filter
      (lead'.offset ≤ ·.start)).map Located.tree)
    (herrors : tail.errors = ((lead'.output rest).errors.drop lead'.errors.size).map
      (·.shift e.delta))
    (hcheckpoints : tail.checkpoints = (later.map lead'.checkpoint).map fun c =>
      { offset := shiftOffset e.delta c.offset
        position := c.position.shiftLine (((lead.checkpoint ⟨0, {}, 0⟩).position.line : Int) -
          (lead'.checkpoint ⟨0, {}, 0⟩).position.line)
        errorCount :=
          c.errorCount - lead'.errors.size + (lead.checkpoint ⟨0, {}, 0⟩).errorCount }) :
    lead.output rest = (lead.machine (p.behind state b).machine).takeOver tail := by
  rw [machine_behind, takeOver, Lead.output, hchildren, herrors, hcheckpoints,
    lead'.filter_ge_output hlength, Located.map_tree_row, lead'.drop_output, hlater]
  congr 1
  · rw [stackTrees]
    simp [frames, Frame.joined]
  · rw [List.map_map]
    exact congrArg _ (List.map_congr_left fun d _ => by
      rw [hdelta]
      exact (d.shift_shift _ _).symm)
  · rw [Array.toList_push, List.map_cons, List.append_assoc, List.singleton_append, List.map_map,
      hdelta]
    exact congrArg (_ ++ _ :: ·) (List.map_congr_left fun c _ =>
      (shiftLine_checkpoint lead' lead c).symm)

/-- **What is taken over from an earlier tree is what the parse makes of the lines itself.** -/
theorem eq_takeOver (h : Assembly.Shipped g p.table w)
    (hold : parse ⟨p.table, options⟩ text none = .ok old)
    (hlimit : options.recoveryLimit = p.options.recoveryLimit)
    (hedit : e.Replaces text text' before removed inserted behind)
    (hrun : (p.fresh text').run = some out) {m : Machine} {tail : Output}
    (hreach : Reaches (p.fresh text').setup (p.fresh text').machine
      (m.mark (p.fresh text').setup))
    (htakes : TakesOver (p.fresh text').setup ⟨old, e.delta, e.newEnd⟩ m tail) :
    out = (m.mark (p.fresh text').setup).takeOver tail := by
  obtain ⟨hend, htail⟩ := htakes
  have hrecord : p.options.recordCheckpoints = true := by
    simp only [atLineEnd, Bool.and_eq_true] at hend
    exact hend.1.1.1.1.1
  -- the place in the new text
  obtain ⟨state, a, b, lead, htext, hstate, hleads, hmark, hplace⟩ :=
    exists_leads h hrecord hreach hend
  obtain ⟨rest, later, hrest, hlater, hwhole⟩ := hleads.run h hstate b
  have hout := hwhole p.options hrecord rfl
  rw [← htext, String.ofList_toList, hrun] at hout
  obtain rfl := Option.some.inj hout
  rw [← hplace] at htail
  obtain ⟨hmin, xs, matched, ys, hsplit, hoffset, hchildren, herrors, hcheckpoints⟩ :=
    Splice.tail?_eq_some htail
  -- the place in the old text
  obtain ⟨state', a', b', lead', rest', later', hparts, rfl⟩ :=
    exists_parts (p := ⟨p.table, options⟩) h hold
      (hsplit ▸ List.mem_append_right xs List.mem_cons_self)
  rw [Lead.offset_origin] at hmin
  rw [Lead.offset_origin, Lead.offset_origin] at hoffset
  have hdistance : lead'.offset + e.newEnd = lead.offset + e.oldEnd := by
    rw [hoffset]
    dsimp only [shiftOffset, InputEdit.delta]
    omega
  -- the same lines come behind both
  obtain rfl : b' = b := hedit.behind_eq htext hparts.split (hleads.offset ▸ hmin)
    (hleads.offset ▸ hparts.leads.offset ▸ hdistance)
  obtain ⟨rfl, rfl⟩ : rest' = rest ∧ later' = later := by
    have hsame := hparts.run
    rw [behind_of_limit hlimit, Option.some.inj (hparts.resume.symm.trans hstate), hrest] at hsame
    obtain rfl := Option.some.inj hsame
    exact ⟨rfl, (List.cons.inj (hparts.later.symm.trans hlater)).2⟩
  obtain ⟨-, rfl⟩ := eq_of_ordered (hsplit ▸ hparts.ordered)
    (hsplit.symm.trans hparts.checkpoints_eq)
  rw [hparts.children, Lead.offset_origin] at hchildren
  rw [hparts.errors, Lead.errorCount_origin] at herrors
  rw [Lead.errorCount_origin lead'] at hcheckpoints
  rw [hmark]
  refine takeOver_lead hlater hparts.leads.length ?_ hchildren herrors hcheckpoints
  rw [InputEdit.delta]
  omega

/-! ## A parse that is taken up again -/

theorem live_behind (h : Assembly.Shipped g p.table w) (hstate : p.table.resumeState = some state)
    (lead : Lead) (b : List Char) :
    Live g (lead.machine (p.behind state b).machine) [.nonterminal Assembly.lines] := by
  have hlive := (anchored_behind h hstate b).standing.live
  rw [machine_behind]
  rw [behind_eq] at hlive
  exact ⟨hlive.path, p.ends_lookaheads _⟩

theorem startingAt_of_toList (htext : text.toList = a ++ b) (position : Position) :
    Lexer.startingAt text (byteLength a) position = ⟨b, byteLength a, position⟩ := by
  rw [Lexer.startingAt, utf8ByteSize_eq_byteLength, htext, byteLength_append,
    Nat.min_eq_left (Nat.le_add_right _ _), dropBytes, splitBytes?_byteLength]
  rfl

/-- A parse that is taken up again behind a lead begins where a parse from scratch comes to. -/
theorem resumed_eq (splice : Splice) (hrecord : p.options.recordCheckpoints = true)
    (hoffset : lead.offset = byteLength a) (htext : text.toList = a ++ b) :
    p.resumed text (some splice) lead.resumePoint state =
      { setup := (lead.setup p.options.incremental (p.behind state b).setup).spliced splice
        machine := lead.machine (p.behind state b).machine } := by
  have hlexer : Lexer.startingAt text (lead.checkpoint ⟨0, {}, 0⟩).offset
      (lead.checkpoint ⟨0, {}, 0⟩).position =
        Lexer.moved lead.offset lead.line ⟨b, 0, {}⟩ := by
    rw [Lead.offset_origin, hoffset, startingAt_of_toList htext]
    simp [Lexer.moved, Lead.checkpoint]
  unfold resumed
  dsimp only [Lead.resumePoint]
  rw [hlexer, machine_behind, setup_behind p state b lead p.options hrecord rfl,
    Lead.offset_origin]
  simp [startAt, push, Setup.spliced, frames, -Array.toList_push]

/-- The earlier tree is taken up again behind a lead. -/
theorem exists_resumePoint (h : Assembly.Shipped g p.table w)
    (hold : p.parse text none = .ok old) {offset : Nat} {point : ResumePoint}
    (hpoint : old.resumePoint? offset = some point) : ∃ state a b lead,
      text.toList = a ++ b ∧ p.table.resumeState = some state ∧ p.Leads state a lead ∧
      lead.offset ≤ offset ∧ point = lead.resumePoint := by
  obtain ⟨xs, c, ys, hsplit, hle, rfl⟩ := SyntaxTree.resumePoint?_eq_some hpoint
  obtain ⟨state, a, b, lead, out, later, hparts, rfl⟩ :=
    exists_parts h hold (hsplit ▸ List.mem_append_right xs List.mem_cons_self)
  obtain ⟨rfl, -⟩ := eq_of_ordered (hsplit ▸ hparts.ordered)
    (hsplit.symm.trans hparts.checkpoints_eq)
  rw [Lead.offset_origin] at hle
  refine ⟨state, a, b, lead, hparts.split, hparts.resume, hparts.leads, hle, ?_⟩
  rw [Lead.resumePoint, hparts.children, hparts.errors, Lead.offset_origin,
    lead.takeWhile_output hparts.leads.length, Located.map_tree_row, Lead.errorCount_origin,
    lead.take_output, Array.toList_push]

/-- Behind a lead a parse has the result of a parse from scratch, if all that it may take over is
what it makes of the lines itself. -/
theorem run_resumed (h : Assembly.Shipped g p.table w) (hstate : p.table.resumeState = some state)
    (hrecord : p.options.recordCheckpoints = true) (hleads : p.Leads state a lead)
    (htext : text.toList = a ++ b) (hrun : (p.fresh text).run = some out) {splice : Splice}
    (htail : ∀ (m : Machine) (tail : Output),
      Reaches (p.fresh text).setup (p.fresh text).machine (m.mark (p.fresh text).setup) →
      TakesOver (p.fresh text).setup splice m tail →
      out = (m.mark (p.fresh text).setup).takeOver tail) :
    (p.resumed text (some splice) lead.resumePoint state).run = some out := by
  have hsetup := hleads.setup p.options b hrecord rfl
  have hthere := hleads.reaches p.options b hrecord rfl
  rw [← htext, String.ofList_toList] at hsetup hthere
  rw [resumed_eq splice hrecord hleads.offset htext, ← hsetup]
  obtain ⟨m, -, -, hbehind⟩ := (live_behind h hstate lead b).run_moveLimit
    (s := (p.fresh text).setup) h.hasTable h.lines h.weighted rfl h.eofOnly (by
      simpa [Grammar.weigh, Symbol.weight] using h.weighted.le Assembly.lines)
  obtain ⟨fuel, hfuel⟩ := run_of_reaches hthere hrun
  obtain rfl := run_unique hbehind hfuel
  exact run_spliced rfl htail hthere hbehind

/-! ## One change -/

/-- **A parse with an earlier tree has the result of a parse from scratch.** -/
theorem run_incremental (h : Assembly.Shipped g p.table w)
    (hold : parse ⟨p.table, options⟩ text none = .ok old)
    (hlimit : options.recoveryLimit = p.options.recoveryLimit)
    (hedit : e.Replaces text text' before removed inserted behind) :
    (p.incremental text' old e).run = (p.fresh text').run := by
  unfold incremental
  split
  · next hrecord =>
    obtain ⟨out, hrun⟩ := exists_run h text'
    have htail (m : Machine) (tail : Output)
        (hreach : Reaches (p.fresh text').setup (p.fresh text').machine
          (m.mark (p.fresh text').setup))
        (htakes : TakesOver (p.fresh text').setup ⟨old, e.delta, e.newEnd⟩ m tail) :
        out = (m.mark (p.fresh text').setup).takeOver tail :=
      eq_takeOver h hold hlimit hedit hrun hreach htakes
    dsimp only
    split
    · next point state hpoint hstate =>
      obtain ⟨state', a, b, lead, htext, hresume, hleads, hle, rfl⟩ :=
        exists_resumePoint (p := ⟨p.table, options⟩) h hold hpoint
      obtain rfl := Option.some.inj (hresume.symm.trans hstate)
      -- the edit comes behind the lead
      obtain ⟨x, rfl, -⟩ := exists_append_of_byteLength_le
        ((List.append_assoc ..).symm.trans (hedit.old.symm.trans htext)) (by
          rwa [← hedit.start, ← hleads.offset])
      have htext' : text'.toList = a ++ (x ++ inserted ++ behind) := by
        rw [hedit.new, List.append_assoc, List.append_assoc, List.append_assoc]
      rw [hrun]
      exact run_resumed h hstate hrecord (hleads.of_limit hlimit) htext' hrun htail
    · rw [hrun]
      exact run_spliced rfl htail .refl hrun
  · rfl

theorem run_start (h : p.options.incremental = true →
    e.fault? old text p.table p.options = none →
      (p.incremental text old e).run = (p.fresh text).run) :
    (p.start text (some (old, e))).run = (p.fresh text).run := by
  unfold start
  dsimp only
  split
  · next huse =>
    obtain ⟨hincremental, hnone⟩ := Bool.and_eq_true_iff.1 huse
    exact h hincremental (Option.isNone_iff_eq_none.1 hnone)
  · rfl

/-- After one change a run with the earlier tree has the result of a run from scratch, whether it
uses the tree or not. -/
theorem run_some (h : Assembly.Shipped g p.table w)
    (hold : parse ⟨p.table, options⟩ text none = .ok old)
    (hedit : e.Replaces text text' before removed inserted behind) :
    (p.start text' (some (old, e))).run = (p.fresh text').run := by
  refine run_start fun _ hfault => ?_
  obtain ⟨out, hscratch⟩ := exists_run (p := ⟨p.table, options⟩) h text
  have hlimit : old.recoveryLimit = options.recoveryLimit := by
    rw [parse_of_run hscratch] at hold
    cases hold
    rfl
  have hsame := (InputEdit.fault?_eq_none.1 hfault).2.1
  exact run_incremental h hold (hlimit.symm.trans hsame) hedit

theorem parse_some (h : Assembly.Shipped g p.table w)
    (hold : parse ⟨p.table, options⟩ text none = .ok old)
    (hedit : e.Replaces text text' before removed inserted behind) :
    p.parse text' (some (old, e)) = p.parse text' none := by
  unfold parse
  rw [run_some h hold hedit]
  rfl

/-! ## Sessions -/

/-- One step of a session: a range of the text is replaced, and the new text is parsed. -/
structure Change where
  options : ParseOptions
  range : TextRange
  inserted : String

namespace Change

/-- The text after the change. -/
def apply (c : Change) (text : String) : String := c.range.replace text c.inserted

/-- The edit that leads to the text after the change. -/
def edit (c : Change) (text : String) : InputEdit := .replace text c.range c.inserted

end Change

/-- Each change replaces a part of the text that it is made in. -/
def InBounds (text : String) : List Change → Prop
  | [] => True
  | c :: changes => (c.range.slice? text).isSome ∧ InBounds (c.apply text) changes

/-- The trees of a session, each made with the tree before it. -/
def edited (t : ParseTable) (text : String) (tree : SyntaxTree) :
    List Change → Except ParseError (List SyntaxTree)
  | [] => return []
  | c :: changes => do
    let next ← parse ⟨t, c.options⟩ (c.apply text) (some (tree, c.edit text))
    return next :: (← edited t (c.apply text) next changes)

/-- The trees of a session, each made from scratch. -/
def reparsed (t : ParseTable) (text : String) : List Change → Except ParseError (List SyntaxTree)
  | [] => return []
  | c :: changes => do
    let next ← parse ⟨t, c.options⟩ (c.apply text) none
    return next :: (← reparsed t (c.apply text) changes)

variable {t : ParseTable} {c : Change} {changes : List Change} {tree next : SyntaxTree}
  {trees : List SyntaxTree}

theorem edited_cons (h : parse ⟨t, c.options⟩ (c.apply text) (some (tree, c.edit text)) = .ok next)
    (hrest : edited t (c.apply text) next changes = .ok trees) :
    edited t text tree (c :: changes) = .ok (next :: trees) := by
  rw [edited, h]
  show (do return next :: (← edited t (c.apply text) next changes)) = _
  rw [hrest]
  rfl

theorem reparsed_cons (h : parse ⟨t, c.options⟩ (c.apply text) none = .ok next)
    (hrest : reparsed t (c.apply text) changes = .ok trees) :
    reparsed t text (c :: changes) = .ok (next :: trees) := by
  rw [reparsed, h]
  show (do return next :: (← reparsed t (c.apply text) changes)) = _
  rw [hrest]
  rfl

/-- Behind a parse from scratch every session has trees, those of parses from scratch. -/
theorem exists_edited (h : Assembly.Shipped g t w) (htree : parse ⟨t, options⟩ text none = .ok tree)
    (hin : InBounds text changes) :
    ∃ trees, edited t text tree changes = .ok trees ∧ reparsed t text changes = .ok trees := by
  induction changes generalizing text tree options with
  | nil => exact ⟨[], rfl, rfl⟩
  | cons c changes ih =>
    obtain ⟨hslice, hin⟩ := hin
    obtain ⟨before, removed, behind, hedit⟩ := InputEdit.replaces_of_slice? hslice c.inserted
    obtain ⟨out, hrun⟩ := exists_run (p := ⟨t, c.options⟩) h (c.apply text)
    have hnext := parse_of_run hrun
    obtain ⟨trees, hedited, hreparsed⟩ := ih hnext hin
    have hsame := parse_some (p := ⟨t, c.options⟩) h htree hedit
    exact ⟨_, edited_cons (hsame.trans hnext) hedited, reparsed_cons hnext hreparsed⟩

/-- **In every session each tree is the one that a parse from scratch makes**, whatever the text,
the options and the changes. -/
theorem session_eq : ∃ t, Assembly.table = .ok t ∧
    ∀ (options : ParseOptions) (text : String) (changes : List Change), InBounds text changes →
      ∃ tree trees, parse ⟨t, options⟩ text none = .ok tree ∧
        edited t text tree changes = .ok trees ∧ reparsed t text changes = .ok trees := by
  obtain ⟨g, t, w, h⟩ := Assembly.exists_shipped
  refine ⟨t, h.table, fun options text changes hin => ?_⟩
  obtain ⟨out, hrun⟩ := exists_run (p := ⟨t, options⟩) h text
  obtain ⟨trees, hedited, hreparsed⟩ := exists_edited h (parse_of_run hrun) hin
  exact ⟨_, trees, parse_of_run hrun, hedited, hreparsed⟩

end Parser

end AsmTree
