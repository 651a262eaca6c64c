import AsmTree.Proofs.Machine.Records
import AsmTree.Proofs.Parser.Sessions

/-!
# Trees stay consistent

An edit is checked for lengths only. When it lies about the text, the lines before it, the text
between and the lines behind come from three texts that have nothing to do with each other.

**Main statement (`reached_consistent`):** all the same, every tree that is reached by parses and
such edits covers its text, and its diagnostics and line ends are consistent with it. The parts fit
because each is a ledger that ends where the next one begins.
-/

namespace AsmTree

open AsmTree.Tree Machine

/-! ## Consistent results -/

/-- A result fits a text of some length: the trees cover it, the ends of lines lie between them, and
all that is reported lies in it. -/
structure Output.Consistent (o : Output) (length : Nat) : Prop where
  length_eq : lengthAll o.children = length
  ledger : Ledger o.errors o.checkpoints
  lineEnds : ∀ c ∈ o.checkpoints, LineEndAt o.children.reverse c.offset
  upto : ∀ d ∈ o.errors, d.Upto length

/-- The result that a tree was made of. -/
def SyntaxTree.output (tree : SyntaxTree) : Output := ⟨tree.children, tree.errors, tree.checkpoints⟩

theorem Output.Consistent.split {o : Output} {length : Nat} (h : o.Consistent length)
    {c : Checkpoint} (hc : c ∈ o.checkpoints) : ∃ earlier behind,
      o.children = earlier.reverse ++ behind ∧ EndsLine earlier ∧ lengthAll earlier = c.offset := by
  obtain ⟨later, earlier, hsplit, hends, hlength⟩ := h.lineEnds c hc
  refine ⟨earlier, later.reverse, ?_, hends, hlength⟩
  rw [← List.reverse_append, ← hsplit, List.reverse_reverse]

/-- A result that fits behind a place of a text of some length, whatever stands before it. -/
structure Output.Follows (tail : Output) (place : Checkpoint) (length : Nat) : Prop where
  length_eq : place.offset + lengthAll tail.children = length
  ledger : ∀ errors cs, place.errorCount = errors.length → Ledger errors (cs ++ [place]) →
    Ledger (errors ++ tail.errors) (cs ++ [place] ++ tail.checkpoints)
  lineEnds : ∀ backward, lengthAll backward = place.offset → ∀ c ∈ tail.checkpoints,
    LineEndAt (tail.children.reverse ++ backward) c.offset
  upto : ∀ d ∈ tail.errors, d.Upto length

/-- **The lines of a consistent tree that are taken over at a place fit behind it.** -/
theorem Splice.follows_of_tail? {old : SyntaxTree} {delta : Int} {minOffset length : Nat}
    {place : Checkpoint} {tail : Output} (hold : old.output.Consistent length)
    (hdelta : delta ≤ minOffset) (h : tail? ⟨old, delta, minOffset⟩ place = some tail) :
    tail.Follows place (shiftOffset delta length) := by
  obtain ⟨hmin, xs, matched, ys, hsplit, hoffset, hchildren, herrors, hcheckpoints⟩ :=
    tail?_eq_some h
  have hcheckpoints' : old.output.checkpoints = xs ++ matched :: ys := hsplit
  have hledger := hold.ledger
  rw [hcheckpoints'] at hledger
  -- the places are as far apart as the texts behind them, since nothing is cut off at zero
  have hplace : (place.offset : Int) = matched.offset + delta := by
    rw [hoffset]
    unfold shiftOffset
    omega
  obtain ⟨earlier, behind, hparts, hends, hearlier⟩ := hold.split
    (hcheckpoints' ▸ List.mem_append_right xs List.mem_cons_self)
  have hbehind : tail.children = behind := by
    rw [hchildren, show old.children = _ from hparts, ← hearlier, Located.filter_ge_row hends,
      Located.map_tree_row]
  have hlength : lengthAll earlier + lengthAll behind = length := by
    rw [← hold.length_eq, hparts, lengthAll_append, lengthAll_reverse]
  refine ⟨?_, fun errors cs hcount hplaced => ?_, fun backward hbackward c hc => ?_, fun d hd => ?_⟩
  · rw [hbehind]
    unfold shiftOffset
    omega
  · rw [herrors, hcheckpoints]
    refine hplaced.extend hcount hledger ?_ (by omega) _
    unfold shiftOffset
    omega
  · rw [hcheckpoints] at hc
    obtain ⟨c', hc', rfl⟩ := List.mem_map.1 hc
    have hlt := (List.pairwise_cons.1 (List.pairwise_append.1 hledger.ordered).2.1).1 c' hc'
    have hline := hold.lineEnds c'
      (hcheckpoints' ▸ List.mem_append_right xs (List.mem_cons_of_mem _ hc'))
    rw [hparts, List.reverse_append, List.reverse_reverse] at hline
    have hmoved := hline.replace (by omega) backward
    have hoffset' : c'.offset - lengthAll earlier + lengthAll backward =
        shiftOffset delta c'.offset := by
      unfold shiftOffset
      omega
    rw [hoffset'] at hmoved
    rw [hbehind]
    exact hmoved
  · rw [herrors] at hd
    obtain ⟨d', hd', rfl⟩ := List.mem_map.1 hd
    exact (hold.upto d' (List.mem_of_mem_drop hd')).shift delta

/-- What a parse can be taken up again with: lines up to an end, with their ledger. -/
structure ResumePoint.Consistent (point : ResumePoint) : Prop where
  endsLine : EndsLine point.children.reverse
  length_eq : lengthAll point.children = point.checkpoint.offset
  ledger : Ledger point.errors point.checkpoints
  lineEnds : ∀ c ∈ point.checkpoints, LineEndAt point.children.reverse c.offset
  upto : ∀ d ∈ point.errors, d.Upto point.checkpoint.offset

/-- **The lines of a consistent tree up to a place are consistent.** -/
theorem SyntaxTree.consistent_of_resumePoint? {old : SyntaxTree} {length offset : Nat}
    {point : ResumePoint} (hold : old.output.Consistent length)
    (h : old.resumePoint? offset = some point) : point.Consistent := by
  obtain ⟨xs, c, ys, hsplit, -, rfl⟩ := resumePoint?_eq_some h
  have hcheckpoints : old.output.checkpoints = xs ++ c :: ys := hsplit
  have hledger := hold.ledger
  rw [hcheckpoints] at hledger
  obtain ⟨earlier, behind, hparts, hends, hearlier⟩ := hold.split
    (hcheckpoints ▸ List.mem_append_right xs List.mem_cons_self)
  have hlines : ((Located.row 0 old.children).takeWhile (·.start < c.offset)).map Located.tree =
      earlier.reverse := by
    rw [show old.children = _ from hparts, ← hearlier, Located.takeWhile_row hends,
      Located.map_tree_row]
  rw [hlines]
  refine ⟨?_, ?_, hledger.upto, fun c' hc' => ?_, hledger.upto_offset⟩
  · rw [List.reverse_reverse]
    exact hends
  · rw [lengthAll_reverse]
    exact hearlier
  · have hmem : c' ∈ old.output.checkpoints := by
      rw [hcheckpoints]
      rcases List.mem_append.1 hc' with hc' | hc'
      · exact List.mem_append_left _ hc'
      · rw [List.mem_singleton.1 hc']
        exact List.mem_append_right xs List.mem_cons_self
    have hle : c'.offset ≤ lengthAll earlier := by
      rw [hearlier]
      rcases List.mem_append.1 hc' with hc' | hc'
      · have hordered := List.pairwise_append.1 hledger.ordered
        exact Nat.le_of_lt (hordered.2.2 c' hc' c List.mem_cons_self)
      · rw [List.mem_singleton.1 hc']
    have hline := hold.lineEnds c' hmem
    rw [hparts, List.reverse_append, List.reverse_reverse] at hline
    rw [List.reverse_reverse]
    exact hline.within hle

namespace Machine

open Grammar

variable {g : Grammar} {lines line : Nat} {w : Nat → Nat} {s : Setup} {m : Machine}
  {read : List Symbol} {source : Lexer} {before : Option Kind}

/-- **What is accepted is consistent.** -/
theorem Recording.accept (h : Recording g lines s source before m read)
    (heof : (m.next s).kind = .eof) :
    (m.accept s).Consistent (Parser.stopToken source).offset where
  length_eq := by
    obtain ⟨l, ls, hinput⟩ := List.exists_cons_of_ne_nil h.lining.standing.ends.ne_nil
    rw [next_of_input hinput] at heof
    obtain rfl := (hinput ▸ h.lining.standing.ends).eq_last heof
    obtain ⟨passed, lexer, hplaced⟩ := h.lining.standing.placed
    obtain ⟨htoken, -⟩ := Parser.last_of_lookaheads
      (hplaced.input.symm.trans (hinput.trans (List.nil_append _).symm))
    have hwhole := h.lining.standing.whole
    rw [hinput, List.flatMap_singleton, Lookahead.trees, htoken, lengthAll_append] at hwhole
    show lengthAll (m.stackTrees ++ (m.ahead s 0).triviaTrees) = _
    rw [lengthAll_append, h.lining.standing.length_stackTrees, ahead_zero hinput]
    exact hwhole
  ledger := h.ledger
  lineEnds := by
    intro c hc
    show LineEndAt (m.stackTrees ++ (m.ahead s 0).triviaTrees).reverse c.offset
    rw [List.reverse_append, stackTrees, List.reverse_reverse]
    exact (h.grounded c hc).lineEndAt.append _
  upto := by
    have hle := h.lining.standing.horizon_add
    exact fun d hd => (h.upto d hd).mono (by omega)

/-- **What is made of the lines up to a place is consistent with what fits behind it**, wherever
either comes from. -/
theorem Recording.takeOver (h : Recording g lines s source before (m.mark s) read)
    (hend : m.atLineEnd s = true) {tail : Output} {length : Nat}
    (htail : tail.Follows (m.checkpoint s) length) :
    ((m.mark s).takeOver tail).Consistent length := by
  have hstack := h.lining.standing.length_stackTrees
  have hstop : (m.mark s).top.stop = (m.checkpoint s).offset := by rw [mark_top]; rfl
  have hmark : (m.mark s).checkpoints.toList = m.checkpoints.toList ++ [m.checkpoint s] := by
    rw [Machine.mark, if_pos hend, Array.toList_push]
  have hcount : (m.checkpoint s).errorCount = (m.mark s).errors.toList.length := by
    rw [Machine.mark, if_pos hend]
    rfl
  have hledger := h.ledger
  rw [hmark] at hledger
  rw [hstop] at hstack
  refine ⟨?_, ?_, fun c hc => ?_, fun d hd => ?_⟩
  · show lengthAll ((m.mark s).stackTrees ++ tail.children) = length
    rw [lengthAll_append, hstack, htail.length_eq]
  · show Ledger ((m.mark s).errors.toList ++ tail.errors)
      ((m.mark s).checkpoints.toList ++ tail.checkpoints)
    rw [hmark]
    exact htail.ledger _ _ hcount hledger
  · show LineEndAt ((m.mark s).stackTrees ++ tail.children).reverse c.offset
    rw [stackTrees, lengthAll_reverse] at hstack
    rw [List.reverse_append, stackTrees, List.reverse_reverse]
    rcases List.mem_append.1 hc with hc | hc
    · exact (h.grounded c hc).lineEndAt.append _
    · exact htail.lineEnds _ hstack c hc
  · rcases List.mem_append.1 hd with hd | hd
    · have hupto := hledger.upto_offset d (by rw [hcount, List.take_length]; exact hd)
      exact hupto.mono (by rw [← htail.length_eq]; exact Nat.le_add_right _ _)
    · exact htail.upto d hd

variable (ht : g.HasTable s.table) (hl : g.HasLines lines line) (hw : g.Weighted w)

include ht hl hw

variable {length : Nat} (hlength : (Parser.stopToken source).offset = length)

include hlength

/-- **A run ends with a consistent result.** -/
theorem Recording.run (he : s.table.EofOnly) (hs : s.splice = none)
    (h : Recording g lines s source before m read) (hread : weigh w read ≤ heaviest) :
    ∃ out, m.run s (s.table.moveLimit m.input.length) = some out ∧ out.Consistent length := by
  obtain ⟨m', hreach, hacc, hrun⟩ := h.lining.standing.live.run_moveLimit ht hl hw hs he hread
  obtain ⟨read', h'⟩ := h.reaches ht hl he hs hreach
  refine ⟨_, hrun, ?_⟩
  rw [← hlength]
  exact (h'.look 1).accept (he.accept _ _ hacc.2)

/-- **So does a run that may take over the lines of an earlier tree**, if the text is as long as the
edit says, or ends before the lines that are taken over. -/
theorem Recording.run_spliced (he : s.table.EofOnly) (hs : s.splice = none)
    (h : Recording g lines s source before m read) (hread : weigh w read ≤ heaviest)
    {splice : Splice} {oldLength : Nat} (hold : splice.old.output.Consistent oldLength)
    (hdelta : splice.delta ≤ splice.minOffset)
    (hmoved : splice.minOffset ≤ length → length = shiftOffset splice.delta oldLength) :
    ∃ out, m.run (s.spliced splice) (s.table.moveLimit m.input.length) = some out ∧
      out.Consistent length := by
  obtain ⟨out, hrun, hout⟩ := h.run ht hl hw hlength he hs hread
  rcases run_spliced_cases hs splice .refl hrun with hsame | ⟨m₁, tail, hthere, htakes, hrun'⟩
  · exact ⟨out, hsame, hout⟩
  · obtain ⟨read', h'⟩ := h.reaches ht hl he hs hthere
    refine ⟨_, hrun', ?_⟩
    have hplace : splice.minOffset ≤ length := by
      rw [← hlength, ← h'.lining.standing.whole, mark_top]
      exact Nat.le_add_right_of_le (Splice.tail?_eq_some htakes.2).1
    rw [hmoved hplace]
    exact h'.takeOver htakes.1 (Splice.follows_of_tail? hold hdelta htakes.2)

end Machine

/-! ## Starts -/

theorem InputEdit.expectedLength_eq {e : InputEdit} {length : Nat} (hshort : length < 2 ^ 32)
    (holdEnd : e.oldEnd ≤ length) (hnewEnd : e.newEnd ≤ e.expectedLength length) :
    e.expectedLength length = shiftOffset e.delta length := by
  have hshift : shiftOffset e.delta length = length - e.oldEnd + e.newEnd := by
    rw [shiftOffset, delta]
    omega
  rw [expectedLength, hshift] at hnewEnd ⊢
  omega

namespace Parser

variable {g : Grammar} {w : Nat → Nat} {p : Parser} {text : String} {old : SyntaxTree}
  {e : InputEdit} {length offset state : Nat} {point : ResumePoint} {a b : List Char}

theorem offset_stopToken_ofText (text : String) :
    (stopToken (.ofText text)).offset = text.utf8ByteSize := by
  rw [utf8ByteSize_eq_byteLength]
  exact Nat.zero_add _

theorem recording_fresh (p : Parser) (text : String) (lines : Nat) :
    Recording g lines (p.fresh text).setup (.ofText text) none (p.fresh text).machine [] where
  lining := lining_fresh p text lines
  ledger := .nil _
  grounded := by simp [fresh, startAt]
  upto := by simp [fresh, startAt]

/-- **A parse that is taken up again begins with the ledger of the lines before.** -/
theorem recording_resumed (h : Assembly.Shipped g p.table w)
    (hstate : p.table.resumeState = some state) (hpoint : point.Consistent)
    (htext : text.toList = a ++ b) (ha : byteLength a = point.checkpoint.offset) :
    let lexer : Lexer := ⟨b, point.checkpoint.offset, point.checkpoint.position⟩
    (stopToken lexer).offset = text.utf8ByteSize ∧
      Recording g Assembly.lines (p.resumed text none point state).setup lexer (some .newline)
        (p.resumed text none point state).machine [.nonterminal Assembly.lines] := by
  have hlexer : Lexer.startingAt text point.checkpoint.offset point.checkpoint.position =
      ⟨b, point.checkpoint.offset, point.checkpoint.position⟩ := by
    rw [← ha]
    exact startingAt_of_toList htext _
  rw [Grammar.resumeState_eq h.build, h.lines.resumePoint] at hstate
  unfold resumed
  dsimp only
  rw [hlexer]
  have hends := hpoint.endsLine
  have hlength := hpoint.length_eq
  refine ⟨?_, ⟨⟨.push .bottom hstate ?_, [], _, .nil, rfl, rfl, rfl⟩, fun _ => hends, trivial⟩,
    ?_, fun c hc => ⟨⟨_, rfl, Or.inl rfl⟩, [], _, rfl, hpoint.lineEnds c ?_⟩, fun d hd => ?_⟩
  · rw [utf8ByteSize_eq_byteLength, htext, byteLength_append, ha]
    rfl
  · show point.checkpoint.offset = 0 + lengthAll point.children.reverse
    rw [lengthAll_reverse, hlength, Nat.zero_add]
  · exact hpoint.ledger
  · exact hc
  · exact hpoint.upto d hd

/-! ## Parses -/

/-- Where a parse would be taken up again, the new text has the edge of a character. -/
def ResumesOnBoundary (p : Parser) (text : String) (old : SyntaxTree) (e : InputEdit) : Prop :=
  p.options.incremental = true → p.options.recordCheckpoints = true →
    e.fault? old text p.table p.options = none → ∀ point ∈ old.resumePoint? e.start,
      (splitBytes? point.checkpoint.offset text.toList).isSome

theorem run_fresh_consistent (h : Assembly.Shipped g p.table w) (text : String) :
    ∃ out, (p.fresh text).run = some out ∧ out.Consistent text.utf8ByteSize :=
  (recording_fresh p text Assembly.lines).run h.hasTable h.lines h.weighted
    (offset_stopToken_ofText text) h.eofOnly rfl (by simp [Grammar.weigh, heaviest])

/-- **A parse with an earlier tree ends with a consistent result**, whatever the edit says. -/
theorem run_start_consistent (h : Assembly.Shipped g p.table w) (hshort : old.length < 2 ^ 32)
    (hold : old.output.Consistent old.length) (hboundary : p.ResumesOnBoundary text old e) :
    ∃ out, (p.start text (some (old, e))).run = some out ∧ out.Consistent text.utf8ByteSize := by
  unfold start
  dsimp only
  split
  · next huse =>
    obtain ⟨hincremental, hnone⟩ := Bool.and_eq_true_iff.1 huse
    have hfault := Option.isNone_iff_eq_none.1 hnone
    obtain ⟨-, -, ⟨-, holdEnd⟩, -, hlength⟩ := InputEdit.fault?_eq_none.1 hfault
    have hmoved (hle : e.newEnd ≤ text.utf8ByteSize) :
        text.utf8ByteSize = shiftOffset e.delta old.length := by
      rw [hlength] at hle ⊢
      exact InputEdit.expectedLength_eq hshort holdEnd hle
    have hdelta : e.delta ≤ e.newEnd := by
      unfold InputEdit.delta
      omega
    unfold incremental
    split
    · next hrecord =>
      dsimp only
      split
      · next point state hpoint hstate =>
        obtain ⟨⟨a, b⟩, hsplit⟩ := Option.isSome_iff_exists.1
          (hboundary hincremental hrecord hfault point hpoint)
        obtain ⟨htext, ha⟩ := eq_append_of_splitBytes? hsplit
        obtain ⟨hstop, hrecording⟩ := recording_resumed h hstate
          (SyntaxTree.consistent_of_resumePoint? hold hpoint) htext ha
        exact hrecording.run_spliced h.hasTable h.lines h.weighted hstop h.eofOnly rfl (by
          simpa [Grammar.weigh, Symbol.weight] using h.weighted.le Assembly.lines) hold hdelta
          hmoved
      · exact (recording_fresh p text Assembly.lines).run_spliced h.hasTable h.lines h.weighted
          (offset_stopToken_ofText text) h.eofOnly rfl (by simp [Grammar.weigh, heaviest]) hold
          hdelta hmoved
    · exact run_fresh_consistent h text
  · exact run_fresh_consistent h text

theorem exists_parse_of_run {old : Option (SyntaxTree × InputEdit)} {out : Output}
    (h : (p.start text old).run = some out) :
    ∃ tree, p.parse text old = .ok tree ∧ tree.output = out := by
  unfold parse
  rw [h]
  exact ⟨_, rfl, rfl⟩

end Parser

/-! ## Trees that can be reached -/

/-- What a tree says fits the text that it was made of. -/
structure SyntaxTree.Consistent (tree : SyntaxTree) (text : String) : Prop where
  /-- The tree covers the text. -/
  length_eq : tree.length = text.utf8ByteSize
  /-- The ends of lines are in order, and each parts the diagnostics into those before and those
  behind it. -/
  ledger : Ledger tree.errors tree.checkpoints
  /-- An end of a line lies between children of the root, directly behind a `newline`. -/
  lineEnds : ∀ c ∈ tree.checkpoints, ∃ lines newline behind,
    tree.children = lines ++ .token .newline newline :: behind ∧
      c.offset = lengthAll lines + newline.utf8ByteSize
  /-- All that the diagnostics point at lies in the text. -/
  upto : ∀ d ∈ tree.errors, d.Upto tree.length

theorem Output.Consistent.syntaxTree {tree : SyntaxTree} {text : String}
    (h : tree.output.Consistent text.utf8ByteSize) : tree.Consistent text where
  length_eq := h.length_eq
  ledger := h.ledger
  lineEnds := by
    intro c hc
    obtain ⟨earlier, behind, hparts, ⟨newline, lines, rfl, -⟩, hlength⟩ := h.split hc
    refine ⟨lines.reverse, newline, behind, ?_, ?_⟩
    · rw [show tree.children = _ from hparts, List.reverse_cons, List.append_assoc]
      rfl
    · rw [← hlength, lengthAll_cons, lengthAll_reverse, Nat.add_comm]
      rfl
  upto := by
    rw [show tree.length = _ from h.length_eq]
    exact h.upto

namespace Parser

/-- Trees of texts that are reached by parses with a table. The first one is made from scratch, and
each other one with the tree before it and any edit. The length of a text fits in thirty-two bits,
the length that an edit leads to need not. -/
inductive Reached (t : ParseTable) : String → SyntaxTree → Prop where
  | scratch {options : ParseOptions} {text : String} {tree : SyntaxTree} :
    text.utf8ByteSize < 2 ^ 32 → parse ⟨t, options⟩ text none = .ok tree → Reached t text tree
  | edited {options : ParseOptions} {text text' : String} {tree tree' : SyntaxTree}
    {e : InputEdit} : Reached t text tree → text'.utf8ByteSize < 2 ^ 32 →
    ResumesOnBoundary ⟨t, options⟩ text' tree e →
    parse ⟨t, options⟩ text' (some (tree, e)) = .ok tree' → Reached t text' tree'

variable {g : Grammar} {t : ParseTable} {w : Nat → Nat} {options : ParseOptions}
  {text text' : String} {tree : SyntaxTree} {e : InputEdit}

theorem exists_parse_edited (h : Assembly.Shipped g t w) (hshort : text.utf8ByteSize < 2 ^ 32)
    (hold : tree.output.Consistent text.utf8ByteSize)
    (hboundary : ResumesOnBoundary ⟨t, options⟩ text' tree e) :
    ∃ tree', parse ⟨t, options⟩ text' (some (tree, e)) = .ok tree' ∧
      tree'.output.Consistent text'.utf8ByteSize := by
  have hlength : tree.length = text.utf8ByteSize := hold.length_eq
  rw [← hlength] at hshort hold
  obtain ⟨out, hrun, hout⟩ := run_start_consistent (p := ⟨t, options⟩) h hshort hold hboundary
  obtain ⟨tree', hparse, rfl⟩ := exists_parse_of_run hrun
  exact ⟨tree', hparse, hout⟩

theorem exists_parse_scratch (h : Assembly.Shipped g t w) (options : ParseOptions)
    (text : String) : ∃ tree, parse ⟨t, options⟩ text none = .ok tree ∧
      tree.output.Consistent text.utf8ByteSize := by
  obtain ⟨out, hrun, hout⟩ := run_fresh_consistent (p := ⟨t, options⟩) h text
  obtain ⟨tree, hparse, rfl⟩ : ∃ tree, parse ⟨t, options⟩ text none = .ok tree ∧
    tree.output = out := exists_parse_of_run hrun
  exact ⟨tree, hparse, hout⟩

theorem Reached.short (h : Reached t text tree) : text.utf8ByteSize < 2 ^ 32 := by
  cases h with
  | scratch hshort => exact hshort
  | edited _ hshort => exact hshort

theorem Reached.consistent (h : Assembly.Shipped g t w) (hreached : Reached t text tree) :
    tree.output.Consistent text.utf8ByteSize := by
  induction hreached with
  | @scratch options text tree _ hparse =>
    obtain ⟨tree', hparse', hout⟩ := exists_parse_scratch h options text
    cases hparse.symm.trans hparse'
    exact hout
  | @edited options text text' tree tree' e hreached _ hboundary hparse ih =>
    obtain ⟨next, hnext, hout⟩ := exists_parse_edited h hreached.short ih hboundary
    cases hparse.symm.trans hnext
    exact hout

/-- **Every tree that is reached is consistent with its text, and can be edited on**, whatever the
options, the texts and the edits are. -/
theorem reached_consistent : ∃ t, Assembly.table = .ok t ∧
    (∀ (options : ParseOptions) (text : String), ∃ tree,
      parse ⟨t, options⟩ text none = .ok tree) ∧
    ∀ (text : String) (tree : SyntaxTree), Reached t text tree → tree.Consistent text ∧
      ∀ (options : ParseOptions) (text' : String) (e : InputEdit),
        ResumesOnBoundary ⟨t, options⟩ text' tree e →
          ∃ tree', parse ⟨t, options⟩ text' (some (tree, e)) = .ok tree' := by
  obtain ⟨g, t, w, h⟩ := Assembly.exists_shipped
  refine ⟨t, h.table, fun options text => ?_, fun text tree hreached => ⟨?_, ?_⟩⟩
  · obtain ⟨tree, hparse, -⟩ := exists_parse_scratch h options text
    exact ⟨tree, hparse⟩
  · exact (hreached.consistent h).syntaxTree
  · intro options text' e hboundary
    obtain ⟨tree', hparse, -⟩ :=
      exists_parse_edited h hreached.short (hreached.consistent h) hboundary
    exact ⟨tree', hparse⟩

end Parser

end AsmTree
