import AsmTree.Proofs.Machine.Anchored
import AsmTree.Proofs.Parser.Totality
import AsmTree.Proofs.Tree.Places

/-!
# Parses part at the ends of lines

At a recorded end of a line a parse is the parse of the lines behind it, moved. `behind` is that
parse, with no text before it, and `Leads` says that every parse of a text with given lines at its
start comes to it.

**Main statements:** each place that a parse records parts it in this way (`exists_leads`), and the
result is that of the lines behind the place, moved behind what has been made of the lines before
(`Leads.run`).
-/

namespace AsmTree

open Machine

namespace Lexer

variable {isExtra : Kind → Bool} {text : String} {ls : List Lookahead} {l : Lookahead}
  {lexer : Lexer}

/-- Lines at the start of a text are passed whatever follows them, and what follows begins at a
column of zero. -/
theorem Passes.exists_line (hl : l.token.kind = .newline)
    (h : (Lexer.ofText text).Passes isExtra (ls ++ [l]) lexer) :
    ∃ a, text.toList = a ++ lexer.rest ∧ lexer.offset = byteLength a ∧ lexer.position.column = 0 ∧
      ∀ b, (Lexer.ofText (.ofList (a ++ b))).Passes isExtra (ls ++ [l]) (lexer.withRest b) := by
  obtain ⟨x, hx, hline⟩ := h.newline hl
  obtain ⟨y, hy, hoffset, hposition, -⟩ := h.reads.text
  obtain rfl : y = x ++ ['\n'] := by
    have hsame : y ++ lexer.rest = (x ++ ['\n']) ++ lexer.rest := by
      rw [← hy, hx, List.append_assoc, List.singleton_append]
    exact List.append_cancel_right hsame
  refine ⟨x ++ ['\n'], hy, hoffset.trans (Nat.zero_add _), ?_, fun b => ?_⟩
  · rw [hposition, Position.advance_append]
    rfl
  · rw [Lexer.ofText, String.toList_ofList, List.append_assoc, List.singleton_append]
    exact hline b

theorem withRest_eq_moved (hcolumn : lexer.position.column = 0) (b : List Char) :
    lexer.withRest b = moved lexer.offset lexer.position.line ⟨b, 0, {}⟩ := by
  obtain ⟨rest, offset, line, column⟩ := lexer
  cases hcolumn
  simp [withRest, moved, Position.moved]

end Lexer

/-- The end of the lines before a text that has none. -/
def ResumePoint.origin : ResumePoint := ⟨⟨0, {}, 0⟩, [], [], [⟨0, {}, 0⟩]⟩

namespace Parser

variable {g : Grammar} {w : Nat → Nat} {p : Parser} {state : Nat} {a b : List Char} {lead : Lead}

/-- The parse of lines that complete lines are thought before, in a state. -/
def behind (p : Parser) (state : Nat) (rest : List Char) : Start :=
  resumed ⟨p.table, { recoveryLimit := p.options.recoveryLimit }⟩ (.ofList rest) none .origin state

theorem behind_eq (p : Parser) (state : Nat) (rest : List Char) : p.behind state rest = {
    setup := {
      table := p.table
      options := { recoveryLimit := p.options.recoveryLimit }
      stop := stopToken ⟨rest, 0, {}⟩ }
    machine := {
      top := ⟨state, [], 0⟩
      below := [⟨ParseTable.startState, [], 0⟩]
      input := p.lookaheads ⟨rest, 0, {}⟩
      checkpoints := #[⟨0, {}, 0⟩]
      lastConsumed := some .newline } } := by
  have hlexer : Lexer.startingAt (.ofList rest) 0 {} = ⟨rest, 0, {}⟩ := by
    rw [Lexer.startingAt, Nat.zero_min, String.toList_ofList]
    cases rest <;> rfl
  unfold behind resumed
  dsimp only [ResumePoint.origin]
  rw [hlexer]
  rfl

theorem anchored_behind (h : Assembly.Shipped g p.table w)
    (hstate : p.table.resumeState = some state) (rest : List Char) :
    Anchored g Assembly.lines (p.behind state rest).setup ⟨rest, 0, {}⟩
      (p.behind state rest).machine [.nonterminal Assembly.lines] := by
  rw [Grammar.resumeState_eq h.build, h.lines.resumePoint] at hstate
  rw [behind_eq]
  exact ⟨⟨.push .bottom hstate rfl, [], ⟨rest, 0, {}⟩, .nil, rfl, rfl, rfl⟩, Or.inl rfl, rfl⟩

theorem lining_fresh (p : Parser) (text : String) (lines : Nat) :
    Lining g lines (p.fresh text).setup (.ofText text) none (p.fresh text).machine [] :=
  ⟨⟨.bottom, [], .ofText text, .nil, rfl, rfl, rfl⟩, trivial⟩

/-! ## What complete lines lead to -/

/-- Every text that begins with some complete lines is parsed behind the lead, whatever follows. -/
structure Leads (p : Parser) (state : Nat) (a : List Char) (lead : Lead) : Prop where
  offset : lead.offset = byteLength a
  length : Tree.lengthAll lead.backward = lead.offset
  setup : ∀ (options : ParseOptions) (b : List Char), options.recordCheckpoints = true →
    options.recoveryLimit = p.options.recoveryLimit →
    (fresh ⟨p.table, options⟩ (.ofList (a ++ b))).setup =
      lead.setup options.incremental (p.behind state b).setup
  reaches : ∀ (options : ParseOptions) (b : List Char), options.recordCheckpoints = true →
    options.recoveryLimit = p.options.recoveryLimit →
    Reaches (fresh ⟨p.table, options⟩ (.ofList (a ++ b))).setup
      (fresh ⟨p.table, options⟩ (.ofList (a ++ b))).machine
      (lead.machine (p.behind state b).machine)

theorem machine_behind (p : Parser) (state : Nat) (b : List Char) (lead : Lead) :
    lead.machine (p.behind state b).machine = {
      top := ⟨state, lead.backward, lead.offset⟩
      below := [⟨ParseTable.startState, [], 0⟩]
      input := p.lookaheads (Lexer.moved lead.offset lead.line ⟨b, 0, {}⟩)
      errors := lead.errors
      checkpoints := lead.checkpoints.push (lead.checkpoint ⟨0, {}, 0⟩)
      lastConsumed := some .newline } := by
  rw [behind_eq, lookaheads_moved]
  simp [Lead.machine, Lead.frame, Lead.frames, Lead.report, Lead.record]

theorem setup_behind (p : Parser) (state : Nat) (b : List Char) (lead : Lead)
    (options : ParseOptions) (hrecord : options.recordCheckpoints = true)
    (hlimit : options.recoveryLimit = p.options.recoveryLimit) :
    lead.setup options.incremental (p.behind state b).setup = {
      table := p.table
      options
      stop := stopToken (Lexer.moved lead.offset lead.line ⟨b, 0, {}⟩) } := by
  obtain ⟨limit, record, incremental⟩ := options
  cases hrecord
  cases hlimit
  rw [behind_eq, stopToken_moved]
  rfl

/-- Parsers that differ in their edits only have the same setups, up to the end of the text. -/
theorem like_fresh {text text' : String} {options : ParseOptions}
    (hrecord : p.options.recordCheckpoints = true) (hrecord' : options.recordCheckpoints = true)
    (hlimit : options.recoveryLimit = p.options.recoveryLimit) :
    (p.fresh text).setup.like (fresh ⟨p.table, options⟩ text').setup.stop options.incremental =
      (fresh ⟨p.table, options⟩ text').setup := by
  obtain ⟨table, limit, record, incremental⟩ := p
  obtain ⟨limit', record', incremental'⟩ := options
  cases hrecord
  cases hrecord'
  cases hlimit
  rfl

/-! ## Machines at the end of a line -/

/-- A machine at the end of the lines of a lead, in front of what a lexer has left to read. -/
structure StandsBehind (p : Parser) (m : Machine) (state : Nat) (lead : Lead) (lexer : Lexer) :
    Prop where
  frames : m.frames = [⟨state, lead.backward, lead.offset⟩, ⟨ParseTable.startState, [], 0⟩]
  input : m.input = p.lookaheads lexer
  seen : m.seen = 0
  lastConsumed : m.lastConsumed = some .newline
  errors : m.errors = lead.errors
  checkpoints : m.checkpoints = lead.checkpoints
  length : Tree.lengthAll lead.backward = lead.offset
  moved : ∀ b, lexer.withRest b = Lexer.moved lead.offset lead.line ⟨b, 0, {}⟩

/-- **A machine that records a place stands behind a lead.** What it has passed of the text is
passed whatever follows. -/
theorem exists_standsBehind (h : Assembly.Shipped g p.table w) {text : String} {m : Machine}
    (hreach : Reaches (p.fresh text).setup (p.fresh text).machine (m.mark (p.fresh text).setup))
    (hend : m.atLineEnd (p.fresh text).setup = true) : ∃ state a ls lexer lead,
      text.toList = a ++ lexer.rest ∧ p.table.resumeState = some state ∧
        lead.offset = byteLength a ∧ p.StandsBehind m state lead lexer ∧
          ∀ b, (Lexer.ofText (.ofList (a ++ b))).Passes p.table.isExtra ls (lexer.withRest b) := by
  have hordered := (Recorded.reaches_of h.eofOnly rfl (p.ends_lookaheads _) rfl hreach).ordered
  obtain ⟨read, hmarked⟩ := (lining_fresh p text Assembly.lines).reaches h.hasTable h.lines
    h.eofOnly rfl hreach
  have hlining : Lining g Assembly.lines (p.fresh text).setup (.ofText text) none m read := by
    obtain ⟨cs, hcs⟩ := mark_eq (p.fresh text).setup m
    exact hmarked.congr (by simp) (by simp) (by rw [hcs])
  obtain ⟨state, backward, ls, l, lexer, hstate, hframes, hends, hlength, hinput, hseen, hlast,
    hpasses, hkind⟩ := exists_of_atLineEnd h.hasTable h.lines hlining hend
  obtain ⟨a, htext, hoffset, hcolumn, hline⟩ := hpasses.exists_line hkind
  have hle : ∀ c ∈ m.checkpoints, c.offset ≤ lexer.offset := by
    intro c hc
    rw [Machine.mark, if_pos hend, Array.toList_push] at hordered
    have hlt := lt_of_atLineEnd (List.pairwise_append.1 hordered).1 hend c (Array.mem_def.1 hc)
    rw [(List.cons.inj hframes).1] at hlt
    exact Nat.le_of_lt hlt
  exact ⟨state, a, ls ++ [l], lexer,
    ⟨lexer.offset, lexer.position.line, backward, m.errors, m.checkpoints, hends, hle⟩, htext,
    hstate, hoffset, ⟨hframes, hinput, hseen, hlast, rfl, rfl, hlength,
      Lexer.withRest_eq_moved hcolumn⟩, hline⟩

namespace StandsBehind

variable {s : Setup} {m : Machine} {lexer : Lexer} (hm : p.StandsBehind m state lead lexer)

include hm

theorem checkpoint_eq (s : Setup) : lead.checkpoint ⟨0, {}, 0⟩ = m.checkpoint s := by
  obtain ⟨l, ls, hlook, hfirst⟩ := exists_lookaheads_cons p lexer
  have hposition : m.position s = lexer.position := by
    rw [position, ahead_zero (hm.input.trans hlook), hfirst]
  have hmoved : lexer.position = Position.moved lead.line {} :=
    congrArg Lexer.position (hm.moved lexer.rest)
  have hstop : m.top.stop = lead.offset := by rw [(List.cons.inj hm.frames).1]
  rw [checkpoint, hposition, hstop, hm.errors, hmoved, Lead.checkpoint, Nat.zero_add, Nat.zero_add]

theorem mark_eq (hend : m.atLineEnd s = true) :
    m.mark s = lead.machine (p.behind state lexer.rest).machine := by
  obtain ⟨htop, hbelow⟩ := List.cons.inj hm.frames
  have hmoved : lexer = Lexer.moved lead.offset lead.line ⟨lexer.rest, 0, {}⟩ :=
    hm.moved lexer.rest
  rw [machine_behind, Machine.mark, if_pos hend, ← hm.checkpoint_eq, ← hmoved, hm.errors,
    hm.checkpoints, hm.seen, htop, hbelow, hm.input, hm.lastConsumed]

/-- **The run to the lead is the same whatever follows**: it has looked at nothing behind it. -/
theorem reaches (he : p.table.EofOnly) (hrecord : p.options.recordCheckpoints = true)
    {text : String} {a : List Char} {ls : List Lookahead} (htext : text.toList = a ++ lexer.rest)
    (hpasses : ∀ b, (Lexer.ofText (.ofList (a ++ b))).Passes p.table.isExtra ls (lexer.withRest b))
    (hreach : Reaches (p.fresh text).setup (p.fresh text).machine (m.mark (p.fresh text).setup))
    (hend : m.atLineEnd (p.fresh text).setup = true) (options : ParseOptions) (b : List Char)
    (hrecord' : options.recordCheckpoints = true)
    (hlimit : options.recoveryLimit = p.options.recoveryLimit) :
    Reaches (fresh ⟨p.table, options⟩ (.ofList (a ++ b))).setup
      (fresh ⟨p.table, options⟩ (.ofList (a ++ b))).machine
      (lead.machine (p.behind state b).machine) := by
  have hbefore : p.lookaheads (.ofText text) = ls ++ p.lookaheads lexer := by
    have hwhole := lookaheads_of_passes (p := p) (hpasses lexer.rest)
    rwa [← htext, String.ofList_toList] at hwhole
  have hthere := lookaheads_of_passes (p := p) (hpasses b)
  obtain ⟨l₁, ls₁, h₁⟩ := exists_lookaheads_cons p lexer
  obtain ⟨l₂, ls₂, h₂⟩ := exists_lookaheads_cons p (lexer.withRest b)
  have hunseen : (m.mark (p.fresh text).setup).seen + (p.lookaheads lexer).length ≤
      (m.mark (p.fresh text).setup).input.length := by
    rw [mark_seen, mark_input, hm.seen, hm.input, Nat.zero_add]
  obtain ⟨x, hx, hreach'⟩ := hreach.withInput he rfl (p.ends_lookaheads _)
    (fresh ⟨p.table, options⟩ (.ofList (a ++ b))).setup.stop options.incremental
    ⟨l₁, ls₁, h₁⟩ ⟨l₂, ls₂, h₂⟩ hbefore hunseen
  rw [mark_input, hm.input] at hx
  obtain rfl := List.self_eq_append_left.1 hx
  have hstart : (p.fresh text).machine.withInput (ls ++ p.lookaheads (lexer.withRest b)) =
      (fresh ⟨p.table, options⟩ (.ofList (a ++ b))).machine := by
    rw [← hthere]
    rfl
  have hthen : (m.mark (p.fresh text).setup).withInput ([] ++ p.lookaheads (lexer.withRest b)) =
      lead.machine (p.behind state b).machine := by
    rw [hm.mark_eq hend, machine_behind, machine_behind, hm.moved b]
    rfl
  rw [like_fresh hrecord hrecord' hlimit, hstart, hthen] at hreach'
  exact hreach'

end StandsBehind

/-- **At each place that it records a parse comes to a lead**, the same whatever follows. -/
theorem exists_leads (h : Assembly.Shipped g p.table w)
    (hrecord : p.options.recordCheckpoints = true) {text : String} {m : Machine}
    (hreach : Reaches (p.fresh text).setup (p.fresh text).machine (m.mark (p.fresh text).setup))
    (hend : m.atLineEnd (p.fresh text).setup = true) : ∃ state a b lead,
      text.toList = a ++ b ∧ p.table.resumeState = some state ∧ p.Leads state a lead ∧
      m.mark (p.fresh text).setup = lead.machine (p.behind state b).machine ∧
      lead.checkpoint ⟨0, {}, 0⟩ = m.checkpoint (p.fresh text).setup := by
  obtain ⟨state, a, ls, lexer, lead, htext, hstate, hoffset, hm, hpasses⟩ :=
    exists_standsBehind h hreach hend
  refine ⟨state, a, lexer.rest, lead, htext, hstate, ⟨hoffset, hm.length, ?_, ?_⟩,
    hm.mark_eq hend, hm.checkpoint_eq _⟩
  · intro options b hrecord' hlimit
    rw [setup_behind p state b lead options hrecord' hlimit, ← hm.moved,
      stopToken_of_reads (hpasses b).reads]
    rfl
  · exact hm.reaches h.eofOnly hrecord htext hpasses hreach hend

/-- **The result of a parse is that of the lines behind a place, moved behind the lead.** -/
theorem Leads.run (h : Assembly.Shipped g p.table w) (hstate : p.table.resumeState = some state)
    (hleads : p.Leads state a lead) (b : List Char) : ∃ out later,
      (p.behind state b).run = some out ∧ out.checkpoints = ⟨0, {}, 0⟩ :: later ∧
      ∀ options : ParseOptions, options.recordCheckpoints = true →
        options.recoveryLimit = p.options.recoveryLimit →
        (fresh ⟨p.table, options⟩ (.ofList (a ++ b))).run = some (lead.output out) := by
  have ht : g.HasTable (p.behind state b).setup.table := h.hasTable
  obtain ⟨out, later, hrun, hlater, hout⟩ := (anchored_behind h hstate b).output ht h.lines
    h.weighted h.eofOnly rfl (by
      simpa [Grammar.weigh, Symbol.weight] using h.weighted.le Assembly.lines)
  refine ⟨out, later, hrun, hlater, fun options hrecord hlimit => ?_⟩
  obtain ⟨m, -, -, hwhole⟩ := run_fresh (p := ⟨p.table, options⟩) h (.ofList (a ++ b))
  obtain ⟨m', hreach, hacc, haccept⟩ := hout lead options.incremental
  rw [← hleads.setup options b hrecord hlimit] at hreach hacc haccept
  obtain ⟨fuel, hfuel⟩ := run_of_reaches (hleads.reaches options b hrecord hlimit) hwhole
  obtain ⟨fuel', hfuel'⟩ := run_of_reaches hreach hfuel
  rw [hwhole, hacc.run hfuel', haccept]

theorem exists_run (h : Assembly.Shipped g p.table w) (text : String) :
    ∃ out, (p.fresh text).run = some out := by
  obtain ⟨m, -, -, hrun⟩ := run_fresh h text
  exact ⟨_, hrun⟩

theorem parse_of_run {text : String} {out : Output} (h : (p.fresh text).run = some out) :
    p.parse text none = .ok {
      children := out.children
      errors := out.errors
      checkpoints := out.checkpoints
      lineIndex := .ofText text
      grammarVersion := p.table.grammarVersion
      recoveryLimit := p.options.recoveryLimit } := by
  unfold parse start
  rw [h]

/-- A parse parts into a lead and what is made of the lines behind it. -/
structure Parts (p : Parser) (text : String) (tree : SyntaxTree) (state : Nat) (a b : List Char)
    (lead : Lead) (out : Output) (later : List Checkpoint) : Prop where
  split : text.toList = a ++ b
  resume : p.table.resumeState = some state
  leads : p.Leads state a lead
  run : (p.behind state b).run = some out
  later : out.checkpoints = ⟨0, {}, 0⟩ :: later
  children : tree.children = (lead.output out).children
  errors : tree.errors = (lead.output out).errors
  checkpoints : tree.checkpoints = (lead.output out).checkpoints
  ordered : tree.checkpoints.Pairwise (·.offset < ·.offset)

/-- **A parse parts at each place that it records.** -/
theorem exists_parts (h : Assembly.Shipped g p.table w) {text : String} {tree : SyntaxTree}
    (hparse : p.parse text none = .ok tree) {c : Checkpoint} (hc : c ∈ tree.checkpoints) :
    ∃ state a b lead out later, p.Parts text tree state a b lead out later ∧
      lead.checkpoint ⟨0, {}, 0⟩ = c := by
  obtain ⟨m, hreach, -, hrun⟩ := run_fresh h text
  have hrecorded := Recorded.reaches_of h.eofOnly rfl (p.ends_lookaheads _) rfl hreach
  rw [parse_of_run hrun] at hparse
  cases hparse
  obtain ⟨m₀, hend, rfl, hbefore, -⟩ := hrecorded.reaches c (Array.mem_def.2 hc)
  have hrecord : p.options.recordCheckpoints = true := by
    simp only [atLineEnd, Bool.and_eq_true] at hend
    exact hend.1.1.1.1.1
  obtain ⟨state, a, b, lead, htext, hstate, hleads, -, hcheckpoint⟩ :=
    exists_leads h hrecord hbefore hend
  obtain ⟨out, later, hbehind, hlater, hwhole⟩ := hleads.run h hstate b
  have hsame := hwhole p.options hrecord rfl
  rw [← htext, String.ofList_toList] at hsame
  have hout := Option.some.inj (hrun.symm.trans hsame)
  exact ⟨state, a, b, lead, out, later, ⟨htext, hstate, hleads, hbehind, hlater,
    congrArg Output.children hout, congrArg Output.errors hout, congrArg Output.checkpoints hout,
    hrecorded.ordered⟩, hcheckpoint⟩

end Parser

/-! ## Trees in their places -/

namespace Located

variable {earlier : List Tree}

/-- Trees that end a line begin before its end, since that end is not empty. -/
theorem start_lt (h : EndsLine earlier) {l : Located} (hl : l ∈ row 0 earlier.reverse) :
    l.start < Tree.lengthAll earlier := by
  obtain ⟨text, rest, rfl, hpos⟩ := h
  rw [List.reverse_cons, row_append] at hl
  rw [Tree.lengthAll_cons, Tree.length]
  rcases List.mem_append.1 hl with hl | hl
  · have hle := stop_le hl
    rw [Located.stop, Tree.lengthAll_reverse] at hle
    omega
  · rw [List.mem_singleton.1 hl, Tree.lengthAll_reverse]
    dsimp only
    omega

variable (h : EndsLine earlier) (behind : List Tree)

include h

theorem filter_lt_row : (row 0 (earlier.reverse ++ behind)).filter
    (·.start < Tree.lengthAll earlier) = row 0 earlier.reverse := by
  rw [row_append, Tree.lengthAll_reverse, Nat.zero_add, List.filter_append, List.filter_eq_self.2,
    List.filter_eq_nil_iff.2, List.append_nil]
  · intro l hl
    simpa using le_start hl
  · intro l hl
    exact decide_eq_true (start_lt h hl)

theorem filter_ge_row : (row 0 (earlier.reverse ++ behind)).filter
    (Tree.lengthAll earlier ≤ ·.start) = row (Tree.lengthAll earlier) behind := by
  rw [row_append, Tree.lengthAll_reverse, Nat.zero_add, List.filter_append,
    List.filter_eq_nil_iff.2, List.filter_eq_self.2, List.nil_append]
  · intro l hl
    exact decide_eq_true (le_start hl)
  · intro l hl
    simpa using start_lt h hl

theorem takeWhile_row : (row 0 (earlier.reverse ++ behind)).takeWhile
    (·.start < Tree.lengthAll earlier) = row 0 earlier.reverse := by
  have hnone : (row (Tree.lengthAll earlier) behind).takeWhile
      (·.start < Tree.lengthAll earlier) = [] := by
    cases behind with
    | nil => rfl
    | cons t ts => rw [row_cons, List.takeWhile_cons_of_neg (by simp)]
  rw [row_append, Tree.lengthAll_reverse, Nat.zero_add, List.takeWhile_append_of_pos, hnone,
    List.append_nil]
  intro l hl
  exact decide_eq_true (start_lt h hl)

end Located

namespace Lead

variable {lead : Lead} (hlength : Tree.lengthAll lead.backward = lead.offset) (out : Output)

include hlength

theorem filter_lt_output : (Located.row 0 (lead.output out).children).filter
    (·.start < lead.offset) = Located.row 0 lead.backward.reverse := by
  rw [← hlength]
  exact Located.filter_lt_row lead.endsLine out.children

theorem filter_ge_output : (Located.row 0 (lead.output out).children).filter
    (lead.offset ≤ ·.start) = Located.row lead.offset out.children := by
  rw [← hlength]
  exact Located.filter_ge_row lead.endsLine out.children

theorem takeWhile_output : (Located.row 0 (lead.output out).children).takeWhile
    (·.start < lead.offset) = Located.row 0 lead.backward.reverse := by
  rw [← hlength]
  exact Located.takeWhile_row lead.endsLine out.children

omit hlength in
theorem take_output : (lead.output out).errors.take lead.errors.size = lead.errors.toList := by
  rw [output, ← Array.length_toList, List.take_left]

omit hlength in
theorem drop_output : (lead.output out).errors.drop lead.errors.size =
    out.errors.map (Diagnostic.shift lead.offset) := by
  rw [output, ← Array.length_toList, List.drop_left]

omit hlength in
theorem offset_origin (lead : Lead) : (lead.checkpoint ⟨0, {}, 0⟩).offset = lead.offset :=
  Nat.zero_add _

omit hlength in
theorem errorCount_origin (lead : Lead) :
    (lead.checkpoint ⟨0, {}, 0⟩).errorCount = lead.errors.size := Nat.zero_add _

end Lead

/-! ## One place in two texts -/

theorem Diagnostic.shift_shift (d : Diagnostic) (x y : Nat) :
    (d.shift x).shift ((y : Int) - x) = d.shift y := by
  have hoffset (offset : Nat) : shiftOffset ((y : Int) - x) (shiftOffset x offset) =
      shiftOffset y offset := by
    rw [shiftOffset_natCast, shiftOffset_natCast, shiftOffset]
    omega
  have hrange (r : TextRange) : (r.shift x).shift ((y : Int) - x) = r.shift y := by
    simp only [TextRange.shift, hoffset]
  simp only [shift, hrange, List.map_map, Function.comp_def]

/-- A list in order parts at one place only. -/
theorem eq_of_ordered {c : Checkpoint} {xs ys xs' ys' : List Checkpoint}
    (hordered : (xs ++ c :: ys).Pairwise (·.offset < ·.offset))
    (h : xs ++ c :: ys = xs' ++ c :: ys') : xs = xs' ∧ ys = ys' := by
  induction xs generalizing xs' with
  | nil =>
    cases xs' with
    | nil => exact ⟨rfl, (List.cons.inj h).2⟩
    | cons d xs' =>
      obtain ⟨rfl, rfl⟩ := List.cons.inj h
      exact absurd ((List.pairwise_cons.1 hordered).1 c (by simp)) (Nat.lt_irrefl _)
  | cons x xs ih =>
    cases xs' with
    | nil =>
      obtain ⟨rfl, -⟩ := List.cons.inj h
      exact absurd ((List.pairwise_cons.1 hordered).1 x (by simp)) (Nat.lt_irrefl _)
    | cons d xs' =>
      obtain ⟨rfl, hrest⟩ := List.cons.inj h
      obtain ⟨rfl, rfl⟩ := ih (List.pairwise_cons.1 hordered).2 hrest
      exact ⟨rfl, rfl⟩

namespace Parser

variable {p p' : Parser} {text text' : String} {tree tree' : SyntaxTree} {state state' : Nat}
  {a a' b : List Char} {lead lead' : Lead} {out out' : Output} {later later' : List Checkpoint}

/-- What is made of the lines behind a place depends on these lines alone. -/
theorem Parts.unique (h : p.Parts text tree state a b lead out later)
    (h' : p'.Parts text' tree' state' a' b lead' out' later') (htable : p.table = p'.table)
    (hlimit : p.options.recoveryLimit = p'.options.recoveryLimit) :
    out = out' ∧ later = later' := by
  have hstate : state = state' := by
    have hsame := h.resume
    rw [htable, h'.resume] at hsame
    exact (Option.some.inj hsame).symm
  have hbehind : p.behind state b = p'.behind state' b := by
    unfold Parser.behind
    rw [htable, hlimit, hstate]
  have hrun := h.run
  rw [hbehind, h'.run] at hrun
  obtain rfl := Option.some.inj hrun
  exact ⟨rfl, (List.cons.inj (h.later.symm.trans h'.later)).2⟩

theorem Parts.checkpoints_eq (h : p.Parts text tree state a b lead out later) :
    tree.checkpoints = lead.checkpoints.toList ++
      lead.checkpoint ⟨0, {}, 0⟩ :: later.map lead.checkpoint := by
  rw [h.checkpoints, Lead.output, h.later, List.map_cons]

theorem Parts.filter_later (h : p.Parts text tree state a b lead out later) :
    tree.checkpoints.filter ((lead.checkpoint ⟨0, {}, 0⟩).offset < ·.offset) =
      later.map lead.checkpoint := by
  have hordered := h.ordered
  rw [h.checkpoints_eq] at hordered
  obtain ⟨-, hbehind, hbefore⟩ := List.pairwise_append.1 hordered
  rw [h.checkpoints_eq, List.filter_append, List.filter_eq_nil_iff.2, List.nil_append,
    List.filter_cons_of_neg (by simp), List.filter_eq_self.2]
  · intro c hc
    exact decide_eq_true ((List.pairwise_cons.1 hbehind).1 c hc)
  · intro c hc
    have hlt := hbefore c hc _ List.mem_cons_self
    simp only [decide_eq_true_eq]
    omega

end Parser

end AsmTree
