import AsmTree.Proofs.Machine.LineEnds

/-!
# Machines behind other lines

A `Lead` is what stands before a line: how long it is, its trees, and what was reported and recorded
on it. A machine that began with no text before it makes the same moves behind a lead.

**Main statements:** each operation of a machine is the same behind a lead (`report_machine`,
`shift_machine`, `reduce?_machine`, `recover?_machine`), as long as it leaves the lead alone.
-/

namespace AsmTree

open Lookahead

/-! ## Diagnostics in another place -/

@[simp] theorem shiftOffset_natCast (n offset : Nat) :
    shiftOffset (n : Int) offset = offset + n := by
  rw [shiftOffset, ← Int.natCast_add, Int.toNat_natCast]

@[simp] theorem Token.kind_moved (t : Token) (offset lines : Nat) :
    (t.moved offset lines).kind = t.kind := rfl

@[simp] theorem Token.text_moved (t : Token) (offset lines : Nat) :
    (t.moved offset lines).text = t.text := rfl

theorem Token.range_moved (t : Token) (offset lines : Nat) :
    (t.moved offset lines).range = t.range.shift (offset : Int) := by
  simp [Token.range, TextRange.ofLength, TextRange.shift, moved, Token.length, Nat.add_right_comm]

theorem Diagnostic.unreadable_moved (t : Token) (offset lines : Nat) :
    unreadable (t.moved offset lines) = (unreadable t).shift (offset : Int) := by
  unfold unreadable
  rw [t.range_moved offset lines, t.text_moved offset lines]
  by_cases hcomment : t.text.startsWith "/*" = true
  · rw [if_pos hcomment, if_pos hcomment]
    rfl
  · rw [if_neg hcomment, if_neg hcomment]
    by_cases hstring : (t.text.startsWith "\"" || t.text.startsWith "#\"") = true
    · rw [if_pos hstring, if_pos hstring]
      rfl
    · rw [if_neg hstring, if_neg hstring]
      rfl

/-! ## Leads -/

/-- Complete lines before a place, and what a parse has made of them. -/
structure Lead where
  /-- Number of bytes. -/
  offset : Nat
  /-- Number of lines. -/
  line : Nat
  /-- The trees, the last one first. -/
  backward : List Tree
  errors : Array Diagnostic
  checkpoints : Array Checkpoint
  /-- The last of the lines is complete. -/
  endsLine : EndsLine backward
  /-- The checkpoints lie in the lines. -/
  offset_le : ∀ c ∈ checkpoints, c.offset ≤ offset

namespace Lead

variable (lead : Lead)

/-- A frame behind the lead. The lowest frame is empty, and the one on it holds the trees of the
lead too. -/
def frame : List Frame → Frame → Frame
  | [], f => f
  | [_], f => ⟨f.state, f.backward ++ lead.backward, f.stop + lead.offset⟩
  | _, f => { f with stop := f.stop + lead.offset }

/-- A stack behind the lead. -/
def frames : List Frame → List Frame
  | [] => []
  | f :: below => lead.frame below f :: frames below

def checkpoint (c : Checkpoint) : Checkpoint :=
  ⟨c.offset + lead.offset, c.position.moved lead.line, c.errorCount + lead.errors.size⟩

def report (errors : Array Diagnostic) : Array Diagnostic :=
  lead.errors ++ errors.map (Diagnostic.shift lead.offset)

def record (checkpoints : Array Checkpoint) : Array Checkpoint :=
  lead.checkpoints ++ checkpoints.map lead.checkpoint

/-- A machine behind the lead. -/
def machine (m : Machine) : Machine where
  top := lead.frame m.below m.top
  below := lead.frames m.below
  input := m.input.map (Lookahead.moved lead.offset lead.line)
  seen := m.seen
  errors := lead.report m.errors
  checkpoints := lead.record m.checkpoints
  lastConsumed := m.lastConsumed

def setup (incremental : Bool) (s : Setup) : Setup :=
  s.like (s.stop.moved lead.offset lead.line) incremental

def output (o : Output) : Output :=
  ⟨lead.backward.reverse ++ o.children, lead.errors.toList ++
    o.errors.map (Diagnostic.shift lead.offset), lead.checkpoints.toList ++
    o.checkpoints.map lead.checkpoint⟩

/-! ## Stacks -/

variable {lead}

@[simp] theorem state_frame (below : List Frame) (f : Frame) :
    (lead.frame below f).state = f.state := by
  unfold frame
  split <;> rfl

theorem stop_frame {below : List Frame} (h : below ≠ []) (f : Frame) :
    (lead.frame below f).stop = f.stop + lead.offset := by
  unfold frame
  split
  · contradiction
  · rfl
  · rfl

theorem frame_of_lt {below : List Frame} (h : 1 < below.length) (f : Frame) :
    lead.frame below f = { f with stop := f.stop + lead.offset } := by
  unfold frame
  split
  · simp at h
  · simp at h
  · rfl

/-- Behind a lead a frame ends as before, or with the end of a line. -/
theorem backward_cases (lead : Lead) (below : List Frame) (f : Frame) :
    (∃ tree rest rest', f.backward = tree :: rest ∧
        (lead.frame below f).backward = tree :: rest') ∨
      f.backward = [] ∧ ((lead.frame below f).backward = [] ∨
        EndsLine (lead.frame below f).backward) := by
  obtain ⟨state, backward, stop⟩ := f
  unfold frame
  cases backward with
  | nil =>
    refine Or.inr ⟨rfl, ?_⟩
    split
    · exact Or.inl rfl
    · exact Or.inr lead.endsLine
    · exact Or.inl rfl
  | cons tree rest =>
    refine Or.inl ⟨tree, rest, ?_⟩
    split
    · exact ⟨rest, rfl, rfl⟩
    · exact ⟨rest ++ lead.backward, rfl, rfl⟩
    · exact ⟨rest, rfl, rfl⟩

@[simp] theorem length_frames (fs : List Frame) : (lead.frames fs).length = fs.length := by
  induction fs with
  | nil => rfl
  | cons f fs ih => simp [frames, ih]

@[simp] theorem states_frames (fs : List Frame) :
    (lead.frames fs).map Frame.state = fs.map Frame.state := by
  induction fs with
  | nil => rfl
  | cons f fs ih => simp [frames, ih]

theorem drop_frames (fs : List Frame) (n : Nat) :
    (lead.frames fs).drop n = lead.frames (fs.drop n) := by
  induction n generalizing fs with
  | zero => rfl
  | succ n ih =>
    cases fs with
    | nil => rfl
    | cons f fs => exact ih fs

theorem joined_take_of_lt {fs : List Frame} {n : Nat} (h : n + 1 < fs.length) :
    Frame.joined ((lead.frames fs).take n) = Frame.joined (fs.take n) := by
  induction n generalizing fs with
  | zero => rfl
  | succ n ih =>
    obtain ⟨f, fs, rfl⟩ := List.exists_cons_of_length_pos (Nat.zero_lt_of_lt h)
    have hfs : n + 1 < fs.length := Nat.lt_of_succ_lt_succ h
    rw [frames, List.take_succ_cons, Frame.joined_cons, ih hfs, List.take_succ_cons,
      Frame.joined_cons, frame_of_lt (Nat.lt_of_le_of_lt (Nat.le_add_left 1 n) hfs)]

theorem joined_take_of_eq {fs : List Frame} {n : Nat} (h : fs.length = n + 2) :
    Frame.joined ((lead.frames fs).take (n + 1)) =
      Frame.joined (fs.take (n + 1)) ++ lead.backward := by
  induction n generalizing fs with
  | zero =>
    obtain ⟨f, bottom, rfl⟩ := List.length_eq_two.1 h
    rfl
  | succ n ih =>
    obtain ⟨f, fs, rfl⟩ := List.exists_cons_of_length_pos (by rw [h]; exact Nat.succ_pos _)
    have hfs : fs.length = n + 2 := Nat.succ.inj h
    rw [frames, List.take_succ_cons, Frame.joined_cons, ih hfs, List.take_succ_cons,
      Frame.joined_cons, frame_of_lt (by omega), List.append_assoc]

end Lead

namespace Machine

variable {g : Grammar} {s : Setup} {m m' : Machine} {lead : Lead} {incremental : Bool}
  {read : List Symbol} {l : Lookahead} {ls : List Lookahead}

@[simp] theorem frames_machine (m : Machine) : (lead.machine m).frames = lead.frames m.frames := rfl

@[simp] theorem look_machine (m : Machine) (n : Nat) :
    lead.machine (m.look n) = (lead.machine m).look n := rfl

/-! ## Tokens -/

@[simp] theorem ahead_machine (m : Machine) (n : Nat) :
    (lead.machine m).ahead (lead.setup incremental s) n =
      (m.ahead s n).moved lead.offset lead.line := by
  rw [ahead, ahead, Lead.machine, List.getD_eq_getElem?_getD, List.getElem?_map,
    List.getD_eq_getElem?_getD]
  cases m.input[n]? <;> rfl

@[simp] theorem next_machine (m : Machine) :
    ((lead.machine m).next (lead.setup incremental s)).kind = (m.next s).kind := by
  rw [next, ahead_machine]
  rfl

theorem position_machine (m : Machine) :
    (lead.machine m).position (lead.setup incremental s) = (m.position s).moved lead.line := by
  have hfirst (l : Lookahead) : (l.moved lead.offset lead.line).first =
      l.first.moved lead.offset lead.line := by
    obtain ⟨trivia, token⟩ := l
    cases trivia <;> rfl
  rw [position, ahead_machine, hfirst]
  rfl

theorem unreadables_moved (ls : List Lookahead) (offset lines : Nat) :
    unreadables (ls.map (Lookahead.moved offset lines)) =
      (unreadables ls).map (Diagnostic.shift offset) := by
  induction ls with
  | nil => rfl
  | cons l ls ih =>
    rw [List.map_cons, unreadables_cons, ih, unreadables_cons l, List.map_append]
    congr 1
    simp only [unreadables, List.filterMap_cons, List.filterMap_nil]
    by_cases hk : l.token.kind = .unknown
    · simp [hk, Lookahead.moved, Diagnostic.unreadable_moved]
    · simp [hk, Lookahead.moved]

/-! ## Reports -/

theorem report_push (errors : Array Diagnostic) (d : Diagnostic) :
    lead.report (errors.push d) = (lead.report errors).push (d.shift lead.offset) := by
  simp [Lead.report]

theorem report_append (errors : Array Diagnostic) (ds : List Diagnostic) :
    lead.report (errors ++ ds.toArray) =
      lead.report errors ++ (ds.map (Diagnostic.shift lead.offset)).toArray := by
  simp [Lead.report]

/-- The opening word at the end of a frame. -/
theorem opener?_frame {below : List Frame} {f : Frame} (t : ParseTable)
    (hbottom : below = [] → f.backward = []) (hlen : Tree.lengthAll f.backward ≤ f.stop) :
    (lead.frame below f).opener? t =
      (f.opener? t).map fun (k, r) => (k, r.shift (lead.offset : Int)) := by
  rcases lead.backward_cases below f with ⟨tree, rest, rest', hf, hmoved⟩ | ⟨hf, hmoved⟩
  · have hbelow : below ≠ [] := by
      intro hnil
      rw [hbottom hnil] at hf
      cases hf
    rw [Frame.opener?, Frame.opener?, hmoved, hf, Lead.state_frame, Lead.stop_frame hbelow]
    cases tree with
    | node k cs => rfl
    | token k text =>
      rw [hf, Tree.lengthAll_cons] at hlen
      have hsize : text.utf8ByteSize ≤ f.stop := Nat.le_trans (Nat.le_add_right _ _) hlen
      dsimp only
      split
      · simp only [Option.map_some, TextRange.shift, shiftOffset_natCast]
        rw [Nat.sub_add_comm hsize]
      · rfl
  · -- the end of a line opens nothing
    rw [Frame.opener?, Frame.opener?, hf]
    rcases hmoved with hmoved | ⟨text, rest, hmoved, -⟩
    · rw [hmoved]
      rfl
    · rw [hmoved]
      rfl

theorem openBlock?_machine (h : g.Stacked m.frames read) :
    (lead.machine m).openBlock? (lead.setup incremental s) =
      (m.openBlock? s).map fun (k, r) => (k, r.shift (lead.offset : Int)) := by
  show (lead.frames m.frames).findSome? (Frame.opener? s.table) =
    (m.frames.findSome? (Frame.opener? s.table)).map _
  generalize m.frames = fs at h
  induction h with
  | bottom => rfl
  | @push f base rest sym read hbelow hmove hstop ih =>
    rw [Lead.frames, List.findSome?_cons, List.findSome?_cons, ih,
      opener?_frame s.table (by simp) (by omega)]
    cases f.opener? s.table <;> rfl

theorem context?_frame (t : ParseTable) (onTop : Bool) (below : List Frame) (f : Frame) :
    (lead.frame below f).context? t onTop = f.context? t onTop := by
  rw [Frame.context?, Frame.context?, Lead.state_frame]

theorem context_machine (h : g.Stacked m.frames read) :
    (lead.machine m).context (lead.setup incremental s) = m.context s := by
  have hbelow : (lead.frames m.below).findSome? (Frame.context? s.table false) =
      m.below.findSome? (Frame.context? s.table false) := by
    induction m.below with
    | nil => rfl
    | cons f below ih =>
      rw [Lead.frames, List.findSome?_cons, List.findSome?_cons, ih, context?_frame]
  unfold context
  rw [openBlock?_machine h, Option.isSome_map]
  dsimp only [Lead.machine, Lead.setup, Setup.table_like]
  rw [context?_frame, hbelow]
  rcases lead.backward_cases m.below m.top with ⟨tree, rest, rest', hf, hmoved⟩ | ⟨hf, hmoved⟩
  · rw [hmoved, hf]
    cases tree <;> rfl
  · rw [hf]
    rcases hmoved with hmoved | ⟨text, rest, hmoved, -⟩
    · rw [hmoved]
    · rw [hmoved]

/-- **A report is the same behind a lead.** -/
theorem report_machine (h : g.Stacked m.frames read) :
    (lead.machine m).report (lead.setup incremental s) = lead.machine (m.report s) := by
  unfold report
  rw [ahead_machine, openBlock?_machine h, context_machine h]
  dsimp only [Lookahead.moved, Token.kind_moved]
  have hadd (d d' : Diagnostic) (hd : d' = d.shift lead.offset) :
      { lead.machine m with errors := (lead.machine m).errors.push d' } =
        lead.machine { m with errors := m.errors.push d } := by
    rw [hd]
    simp only [Lead.machine, report_push]
  have htop : (lead.machine m).top.state = m.top.state := Lead.state_frame _ _
  split
  · rfl
  · cases m.openBlock? s with
    | none => exact hadd _ _ (by rw [htop, Token.range_moved]; rfl)
    | some opened => exact hadd _ _ (by simp [Diagnostic.shift, Diagnostic.openBlock, Token.moved,
        TextRange.point, TextRange.shift])
  · exact hadd _ _ (by rw [htop, Token.range_moved]; rfl)

/-! ## Moves -/

/-- **A shift is the same behind a lead.** -/
theorem shift_machine (hinput : m.input = l :: ls) (hbelow : m.below ≠ []) (target : Nat) :
    (lead.machine m).shift (lead.setup incremental s) target = lead.machine (m.shift s target) := by
  have hinput' : (lead.machine m).input =
      l.moved lead.offset lead.line :: ls.map (Lookahead.moved lead.offset lead.line) := by
    rw [Lead.machine, hinput, List.map_cons]
  have hlen : 1 < m.frames.length :=
    Nat.succ_lt_succ (List.length_pos_of_ne_nil hbelow)
  have hunread := unreadables_moved [l] lead.offset lead.line
  rw [List.map_singleton] at hunread
  rw [shift_eq hinput, shift_eq hinput', hunread]
  simp only [Lead.machine, Lead.frame_of_lt hlen, report_append, Lookahead.trees_moved]
  simp [Lookahead.moved, frames, Lead.frames]

/-- A frame that replaces others. It takes over the trees of the lead if no node is made. -/
theorem reducedFrame_frames {t : ParseTable} {r : Reduction} {fs rest : List Frame} {base : Frame}
    {n : Nat} (hdrop : fs.drop n = base :: rest) (hlen : 1 < fs.length)
    (hhidden : n + 1 = fs.length → r.kind = none) (state : Nat) :
    reducedFrame t r ((lead.frames fs).take n) (lead.frame rest base) state =
      lead.frame (base :: rest) (reducedFrame t r (fs.take n) base state) := by
  have hsum : n + (rest.length + 1) = fs.length := by
    have hlength := congrArg List.length hdrop
    rw [List.length_drop, List.length_cons] at hlength
    omega
  cases rest with
  | nil =>
    -- the frames go down to the lead
    obtain ⟨k, rfl⟩ : ∃ k, n = k + 1 := Nat.exists_eq_succ_of_ne_zero (by
      rw [List.length_nil] at hsum
      omega)
    have hjoined : Frame.joined ((lead.frames fs).take (k + 1)) =
        Frame.joined (fs.take (k + 1)) ++ lead.backward := Lead.joined_take_of_eq hsum.symm
    obtain ⟨f, fs, rfl⟩ := List.exists_cons_of_length_pos (Nat.zero_lt_of_lt hlen)
    have hfs : fs ≠ [] := by
      rintro rfl
      simp at hlen
    unfold reducedFrame
    rw [hhidden hsum, hjoined, Lead.frames, List.take_succ_cons, List.take_succ_cons]
    dsimp only
    rw [Lead.stop_frame hfs]
    rfl
  | cons b rest =>
    have hjoined : Frame.joined ((lead.frames fs).take n) = Frame.joined (fs.take n) := by
      refine Lead.joined_take_of_lt ?_
      rw [List.length_cons] at hsum
      omega
    have hbelow : 1 < (base :: b :: rest).length := Nat.succ_lt_succ (Nat.succ_pos _)
    rw [Lead.frame_of_lt hbelow]
    unfold reducedFrame
    rw [hjoined]
    cases n with
    | zero => rw [List.take_zero, List.take_zero, Lead.stop_frame (List.cons_ne_nil b rest)]
    | succ k =>
      obtain ⟨f, fs, rfl⟩ := List.exists_cons_of_length_pos (Nat.zero_lt_of_lt hlen)
      have hfs : fs ≠ [] := by
        rintro rfl
        simp at hlen
      rw [Lead.frames, List.take_succ_cons, List.take_succ_cons]
      dsimp only
      rw [Lead.stop_frame hfs]

/-- **A reduction is the same behind a lead**, if no node is made of the trees of the lead. -/
theorem reduce?_machine {p : Nat} (h : m.reduce? s p = some m') (hbelow : m.below ≠ [])
    (hhidden : (s.table.production p).length + 1 = m.frames.length →
      (s.table.production p).kind = none) :
    (lead.machine m).reduce? (lead.setup incremental s) p = some (lead.machine m') := by
  obtain ⟨base, rest, state, hdrop, hgoto, rfl⟩ := reduce?_eq_some.1 h
  have hlen : 1 < m.frames.length := Nat.succ_lt_succ (List.length_pos_of_ne_nil hbelow)
  refine reduce?_eq_some.2 ⟨lead.frame rest base, lead.frames rest, state, ?_, ?_, ?_⟩
  · show (lead.frames m.frames).drop (s.table.production p).length = _
    rw [Lead.drop_frames, hdrop]
    rfl
  · rw [Lead.state_frame]
    exact hgoto
  · show _ = ({ lead.machine m with
      top := reducedFrame s.table (s.table.production p)
        ((lead.frames m.frames).take (s.table.production p).length) (lead.frame rest base) state
      below := lead.frame rest base :: lead.frames rest } : Machine)
    rw [reducedFrame_frames hdrop hlen hhidden]
    rfl

/-! ## Recovery -/

theorem search_moved (viable : Kind → Bool) (limit : Nat) (input : List Lookahead) (skip : Nat)
    (offset lines : Nat) :
    search viable limit (input.map (Lookahead.moved offset lines)) skip =
      search viable limit input skip := by
  induction limit generalizing input skip with
  | zero => rfl
  | succ limit ih =>
    cases input with
    | nil => rfl
    | cons l ls =>
      rw [List.map_cons, search, search, ih]
      rfl

theorem searchFrames_frames (input : List Lookahead) (fs : List Frame) (above : Nat)
    (fallback : Option Resync) (looked : Nat) :
    searchFrames (lead.setup incremental s) (input.map (Lookahead.moved lead.offset lead.line))
        (lead.frames fs) above fallback looked =
      searchFrames s input fs above fallback looked := by
  induction fs generalizing above fallback looked with
  | nil => rfl
  | cons f rest ih =>
    have hempty : (lead.frames rest).isEmpty = rest.isEmpty := by
      cases rest <;> rfl
    rw [Lead.frames, searchFrames_cons, searchFrames_cons, hempty]
    simp only [search_moved, ih, List.map_cons, Lead.state_frame, Lead.states_frames]
    rfl

theorem recovered_machine {r : Resync} (h : r.above + 1 < m.frames.length) :
    (lead.machine m).recovered r = m.recovered r := by
  rw [recovered, frames_machine, Lead.joined_take_of_lt h, recovered, Lead.machine, ← List.map_take,
    List.flatMap_map]
  simp only [Lookahead.trees_moved]

theorem record_filter (checkpoints : Array Checkpoint) (offset : Nat) :
    (lead.record checkpoints).filter (·.offset ≤ offset + lead.offset) =
      lead.record (checkpoints.filter (·.offset ≤ offset)) := by
  have hlead : lead.checkpoints.filter (·.offset ≤ offset + lead.offset) = lead.checkpoints := by
    refine Array.filter_eq_self.2 fun c hc => decide_eq_true ?_
    exact Nat.le_trans (lead.offset_le c hc) (Nat.le_add_left _ _)
  have hmoved (c : Checkpoint) : ((lead.checkpoint c).offset ≤ offset + lead.offset) ↔
      c.offset ≤ offset := Nat.add_le_add_iff_right
  rw [Lead.record, Array.filter_append (by simp), hlead, Array.filter_map, Lead.record]
  simp only [Function.comp_def, hmoved]

/-- **Recovery is the same behind a lead**, if it leaves the lowest frame and the lead alone. -/
theorem recover?_machine (hends : Ends m.input) (h : m.recover? s = some m')
    (habove : ∀ r ∈ (searchFrames s m.input m.frames 0 none 0).resync,
      r.above + 1 < m.frames.length) :
    (lead.machine m).recover? (lead.setup incremental s) = some (lead.machine m') := by
  have hplan : searchFrames (lead.setup incremental s)
      (m.input.map (Lookahead.moved lead.offset lead.line)) (lead.frames m.frames) 0 none 0 =
      searchFrames s m.input m.frames 0 none 0 := searchFrames_frames _ _ _ _ _
  unfold recover? at h ⊢
  dsimp only at h ⊢
  obtain ⟨r, hr, rfl⟩ := Option.map_eq_some_iff.1 h
  have hlt := habove r hr
  have hskip := Nat.le_of_lt (searchFrames_lt hends hr)
  rw [show (lead.machine m).frames = lead.frames m.frames from rfl,
    show (lead.machine m).input = m.input.map _ from rfl, hplan, hr, Option.map_some]
  generalize (searchFrames s m.input m.frames 0 none 0).looked = n
  obtain ⟨base, rest, hdrop⟩ : ∃ base rest, (m.look n).frames.drop r.above = base :: rest := by
    refine List.exists_cons_of_ne_nil fun hnil => ?_
    rw [look_frames, List.drop_eq_nil_iff] at hnil
    omega
  have hrest : rest ≠ [] := by
    rintro rfl
    have hlength := congrArg List.length hdrop
    rw [look_frames, List.length_drop, List.length_singleton] at hlength
    omega
  have hdrop' : ((lead.machine m).look n).frames.drop r.above =
      lead.frame rest base :: lead.frames rest := by
    show (lead.frames m.frames).drop r.above = _
    rw [Lead.drop_frames, show m.frames.drop r.above = _ from hdrop]
    rfl
  have hskip' : r.skip ≤ ((lead.machine m).look n).input.length := by
    show r.skip ≤ (m.input.map _).length
    rw [List.length_map]
    exact hskip
  rw [resynchronize_eq hdrop' hskip', resynchronize_eq (m := m.look n) hdrop hskip,
    ← look_machine, recovered_machine (m := m.look n) hlt, Lead.stop_frame hrest]
  have hframe : lead.frame (base :: rest) ⟨r.state, wrap s.table .error ((m.look n).recovered r),
      base.stop + Tree.lengthAll ((m.look n).recovered r)⟩ = ⟨r.state,
      wrap s.table .error ((m.look n).recovered r),
      base.stop + lead.offset + Tree.lengthAll ((m.look n).recovered r)⟩ := by
    have hlen : 1 < (base :: rest).length := Nat.succ_lt_succ (List.length_pos_of_ne_nil hrest)
    rw [Lead.frame_of_lt hlen, Nat.add_right_comm]
  simp only [Lead.machine, hframe, record_filter, look_input, report_append, ← List.map_take,
    ← List.map_drop, unreadables_moved, List.getLast?_map, Option.map_map]
  rfl

/-! ## Ends of lines and results -/

/-- The end of a line is one behind a lead too, if the first end of a line has been recorded. -/
theorem atLineEnd_machine (hbelow : m.below ≠ []) (hfirst : m.checkpoints ≠ #[]) :
    (lead.machine m).atLineEnd (lead.setup incremental s) = m.atLineEnd s := by
  have hback : ∃ c, m.checkpoints.back? = some c := by
    cases hc : m.checkpoints.back? with
    | none => exact absurd (Array.back?_eq_none_iff.1 hc) hfirst
    | some c => exact ⟨c, rfl⟩
  obtain ⟨c, hc⟩ := hback
  have hback' : (lead.record m.checkpoints).back? = some (lead.checkpoint c) := by
    rw [Lead.record, Array.back?_append, Array.back?_map, hc]
    rfl
  have hlt : (c.offset + lead.offset < m.top.stop + lead.offset) ↔ c.offset < m.top.stop :=
    Nat.add_lt_add_iff_right
  unfold atLineEnd
  simp only [Lead.machine, Lead.setup, hback', hc, Lead.checkpoint, Lead.length_frames,
    Lead.state_frame, Lead.stop_frame hbelow, hlt, Setup.recordCheckpoints_like, Setup.table_like]

/-- **The end of a line is recorded behind a lead as without it.** -/
theorem mark_machine (hbelow : m.below ≠ []) (hfirst : m.checkpoints ≠ #[]) :
    (lead.machine m).mark (lead.setup incremental s) = lead.machine (m.mark s) := by
  have hcheckpoint : (lead.machine m).checkpoint (lead.setup incremental s) =
      lead.checkpoint (m.checkpoint s) := by
    have hstop : (lead.machine m).top.stop = m.top.stop + lead.offset := Lead.stop_frame hbelow _
    have hsize : (lead.machine m).errors.size = m.errors.size + lead.errors.size := by
      simp [Lead.machine, Lead.report, Nat.add_comm]
    rw [checkpoint, position_machine, hstop, hsize]
    rfl
  rw [mark, atLineEnd_machine hbelow hfirst, hcheckpoint, mark]
  split
  · simp [Lead.machine, Lead.record]
  · rfl

/-- **The result behind a lead is that without it behind the trees of the lead.** -/
theorem accept_machine (h : g.Stacked m.frames read) (hbelow : m.below ≠ []) :
    (lead.machine m).accept (lead.setup incremental s) = lead.output (m.accept s) := by
  obtain ⟨upper, hupper⟩ := h.exists_bottom
  obtain ⟨n, hn⟩ : ∃ n, m.frames.length = n + 2 := by
    obtain ⟨k, hk⟩ :=
      Nat.exists_eq_succ_of_ne_zero (Nat.ne_of_gt (List.length_pos_of_ne_nil hbelow))
    exact ⟨k, congrArg Nat.succ hk⟩
  have hlen : upper.length = n + 1 := by
    rw [hupper, List.length_append] at hn
    exact Nat.succ.inj hn
  have hdrop : m.frames.drop (n + 1) = [⟨ParseTable.startState, [], 0⟩] := by
    rw [hupper, List.drop_append_of_le_length (by omega), ← hlen, List.drop_length]
    rfl
  have htrees (fs : List Frame) (hdrop : fs.drop (n + 1) = [⟨ParseTable.startState, [], 0⟩]) :
      Frame.joined fs = Frame.joined (fs.take (n + 1)) := by
    conv_lhs => rw [← List.take_append_drop (n + 1) fs, hdrop]
    simp
  have hstack : (lead.machine m).stackTrees = lead.backward.reverse ++ m.stackTrees := by
    rw [stackTrees, frames_machine, htrees _ (by rw [Lead.drop_frames, hdrop]; rfl),
      Lead.joined_take_of_eq hn, ← htrees _ hdrop, List.reverse_append, stackTrees]
  rw [accept, hstack, ahead_machine, accept]
  simp [output, Lead.output, Lead.machine, Lead.report, Lead.record, Lookahead.triviaTrees,
    Lookahead.moved, Function.comp_def]

end Machine

end AsmTree
