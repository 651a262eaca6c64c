import AsmTree.Machine.Recovery
import AsmTree.Machine.Report
import AsmTree.Tree.Located

/-!
# Runs

One step is one move of the table, or a recovery. After each step the machine may stand at the end
of a line of the file; the place is recorded, and if the lines behind it are those of an earlier
tree, they are taken over and the run ends.
-/

namespace AsmTree

/-! ## Lines taken over from an earlier tree -/

/-- Moves a line number by a signed distance. -/
def Position.shiftLine (delta : Int) (p : Position) : Position :=
  { p with line := (p.line + delta).toNat }

/-- The lines of the old tree behind a checkpoint of the new one, with what was reported on them,
if the old parse passed the same place. -/
def Splice.tail? (splice : Splice) (place : Checkpoint) : Option Output := do
  if place.offset < splice.minOffset then none
  let oldOffset := shiftOffset (-splice.delta) place.offset
  let i ← splice.old.checkpoints.findIdx? (·.offset == oldOffset)
  let matched ← splice.old.checkpoints[i]?
  let lineDelta : Int := place.position.line - matched.position.line
  -- the new end of the edit lies in the text here, so nothing is moved behind its end, and the
  -- moved offsets have thirty-two bits without being cut (`InputEdit.expectedLength_eq`)
  return {
    children := ((Located.row 0 splice.old.children).filter (oldOffset ≤ ·.start)).map Located.tree
    errors := (splice.old.errors.drop matched.errorCount).map (·.shift splice.delta)
    checkpoints := (splice.old.checkpoints.drop (i + 1)).map fun c =>
      { offset := shiftOffset splice.delta c.offset
        position := c.position.shiftLine lineDelta
        errorCount := c.errorCount - matched.errorCount + place.errorCount } }

namespace Machine

/-! ## Line ends -/

/-- Whether the machine stands behind a complete line of the file that has not been recorded. -/
def atLineEnd (s : Setup) (m : Machine) : Bool :=
  s.options.recordCheckpoints && m.lastConsumed == some .newline && m.below.length == 1 &&
    m.seen == 0 && s.table.resumeState == some m.top.state &&
    (match m.checkpoints.back? with
      | some c => c.offset < m.top.stop
      | none => true)

/-- The place where the machine stands. -/
def checkpoint (s : Setup) (m : Machine) : Checkpoint :=
  ⟨m.top.stop, m.position s, m.errors.size⟩

/-- A machine that goes on, or the result of one that is done. -/
inductive Outcome where
  | running (m : Machine)
  | done (o : Output)
deriving Inhabited

/-- Records the end of a line, and takes over the lines of an earlier tree if they follow. -/
def markLine (s : Setup) (m : Machine) : Outcome :=
  if m.atLineEnd s then
    let c := m.checkpoint s
    let m := { m with checkpoints := m.checkpoints.push c }
    match s.splice.bind (·.tail? c) with
    | some tail =>
      .done ⟨m.stackTrees ++ tail.children, m.errors.toList ++ tail.errors,
        m.checkpoints.toList ++ tail.checkpoints⟩
    | none => .running m
  else .running m

/-! ## Steps and runs -/

/-- A reduction. Without a state for its nonterminal the parse is given up. -/
def stepReduce (s : Setup) (m : Machine) (production : Nat) : Outcome :=
  match m.reduce? s production with
  | some m => m.markLine s
  | none => .done ({ m with errors := m.errors.push (.internalError m.top.stop) }.abandon s)

/-- One move: the default reduction of the state, or what the table says of the next token. Without
a move the token is reported, and the machine recovers or gives up. -/
def step (s : Setup) (m : Machine) : Outcome :=
  match s.table.default? m.top.state with
  | some production => m.stepReduce s production
  | none =>
    let m := m.look 1
    match (s.table.explicitAction m.top.state (m.ahead s 0).token.kind).move with
    | .shift state => (m.shift s state).markLine s
    | .reduce production => m.stepReduce s production
    | .accept => .done (m.accept s)
    | .error =>
      let m := m.report s
      match m.recover? s with
      | some m => m.markLine s
      | none => .done (m.abandon s)

/-- Moves until the machine is done, `fuel` times at most. -/
def run (s : Setup) : Nat → Machine → Option Output
  | 0, _ => none
  | fuel + 1, m =>
    match m.step s with
    | .running m => run s fuel m
    | .done o => some o

end Machine

end AsmTree
