import AsmTree.Machine.Basic

/-!
# Recovery

When the machine has no move, it gives up some frames and skips some tokens of the line, wraps them
into an error node, and shifts that node as the terminal of recovered regions. The innermost frame
from which this lets it go on wins, and for it the first token that can follow.
-/

namespace AsmTree

/-- Number of moves within which any run that ends at all has ended, for stacks or inputs of
length `n`. -/
def ParseTable.moveLimit (t : ParseTable) (n : Nat) : Nat :=
  Nat.pow 2 (t.stateCount + t.productionCount) * (n + 1)

namespace Machine

/-! ## Looking for a token to go on with -/

/-- Whether the states of a stack, the top first, lead to a shift of a token or to acceptance, in
`fuel` moves at most. -/
def viableFrom (t : ParseTable) (k : Kind) : Nat → List Nat → Bool
  | 0, _ => false
  | _ + 1, [] => false
  | fuel + 1, state :: rest =>
    match (t.action state k).move with
    | .shift _ | .accept => true
    | .error => false
    | .reduce production =>
      let r := t.production production
      match (state :: rest).drop r.length with
      | [] => false
      | base :: below =>
        match t.goto? base r.lhs with
        | none => false
        | some next => viableFrom t k fuel (next :: base :: below)

/-- Whether a token can follow on a stack of states, the top first. -/
def viable (t : ParseTable) (states : List Nat) (k : Kind) : Bool :=
  viableFrom t k (t.moveLimit states.length) states

/-- Result of a search along the line. -/
inductive Search where
  /-- The token that is `skip` tokens ahead can follow. -/
  | found (skip : Nat)
  /-- None of the tokens can; `skippable` of them may be skipped, `looked` were looked at. -/
  | none (skippable looked : Nat)
deriving DecidableEq, Repr

/-- Searches the line for the first token that can follow, `limit` tokens at most. `skip` tokens
have been passed. -/
def search (viable : Kind → Bool) : Nat → List Lookahead → Nat → Search
  | 0, _, skip => .none skip skip
  | _ + 1, [], skip => if viable .eof then .found skip else .none skip (skip + 1)
  | limit + 1, l :: rest, skip =>
    let k := l.token.kind
    if viable k then .found skip
    else if k = .newline || k = .eof then .none skip (skip + 1)
    else search viable limit rest (skip + 1)

/-- A way to go on: give up the frames above one, skip some tokens, go to the state behind the
recovered region. -/
structure Resync where
  /-- Number of frames to give up. -/
  above : Nat
  state : Nat
  /-- Number of tokens to skip. -/
  skip : Nat
deriving DecidableEq, Repr, Inhabited

/-- Result of a search through the stack. -/
structure Plan where
  resync : Option Resync
  /-- How many tokens were looked at. -/
  looked : Nat
deriving DecidableEq, Repr

/-- A way that skips something. -/
def Resync.useful? (r : Option Resync) : Option Resync := r.filter (0 < ·.skip)

/-- Searches the frames from the top for one that can take a recovered region. If no token can
follow on any, the outermost frame that can skip something takes all that was scanned; the bottom
frame does so only if there is no other. -/
def searchFrames (s : Setup) (input : List Lookahead) (frames : List Frame) (above : Nat)
    (fallback : Option Resync) (looked : Nat) : Plan :=
  match frames with
  | [] => ⟨Resync.useful? fallback, looked⟩
  | f :: rest =>
    if rest.isEmpty && (Resync.useful? fallback).isSome then ⟨fallback, looked⟩
    else
      match (s.table.explicitAction f.state .error).move with
      | .shift state =>
        let states := state :: (f :: rest).map Frame.state
        match search (viable s.table states) (max s.options.recoveryLimit 1) input 0 with
        | .found skip => ⟨some ⟨above, state, skip⟩, max looked (skip + 1)⟩
        | .none skip n => searchFrames s input rest (above + 1) (some ⟨above, state, skip⟩)
            (max looked n)
      | _ => searchFrames s input rest (above + 1) fallback looked

/-! ## Wrapping -/

/-- Moves tokens behind some trees, the last tree first. -/
def skipTokens (s : Setup) : Nat → Machine → List Tree → Machine × List Tree
  | 0, m, backward => (m, backward)
  | n + 1, m, backward =>
    skipTokens s n (m.consume s) ((m.ahead s 0).trees.reverse ++ backward)

/-- Wraps the frames above one and some tokens into an error node and shifts it. -/
def resynchronize (s : Setup) (m : Machine) (r : Resync) : Machine :=
  match m.frames.drop r.above with
  | [] => m
  | base :: rest =>
    let given := m.frames.take r.above
    let (m, trees) := skipTokens s r.skip m (Frame.joined given)
    let m := m.dropCheckpoints base.stop
    { m with
      top := ⟨r.state, wrap s.table .error trees, base.stop + Tree.lengthAll trees⟩
      below := base :: rest }

/-- Wraps everything above the bottom frame and the rest of the text into one error node. -/
def abandon (s : Setup) (m : Machine) : Output :=
  let bottom := m.frames.getLastD m.top
  let rest := m.input.takeWhile fun l => l.token.kind != .eof
  let trailing := (m.ahead s rest.length).triviaTrees
  let (m, trees) := skipTokens s rest.length m (Frame.joined m.frames.dropLast)
  (m.dropCheckpoints bottom.stop).output
    (bottom.backward.reverse ++ (wrap s.table .error trees).reverse ++ trailing)

/-- Goes on after an error, if there is a way. -/
def recover? (s : Setup) (m : Machine) : Option Machine :=
  let plan := searchFrames s m.input m.frames 0 none 0
  plan.resync.map ((m.look plan.looked).resynchronize s)

end Machine

end AsmTree
