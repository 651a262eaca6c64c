import AsmTree.Edit
import AsmTree.Machine.Run
import AsmTree.Shipped

/-!
# Parsing

A parser is a parse table with options. Without an old tree it reads the whole text. With a tree of
the text before an edit it begins at the last recorded line end before the edit and stops at the
first one behind it that the old parse has passed too; the rest of the old tree is taken over.
-/

namespace AsmTree

/-- The part of an old parse that a new one begins with. -/
structure ResumePoint where
  checkpoint : Checkpoint
  children : List Tree
  errors : List Diagnostic
  /-- The checkpoints up to this one. -/
  checkpoints : List Checkpoint
deriving Repr, Inhabited

/-- The last recorded line end of a tree at or before an offset. -/
def SyntaxTree.resumePoint? (old : SyntaxTree) (offset : Nat) : Option ResumePoint :=
  match old.checkpoints.reverse.dropWhile (offset < ·.offset) with
  | [] => none
  | c :: earlier =>
    some {
      checkpoint := c
      children :=
        ((Located.row 0 old.children).takeWhile (·.start < c.offset)).map Located.tree
      errors := old.errors.take c.errorCount
      checkpoints := (c :: earlier).reverse }

/-- Why a parse has no result. -/
inductive ParseError where
  | cancelled
  /-- The table lets the machine move on forever. -/
  | endless
deriving DecidableEq, Repr

/-- The wording of a parse error. -/
def ParseError.message : ParseError → String
  | .cancelled => "parse was cancelled"
  | .endless => "parse does not end"

/-- A parse table with options. -/
structure Parser where
  table : ParseTable
  options : ParseOptions := {}
deriving Repr, Inhabited

namespace Parser

/-- A parse before its first move. -/
structure Start where
  setup : Setup
  machine : Machine
deriving Repr, Inhabited

/-- The end of the text that a lexer reads. -/
def stopToken (lexer : Lexer) : Token :=
  ⟨.eof, "", lexer.offset + byteLength lexer.rest, lexer.position.advance lexer.rest⟩

/-- The tokens that a lexer reads, each with the extras in front of it. -/
def lookaheads (p : Parser) (lexer : Lexer) : List Lookahead :=
  Lookahead.group p.table.isExtra (stopToken lexer) [] lexer.tokens

/-- A machine with an empty stack at a lexer. -/
def startAt (p : Parser) (lexer : Lexer) (splice : Option Splice) : Start where
  setup := { table := p.table, options := p.options, stop := stopToken lexer, splice }
  machine := { top := ⟨ParseTable.startState, [], 0⟩, below := [], input := p.lookaheads lexer }

/-- The start of a parse of a whole text. -/
def fresh (p : Parser) (text : String) : Start := p.startAt (.ofText text) none

/-- The start of a parse behind the lines of an old one. -/
def resumed (p : Parser) (text : String) (splice : Option Splice) (point : ResumePoint)
    (state : Nat) : Start :=
  let c := point.checkpoint
  let start := p.startAt (.startingAt text c.offset c.position) splice
  { start with
    machine := { start.machine.push ⟨state, point.children.reverse, c.offset⟩ with
      errors := point.errors.toArray
      checkpoints := point.checkpoints.toArray
      lastConsumed := some .newline } }

/-- The start of a parse that uses a tree of the text before an edit. -/
def incremental (p : Parser) (text : String) (old : SyntaxTree) (e : InputEdit) : Start :=
  if p.options.recordCheckpoints then
    let splice := some { old, delta := e.delta, minOffset := e.newEnd : Splice }
    match old.resumePoint? e.start, p.table.resumeState with
    | some point, some state => p.resumed text splice point state
    | _, _ => p.startAt (.ofText text) splice
  else p.fresh text

/-- The start of a parse. An old tree that does not fit the edit is not used. -/
def start (p : Parser) (text : String) (old : Option (SyntaxTree × InputEdit)) : Start :=
  match old with
  | some (tree, e) =>
    if p.options.incremental && (e.fault? tree text p.table p.options).isNone then
      p.incremental text tree e
    else p.fresh text
  | none => p.fresh text

/-- The result of a start. -/
def Start.run (start : Start) : Option Output :=
  let limit := start.setup.table.moveLimit start.machine.input.length
  start.machine.run start.setup limit

/-- Parses a text, given the tree of an earlier text and the edit that leads from it to this one, if
there is one. -/
def parse (p : Parser) (text : String) (old : Option (SyntaxTree × InputEdit)) :
    Except ParseError SyntaxTree :=
  match (p.start text old).run with
  | some output => .ok {
      children := output.children
      errors := output.errors
      checkpoints := output.checkpoints
      lineIndex := .ofText text
      grammarVersion := p.table.grammarVersion
      recoveryLimit := p.options.recoveryLimit }
  | none => .error .endless

/-- Parses a text unless the parse is cancelled. No parse ends before it has asked for a token, and
asking fails once the parse is cancelled. -/
def parseUnless (p : Parser) (cancelled : Bool) (text : String)
    (old : Option (SyntaxTree × InputEdit)) : Except ParseError SyntaxTree :=
  if cancelled then .error .cancelled else p.parse text old

end Parser

end AsmTree
