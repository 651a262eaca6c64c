import AsmTree.Machine.Basic

/-!
# Reports

What the machine says about a token that it cannot use. The stack tells which block is open and
which construct is in the making.
-/

namespace AsmTree

/-- Kinds of expressions that give no context of their own. -/
def Kind.isOperand : Kind → Bool
  | .binaryExpr | .unaryExpr | .literal | .nameRef | .macroArgRef => true
  | _ => false

namespace Frame

/-- The opening word of a block at the end of a frame whose state is within a block. -/
def opener? (t : ParseTable) (f : Frame) : Option (Kind × TextRange) :=
  match f.backward with
  | .token k text :: _ =>
    if k.blockTerminator?.isSome && ((t.context? f.state).map Kind.isBlock).getD false then
      some (k, ⟨f.stop - text.utf8ByteSize, f.stop⟩)
    else none
  | _ => none

/-- The context that a frame gives. A frame within an operand gives one only if it is on top and an
operand is expected. -/
def context? (t : ParseTable) (onTop : Bool) (f : Frame) : Option Context :=
  match t.context? f.state with
  | none => none
  | some k =>
    if !k.isOperand then some (.ofNodeKind k)
    else if onTop && !(t.explicitAction f.state .decNumber).isError then some .expression
    else none

end Frame

namespace Machine

/-- The innermost block that is open. -/
def openBlock? (s : Setup) (m : Machine) : Option (Kind × TextRange) :=
  m.frames.findSome? (Frame.opener? s.table)

/-- The context of the next token. -/
def context (s : Setup) (m : Machine) : Context :=
  match m.lastConsumed with
  | none | some .newline => if (m.openBlock? s).isSome then .blockBody else .topLevel
  | some _ =>
    match (Frame.context? s.table true m.top).or
        (m.below.findSome? (Frame.context? s.table false)) with
    | some c => c
    | none =>
      match m.top.backward with
      | .node k _ :: _ => .ofNodeKind k
      | _ => .topLevel

/-- Reports a token that cannot be used. An unreadable token is reported when it is skipped, and the
end of the text within a block as that block. -/
def report (s : Setup) (m : Machine) : Machine :=
  let found := (m.ahead s 0).token
  let add (d : Diagnostic) : Machine := { m with errors := m.errors.push d }
  let unexpected : Unit → Machine := fun _ =>
    add (.unexpected found.kind (m.context s) (s.table.expected m.top.state) found.range)
  match found.kind with
  | .unknown => m
  | .eof =>
    match m.openBlock? s with
    | some (opener, range) => add (.openBlock opener range found.offset)
    | none => unexpected ()
  | _ => unexpected ()

end Machine

end AsmTree
