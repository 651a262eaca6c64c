import AsmTree.View.Basic

/-!
# Lines

The parts of files, labels, instructions, macro calls and blocks.
-/

namespace AsmTree.View

/-! ## Files and labels -/

/-- A file, or what stands for one. -/
structure SourceFile where
  items : List LineItem
  /-- Labels outside blocks. -/
  labels : List Located
  /-- Instructions, also those in blocks. -/
  instructions : List Located
  /-- Macros, also those in blocks. -/
  macros : List Located
  /-- Calls of functions. -/
  calls : List Located
deriving Repr

/-- The node of a file. -/
def SourceFile.of (l : Located) : SourceFile where
  items := l.items
  labels := l.nodesOf .label
  instructions := l.allNodesOf .instruction
  macros := l.allNodesOf .macroDef
  calls := l.allNodesOf .callExpr

/-- A label. -/
structure Label where
  /-- The name, unless the label has none. -/
  name : Option Located
  isExported : Bool
  isLocal : Bool
deriving Repr

/-- A node for a label. -/
def Label.of (l : Located) : Label where
  name := l.token? [.ident, .localIdent]
  isExported := l.hasToken .colonColon
  isLocal := l.hasToken .localIdent

/-- Whether the label is a lone colon. -/
def Label.isAnonymous (v : Label) : Bool := v.name.isNone

/-! ## Instructions -/

/-- An operand of an instruction. -/
inductive Operand where
  | register (token : Located)
  /-- A condition, except that the carry condition reads as a register. -/
  | condition (token : Located)
  /-- The stack pointer, with what is added or taken away. -/
  | stackPointer (offset : Option Located) (negative : Bool)
  | memory (node : Located)
  | expr (node : Located)
  | error (node : Located)
deriving Repr

/-- The operand that the trees between two commas make. -/
def Operand.ofSegment? : List Located → Option Operand
  | [] => none
  | x :: xs =>
    if x.isToken then
      match x.kind with
      | .register => some (.register x)
      | .condition => some (.condition x)
      | .spKw => some (.stackPointer
          (xs.find? fun y => !y.isToken && y.kind.isExpr) (xs.any (·.kind == .minus)))
      | _ => none
    else
      match x.kind with
      | .memOperand => some (.memory x)
      | .error => some (.error x)
      | k => if k.isExpr then some (.expr x) else none

/-- The parts of a list between the commas. -/
def segments : List Located → List (List Located)
  | [] => [[]]
  | x :: xs =>
    if x.kind = .comma then [] :: segments xs
    else
      match segments xs with
      | [] => [[x]]
      | s :: ss => (x :: s) :: ss

/-- An instruction. -/
structure Instruction where
  mnemonic : Option Located
  operands : List Operand
deriving Repr

/-- A node for an instruction. Its first child is the mnemonic. Nothing between two commas is no
operand. -/
def Instruction.of (l : Located) : Instruction where
  mnemonic := l.token? [.mnemonic, .rlKw]
  operands := (segments (l.significant.drop 1)).filterMap Operand.ofSegment?

/-- The mnemonic in lower case. Mnemonics do not depend on case. -/
def Instruction.name (v : Instruction) : Option String :=
  v.mnemonic.map fun t => t.text.map Char.toLower

/-- A memory operand. -/
structure MemOperand where
  register : Option Located
  address : Option Located
  /-- Whether the register itself holds the address. -/
  isIndirectRegister : Bool
  isPostIncrement : Bool
  isPostDecrement : Bool
deriving Repr

/-- A node for a memory operand. -/
def MemOperand.of (l : Located) : MemOperand :=
  let indirect := l.significant[1]?.any (·.kind == .register)
  { register := l.token? [.register]
    address := l.exprs.head?
    isIndirectRegister := indirect
    isPostIncrement := indirect && l.hasToken .plus
    isPostDecrement := indirect && l.hasToken .minus }

/-! ## Macro calls -/

/-- A call of a macro. -/
structure MacroCall where
  name : Option Located
  args : List Located
deriving Repr

/-- A node for a call of a macro. -/
def MacroCall.of (l : Located) : MacroCall := ⟨l.token? [.ident], l.nodesOf .rawArg⟩

/-! ## Blocks -/

/-- What every block has. -/
structure Block where
  /-- The opening word. -/
  keyword : Option Located
  /-- The closing word. -/
  endKeyword : Option Located
  items : List LineItem
deriving Repr

/-- The word that closes a block. -/
def closingWord : Kind → Kind
  | .macroDef => .endmKw
  | .ifBlock => .endcKw
  | _ => .endrKw

/-- A node for a block. -/
def Block.of (l : Located) : Block :=
  ⟨l.firstToken?, l.token? [closingWord l.kind], l.bodyItems⟩

/-- A loop over values. -/
structure ForBlock where
  loopVariable : Option Located
  /-- The values of the header: the end, or start and end, or start, end and step. -/
  args : List Located
deriving Repr

namespace ForBlock

/-- A node for a loop over values. -/
def of (l : Located) : ForBlock := ⟨l.token? [.ident], l.exprs⟩

/-- The first value, if it is given. -/
def start (v : ForBlock) : Option Located := if 2 ≤ v.args.length then v.args[0]? else none

/-- The value at which the loop ends. -/
def stop (v : ForBlock) : Option Located :=
  if 2 ≤ v.args.length then v.args[1]? else v.args[0]?

/-- The distance of two values, if it is given. -/
def step (v : ForBlock) : Option Located := v.args[2]?

end ForBlock

/-- A condition with the lines that depend on it. -/
structure IfBlock where
  condition : Option Located
  elifClauses : List Located
  elseClause : Option Located
deriving Repr

/-- A node for a condition. -/
def IfBlock.of (l : Located) : IfBlock :=
  ⟨l.exprs.head?, l.nodesOf .elifClause, (l.nodesOf .elseClause).head?⟩

end AsmTree.View
