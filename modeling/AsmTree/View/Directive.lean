import AsmTree.View.Literal

/-!
# Directives

The parts of the directives of one line. Arguments are the expressions of a directive in order.
-/

namespace AsmTree.View

/-- The first word of a directive. -/
def keyword? (l : Located) : Option Located := l.tokens.find? (·.kind.isKeyword)

/-! ## Symbols -/

/-- What a definition binds its name to. -/
inductive SymbolKind where
  | constant | variableValue | string | offset
deriving DecidableEq, Repr

/-- What a definition with an operator binds its name to. -/
def SymbolKind.ofOperator : Kind → SymbolKind
  | .equKw => .constant
  | .equsKw => .string
  | .rbKw | .rwKw | .rlKw => .offset
  | _ => .variableValue

/-- Words and marks between a name and its value. -/
def definers : List Kind := [
  .equKw, .equsKw, .assign, .plusEq, .minusEq, .starEq, .slashEq, .percentEq, .ampEq, .pipeEq,
  .caretEq, .shlEq, .shrEq, .rbKw, .rwKw, .rlKw]

/-- A definition of a symbol. -/
structure SymbolDef where
  isExported : Bool
  /-- Whether the symbol may be defined before. -/
  isRedef : Bool
  name : Option Located
  definer : Option Located
  value : Option Located
deriving Repr

/-- A node for a definition. -/
def SymbolDef.of (l : Located) : SymbolDef where
  isExported := l.hasToken .exportKw
  isRedef := l.hasToken .redefKw
  name := l.token? [.ident, .macroArg]
  definer := l.token? definers
  value := l.exprs.head?

/-- What the definition binds its name to. -/
def SymbolDef.symbolKind (v : SymbolDef) : Option SymbolKind :=
  v.definer.map fun t => .ofOperator t.kind

/-! ## Data -/

/-- Size of the values of a data directive. -/
inductive DataWidth where
  | byte | word | long
deriving DecidableEq, Repr

namespace DataWidth

/-- Number of bytes of a value. -/
def size : DataWidth → Nat
  | byte => 1
  | word => 2
  | long => 4

/-- The size that a word names. -/
def ofKind? : Kind → Option DataWidth
  | .dbKw => some byte
  | .dwKw => some word
  | .dlKw => some long
  | _ => none

end DataWidth

/-- Values to be stored. -/
structure Data where
  width : Option DataWidth
  values : List Located
deriving Repr

/-- A node for values to be stored. -/
def Data.of (l : Located) : Data := ⟨l.meaning? DataWidth.ofKind?, l.exprs⟩

/-- Space to be filled. -/
structure Space where
  /-- Alignment, if the space reaches up to one. -/
  align : Option Located
  /-- Number of bytes, if there is no alignment. -/
  length : Option Located
  /-- Values to fill the space with. -/
  fill : List Located
deriving Repr

/-- A node for space to be filled. -/
def Space.of (l : Located) : Space :=
  match (l.nodesOf .alignSpec).head? with
  | some align => ⟨some align, none, l.exprs⟩
  | none => ⟨none, l.exprs.head?, l.exprs.drop 1⟩

/-- A part of a file to be stored. -/
structure BinaryFile where
  path : Option Located
  offset : Option Located
  length : Option Located
deriving Repr

/-- A node for a part of a file. -/
def BinaryFile.of (l : Located) : BinaryFile := ⟨l.exprs[0]?, l.exprs[1]?, l.exprs[2]?⟩

/-- An alignment, and where in it to stand. -/
structure Alignment where
  alignment : Option Located
  offset : Option Located
deriving Repr

/-- A node for an alignment. -/
def Alignment.of (l : Located) : Alignment := ⟨l.exprs[0]?, l.exprs[1]?⟩

/-! ## Sections -/

/-- How a section is put together from its parts. -/
inductive SectionModifier where
  | union | fragment
deriving DecidableEq, Repr

/-- The modifier that a word names. -/
def SectionModifier.ofKind? : Kind → Option SectionModifier
  | .unionKw => some .union
  | .fragmentKw => some .fragment
  | _ => none

/-- The start of a section. -/
structure SectionStart where
  isLoad : Bool
  isPush : Bool
  modifier : Option SectionModifier
  /-- The memory region. -/
  sectionType : Option Located
  bank : Option Located
  align : Option Located
  name : Option Located
  /-- The fixed address. -/
  address : Option Located
deriving Repr

/-- A node for the start of a section. -/
def SectionStart.of (l : Located) : SectionStart where
  isLoad := l.hasToken .loadKw
  isPush := l.hasToken .pushsKw
  modifier := l.meaning? SectionModifier.ofKind?
  sectionType := l.token? [.sectionType]
  bank := (l.nodesOf .bankSpec).head?
  align := (l.nodesOf .alignSpec).head?
  name := l.exprs[0]?
  address := l.exprs[1]?

/-! ## Character maps -/

/-- A character and the values that it stands for. -/
structure Charmap where
  mapping : Option Located
  values : List Located
deriving Repr

/-- A node for a mapped character. -/
def Charmap.of (l : Located) : Charmap := ⟨l.exprs.head?, l.exprs.drop 1⟩

/-- A new character map. -/
structure NewCharmap where
  name : Option Located
  /-- The map to copy from. -/
  base : Option Located
deriving Repr

/-- A node for a new character map. -/
def NewCharmap.of (l : Located) : NewCharmap := ⟨l.names[0]?, l.names[1]?⟩

/-- A change to a character map. -/
structure SetCharmap where
  isPush : Bool
  name : Option Located
deriving Repr

/-- A node for a change to a character map. -/
def SetCharmap.of (l : Located) : SetCharmap := ⟨l.hasToken .pushcKw, l.token? [.ident]⟩

/-! ## Messages -/

/-- Values to be printed. -/
structure Print where
  /-- Whether a line end follows. -/
  isLine : Bool
  args : List Located
deriving Repr

/-- A node for values to be printed. -/
def Print.of (l : Located) : Print := ⟨l.hasToken .printlnKw, l.exprs⟩

/-- How a failed assertion is reported. -/
inductive AssertSeverity where
  | warn | fail | fatal
deriving DecidableEq, Repr

/-- The severity that a word names. -/
def AssertSeverity.ofKind? : Kind → Option AssertSeverity
  | .warnKw => some .warn
  | .failKw => some .fail
  | .fatalKw => some .fatal
  | _ => none

/-- An assertion. -/
structure Assertion where
  isStatic : Bool
  explicitSeverity : Option AssertSeverity
  condition : Option Located
  message : Option Located
deriving Repr

/-- A node for an assertion. -/
def Assertion.of (l : Located) : Assertion where
  isStatic := l.hasToken .staticAssertKw
  explicitSeverity := l.meaning? AssertSeverity.ofKind?
  condition := l.exprs[0]?
  message := l.exprs[1]?

/-- The severity. Without a word for it a failed assertion is an error. -/
def Assertion.severity (v : Assertion) : AssertSeverity := v.explicitSeverity.getD .fail

/-- Options of the assembler. -/
structure Opt where
  isPush : Bool
  args : List Located
deriving Repr

/-- A node for options. -/
def Opt.of (l : Located) : Opt := ⟨l.hasToken .pushoKw, l.nodesOf .rawArg⟩

end AsmTree.View
