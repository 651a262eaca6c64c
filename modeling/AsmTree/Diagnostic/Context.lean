import AsmTree.Diagnostic.Code
import AsmTree.Kind

/-!
# Contexts of diagnostics

Where in the structure of the source an unexpected token stands. The context words the message and,
with the token, chooses the code.
-/

namespace AsmTree

/-- Where in the structure of the source the parser is. -/
inductive Context where
  /-- At the start of a line of the file. -/
  | topLevel
  /-- At the start of a line of a block. -/
  | blockBody
  | label
  | instruction
  | memOperand
  | macroCall
  | blockHeader
  | symbolDefinition
  | sectionDeclaration
  | dataDirective
  | directive
  | expression
  | parenthesized
  | callArguments
deriving DecidableEq, Repr, Inhabited

/-- Words that close or continue a block. -/
def Kind.isBlockTerminator : Kind → Bool
  | .endmKw | .endrKw | .endcKw | .elseKw | .elifKw => true
  | _ => false

/-- The word that closes a block opened by another. -/
def Kind.blockTerminator? : Kind → Option Kind
  | .macroKw => some .endmKw
  | .reptKw | .forKw => some .endrKw
  | .ifKw => some .endcKw
  | _ => none

namespace Context

/-- Every context. -/
def all : List Context := [
  .topLevel, .blockBody, .label, .instruction, .memOperand, .macroCall, .blockHeader,
  .symbolDefinition, .sectionDeclaration, .dataDirective, .directive, .expression,
  .parenthesized, .callArguments]

/-- The context within a node in the making. -/
def ofNodeKind (k : Kind) : Context :=
  match k with
  | .label => .label
  | .instruction => .instruction
  | .memOperand => .memOperand
  | .macroCall | .rawArg => .macroCall
  | .macroDef | .reptBlock | .forBlock | .ifBlock | .elifClause | .elseClause => .blockHeader
  | .symbolDef => .symbolDefinition
  | .sectionDirective | .bankSpec => .sectionDeclaration
  | .dataDirective | .dsDirective | .alignSpec => .dataDirective
  | .parenExpr => .parenthesized
  | .callExpr => .callArguments
  | .sourceFile => .topLevel
  | k => if k.isExpr then .expression else .directive

/-- The context in words, behind the token that was found. -/
def description : Context → String
  | .topLevel => "at start of line"
  | .blockBody => "in block body"
  | .label => "after label"
  | .instruction => "in instruction"
  | .memOperand => "in memory operand"
  | .macroCall => "in macro arguments"
  | .blockHeader => "in block header"
  | .symbolDefinition => "in symbol definition"
  | .sectionDeclaration => "in section declaration"
  | .dataDirective => "in data directive"
  | .directive => "in directive"
  | .expression => "in expression"
  | .parenthesized => "in parentheses"
  | .callArguments => "in function arguments"

/-- What the context expects, in words. -/
def expectation : Context → String
  | .topLevel | .blockBody => "a label, instruction, directive or macro call"
  | .label => "an instruction, directive or end of line"
  | .instruction => "an operand (register, condition or expression)"
  | .memOperand => "an address or register followed by ']'"
  | .macroCall => "comma separated arguments"
  | .blockHeader => "a condition or count followed by end of line"
  | .symbolDefinition => "a name, an assignment operator and a value"
  | .sectionDeclaration => "a name, a section type and options"
  | .dataDirective => "comma separated expressions"
  | .directive => "directive arguments"
  | .expression => "an expression (number, symbol or operator)"
  | .parenthesized => "an expression followed by ')'"
  | .callArguments => "comma separated arguments followed by ')'"

/-- Start of a line. -/
def isLineStart : Context → Bool
  | .topLevel | .blockBody => true
  | _ => false

/-- Within an expression. -/
def isInExpression : Context → Bool
  | .expression | .parenthesized | .callArguments => true
  | _ => false

/-- The code for an unexpected token. -/
def code (c : Context) (found : Kind) : Code :=
  let atEnd := found == .newline || found == .eof
  match c with
  | .topLevel | .blockBody =>
    if found = .eof then .unexpectedEnd
    else if found.isBlockTerminator then .strayTerminator
    else .invalidStatement
  | .label => if found = .eof then .unexpectedEnd else .expectedLineEnd
  | .macroCall => if found = .eof then .unexpectedEnd else .unexpectedToken
  | .instruction => if atEnd then .missingOperand else .invalidOperand
  | .memOperand => if atEnd then .unclosedBracket else .invalidOperand
  | .blockHeader => .invalidBlockHeader
  | .symbolDefinition => .invalidSymbol
  | .sectionDeclaration => .invalidSection
  | .dataDirective | .directive => .invalidArguments
  | .expression => if atEnd then .missingOperand else .invalidExpression
  | .parenthesized | .callArguments => if atEnd then .unclosedParen else .invalidExpression

end Context

end AsmTree
