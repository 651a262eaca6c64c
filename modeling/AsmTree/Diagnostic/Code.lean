/-!
# Codes of diagnostics

Every kind of problem has a code. The first two digits are a class: 01 lexical, 02 lines, 03
blocks, 04 expressions and operands, 05 directives, 09 anything else.
-/

namespace AsmTree

/-- A kind of problem. -/
inductive Code where
  -- lexical
  | invalidCharacter | unterminatedString | unterminatedComment
  -- lines
  | invalidStatement | expectedLineEnd | unexpectedEnd
  -- blocks
  | unterminatedBlock | strayTerminator | invalidBlockHeader
  -- expressions and operands
  | invalidExpression | missingOperand | unclosedParen | unclosedBracket | invalidOperand
  -- directives
  | invalidArguments | invalidSection | invalidSymbol
  -- anything else
  | unexpectedToken | internal
deriving DecidableEq, Repr, Inhabited

namespace Code

/-- Every code, in the order of their numbers. -/
def all : List Code := [
  .invalidCharacter, .unterminatedString, .unterminatedComment, .invalidStatement,
  .expectedLineEnd, .unexpectedEnd, .unterminatedBlock, .strayTerminator, .invalidBlockHeader,
  .invalidExpression, .missingOperand, .unclosedParen, .unclosedBracket, .invalidOperand,
  .invalidArguments, .invalidSection, .invalidSymbol, .unexpectedToken, .internal]

/-- The code as it is shown. -/
def text : Code → String
  | .invalidCharacter => "E0101"
  | .unterminatedString => "E0102"
  | .unterminatedComment => "E0103"
  | .invalidStatement => "E0201"
  | .expectedLineEnd => "E0202"
  | .unexpectedEnd => "E0203"
  | .unterminatedBlock => "E0301"
  | .strayTerminator => "E0302"
  | .invalidBlockHeader => "E0303"
  | .invalidExpression => "E0401"
  | .missingOperand => "E0402"
  | .unclosedParen => "E0403"
  | .unclosedBracket => "E0404"
  | .invalidOperand => "E0405"
  | .invalidArguments => "E0501"
  | .invalidSection => "E0502"
  | .invalidSymbol => "E0503"
  | .unexpectedToken => "E0901"
  | .internal => "E0999"

/-- The code with a given text. -/
def ofText? (s : String) : Option Code := all.find? (·.text == s)

/-- The class of a code in words. -/
def category : Code → String
  | .invalidCharacter | .unterminatedString | .unterminatedComment => "lexical error"
  | .invalidStatement | .expectedLineEnd | .unexpectedEnd => "line structure error"
  | .unterminatedBlock | .strayTerminator | .invalidBlockHeader => "block error"
  | .invalidExpression | .missingOperand | .unclosedParen | .unclosedBracket
  | .invalidOperand => "expression error"
  | .invalidArguments | .invalidSection | .invalidSymbol => "directive error"
  | .unexpectedToken | .internal => "syntax error"

/-- The wording used where a diagnostic has none of its own. -/
def defaultMessage : Code → String
  | .invalidCharacter => "invalid character"
  | .unterminatedString => "unterminated string literal"
  | .unterminatedComment => "unterminated block comment"
  | .invalidStatement => "invalid statement"
  | .expectedLineEnd => "expected end of line"
  | .unexpectedEnd => "unexpected end of file"
  | .unterminatedBlock => "unterminated block"
  | .strayTerminator => "block terminator without matching directive"
  | .invalidBlockHeader => "invalid block header"
  | .invalidExpression => "invalid expression"
  | .missingOperand => "missing operand"
  | .unclosedParen => "unclosed parenthesis"
  | .unclosedBracket => "unclosed bracket"
  | .invalidOperand => "invalid operand"
  | .invalidArguments => "invalid directive arguments"
  | .invalidSection => "invalid section declaration"
  | .invalidSymbol => "invalid symbol definition"
  | .unexpectedToken => "unexpected token"
  | .internal => "internal parser error"

/-- Problems with single tokens. -/
def isLexical : Code → Bool
  | .invalidCharacter | .unterminatedString | .unterminatedComment => true
  | _ => false

/-- Problems with delimiters and blocks. -/
def isStructural : Code → Bool
  | .unterminatedBlock | .strayTerminator | .invalidBlockHeader | .unclosedParen
  | .unclosedBracket => true
  | _ => false

/-- Problems after which the parse goes on. -/
def isRecoverable (c : Code) : Bool := c != .internal

end Code

end AsmTree
