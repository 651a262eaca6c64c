import AsmTree.Grammar.Rule

/-!
# Expressions

Operators from the loosest to the tightest: or, and, comparison, sum, bits, shift, product, the
unary operators, power. All group to the left but the last two.
-/

namespace AsmTree.Assembly

/-! ## Operators -/

/-- Operator tokens of the logical or. -/
def logicalOr : List Kind := [.pipePipe]

/-- Operator tokens of the logical and. -/
def logicalAnd : List Kind := [.ampAmp]

/-- Comparisons. -/
def comparison : List Kind := [.eqEq, .bangEq, .less, .greater, .lessEq, .greaterEq]

/-- Sums and concatenation. -/
def additive : List Kind := [.plus, .minus, .plusPlus]

/-- Bitwise operators. -/
def bitwise : List Kind := [.amp, .pipe, .caret]

/-- Shifts. -/
def shift : List Kind := [.shl, .shr, .ushr]

/-- Products. -/
def multiplicative : List Kind := [.star, .slash, .percent]

/-- The power operator. -/
def power : List Kind := [.starStar]

/-- All binary operators. -/
def binaryOperators : List Kind :=
  logicalOr ++ logicalAnd ++ comparison ++ additive ++ bitwise ++ shift ++ multiplicative ++ power

/-- Precedence levels. The level without tokens is that of the unary operators. -/
def levels : List Level := [
  ⟨.left, logicalOr⟩, ⟨.left, logicalAnd⟩, ⟨.left, comparison⟩, ⟨.left, additive⟩,
  ⟨.left, bitwise⟩, ⟨.left, shift⟩, ⟨.left, multiplicative⟩, ⟨.right, []⟩, ⟨.right, power⟩]

/-- The level of the unary operators. -/
def unaryLevel : UInt8 := 8

/-- Tokens that are expressions by themselves. -/
def literals : List Kind :=
  [.decNumber, .hexNumber, .binNumber, .octNumber, .gfxNumber, .fixedNumber, .string, .char]

/-! ## Rules -/

/-- Expressions; `_arg` is an expression or a recovered region in its place, `_expr_list` is a list
of such arguments. -/
def expressionRules : List Definition := [
  .hidden "_expr" (.choice [
    .node .binaryExpr, .node .unaryExpr, .node .parenExpr, .node .callExpr, .node .literal,
    .node .nameRef, .node .macroArgRef]),
  .visible .binaryExpr (.seq [.rule "_expr", .oneOf binaryOperators, .rule "_expr"]),
  .visible .unaryExpr
    (.prec unaryLevel (.seq [.oneOf [.plus, .minus, .tilde, .bang], .rule "_expr"])),
  .visible .parenExpr
    (.seq [.token .lParen, .choice [.rule "_expr", .token .error], .token .rParen]),
  .visible .callExpr (.seq [
    .oneOf [.ident, .defKw, .bankKw, .sectionKw],
    .token .lParen,
    .opt (.seq [.rule "_expr_list", .opt (.token .comma)]),
    .token .rParen]),
  .visible .literal (.oneOf literals),
  .visible .nameRef (.oneOf [.ident, .localIdent, .atSign, .anonLabelRef]),
  .visible .macroArgRef (.token .macroArg),
  .hidden "_arg" (.choice [.rule "_expr", .token .error]),
  .hidden "_expr_list"
    (.choice [.rule "_arg", .seq [.rule "_expr_list", .token .comma, .rule "_arg"]])]

end AsmTree.Assembly
