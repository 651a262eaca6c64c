import AsmTree.View.Basic

/-!
# Expressions

Operators with their binding strength, and the parts of each kind of expression.
-/

namespace AsmTree.View

/-! ## Operators -/

/-- Operators between two operands. -/
inductive BinaryOp where
  | logicalOr | logicalAnd
  | eq | ne | lt | gt | le | ge
  | add | sub
  /-- Strings put together. -/
  | concat
  | bitAnd | bitOr | bitXor
  | shl | shr
  /-- A shift that brings in zeros. -/
  | ushr
  | mul | div | mod
  | pow
deriving DecidableEq, Repr

namespace BinaryOp

/-- The operator that a token stands for. -/
def ofKind? : Kind → Option BinaryOp
  | .pipePipe => some .logicalOr
  | .ampAmp => some .logicalAnd
  | .eqEq => some .eq
  | .bangEq => some .ne
  | .less => some .lt
  | .greater => some .gt
  | .lessEq => some .le
  | .greaterEq => some .ge
  | .plus => some .add
  | .minus => some .sub
  | .plusPlus => some .concat
  | .amp => some .bitAnd
  | .pipe => some .bitOr
  | .caret => some .bitXor
  | .shl => some .shl
  | .shr => some .shr
  | .ushr => some .ushr
  | .star => some .mul
  | .slash => some .div
  | .percent => some .mod
  | .starStar => some .pow
  | _ => none

/-- Binding strength. A higher one binds tighter. -/
def precedence : BinaryOp → Nat
  | logicalOr => 1
  | logicalAnd => 2
  | eq | ne | lt | gt | le | ge => 3
  | add | sub | concat => 4
  | bitAnd | bitOr | bitXor => 5
  | shl | shr | ushr => 6
  | mul | div | mod => 7
  | pow => 9

/-- Whether equal operators are grouped from the right. -/
def isRightAssoc (op : BinaryOp) : Bool := op == pow

end BinaryOp

/-- Operators in front of an operand. -/
inductive UnaryOp where
  | plus | neg | bitNot | not
deriving DecidableEq, Repr

/-- The operator that a token stands for. -/
def UnaryOp.ofKind? : Kind → Option UnaryOp
  | .plus => some .plus
  | .minus => some .neg
  | .tilde => some .bitNot
  | .bang => some .not
  | _ => none

/-! ## Parts -/

/-- Two operands and the operator between them. -/
structure Binary where
  lhs : Option Located
  rhs : Option Located
  opToken : Option Located
deriving Repr

/-- The operator. -/
def Binary.op? (v : Binary) : Option BinaryOp := v.opToken.bind (BinaryOp.ofKind? ·.kind)

/-- A node for an operator between two operands. -/
def Binary.of (l : Located) : Binary where
  lhs := l.exprs[0]?
  rhs := l.exprs[1]?
  opToken := l.tokens.find? fun t => (BinaryOp.ofKind? t.kind).isSome

/-- An operand with an operator in front. -/
structure Unary where
  op : Option UnaryOp
  operand : Option Located
deriving Repr

/-- A node for an operator in front of an operand. -/
def Unary.of (l : Located) : Unary := ⟨l.meaning? UnaryOp.ofKind?, l.exprs.head?⟩

/-- A function applied to arguments. -/
structure Call where
  /-- The name, which may be a reserved word. -/
  callee : Option Located
  args : List Located
deriving Repr

/-- A node for a call. -/
def Call.of (l : Located) : Call := ⟨l.token? [.ident, .defKw, .bankKw, .sectionKw], l.exprs⟩

/-- The name in upper case. Names of functions do not depend on case. -/
def Call.name (v : Call) : Option String := v.callee.map fun t => t.text.map Char.toUpper

/-- A reference to a symbol. -/
structure NameRef where
  token : Option Located
  /-- Whether it is the current address. -/
  isCurrentAddress : Bool
  /-- Whether it counts unnamed labels. -/
  isAnonymous : Bool
deriving Repr

/-- A node for a reference. -/
def NameRef.of (l : Located) : NameRef :=
  ⟨l.firstToken?, l.hasToken .atSign, l.hasToken .anonLabelRef⟩

/-- The name. -/
def NameRef.text (v : NameRef) : Option String := v.token.map Located.text

end AsmTree.View
