import AsmTree.View.Directive
import AsmTree.View.Doc
import AsmTree.View.Expr
import AsmTree.View.Line

/-!
# Views

A view is what a node says: its parts by name. `View.of?` reads it off the kind and the children of
the node, so that no part is stored twice, and a part that is missing from the source is missing
from the view.
-/

namespace AsmTree

/-- A node by its parts. -/
inductive View where
  | sourceFile (v : View.SourceFile)
  | error (text : String)
  | label (v : View.Label)
  | instruction (v : View.Instruction)
  | memOperand (v : View.MemOperand)
  | macroCall (v : View.MacroCall)
  | rawArg (text : String)
  | macroDef (name : Option Located) (v : View.Block)
  | reptBlock (count : Option Located) (v : View.Block)
  | forBlock (header : View.ForBlock) (v : View.Block)
  | ifBlock (header : View.IfBlock) (v : View.Block)
  | elifClause (condition : Option Located) (items : List LineItem)
  | elseClause (items : List LineItem)
  | includeFile (path : Option Located)
  | symbolDef (v : View.SymbolDef)
  | print (v : View.Print)
  | names (names : List Located)
  | data (v : View.Data)
  | space (v : View.Space)
  | sectionStart (v : View.SectionStart)
  | value (value : Option Located)
  | alignment (v : View.Alignment)
  | binaryFile (v : View.BinaryFile)
  | charmap (v : View.Charmap)
  | newCharmap (v : View.NewCharmap)
  | setCharmap (v : View.SetCharmap)
  | shift (amount : Option Located)
  | message (message : Option Located)
  | assertion (v : View.Assertion)
  | opt (v : View.Opt)
  | simple (keyword : Option Located)
  | binary (v : View.Binary)
  | unary (v : View.Unary)
  | paren (inner : Option Located)
  | call (v : View.Call)
  | nameRef (v : View.NameRef)
  | macroArgRef (token : Option Located)
  | literal (v : View.Literal)
deriving Repr

namespace View

/-- The view of a node, if its kind is one of a construct. -/
def of? (l : Located) : Option View :=
  match l.kind with
  | .sourceFile => some (sourceFile (.of l))
  | .error => some (error l.text)
  | .label => some (label (.of l))
  | .instruction => some (instruction (.of l))
  | .memOperand => some (memOperand (.of l))
  | .macroCall => some (macroCall (.of l))
  | .rawArg => some (rawArg l.text)
  | .macroDef => some (macroDef (l.token? [.ident]) (.of l))
  | .reptBlock => some (reptBlock l.exprs.head? (.of l))
  | .forBlock => some (forBlock (.of l) (.of l))
  | .ifBlock => some (ifBlock (.of l) (.of l))
  | .elifClause => some (elifClause l.exprs.head? l.bodyItems)
  | .elseClause => some (elseClause l.bodyItems)
  | .includeDirective => some (includeFile l.exprs.head?)
  | .symbolDef => some (symbolDef (.of l))
  | .printDirective => some (print (.of l))
  | .exportDirective | .purgeDirective => some (names l.names)
  | .dataDirective => some (data (.of l))
  | .dsDirective => some (space (.of l))
  | .sectionDirective => some (sectionStart (.of l))
  | .bankSpec | .rssetDirective => some (value l.exprs.head?)
  | .alignSpec | .alignDirective => some (alignment (.of l))
  | .incbinDirective => some (binaryFile (.of l))
  | .charmapDirective => some (charmap (.of l))
  | .newcharmapDirective => some (newCharmap (.of l))
  | .setcharmapDirective => some (setCharmap (.of l))
  | .shiftDirective => some (shift l.exprs.head?)
  | .failDirective | .warnDirective => some (message l.exprs.head?)
  | .assertDirective => some (assertion (.of l))
  | .optDirective => some (opt (.of l))
  | .simpleDirective => some (simple l.firstToken?)
  | .binaryExpr => some (binary (.of l))
  | .unaryExpr => some (unary (.of l))
  | .parenExpr => some (paren l.exprs.head?)
  | .callExpr => some (call (.of l))
  | .nameRef => some (nameRef (.of l))
  | .macroArgRef => some (macroArgRef l.firstToken?)
  | .literal => some (literal (.of l))
  | _ => none

end View

end AsmTree
