import AsmTree.Tree.Located

/-!
# Looking into nodes

Nodes are told apart by their kinds, and the parts of a node by the kinds of its children. Every
part may be missing, or stand in an error node, so a look-up has an optional answer.
-/

namespace AsmTree

/-! ## Classes of nodes -/

/-- What a node can be among the lines of a file or block. -/
inductive LineClass where
  | label | error | instruction | macroCall | block | directive
deriving DecidableEq, Repr

namespace Kind

/-- Nodes that own the lines up to a closing word. -/
def isBlockItem : Kind → Bool
  | .macroDef | .reptBlock | .forBlock | .ifBlock => true
  | _ => false

/-- Nodes for directives of one line. -/
def isDirective : Kind → Bool
  | .includeDirective | .symbolDef | .printDirective | .exportDirective | .dataDirective
  | .dsDirective | .sectionDirective | .rssetDirective | .incbinDirective | .charmapDirective
  | .newcharmapDirective | .setcharmapDirective | .shiftDirective | .failDirective
  | .warnDirective | .assertDirective | .purgeDirective | .optDirective | .alignDirective
  | .simpleDirective => true
  | _ => false

/-- The class of a node that can stand among lines. -/
def lineClass? (k : Kind) : Option LineClass :=
  match k with
  | .label => some .label
  | .error => some .error
  | .instruction => some .instruction
  | .macroCall => some .macroCall
  | k => if k.isBlockItem then some .block else if k.isDirective then some .directive else none

/-- Nodes that can stand among lines. -/
def isItem (k : Kind) : Bool := k.lineClass?.isSome

/-- Nodes that can stand behind a label on a line. -/
def isStatement (k : Kind) : Bool := k.isItem && k != .label && k != .error

end Kind

/-- A node among the lines of a file or block. -/
structure LineItem where
  lineClass : LineClass
  node : Located
deriving Repr

namespace Located

/-! ## Parts of a node -/

/-- The tokens directly below. -/
def tokens (l : Located) : List Located := l.children.filter isToken

/-- The nodes directly below. -/
def nodes (l : Located) : List Located := l.children.filter (!·.isToken)

/-- Children that are no trivia. -/
def significant (l : Located) : List Located := l.children.filter (!·.kind.isTrivia)

/-- Whether a token of a kind is directly below. -/
def hasToken (l : Located) (k : Kind) : Bool := l.tokens.any (·.kind == k)

/-- The first token directly below that has one of some kinds. -/
def token? (l : Located) (ks : List Kind) : Option Located := l.tokens.find? (ks.contains ·.kind)

/-- The first token directly below whose kind has a meaning, and that meaning. -/
def meaning? {α : Type} (l : Located) (f : Kind → Option α) : Option α :=
  l.tokens.findSome? fun t => f t.kind

/-- The nodes of a kind directly below. -/
def nodesOf (l : Located) (k : Kind) : List Located := l.nodes.filter (·.kind == k)

/-- The expressions directly below. -/
def exprs (l : Located) : List Located := l.nodes.filter (·.kind.isExpr)

/-- The names directly below. -/
def names (l : Located) : List Located :=
  l.tokens.filter fun t => t.kind == .ident || t.kind == .localIdent

/-- The nodes here and below, a node before those below it. -/
def allNodes (l : Located) : List Located := l.subtrees.filter (!·.isToken)

/-- The nodes of a kind here and below. -/
def allNodesOf (l : Located) (k : Kind) : List Located := l.allNodes.filter (·.kind == k)

/-! ## Lines -/

/-- The items among some trees. -/
def itemsAmong (ls : List Located) : List LineItem :=
  ls.filterMap fun l => if l.isToken then none else l.kind.lineClass?.map (⟨·, l⟩)

/-- The items of a file. -/
def items (l : Located) : List LineItem := itemsAmong l.children

/-- The items of a block: those behind its first line. -/
def bodyItems (l : Located) : List LineItem :=
  itemsAmong (l.children.dropWhile (·.kind != .newline))

/-! ## Expressions -/

mutual

/-- The expression within any number of parentheses. -/
def innerFrom (start : Nat) : Tree → Option Located
  | .token .. => none
  | .node k cs => if k = .parenExpr then innerAmong start cs else some ⟨start, .node k cs⟩

/-- The expression within the first of some trees that is one. -/
def innerAmong (start : Nat) : List Tree → Option Located
  | [] => none
  | t :: ts =>
    if !t.isToken && t.kind.isExpr then innerFrom start t else innerAmong (start + t.length) ts

end

/-- The expression without the parentheses around it, unless they are empty. -/
def unparenthesized? (l : Located) : Option Located := innerFrom l.start l.tree

/-- Whether a part of the expression could not be read. -/
def hasErrors (l : Located) : Bool := l.allNodes.any (·.kind == .error)

/-- The names that an expression refers to, in order. -/
def nameTexts (l : Located) : List (Option String) :=
  (l.allNodesOf .nameRef).map fun n => n.firstToken?.map text

end Located

end AsmTree
