import AsmTree.Grammar.Basic

/-!
# Rules

Grammars are written with rules: sequences, choices, options and repetitions of tokens and other
rules. `RuleSet.toGrammar` flattens named rules into productions. A choice becomes alternatives, a
repetition becomes a hidden left-recursive nonterminal of its own.
-/

namespace AsmTree

/-- A piece of grammar. -/
inductive Rule where
  /-- Nothing. -/
  | blank
  | token (kind : Kind)
  /-- A reference to the visible rule of a kind. -/
  | node (kind : Kind)
  /-- A reference to a rule by name. -/
  | rule (name : String)
  /-- The parts in order. -/
  | seq (parts : List Rule)
  /-- One of the options. -/
  | choice (options : List Rule)
  /-- Once or not at all. -/
  | opt (body : Rule)
  /-- Any number of times. -/
  | many (body : Rule)
  /-- At least once. -/
  | many1 (body : Rule)
  /-- A precedence level for every alternative of the body. -/
  | prec (level : UInt8) (body : Rule)
deriving Repr, Inhabited

namespace Rule

/-- One of several tokens. -/
def oneOf (kinds : List Kind) : Rule := .choice (kinds.map .token)

end Rule

/-- A named rule. It is visible if it has a kind. -/
structure Definition where
  name : String
  kind : Option Kind
  body : Rule
deriving Repr, Inhabited

namespace Definition

/-- A rule that makes nodes of a kind and is named for it. -/
def visible (kind : Kind) (body : Rule) : Definition := ⟨kind.name, some kind, body⟩

/-- A rule whose children join those of its parent. -/
def hidden (name : String) (body : Rule) : Definition := ⟨name, none, body⟩

end Definition

/-- Rules and declarations from which a grammar is made. -/
structure RuleSet where
  name : String
  levels : List Level := []
  extras : List Kind := []
  start : Option String := none
  resumePoint : Option String := none
  definitions : List Definition
deriving Repr, Inhabited

/-- One flat form of a rule. -/
structure Alternative where
  symbols : List Symbol := []
  level : Option UInt8 := none
deriving DecidableEq, Repr, Inhabited

namespace Alternative

/-- One alternative behind another. The level of the later one counts first. -/
def append (a b : Alternative) : Alternative := ⟨a.symbols ++ b.symbols, b.level.or a.level⟩

/-- The alternative of one symbol. -/
def ofSymbol (s : Symbol) : Alternative := { symbols := [s] }

end Alternative

namespace RuleSet

/-- Nonterminals and productions made so far. -/
structure Flat where
  nonterminals : Array Nonterminal
  /-- The productions, the last one first. -/
  productions : List Production := []
deriving Repr, Inhabited

/-- Flattening adds to what was made so far, or fails. -/
abbrev FlattenM := StateT Flat (Except GrammarError)

/-- The number of a named rule. -/
def lookup (definitions : List Definition) (name : String) : Except GrammarError Nat :=
  match definitions.findIdx? (·.name == name) with
  | some place => .ok (Nonterminal.numberAt place)
  | none => .error (.undefinedRule name)

/-- Adds a hidden nonterminal for a repetition within rule `owner`. -/
def addRepetition (owner : Nat) : FlattenM Nat := do
  let flat ← get
  let id := Nonterminal.numberAt flat.nonterminals.size
  let ownerName := (flat.nonterminals[owner]?.map Nonterminal.name).getD ""
  let stem := String.ofList (ownerName.toList.dropWhile (· == '_'))
  let name := "_" ++ stem ++ "_repeat" ++ toString id
  set { flat with nonterminals := flat.nonterminals.push ⟨name, none⟩ }
  return id

/-- Adds the productions of a repetition: each alternative alone, and behind the repetition. -/
def addRepeated (id : Nat) (alternatives : List Alternative) : FlattenM Unit :=
  modify fun flat =>
    { flat with
      productions := alternatives.foldl (fun ps a =>
        ⟨id, .nonterminal id :: a.symbols, a.level⟩ :: ⟨id, a.symbols, a.level⟩ :: ps)
        flat.productions }

mutual

/-- The alternatives of a rule that is part of rule `owner`. -/
def flatten (definitions : List Definition) (owner : Nat) : Rule → FlattenM (List Alternative)
  | .blank => return [{}]
  | .token k =>
    if k.isToken && !k.isTrivia then return [.ofSymbol (.terminal k)]
    else throw (.invalidTerminal k)
  | .node k => return [.ofSymbol (.nonterminal (← lookup definitions k.name))]
  | .rule name => return [.ofSymbol (.nonterminal (← lookup definitions name))]
  | .seq parts => flattenSeq definitions owner [{}] parts
  | .choice options => flattenChoice definitions owner options
  | .opt body => return (← flatten definitions owner body) ++ [{}]
  | .many body => do
    let id ← addRepetition owner
    addRepeated id (← flatten definitions owner body)
    return [.ofSymbol (.nonterminal id), {}]
  | .many1 body => do
    let id ← addRepetition owner
    addRepeated id (← flatten definitions owner body)
    return [.ofSymbol (.nonterminal id)]
  | .prec level body => do
    return (← flatten definitions owner body).map fun a => { a with level := some level }

/-- The alternatives of a sequence behind the alternatives of what stands before it. -/
def flattenSeq (definitions : List Definition) (owner : Nat) (before : List Alternative) :
    List Rule → FlattenM (List Alternative)
  | [] => return before
  | part :: parts => do
    let next ← flatten definitions owner part
    flattenSeq definitions owner (before.flatMap fun a => next.map a.append) parts

/-- The alternatives of all options in order. -/
def flattenChoice (definitions : List Definition) (owner : Nat) :
    List Rule → FlattenM (List Alternative)
  | [] => return []
  | option :: options => do
    let first ← flatten definitions owner option
    return first ++ (← flattenChoice definitions owner options)

end

/-- Adds the productions of rule number `id`. -/
def flattenDefinition (definitions : List Definition) (d : Definition) (id : Nat) :
    FlattenM Unit := do
  let alternatives ← flatten definitions id d.body
  modify fun flat =>
    { flat with
      productions := alternatives.foldl (fun ps a => ⟨id, a.symbols, a.level⟩ :: ps)
        flat.productions }

/-- The mark behind the name of a repeated definition. A name that ends with it counts as one. -/
def repeatMark : List Char := ['\x00', 'd', 'u', 'p']

/-- The name that a definition repeats, where `before` are the names defined before it. -/
def repeatedName? (before : List String) (name : String) : Option String :=
  if before.contains name then some name
  else if repeatMark.isSuffixOf name.toList then
    some (String.ofList (name.toList.take (name.length - repeatMark.length)))
  else none

/-- The first name that is defined a second time. -/
def firstRepeated? (before : List String) : List String → Option String
  | [] => none
  | name :: names =>
    match repeatedName? before name with
    | some repeated => some repeated
    | none => firstRepeated? (name :: before) names

/-- The grammar in flat form. Rules keep their order and number; the nonterminals of repetitions
follow them. -/
def toGrammar (rules : RuleSet) : Except GrammarError Grammar := do
  if let some name := firstRepeated? [] (rules.definitions.map Definition.name) then
    throw (.duplicateRule name)
  let initial : Flat :=
    { nonterminals := (rules.definitions.map fun d => ⟨d.name, d.kind⟩).toArray }
  let (_, flat) ← (rules.definitions.zipIdx.forM fun (d, place) =>
    flattenDefinition rules.definitions d (Nonterminal.numberAt place)).run initial
  let some startName := rules.start | throw .noStart
  let start ← lookup rules.definitions startName
  let resumePoint ← rules.resumePoint.mapM (lookup rules.definitions)
  return {
    name := rules.name
    nonterminals := flat.nonterminals
    productions := flat.productions.reverse.toArray
    start, resumePoint
    extras := rules.extras
    levels := rules.levels }

end RuleSet

end AsmTree
