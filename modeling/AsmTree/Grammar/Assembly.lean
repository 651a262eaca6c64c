import AsmTree.Grammar.Expressions

/-!
# The assembly grammar

A source file is a sequence of lines that end with `newline`. A line holds a label, a statement,
or both. Blocks own the lines up to their closing word and end on its line. Wherever a recovered
region may stand, the rules name the terminal `error`.
-/

namespace AsmTree.Assembly

/-- Directives that are one word. -/
def simpleDirectives : List Kind := [
  .breakKw, .rsresetKw, .unionKw, .nextuKw, .enduKw, .pushcKw, .popcKw, .endlKw, .pushsKw,
  .popsKw, .endsectionKw, .pushoKw, .popoKw]

/-- Operators of a symbol definition whose value is a number. -/
def assignOperators : List Kind := [
  .equKw, .assign, .plusEq, .minusEq, .starEq, .slashEq, .percentEq, .ampEq, .pipeEq, .caretEq,
  .shlEq, .shrEq]

/-- Tokens that end a raw argument. -/
def rawArgStops : List Kind := [.comma, .newline, .eof, .error, .unknown]

/-- Any token of a raw argument but those of a list. -/
def rawToken (excluded : List Kind) : Rule :=
  .oneOf (Kind.tokens.filter fun k =>
    !k.isTrivia && !rawArgStops.contains k && !excluded.contains k)

/-- A comma and what follows it, if it is there. -/
def afterComma (rest : List Rule) : Rule := .opt (.seq (.token .comma :: rest))

/-- The lines of a block. -/
def body : Rule := .opt (.rule "_lines")

/-- Arguments with an optional comma behind the last. -/
def argList : Rule := .seq [.rule "_expr_list", .opt (.token .comma)]

/-- Names with an optional comma behind the last. -/
def nameList : Rule := .seq [.rule "_name_list", .opt (.token .comma)]

/-- Lines and labels. `_lines` is left recursive, so each line of the file is complete as soon as
its `newline` is read. -/
def lineRules : List Definition := [
  .hidden "_source" (.seq [.opt (.rule "_lines"), .opt (.rule "_line")]),
  .hidden "_lines" (.choice [
    .seq [.rule "_lines", .opt (.rule "_line"), .token .newline],
    .seq [.opt (.rule "_line"), .token .newline]]),
  .hidden "_line" (.choice [
    .node .label,
    .seq [.node .label, .rule "_statement"],
    .rule "_statement",
    .token .error,
    .seq [.node .label, .token .error]]),
  .visible .label (.choice [
    .seq [.token .ident, .oneOf [.colon, .colonColon]],
    .seq [.token .localIdent, .opt (.oneOf [.colon, .colonColon])],
    .token .colon]),
  .hidden "_statement" (.choice [
    .node .instruction, .node .macroCall, .node .macroDef, .node .reptBlock, .node .forBlock,
    .node .ifBlock, .node .includeDirective, .node .symbolDef, .node .printDirective,
    .node .exportDirective, .node .dataDirective, .node .dsDirective, .node .sectionDirective,
    .node .rssetDirective, .node .incbinDirective, .node .charmapDirective,
    .node .newcharmapDirective, .node .setcharmapDirective, .node .shiftDirective,
    .node .failDirective, .node .warnDirective, .node .assertDirective, .node .purgeDirective,
    .node .optDirective, .node .alignDirective, .node .simpleDirective])]

/-- Processor instructions and their operands. -/
def instructionRules : List Definition := [
  .visible .instruction (.seq [
    .oneOf [.mnemonic, .rlKw],
    .opt (.seq [.rule "_operand", afterComma [.rule "_operand"]])]),
  .hidden "_operand" (.choice [
    .rule "_arg",
    .node .memOperand,
    .token .register,
    .token .condition,
    .seq [.token .spKw, .opt (.seq [.oneOf [.plus, .minus], .rule "_expr"])]]),
  .visible .memOperand (.seq [
    .token .lBracket,
    .choice [
      .rule "_expr",
      .token .error,
      .seq [.token .register, .opt (.oneOf [.plus, .minus])],
      .seq [.rule "_expr", .token .plus, .token .register]],
    .token .rBracket])]

/-- Macro calls, whose arguments stay runs of raw tokens. -/
def macroCallRules : List Definition := [
  .visible .macroCall (.seq [.token .ident, .opt (.rule "_raw_args")]),
  .hidden "_raw_args" (.choice [
    .node .rawArg,
    .token .comma,
    .seq [.rule "_raw_args", .token .comma],
    .seq [.rule "_raw_args", .token .comma, .node .rawArg]]),
  .visible .rawArg (.seq [.rule "_raw_first", .opt (.rule "_raw_rest")]),
  .hidden "_raw_rest" (.choice [.rule "_raw_token", .seq [.rule "_raw_rest", .rule "_raw_token"]]),
  .hidden "_raw_first" (rawToken [.colon, .colonColon]),
  .hidden "_raw_token" (rawToken [])]

/-- Blocks. -/
def blockRules : List Definition := [
  .visible .macroDef (.seq [
    .token .macroKw, .choice [.blank, .token .ident, .token .error], .token .newline, body,
    .token .endmKw]),
  .visible .reptBlock
    (.seq [.token .reptKw, .rule "_arg", .token .newline, body, .token .endrKw]),
  .visible .forBlock
    (.seq [.token .forKw, .rule "_for_args", .token .newline, body, .token .endrKw]),
  .hidden "_for_args" (.choice [
    .seq [.token .ident, .token .comma, .rule "_arg",
      afterComma [.rule "_arg", afterComma [.rule "_arg"]]],
    .token .error]),
  .visible .ifBlock (.seq [
    .token .ifKw, .rule "_arg", .token .newline, body, .opt (.rule "_elif_clauses"),
    .opt (.node .elseClause), .token .endcKw]),
  .hidden "_elif_clauses"
    (.choice [.node .elifClause, .seq [.rule "_elif_clauses", .node .elifClause]]),
  .visible .elifClause (.seq [.token .elifKw, .rule "_arg", .token .newline, body]),
  .visible .elseClause (.seq [.token .elseKw, .token .newline, body])]

/-- Directives. -/
def directiveRules : List Definition := [
  .hidden "_name_list" (.choice [
    .oneOf [.ident, .localIdent],
    .seq [.rule "_name_list", .token .comma, .oneOf [.ident, .localIdent]]]),
  .visible .includeDirective (.seq [.token .includeKw, .rule "_arg"]),
  .visible .symbolDef (.seq [
    .opt (.token .exportKw),
    .oneOf [.defKw, .redefKw],
    .oneOf [.ident, .macroArg],
    .choice [
      .seq [.oneOf assignOperators, .rule "_arg"],
      .seq [.token .equsKw, .rule "_arg"],
      .seq [.oneOf [.rbKw, .rwKw, .rlKw], .opt (.rule "_arg")]]]),
  .visible .printDirective (.seq [.oneOf [.printKw, .printlnKw], .opt argList]),
  .visible .exportDirective (.seq [.token .exportKw, nameList]),
  .visible .dataDirective (.seq [.oneOf [.dbKw, .dwKw, .dlKw], .opt argList]),
  .visible .dsDirective (.seq [
    .token .dsKw,
    .choice [.blank, argList, .seq [.node .alignSpec, afterComma [argList]]]]),
  .visible .alignSpec (.seq [
    .token .alignKw, .token .lBracket, .rule "_expr", afterComma [.rule "_expr"],
    .token .rBracket]),
  .visible .bankSpec (.seq [.token .bankKw, .token .lBracket, .rule "_expr", .token .rBracket]),
  .visible .sectionDirective (.seq [
    .oneOf [.sectionKw, .pushsKw, .loadKw],
    .opt (.oneOf [.unionKw, .fragmentKw]),
    .rule "_arg",
    .token .comma,
    .token .sectionType,
    .opt (.seq [.token .lBracket, .rule "_expr", .token .rBracket]),
    .opt (.rule "_section_options")]),
  .hidden "_section_options" (.choice [
    .seq [.token .comma, .rule "_section_option"],
    .seq [.rule "_section_options", .token .comma, .rule "_section_option"]]),
  .hidden "_section_option" (.choice [.node .bankSpec, .node .alignSpec]),
  .visible .rssetDirective (.seq [.token .rssetKw, .rule "_arg"]),
  .visible .incbinDirective (.seq [
    .token .incbinKw, .rule "_arg", afterComma [.rule "_arg", afterComma [.rule "_arg"]]]),
  .visible .charmapDirective (.seq [
    .token .charmapKw, .rule "_arg", afterComma [.rule "_expr_list"]]),
  .visible .newcharmapDirective (.seq [
    .token .newcharmapKw, .token .ident, afterComma [.token .ident]]),
  .visible .setcharmapDirective (.seq [.oneOf [.setcharmapKw, .pushcKw], .token .ident]),
  .visible .shiftDirective (.seq [.token .shiftKw, .opt (.rule "_arg")]),
  .visible .failDirective (.seq [.token .failKw, .rule "_arg"]),
  .visible .warnDirective (.seq [.token .warnKw, .rule "_arg"]),
  .visible .assertDirective (.seq [
    .oneOf [.assertKw, .staticAssertKw],
    .opt (.seq [.oneOf [.warnKw, .failKw, .fatalKw], .token .comma]),
    .rule "_arg",
    afterComma [.rule "_arg"]]),
  .visible .purgeDirective (.seq [.token .purgeKw, nameList]),
  .visible .optDirective (.choice [
    .seq [.oneOf [.optKw, .pushoKw], .rule "_raw_args"],
    .token .optKw]),
  .visible .alignDirective (.seq [.token .alignKw, .rule "_arg", afterComma [.rule "_arg"]]),
  .visible .simpleDirective (.oneOf simpleDirectives)]

/-- The rules of the assembly language. -/
def rules : RuleSet where
  name := "rgbasm"
  levels := levels
  extras := [.whitespace, .comment, .blockComment, .lineCont]
  start := "_source"
  resumePoint := "_lines"
  definitions :=
    expressionRules ++ lineRules ++ instructionRules ++ macroCallRules ++ blockRules ++
      directiveRules

end AsmTree.Assembly
