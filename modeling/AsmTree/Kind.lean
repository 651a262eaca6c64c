/-!
# Kinds of tokens and nodes

One enumeration names everything a tree can hold: first the tokens, then the nodes. The order of
the constructors is part of the meaning: it numbers the columns of a parse table, sorts the lists
of expected tokens, and makes each class of kinds (keywords, punctuation, literals) an interval.
-/

namespace AsmTree

/-- What a token or a node is. -/
inductive Kind where
  -- trivia
  | whitespace | comment | blockComment | lineCont
  -- the end of a logical line
  | newline
  -- literals and names
  | ident | localIdent | decNumber | hexNumber | binNumber | octNumber | gfxNumber | fixedNumber
  | string | char | macroArg | anonLabelRef
  -- punctuation
  | comma | colon | colonColon | lParen | rParen | lBracket | rBracket | atSign
  -- operators
  | plus | minus | star | slash | percent | starStar | shl | shr | ushr | amp | pipe | caret
  | tilde | bang | ampAmp | pipePipe | eqEq | bangEq | less | greater | lessEq | greaterEq
  | plusPlus | assign | plusEq | minusEq | starEq | slashEq | percentEq | ampEq | pipeEq
  | caretEq | shlEq | shrEq
  -- processor words
  | mnemonic | register | spKw | condition | sectionType
  -- directive words
  | macroKw | endmKw | reptKw | forKw | endrKw | breakKw | includeKw | ifKw | elifKw | elseKw
  | endcKw | defKw | redefKw | equKw | equsKw | rbKw | rwKw | rlKw | printKw | printlnKw
  | exportKw | dbKw | dwKw | dlKw | dsKw | sectionKw | pushsKw | popsKw | endsectionKw | loadKw
  | endlKw | fragmentKw | unionKw | nextuKw | enduKw | rsresetKw | rssetKw | incbinKw | charmapKw
  | newcharmapKw | setcharmapKw | pushcKw | popcKw | shiftKw | failKw | warnKw | fatalKw
  | assertKw | staticAssertKw | purgeKw | optKw | pushoKw | popoKw | alignKw | bankKw
  -- unreadable input, recovered regions and the end of input
  | unknown | error | eof
  -- structure
  | sourceFile | label | instruction | memOperand | macroCall | rawArg
  -- blocks
  | macroDef | reptBlock | forBlock | ifBlock | elifClause | elseClause
  -- directives
  | includeDirective | symbolDef | printDirective | exportDirective | dataDirective | dsDirective
  | sectionDirective | bankSpec | alignSpec | rssetDirective | incbinDirective | charmapDirective
  | newcharmapDirective | setcharmapDirective | shiftDirective | failDirective | warnDirective
  | assertDirective | purgeDirective | optDirective | alignDirective | simpleDirective
  -- expressions
  | binaryExpr | unaryExpr | parenExpr | callExpr | literal | nameRef | macroArgRef
  -- reserved: no token and no node has this kind
  | reserved
deriving DecidableEq, Repr, Inhabited

namespace Kind

/-- Place of a kind in the enumeration. -/
def index (k : Kind) : Nat := k.ctorIdx

/-- Every kind that a tree or a grammar can use, in order. -/
def all : Array Kind := #[
  .whitespace, .comment, .blockComment, .lineCont, .newline, .ident, .localIdent, .decNumber,
  .hexNumber, .binNumber, .octNumber, .gfxNumber, .fixedNumber, .string, .char, .macroArg,
  .anonLabelRef, .comma, .colon, .colonColon, .lParen, .rParen, .lBracket, .rBracket, .atSign,
  .plus, .minus, .star, .slash, .percent, .starStar, .shl, .shr, .ushr, .amp, .pipe, .caret,
  .tilde, .bang, .ampAmp, .pipePipe, .eqEq, .bangEq, .less, .greater, .lessEq, .greaterEq,
  .plusPlus, .assign, .plusEq, .minusEq, .starEq, .slashEq, .percentEq, .ampEq, .pipeEq,
  .caretEq, .shlEq, .shrEq, .mnemonic, .register, .spKw, .condition, .sectionType, .macroKw,
  .endmKw, .reptKw, .forKw, .endrKw, .breakKw, .includeKw, .ifKw, .elifKw, .elseKw, .endcKw,
  .defKw, .redefKw, .equKw, .equsKw, .rbKw, .rwKw, .rlKw, .printKw, .printlnKw, .exportKw, .dbKw,
  .dwKw, .dlKw, .dsKw, .sectionKw, .pushsKw, .popsKw, .endsectionKw, .loadKw, .endlKw,
  .fragmentKw, .unionKw, .nextuKw, .enduKw, .rsresetKw, .rssetKw, .incbinKw, .charmapKw,
  .newcharmapKw, .setcharmapKw, .pushcKw, .popcKw, .shiftKw, .failKw, .warnKw, .fatalKw,
  .assertKw, .staticAssertKw, .purgeKw, .optKw, .pushoKw, .popoKw, .alignKw, .bankKw, .unknown,
  .error, .eof, .sourceFile, .label, .instruction, .memOperand, .macroCall, .rawArg, .macroDef,
  .reptBlock, .forBlock, .ifBlock, .elifClause, .elseClause, .includeDirective, .symbolDef,
  .printDirective, .exportDirective, .dataDirective, .dsDirective, .sectionDirective, .bankSpec,
  .alignSpec, .rssetDirective, .incbinDirective, .charmapDirective, .newcharmapDirective,
  .setcharmapDirective, .shiftDirective, .failDirective, .warnDirective, .assertDirective,
  .purgeDirective, .optDirective, .alignDirective, .simpleDirective, .binaryExpr, .unaryExpr,
  .parenExpr, .callExpr, .literal, .nameRef, .macroArgRef]

/-- The kind with a given place, if there is one. -/
def ofIndex? (i : Nat) : Option Kind := all[i]?

/-- The upper-case name of a kind. -/
def name : Kind → String
  | .whitespace => "WHITESPACE"
  | .comment => "COMMENT"
  | .blockComment => "BLOCK_COMMENT"
  | .lineCont => "LINE_CONT"
  | .newline => "NEWLINE"
  | .ident => "IDENT"
  | .localIdent => "LOCAL_IDENT"
  | .decNumber => "DEC_NUMBER"
  | .hexNumber => "HEX_NUMBER"
  | .binNumber => "BIN_NUMBER"
  | .octNumber => "OCT_NUMBER"
  | .gfxNumber => "GFX_NUMBER"
  | .fixedNumber => "FIXED_NUMBER"
  | .string => "STRING"
  | .char => "CHAR"
  | .macroArg => "MACRO_ARG"
  | .anonLabelRef => "ANON_LABEL_REF"
  | .comma => "COMMA"
  | .colon => "COLON"
  | .colonColon => "COLON_COLON"
  | .lParen => "L_PAREN"
  | .rParen => "R_PAREN"
  | .lBracket => "L_BRACKET"
  | .rBracket => "R_BRACKET"
  | .atSign => "AT"
  | .plus => "PLUS"
  | .minus => "MINUS"
  | .star => "STAR"
  | .slash => "SLASH"
  | .percent => "PERCENT"
  | .starStar => "STAR_STAR"
  | .shl => "SHL"
  | .shr => "SHR"
  | .ushr => "USHR"
  | .amp => "AMP"
  | .pipe => "PIPE"
  | .caret => "CARET"
  | .tilde => "TILDE"
  | .bang => "BANG"
  | .ampAmp => "AMP_AMP"
  | .pipePipe => "PIPE_PIPE"
  | .eqEq => "EQ_EQ"
  | .bangEq => "BANG_EQ"
  | .less => "LT"
  | .greater => "GT"
  | .lessEq => "LT_EQ"
  | .greaterEq => "GT_EQ"
  | .plusPlus => "PLUS_PLUS"
  | .assign => "EQ"
  | .plusEq => "PLUS_EQ"
  | .minusEq => "MINUS_EQ"
  | .starEq => "STAR_EQ"
  | .slashEq => "SLASH_EQ"
  | .percentEq => "PERCENT_EQ"
  | .ampEq => "AMP_EQ"
  | .pipeEq => "PIPE_EQ"
  | .caretEq => "CARET_EQ"
  | .shlEq => "SHL_EQ"
  | .shrEq => "SHR_EQ"
  | .mnemonic => "MNEMONIC"
  | .register => "REGISTER"
  | .spKw => "SP_KW"
  | .condition => "CONDITION"
  | .sectionType => "SECTION_TYPE"
  | .macroKw => "MACRO_KW"
  | .endmKw => "ENDM_KW"
  | .reptKw => "REPT_KW"
  | .forKw => "FOR_KW"
  | .endrKw => "ENDR_KW"
  | .breakKw => "BREAK_KW"
  | .includeKw => "INCLUDE_KW"
  | .ifKw => "IF_KW"
  | .elifKw => "ELIF_KW"
  | .elseKw => "ELSE_KW"
  | .endcKw => "ENDC_KW"
  | .defKw => "DEF_KW"
  | .redefKw => "REDEF_KW"
  | .equKw => "EQU_KW"
  | .equsKw => "EQUS_KW"
  | .rbKw => "RB_KW"
  | .rwKw => "RW_KW"
  | .rlKw => "RL_KW"
  | .printKw => "PRINT_KW"
  | .printlnKw => "PRINTLN_KW"
  | .exportKw => "EXPORT_KW"
  | .dbKw => "DB_KW"
  | .dwKw => "DW_KW"
  | .dlKw => "DL_KW"
  | .dsKw => "DS_KW"
  | .sectionKw => "SECTION_KW"
  | .pushsKw => "PUSHS_KW"
  | .popsKw => "POPS_KW"
  | .endsectionKw => "ENDSECTION_KW"
  | .loadKw => "LOAD_KW"
  | .endlKw => "ENDL_KW"
  | .fragmentKw => "FRAGMENT_KW"
  | .unionKw => "UNION_KW"
  | .nextuKw => "NEXTU_KW"
  | .enduKw => "ENDU_KW"
  | .rsresetKw => "RSRESET_KW"
  | .rssetKw => "RSSET_KW"
  | .incbinKw => "INCBIN_KW"
  | .charmapKw => "CHARMAP_KW"
  | .newcharmapKw => "NEWCHARMAP_KW"
  | .setcharmapKw => "SETCHARMAP_KW"
  | .pushcKw => "PUSHC_KW"
  | .popcKw => "POPC_KW"
  | .shiftKw => "SHIFT_KW"
  | .failKw => "FAIL_KW"
  | .warnKw => "WARN_KW"
  | .fatalKw => "FATAL_KW"
  | .assertKw => "ASSERT_KW"
  | .staticAssertKw => "STATIC_ASSERT_KW"
  | .purgeKw => "PURGE_KW"
  | .optKw => "OPT_KW"
  | .pushoKw => "PUSHO_KW"
  | .popoKw => "POPO_KW"
  | .alignKw => "ALIGN_KW"
  | .bankKw => "BANK_KW"
  | .unknown => "UNKNOWN"
  | .error => "ERROR"
  | .eof => "EOF"
  | .sourceFile => "SOURCE_FILE"
  | .label => "LABEL"
  | .instruction => "INSTRUCTION"
  | .memOperand => "MEM_OPERAND"
  | .macroCall => "MACRO_CALL"
  | .rawArg => "RAW_ARG"
  | .macroDef => "MACRO_DEF"
  | .reptBlock => "REPT_BLOCK"
  | .forBlock => "FOR_BLOCK"
  | .ifBlock => "IF_BLOCK"
  | .elifClause => "ELIF_CLAUSE"
  | .elseClause => "ELSE_CLAUSE"
  | .includeDirective => "INCLUDE_DIRECTIVE"
  | .symbolDef => "SYMBOL_DEF"
  | .printDirective => "PRINT_DIRECTIVE"
  | .exportDirective => "EXPORT_DIRECTIVE"
  | .dataDirective => "DATA_DIRECTIVE"
  | .dsDirective => "DS_DIRECTIVE"
  | .sectionDirective => "SECTION_DIRECTIVE"
  | .bankSpec => "BANK_SPEC"
  | .alignSpec => "ALIGN_SPEC"
  | .rssetDirective => "RSSET_DIRECTIVE"
  | .incbinDirective => "INCBIN_DIRECTIVE"
  | .charmapDirective => "CHARMAP_DIRECTIVE"
  | .newcharmapDirective => "NEWCHARMAP_DIRECTIVE"
  | .setcharmapDirective => "SETCHARMAP_DIRECTIVE"
  | .shiftDirective => "SHIFT_DIRECTIVE"
  | .failDirective => "FAIL_DIRECTIVE"
  | .warnDirective => "WARN_DIRECTIVE"
  | .assertDirective => "ASSERT_DIRECTIVE"
  | .purgeDirective => "PURGE_DIRECTIVE"
  | .optDirective => "OPT_DIRECTIVE"
  | .alignDirective => "ALIGN_DIRECTIVE"
  | .simpleDirective => "SIMPLE_DIRECTIVE"
  | .binaryExpr => "BINARY_EXPR"
  | .unaryExpr => "UNARY_EXPR"
  | .parenExpr => "PAREN_EXPR"
  | .callExpr => "CALL_EXPR"
  | .literal => "LITERAL"
  | .nameRef => "NAME_REF"
  | .macroArgRef => "MACRO_ARG_REF"
  | .reserved => "__LAST"

/-- The kind with a given upper-case name. -/
def ofName? (s : String) : Option Kind := all.find? (·.name == s)

/-! ## Classes -/

/-- Whether `k` stands between `lo` and `hi` in the enumeration, ends included. -/
def between (k lo hi : Kind) : Bool := lo.index ≤ k.index && k.index ≤ hi.index

/-- Blank space and comments. The end of a line is no trivia: it ends a statement. -/
def isTrivia : Kind → Bool
  | .whitespace | .comment | .blockComment | .lineCont => true
  | _ => false

/-- Reserved words: mnemonics, registers, conditions, section types and directives. -/
def isKeyword (k : Kind) : Bool := k.between .mnemonic .bankKw

/-- Words that begin or belong to a directive. -/
def isDirectiveWord (k : Kind) : Bool := k.between .macroKw .bankKw

/-- Punctuation and operators. -/
def isPunct (k : Kind) : Bool := k.between .comma .shrEq

/-- Numbers, strings and character constants. -/
def isLiteral (k : Kind) : Bool := k.between .decNumber .char

/-- Numbers in any notation. -/
def isNumber (k : Kind) : Bool := k.between .decNumber .fixedNumber

/-- Kinds of leaves, the end of input among them. -/
def isToken (k : Kind) : Bool := k.between .whitespace .eof

/-- Kinds of inner nodes. -/
def isNode (k : Kind) : Bool := k.between .sourceFile .macroArgRef

/-- Kinds that own the lines of a block. -/
def isBlock : Kind → Bool
  | .macroDef | .reptBlock | .forBlock | .ifBlock | .elifClause | .elseClause => true
  | _ => false

/-- Kinds of expressions. -/
def isExpr (k : Kind) : Bool := k.between .binaryExpr .macroArgRef

/-- Number of token kinds. A parse table has one column for each. -/
def tokenCount : Nat := eof.index + 1

/-- The token kinds in order. -/
def tokens : List Kind := all.toList.take tokenCount

/-! ## Wording -/

/-- The wording of a kind that is no directive word. -/
def displayName (k : Kind) : String :=
  match k with
  | .newline => "end of line"
  | .eof => "end of file"
  | .ident => "identifier"
  | .localIdent => "local label"
  | .decNumber | .hexNumber | .binNumber | .octNumber | .gfxNumber | .fixedNumber => "number"
  | .string => "string"
  | .char => "character literal"
  | .macroArg => "macro argument"
  | .anonLabelRef => "anonymous label reference"
  | .comma => "','"
  | .colon => "':'"
  | .colonColon => "'::'"
  | .lParen => "'('"
  | .rParen => "')'"
  | .lBracket => "'['"
  | .rBracket => "']'"
  | .atSign => "'@'"
  | .mnemonic | .rlKw => "instruction"
  | .register => "register"
  | .spKw => "'sp'"
  | .condition => "condition"
  | .sectionType => "section type"
  | .unknown => "unknown character"
  | .error => "error"
  | k =>
    if k.isPunct then "operator"
    else if k.isKeyword then "keyword"
    else if k.isTrivia then "trivia"
    else "syntax"

/-- The spelling of a directive word in messages: its name without the closing `_KW`. -/
def spelling (k : Kind) : String := String.ofList (k.name.toList.take (k.name.length - 3))

/-- The wording of a kind in messages: a directive word is spelled out, any other kind has its
display name. -/
def describe (k : Kind) : String :=
  if k.isDirectiveWord then "'" ++ k.spelling ++ "'" else k.displayName

/-! ## Small facts -/

set_option maxRecDepth 4000 in
theorem ofIndex?_index {k : Kind} (h : k ≠ .reserved) : ofIndex? k.index = some k := by
  cases k <;> first | rfl | exact absurd rfl h

set_option maxRecDepth 4000 in
theorem index_lt_size_iff {k : Kind} : k.index < all.size ↔ k ≠ .reserved := by
  cases k <;> decide

/-- Two kinds with one place are one kind. -/
theorem index_inj {a b : Kind} : a.index = b.index ↔ a = b := by
  refine ⟨fun h => ?_, fun h => h ▸ rfl⟩
  by_cases ha : a = .reserved
  · have hb : ¬ b.index < all.size := by rw [← h, index_lt_size_iff]; simpa using ha
    rw [index_lt_size_iff] at hb
    rw [ha, Classical.not_not.1 hb]
  · have hb : b.index < all.size := by rw [← h]; exact index_lt_size_iff.2 ha
    have := (ofIndex?_index ha).symm.trans (h ▸ ofIndex?_index (index_lt_size_iff.1 hb))
    exact Option.some.inj this

end Kind

end AsmTree
