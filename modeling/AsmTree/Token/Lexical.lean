import AsmTree.Kind
import AsmTree.Text.Pattern

/-!
# Lexical classes

The words of the language, as data: which patterns form which kind of token, which words are
reserved, and which patterns only open a token whose end is found by searching for a delimiter.
-/

namespace AsmTree

/-- Tokens that run up to a closing delimiter. -/
inductive Delimited where
  /-- A string in which a backslash protects the next character. -/
  | plainString
  /-- A string without escapes. -/
  | rawString
  | blockComment
deriving DecidableEq, Repr

/-- What a matched pattern makes. -/
inductive LexResult where
  | token (kind : Kind)
  | opens (form : Delimited)
deriving DecidableEq, Repr

/-- A pattern and what it makes. -/
structure LexRule where
  pattern : Pattern
  result : LexResult
deriving Repr

namespace Lexical

open Pattern

/-! ## Character classes -/

/-- Blank space within a line. -/
def blank : CharClass := .ofChars [' ', '\t', '\r']

/-- All but the end of a line. -/
def notNewline : CharClass := .noneOf [('\n', '\n')]

/-- First characters of a name. -/
def nameStart : CharClass := .oneOf [('A', 'Z'), ('a', 'z'), ('_', '_')]

/-- Later characters of a name. -/
def nameRest : CharClass :=
  .oneOf [('A', 'Z'), ('a', 'z'), ('0', '9'), ('_', '_'), ('$', '$'), ('@', '@'), ('#', '#')]

/-- First characters of the name of a macro argument. -/
def argStart : CharClass := .oneOf [('0', '9'), ('A', 'Z'), ('a', 'z'), ('_', '_')]

/-- Later characters of the name of a macro argument. -/
def argRest : CharClass :=
  .oneOf [('0', '9'), ('A', 'Z'), ('a', 'z'), ('_', '_'), ('.', '.'), ('@', '@'), ('#', '#'),
    ('$', '$')]

/-- Decimal digits. -/
def decimal : CharClass := .oneOf [('0', '9')]

/-- Hexadecimal digits. -/
def hexadecimal : CharClass := .oneOf [('0', '9'), ('A', 'F'), ('a', 'f')]

/-- Binary digits. -/
def binary : CharClass := .oneOf [('0', '1')]

/-- Octal digits. -/
def octal : CharClass := .oneOf [('0', '7')]

/-- Digits of a graphics constant. -/
def graphics : CharClass := .oneOf [('0', '3')]

/-! ## Parts of patterns -/

/-- Digits, with single underscores allowed between groups of them. -/
def digits (d : CharClass) : Pattern :=
  .seq (plus (.one d)) (.star (.seq (word "_") (plus (.one d))))

/-- Digits behind a mark. -/
def marked (mark : Char) (d : CharClass) : Pattern := .seq (.one (.only mark)) (digits d)

/-- Digits behind a zero and one of some letters. -/
def zeroMarked (letters : List Char) (d : CharClass) : Pattern :=
  all [word "0", .one (.ofChars letters), digits d]

/-- The characters of a constant in single quotes. A backslash protects the next one. -/
def charBody : Pattern :=
  .star (.alt (.one (.noneOf [('\'', '\''), ('\\', '\\'), ('\n', '\n')]))
    (.seq (word "\\") (.one notNewline)))

/-- What may stand between a continuing backslash and the end of its line. -/
def continuationBody : Pattern :=
  .seq (.star (.one (.ofChars [' ', '\t']))) (opt (.seq (word ";") (.star (.one notNewline))))

/-! ## The classes -/

/-- Punctuation marks and operators. -/
def marks : List (String × Kind) := [
  (",", .comma), (":", .colon), ("::", .colonColon), ("(", .lParen), (")", .rParen),
  ("[", .lBracket), ("]", .rBracket), ("@", .atSign), ("+", .plus), ("-", .minus), ("*", .star),
  ("/", .slash), ("%", .percent), ("**", .starStar), ("<<", .shl), (">>", .shr), (">>>", .ushr),
  ("&", .amp), ("|", .pipe), ("^", .caret), ("~", .tilde), ("!", .bang), ("&&", .ampAmp),
  ("||", .pipePipe), ("==", .eqEq), ("!=", .bangEq), ("<", .less), (">", .greater),
  ("<=", .lessEq), (">=", .greaterEq), ("++", .plusPlus), ("=", .assign), ("+=", .plusEq),
  ("-=", .minusEq), ("*=", .starEq), ("/=", .slashEq), ("%=", .percentEq), ("&=", .ampEq),
  ("|=", .pipeEq), ("^=", .caretEq), ("<<=", .shlEq), (">>=", .shrEq)]

/-- Patterns in order. The longest match counts, and of equally long ones the first. -/
def rules : List LexRule := [
  ⟨plus (.one blank), .token .whitespace⟩,
  ⟨.seq (word ";") (.star (.one notNewline)), .token .comment⟩,
  ⟨word "/*", .opens .blockComment⟩,
  ⟨all [word "\\", continuationBody, opt (word "\r"), word "\n"], .token .lineCont⟩,
  ⟨word "\n", .token .newline⟩,
  ⟨all [opt (word "#"), .one nameStart, .star (.one nameRest)], .token .ident⟩,
  ⟨all [word ".", .star (.one nameRest)], .token .localIdent⟩,
  ⟨all [.one nameStart, .star (.one nameRest), word ".", .star (.one nameRest)],
    .token .localIdent⟩,
  ⟨digits decimal, .token .decNumber⟩,
  ⟨marked '$' hexadecimal, .token .hexNumber⟩,
  ⟨zeroMarked ['x', 'X'] hexadecimal, .token .hexNumber⟩,
  ⟨marked '%' binary, .token .binNumber⟩,
  ⟨zeroMarked ['b', 'B'] binary, .token .binNumber⟩,
  ⟨marked '&' octal, .token .octNumber⟩,
  ⟨zeroMarked ['o', 'O'] octal, .token .octNumber⟩,
  ⟨marked '\x60' graphics, .token .gfxNumber⟩,
  ⟨all [plus (.one decimal), word ".", plus (.one decimal),
    opt (.seq (.one (.ofChars ['q', 'Q'])) (plus (.one decimal)))], .token .fixedNumber⟩,
  ⟨word "\"", .opens .plainString⟩,
  ⟨word "#\"", .opens .rawString⟩,
  ⟨all [word "'", charBody, word "'"], .token .char⟩,
  ⟨.seq (word "\\") (.one (.oneOf [('1', '9'), ('#', '#'), ('@', '@')])), .token .macroArg⟩,
  ⟨all [word "\\<", .one argStart, .star (.one argRest), word ">"], .token .macroArg⟩,
  ⟨.seq (word ":") (plus (word "+")), .token .anonLabelRef⟩,
  ⟨.seq (word ":") (plus (word "-")), .token .anonLabelRef⟩] ++
  marks.map fun (mark, kind) => ⟨word mark, .token kind⟩

/-- Beginnings of tokens that were not finished. Where no pattern matches, the unreadable token
holds the longest of these, or else one character. -/
def unfinished : List Pattern := [
  .seq (word "'") charBody,
  all [word "\\<", .one argStart, .star (.one argRest)],
  .seq (word "\\") continuationBody]

/-- Reserved words by kind, in lower case. -/
def reservedWords : List (Kind × List String) := [
  (.mnemonic, ["adc", "add", "and", "bit", "call", "ccf", "cp", "cpl", "daa", "dec", "di",
    "ei", "halt", "inc", "jp", "jr", "ld", "ldh", "ldi", "ldd", "nop", "or", "pop", "push",
    "res", "ret", "reti", "rla", "rlc", "rlca", "rr", "rra", "rrc", "rrca", "rst", "sbc", "scf",
    "set", "sla", "sra", "srl", "stop", "sub", "swap", "xor"]),
  (.register, ["a", "b", "c", "d", "e", "h", "l", "af", "bc", "de", "hl", "hli", "hld"]),
  (.condition, ["nz", "z", "nc"]),
  (.sectionType, ["rom0", "romx", "vram", "sram", "wram0", "wramx", "oam", "hram"]),
  (.spKw, ["sp"]), (.macroKw, ["macro"]), (.endmKw, ["endm"]), (.reptKw, ["rept"]),
  (.forKw, ["for"]), (.endrKw, ["endr"]), (.breakKw, ["break"]), (.includeKw, ["include"]),
  (.ifKw, ["if"]), (.elifKw, ["elif"]), (.elseKw, ["else"]), (.endcKw, ["endc"]),
  (.defKw, ["def"]), (.redefKw, ["redef"]), (.equKw, ["equ"]), (.equsKw, ["equs"]),
  (.rbKw, ["rb"]), (.rwKw, ["rw"]), (.rlKw, ["rl"]), (.printKw, ["print"]),
  (.printlnKw, ["println"]), (.exportKw, ["export"]), (.dbKw, ["db"]), (.dwKw, ["dw"]),
  (.dlKw, ["dl"]), (.dsKw, ["ds"]), (.sectionKw, ["section"]), (.pushsKw, ["pushs"]),
  (.popsKw, ["pops"]), (.endsectionKw, ["endsection"]), (.loadKw, ["load"]), (.endlKw, ["endl"]),
  (.fragmentKw, ["fragment"]), (.unionKw, ["union"]), (.nextuKw, ["nextu"]), (.enduKw, ["endu"]),
  (.rsresetKw, ["rsreset"]), (.rssetKw, ["rsset"]), (.incbinKw, ["incbin"]),
  (.charmapKw, ["charmap"]), (.newcharmapKw, ["newcharmap"]), (.setcharmapKw, ["setcharmap"]),
  (.pushcKw, ["pushc"]), (.popcKw, ["popc"]), (.shiftKw, ["shift"]), (.failKw, ["fail"]),
  (.warnKw, ["warn"]), (.fatalKw, ["fatal"]), (.assertKw, ["assert"]),
  (.staticAssertKw, ["static_assert"]), (.purgeKw, ["purge"]), (.optKw, ["opt"]),
  (.pushoKw, ["pusho"]), (.popoKw, ["popo"]), (.alignKw, ["align"]), (.bankKw, ["bank"])]

/-- The kind of a name: that of the reserved word it spells in any ASCII case, if it spells one. -/
def nameKind (name : String) : Kind :=
  let lower := name.map Char.toLower
  match reservedWords.find? fun (_, words) => words.contains lower with
  | some (kind, _) => kind
  | none => .ident

end Lexical

end AsmTree
