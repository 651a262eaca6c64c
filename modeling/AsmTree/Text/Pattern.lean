/-!
# Regular patterns

A pattern is a regular expression over character classes. `Pattern.Matches` says which words it
describes; `Pattern.longest` finds, by taking one derivative a character, how far the longest
beginning of an input reaches that it describes.
-/

namespace AsmTree

/-- A set of characters, by inclusive ranges or by what it leaves out. -/
inductive CharClass where
  | oneOf (ranges : List (Char × Char))
  | noneOf (ranges : List (Char × Char))
deriving DecidableEq, Repr, Inhabited

namespace CharClass

/-- Whether one of the ranges holds the character. -/
def inRanges (ranges : List (Char × Char)) (c : Char) : Bool :=
  ranges.any fun (lo, hi) => lo ≤ c && c ≤ hi

/-- Whether the class holds a character. -/
def contains : CharClass → Char → Bool
  | .oneOf ranges, c => inRanges ranges c
  | .noneOf ranges, c => !inRanges ranges c

/-- The class of one character. -/
def only (c : Char) : CharClass := .oneOf [(c, c)]

/-- The class of the characters of a word. -/
def ofChars (cs : List Char) : CharClass := .oneOf (cs.map fun c => (c, c))

end CharClass

/-- A regular expression over character classes. -/
inductive Pattern where
  | void
  | empty
  | one (cls : CharClass)
  | seq (first second : Pattern)
  | alt (left right : Pattern)
  | star (body : Pattern)
deriving DecidableEq, Repr, Inhabited

namespace Pattern

/-- The words that a pattern describes. -/
inductive Matches : Pattern → List Char → Prop where
  | empty : Matches .empty []
  | one {cls : CharClass} {c : Char} : cls.contains c → Matches (.one cls) [c]
  | seq {p q : Pattern} {a b : List Char} : Matches p a → Matches q b → Matches (.seq p q) (a ++ b)
  | left {p q : Pattern} {a : List Char} : Matches p a → Matches (.alt p q) a
  | right {p q : Pattern} {a : List Char} : Matches q a → Matches (.alt p q) a
  | stop {p : Pattern} : Matches (.star p) []
  | more {p : Pattern} {a b : List Char} :
    Matches p a → Matches (.star p) b → Matches (.star p) (a ++ b)

/-- One or more times. -/
def plus (p : Pattern) : Pattern := .seq p (.star p)

/-- Once or not at all. -/
def opt (p : Pattern) : Pattern := .alt .empty p

/-- One pattern after the other. -/
def all : List Pattern → Pattern
  | [] => .empty
  | [p] => p
  | p :: ps => .seq p (all ps)

/-- The word itself. -/
def word (s : String) : Pattern := all (s.toList.map fun c => .one (.only c))

/-- Whether the pattern describes the empty word. -/
def nullable : Pattern → Bool
  | void => false
  | empty => true
  | one _ => false
  | seq p q => p.nullable && q.nullable
  | alt p q => p.nullable || q.nullable
  | star _ => true

/-- `seq` that stays small where a part is trivial. -/
def andThen : Pattern → Pattern → Pattern
  | void, _ => void
  | _, void => void
  | empty, q => q
  | p, q => seq p q

/-- `alt` that stays small where a part is trivial. -/
def orElse : Pattern → Pattern → Pattern
  | void, q => q
  | p, void => p
  | p, q => if p = q then p else alt p q

/-- What remains to be read of a word of the pattern once `c` has been read. -/
def derive (c : Char) : Pattern → Pattern
  | void => void
  | empty => void
  | one cls => if cls.contains c then empty else void
  | seq p q =>
    if p.nullable then orElse (andThen (derive c p) q) (derive c q)
    else andThen (derive c p) q
  | alt p q => orElse (derive c p) (derive c q)
  | star p => andThen (derive c p) (star p)

/-- Number of characters of the longest beginning of the input that the pattern describes. -/
def longest : Pattern → List Char → Option Nat
  | p, [] => if p.nullable then some 0 else none
  | p, c :: cs =>
    match p.derive c with
    | void => if p.nullable then some 0 else none
    | rest =>
      match longest rest cs with
      | some n => some (n + 1)
      | none => if p.nullable then some 0 else none

end Pattern

end AsmTree
