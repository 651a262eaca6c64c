import AsmTree.Text.Digits

/-!
# Decimal numbers

A decimal number is digits with an optional point and an optional power of ten, or a word for a
value that no digits have. `Decimal.toFloat` is the double nearest to it; of two equally near ones
it is the one with an even last bit.
-/

namespace AsmTree

/-- A decimal number without a sign. -/
inductive Decimal where
  /-- Some digits times a power of ten. -/
  | finite (digits : Nat) (exponent : Int)
  | infinity
  | notANumber
deriving DecidableEq, Repr

namespace Decimal

/-! ## Reading -/

/-- The longest run of digits in front, and what follows it. -/
def spanDigits (cs : List Char) : List Char × List Char := cs.span fun c => '0' ≤ c && c ≤ '9'

/-- The power of ten at the end of a number. -/
def exponent? : List Char → Option Int
  | [] => some 0
  | c :: cs =>
    if c = 'e' ∨ c = 'E' then
      match cs with
      | '-' :: ds => (digitsValue? 10 ds).map fun n => -(n : Int)
      | '+' :: ds => (digitsValue? 10 ds).map Int.ofNat
      | ds => (digitsValue? 10 ds).map Int.ofNat
    else none

/-- A number that has digits. -/
def finite? (cs : List Char) : Option Decimal :=
  let (whole, rest) := spanDigits cs
  let (fraction, rest) := match rest with
    | '.' :: rest => spanDigits rest
    | rest => ([], rest)
  match digitsValue? 10 (whole ++ fraction), exponent? rest with
  | some digits, some e => some (.finite digits (e - fraction.length))
  | _, _ => none

/-- The number that a text spells. -/
def read? (cs : List Char) : Option Decimal :=
  match finite? cs with
  | some d => some d
  | none =>
    match String.ofList (cs.map Char.toLower) with
    | "inf" | "infinity" => some infinity
    | "nan" => some notANumber
    | _ => none

/-! ## The nearest double -/

/-- A fraction rounded to a whole number, a half to the even neighbour. -/
def roundHalfEven (num den : Nat) : Nat :=
  let q := num / den
  let twice := 2 * (num % den)
  if den < twice ∨ (twice = den ∧ q % 2 = 1) then q + 1 else q

/-- A fraction divided by a power of two, as numerator and denominator. -/
def scale (num den : Nat) (e : Int) : Nat × Nat :=
  if 0 ≤ e then (num, den * Nat.pow 2 e.toNat) else (num * Nat.pow 2 (-e).toNat, den)

/-- The greatest power of two that is not above a positive fraction. -/
def log2Ratio (num den : Nat) : Int :=
  let guess : Int := (num.log2 : Int) - den.log2
  let (n, d) := scale num den guess
  if n < d then guess - 1 else guess

/-- Number of values of the bits of a double below its exponent. -/
def significandRange : Nat := 0x10000000000000

/-- The bits of the double that stands for infinity. -/
def infinityBits : Nat := 0x7FF * significandRange

/-- The bits of the double nearest to a positive fraction. The unit of the last place is the power
of two that leaves 53 bits, but never below the least one that doubles have; the bits of doubles
count these units in order, so that a carry leads to the next double. -/
def nearestBits (num den : Nat) : Nat :=
  let unit := max (-1074) (log2Ratio num den - 52)
  let (n, d) := scale num den unit
  min ((unit + 1074).toNat * significandRange + roundHalfEven n d) infinityBits

/-- Powers of ten past this are beyond all doubles, or nearer to zero than any. -/
def exponentLimit : Int := 400

/-- The bits of the double nearest to some digits times a power of ten. -/
def finiteBits (digits : Nat) (exponent : Int) : Nat :=
  if digits = 0 then 0
  else
    let places : Int := (Nat.toDigits 10 digits).length
    if exponentLimit < exponent + places then infinityBits
    else if exponent + places < -exponentLimit then 0
    else if 0 ≤ exponent then nearestBits (digits * Nat.pow 10 exponent.toNat) 1
    else nearestBits digits (Nat.pow 10 (-exponent).toNat)

/-- The nearest double. -/
def toFloat : Decimal → Float
  | finite digits exponent => Float.ofBits (finiteBits digits exponent).toUInt64
  | infinity => Float.ofBits infinityBits.toUInt64
  | notANumber => Float.ofBits (infinityBits + significandRange / 2).toUInt64

end Decimal

end AsmTree
