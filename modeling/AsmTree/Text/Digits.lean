/-!
# Digits

The value of a run of digits: each digit counts its own value and multiplies what stands before it
by the base. In a machine word a value is built the same way, by checked steps: where a product or a
sum does not fit, there is no value.
-/

namespace AsmTree

/-- The value of a character as a digit, letters of both cases for ten and more. -/
def digitValue (c : Char) : Option Nat :=
  if '0' ≤ c ∧ c ≤ '9' then some (c.toNat - '0'.toNat)
  else if 'a' ≤ c ∧ c ≤ 'z' then some (c.toNat - 'a'.toNat + 10)
  else if 'A' ≤ c ∧ c ≤ 'Z' then some (c.toNat - 'A'.toNat + 10)
  else none

/-- The value of a character as a digit to a base. -/
def digit? (base : Nat) (c : Char) : Option Nat := (digitValue c).filter (· < base)

/-- The digits of a text, if it has nothing else. -/
def digits? (base : Nat) (cs : List Char) : Option (List Nat) := cs.mapM (digit? base)

/-- The value of some digits. -/
def ofDigits (base : Nat) (ds : List Nat) : Nat := ds.foldl (fun n d => n * base + d) 0

/-- The value of a text of digits, of which there has to be one. -/
def digitsValue? (base : Nat) (cs : List Char) : Option Nat :=
  if cs.isEmpty then none else (digits? base cs).map (ofDigits base)

/-! ## In words -/

variable {width : Nat}

/-- A number with one more digit behind it, if it still fits in a word. -/
def pushDigit? (base : Nat) (n : BitVec width) (c : Char) : Option (BitVec width) := do
  let d ← digit? base c
  if n.umulOverflow (.ofNat width base) then none
  else
    let shifted := n * .ofNat width base
    if shifted.uaddOverflow (.ofNat width d) then none else some (shifted + .ofNat width d)

/-- The number that a text of digits writes, if it fits in a word. There has to be a digit, and a
plus sign may stand in front. -/
def wordValue? (width base : Nat) (cs : List Char) : Option (BitVec width) :=
  let digits := if cs.head? = some '+' then cs.tail else cs
  if digits.isEmpty then none else digits.foldlM (pushDigit? base) 0

end AsmTree
