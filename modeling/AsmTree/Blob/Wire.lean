/-!
# Wire format

Numbers travel in groups of seven bits, the lowest first; the top bit of a byte says that another
group follows. Lists carry their length in front, optional values a byte 0 or 1. A reader takes
bytes from the front of its input and may fail.
-/

namespace AsmTree.Wire

/-- Bytes on the wire. -/
abbrev Bytes := List UInt8

/-! ## Writing -/

/-- A number in groups of seven bits. -/
def putNat (n : Nat) : Bytes :=
  if n < 128 then [n.toUInt8] else (n % 128 + 128).toUInt8 :: putNat (n / 128)

/-- An optional value. -/
def putOption {α : Type} (put : α → Bytes) : Option α → Bytes
  | none => [0]
  | some a => 1 :: put a

/-- A list with its length in front. -/
def putList {α : Type} (put : α → Bytes) (as : List α) : Bytes :=
  putNat as.length ++ as.flatMap put

/-! ## Reading -/

/-- Why bytes cannot be read. -/
inductive Error where
  /-- The input ends too early. -/
  | endOfInput
  /-- A number goes on for too long or is too large for its width. -/
  | badNumber
  /-- The byte of an optional value is neither 0 nor 1. -/
  | badOption
  /-- A number names no kind. -/
  | badVariant
deriving DecidableEq, Repr

/-- The wording of a reading error. -/
def Error.message : Error → String
  | .endOfInput => "Hit the end of buffer, expected more data"
  | .badNumber => "Found a varint that didn't terminate. Is the usize too big for this platform?"
  | .badOption => "Found an Option discriminant that wasn't 0 or 1"
  | .badVariant => "Serde Deserialization Error"

/-- Takes a value from the front of some bytes. -/
abbrev Reader (α : Type) := StateT Bytes (Except Error) α

/-- One byte. -/
def getByte : Reader UInt8 := fun bytes =>
  match bytes with
  | [] => .error .endOfInput
  | b :: rest => .ok (b, rest)

/-- The groups of a number from bit `shift` on. At most `groups` more may follow, and the last of
all must not exceed `top`. -/
def getGroups (top : Nat) : Nat → Nat → Reader Nat
  | 0, _ => throw .badNumber
  | groups + 1, shift => do
    let b ← getByte
    let value := (b.toNat % 128) <<< shift
    if b.toNat < 128 then
      if groups = 0 && top < b.toNat then throw .badNumber
      return value
    return value + (← getGroups top groups (shift + 7))

/-- A number below 2 ^ `width`. -/
def getNat (width : Nat) : Reader Nat :=
  getGroups (Nat.pow 2 (width % 7) - 1) ((width + 6) / 7) 0

/-- An optional value. -/
def getOption {α : Type} (get : Reader α) : Reader (Option α) := do
  match ← getByte with
  | 0 => return none
  | 1 => return some (← get)
  | _ => throw .badOption

/-- A number of values in order, behind those already read. -/
def getMany {α : Type} (get : Reader α) : Nat → Array α → Reader (Array α)
  | 0, done => return done
  | n + 1, done => do
    let a ← get
    getMany get n (done.push a)

/-- A list with its length in front. -/
def getArray {α : Type} (get : Reader α) : Reader (Array α) := do
  getMany get (← getNat 64) #[]

end AsmTree.Wire
