/-!
# Reading UTF-8

Any bytes can be read. Where they are not UTF-8 the replacement character stands for the longest
run that begins a character and breaks off, or else for a single byte.
-/

namespace AsmTree.Utf8

/-- Stands for bytes that are no character. -/
def replacement : Char := '\uFFFD'

/-- A character of which some bytes have been read. -/
structure Pending where
  /-- The bits read so far. -/
  value : Nat
  /-- The least and the greatest byte that may come next. -/
  next : UInt8 × UInt8 := (0x80, 0xBF)
  /-- Number of bytes that follow the next one. -/
  more : Nat
deriving DecidableEq, Repr

/-- What a byte at the start of a character does. -/
inductive Lead where
  | char (c : Char)
  | pending (p : Pending)
  | invalid

/-- The first byte of a character. The range of the second byte keeps out long forms of characters
that have shorter ones, surrogates, and numbers past the last character. -/
def lead (b : UInt8) : Lead :=
  let n := b.toNat
  if n < 0x80 then .char (Char.ofNat n)
  else if n < 0xC2 then .invalid
  else if n < 0xE0 then .pending { value := n - 0xC0, more := 0 }
  else if n < 0xF0 then
    let next := if n = 0xE0 then (0xA0, 0xBF) else if n = 0xED then (0x80, 0x9F) else (0x80, 0xBF)
    .pending { value := n - 0xE0, next, more := 1 }
  else if n < 0xF5 then
    let next := if n = 0xF0 then (0x90, 0xBF) else if n = 0xF4 then (0x80, 0x8F) else (0x80, 0xBF)
    .pending { value := n - 0xF0, next, more := 2 }
  else .invalid

/-- Whether a byte can come next. -/
def Pending.accepts (p : Pending) (b : UInt8) : Bool := p.next.1 ≤ b && b ≤ p.next.2

/-- The bits read once a further byte is in. -/
def Pending.add (p : Pending) (b : UInt8) : Nat := 64 * p.value + (b.toNat - 0x80)

mutual

/-- The characters of some bytes. -/
def decode : List UInt8 → List Char
  | [] => []
  | b :: rest =>
    match lead b with
    | .char c => c :: decode rest
    | .pending p => decodeFrom p rest
    | .invalid => replacement :: decode rest

/-- The characters of some bytes, the first of which go on with a character. -/
def decodeFrom (p : Pending) : List UInt8 → List Char
  | [] => [replacement]
  | b :: rest =>
    if p.accepts b then
      match p.more with
      | 0 => Char.ofNat (p.add b) :: decode rest
      | more + 1 => decodeFrom { value := p.add b, more } rest
    else
      match lead b with
      | .char c => replacement :: c :: decode rest
      | .pending q => replacement :: decodeFrom q rest
      | .invalid => replacement :: replacement :: decode rest

end

/-- The text of some bytes. -/
def text (bytes : List UInt8) : String := String.ofList (decode bytes)

end AsmTree.Utf8
