/-!
# Byte offsets into a text

Offsets and lengths count the bytes of the UTF-8 form. A text is read as its list of characters,
so an offset that falls inside a character names no place in it: `splitBytes?` says so.
-/

namespace AsmTree

/-- Number of bytes of a run of characters. -/
def byteLength : List Char → Nat
  | [] => 0
  | c :: cs => c.utf8Size + byteLength cs

/-- Splits a text at a byte offset, if the offset lies at the edge of a character. -/
def splitBytes? : Nat → List Char → Option (List Char × List Char)
  | 0, cs => some ([], cs)
  | _ + 1, [] => none
  | n + 1, c :: cs =>
    if c.utf8Size ≤ n + 1 then
      (splitBytes? (n + 1 - c.utf8Size) cs).map fun (before, after) => (c :: before, after)
    else none

/-- The part of a text from a byte offset on. Past the end nothing is left. -/
def dropBytes (n : Nat) (cs : List Char) : List Char :=
  ((splitBytes? n cs).map Prod.snd).getD []

/-- A range of bytes, from `start` up to but not including `stop`. -/
structure TextRange where
  start : Nat
  stop : Nat
deriving DecidableEq, Repr, Inhabited

namespace TextRange

/-- The range of `length` bytes from `start` on. -/
def ofLength (start length : Nat) : TextRange := ⟨start, start + length⟩

/-- The empty range at an offset. -/
def point (offset : Nat) : TextRange := ⟨offset, offset⟩

/-- Whether an offset lies in the range, its end excluded. -/
def contains (r : TextRange) (offset : Nat) : Bool := r.start ≤ offset && offset < r.stop

/-- The part of a text that a range names, if both ends are edges of characters inside it. -/
def slice? (r : TextRange) (text : String) : Option String := do
  let (_, rest) ← splitBytes? r.start text.toList
  if r.stop < r.start then none
  let (inside, _) ← splitBytes? (r.stop - r.start) rest
  return String.ofList inside

/-- The text with the range replaced. A range that names no part of the text leaves it alone. -/
def replace (r : TextRange) (text inserted : String) : String :=
  match splitBytes? r.start text.toList, splitBytes? r.stop text.toList with
  | some (before, _), some (_, after) => String.ofList (before ++ inserted.toList ++ after)
  | _, _ => text

end TextRange

/-! ## Small facts -/

@[simp] theorem byteLength_nil : byteLength [] = 0 := rfl

@[simp] theorem byteLength_cons (c : Char) (cs : List Char) :
    byteLength (c :: cs) = c.utf8Size + byteLength cs := rfl

@[simp] theorem byteLength_append (a b : List Char) :
    byteLength (a ++ b) = byteLength a + byteLength b := by
  induction a with
  | nil => simp
  | cons c a ih => simp [ih, Nat.add_assoc]

theorem utf8ByteSize_ofList (cs : List Char) : (String.ofList cs).utf8ByteSize = byteLength cs := by
  induction cs with
  | nil => rfl
  | cons c cs ih =>
    rw [← List.singleton_append, String.ofList_append, String.utf8ByteSize_append, ih]
    simp [String.utf8ByteSize_singleton]

theorem utf8ByteSize_eq_byteLength (s : String) : s.utf8ByteSize = byteLength s.toList := by
  rw [← utf8ByteSize_ofList, String.ofList_toList]

theorem splitBytes?_byteLength (a b : List Char) :
    splitBytes? (byteLength a) (a ++ b) = some (a, b) := by
  induction a with
  | nil => cases b <;> rfl
  | cons c a ih =>
    have hc := Char.utf8Size_pos c
    obtain ⟨n, hn⟩ : ∃ n, c.utf8Size + byteLength a = n + 1 := ⟨_, (Nat.succ_pred_eq_of_pos
      (Nat.add_pos_left hc _)).symm⟩
    rw [byteLength_cons, hn, List.cons_append, splitBytes?, if_pos (by omega), ← hn,
      Nat.add_sub_cancel_left, ih]
    rfl

theorem eq_append_of_splitBytes? {n : Nat} {cs a b : List Char}
    (h : splitBytes? n cs = some (a, b)) : cs = a ++ b ∧ byteLength a = n := by
  fun_induction splitBytes? n cs generalizing a b with
  | case1 => cases h; simp
  | case2 => cases h
  | case3 n c cs hc ih =>
    obtain ⟨⟨x, y⟩, hxy, he⟩ := Option.map_eq_some_iff.1 h
    obtain ⟨rfl, hl⟩ := ih hxy
    cases he
    refine ⟨rfl, ?_⟩
    rw [byteLength_cons, hl]
    omega
  | case4 => cases h

end AsmTree
