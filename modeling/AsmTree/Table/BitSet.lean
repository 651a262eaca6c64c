/-!
# Sets of small numbers

A set of natural numbers as the bits of one number, and systems of inclusions between such sets.
**Main statement of the theory of systems:** `Inclusions.solve` yields the least sets that contain
their lower bounds and respect every link.
-/

namespace AsmTree

/-- A finite set of natural numbers. Bit `i` says whether `i` is a member. -/
structure BitSet where
  bits : Nat := 0
deriving DecidableEq, Repr, Inhabited

namespace BitSet

/-- The set without members. -/
def empty : BitSet := {}

/-- The set of one number. -/
def singleton (i : Nat) : BitSet := ⟨1 <<< i⟩

/-- The members of either set. -/
def union (a b : BitSet) : BitSet := ⟨a.bits ||| b.bits⟩

/-- The members below a number. -/
def below (s : BitSet) (n : Nat) : BitSet := ⟨s.bits % Nat.pow 2 n⟩

/-- Whether a number is a member. -/
def contains (s : BitSet) (i : Nat) : Bool := s.bits.testBit i

instance : Union BitSet := ⟨union⟩

instance : EmptyCollection BitSet := ⟨empty⟩

/-- The members below a number, in order. -/
def members (s : BitSet) (n : Nat) : List Nat :=
  if s = ∅ then [] else (List.range n).filter s.contains

@[simp] theorem contains_union (a b : BitSet) (i : Nat) :
    (a ∪ b).contains i = (a.contains i || b.contains i) :=
  Nat.testBit_or ..

@[simp] theorem contains_empty (i : Nat) : (∅ : BitSet).contains i = false :=
  Nat.zero_testBit i

@[simp] theorem contains_singleton (i j : Nat) : (singleton i).contains j = decide (i = j) := by
  simp [singleton, contains, Nat.shiftLeft_eq, Nat.testBit_two_pow]

@[simp] theorem contains_below (s : BitSet) (n i : Nat) :
    (s.below n).contains i = (decide (i < n) && s.contains i) :=
  Nat.testBit_mod_two_pow ..

@[simp] theorem mem_members {s : BitSet} {n i : Nat} :
    i ∈ s.members n ↔ i < n ∧ s.contains i = true := by
  unfold members
  split
  · next h => simp [h]
  · rw [List.mem_filter, List.mem_range]

theorem nodup_members (s : BitSet) (n : Nat) : (s.members n).Nodup := by
  unfold members
  split
  · exact List.nodup_nil
  · exact List.nodup_range.filter _

end BitSet

/-- Unknown sets with lower bounds and inclusions between them. -/
structure Inclusions where
  /-- What each unknown contains at least. -/
  bounds : Array BitSet
  /-- Pairs of unknowns: the second contains the first. -/
  links : Array (Nat × Nat)
deriving Repr, Inhabited

namespace Inclusions

/-- Unknowns that contain nothing yet. -/
def ofSize (n : Nat) : Inclusions := ⟨Array.replicate n ∅, #[]⟩

/-- The system in which an unknown contains a set too. -/
def bound (sys : Inclusions) (v : Nat) (s : BitSet) : Inclusions :=
  { sys with bounds := sys.bounds.modify v (· ∪ s) }

/-- The system in which unknown `b` contains unknown `a` too. -/
def link (sys : Inclusions) (a b : Nat) : Inclusions :=
  { sys with links := sys.links.push (a, b) }

/-- Sets for the unknowns, and whether a sweep has changed one of them. -/
structure Sweep where
  sets : Array BitSet
  changed : Bool := false
deriving Repr, Inhabited

/-- Makes one inclusion hold. -/
def enforce (sweep : Sweep) (ab : Nat × Nat) : Sweep :=
  let source := sweep.sets.getD ab.1 ∅
  let target := sweep.sets.getD ab.2 ∅
  if target ∪ source = target then sweep
  else ⟨sweep.sets.setIfInBounds ab.2 (target ∪ source), true⟩

/-- Makes every inclusion hold once, in order. -/
def sweep (links : Array (Nat × Nat)) (sets : Array BitSet) : Sweep :=
  links.foldl enforce ⟨sets, false⟩

/-- Sweeps until nothing changes, `fuel` times at most. -/
def settle (links : Array (Nat × Nat)) : Nat → Array BitSet → Array BitSet
  | 0, sets => sets
  | fuel + 1, sets =>
    let swept := sweep links sets
    if swept.changed then settle links fuel swept.sets else swept.sets

/-- Number of bits that the bounds use. -/
def width (sys : Inclusions) : Nat :=
  sys.bounds.foldl (fun w s => max w (s.bits.log2 + 1)) 0

/-- The least sets that contain the bounds and respect the links. A sweep that changes something
adds a member to some set, so no more sweeps are needed than there are members to add. -/
def solve (sys : Inclusions) : Array BitSet :=
  settle sys.links (sys.bounds.size * sys.width + 1) sys.bounds

end Inclusions

end AsmTree
