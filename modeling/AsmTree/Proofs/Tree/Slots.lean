import AsmTree.View.Directive
import AsmTree.View.Line

/-!
# Arguments in slots

Commas part the first line of a node into slots, one for each argument. A slot may hold a recovered
region in place of its argument, or nothing. Accessors do not look at the commas: they count the
expressions of the node.

**Main statement (`Slotted.ownSlots`):** if slots are filled from the left, an accessor answers with
the argument of its own slot unless a recovered region stands in that slot or in front of it. Behind
a region the answers come from slots further to the right.
-/

namespace AsmTree

open View

namespace Located

variable {l x a : Located} {slot : List Located} {slots : List (List Located)} {n : Nat}

/-! ## Slots of a node -/

def isValue (x : Located) : Bool := !x.isToken && x.kind.isExpr

/-- Whether it fills a slot: an expression, or a recovered region. -/
def isArg (x : Located) : Bool := x.kind == .error || x.isValue

/-- The parts between the commas, up to the end of the first line. -/
def slotsOf (xs : List Located) : List (List Located) :=
  segments (xs.takeWhile (·.kind != .newline))

/-- Whether the first part holds something else than an argument: the variable of a loop, the
severity of an assertion, or the alignment that space reaches up to. -/
def hasLead (l : Located) : Bool :=
  match l.kind with
  | .forBlock => true
  | .assertDirective => (Assertion.of l).explicitSeverity.isSome
  | .dsDirective => (Space.of l).align.isSome
  | _ => false

def argSlots (l : Located) : List (List Located) :=
  if l.hasLead then (slotsOf l.significant).tail else slotsOf l.significant

def value? (slot : List Located) : Option Located := slot.find? isValue

def isBroken (slot : List Located) : Bool := slot.any (·.kind == .error)

def arg? (l : Located) (i : Nat) : Option Located := l.argSlots[i]?.bind value?

/-- The expressions in the slots for arguments from one on. -/
def argsFrom (l : Located) (i : Nat) : List Located := (l.argSlots.drop i).filterMap value?

/-- The first slots hold no recovered regions. -/
def Intact (l : Located) (n : Nat) : Prop := ∀ slot ∈ l.argSlots.take n, isBroken slot = false

theorem Intact.mono {m : Nat} (h : l.Intact n) (hle : m ≤ n) : l.Intact m :=
  fun slot hslot => h slot ((List.take_prefix_take_left hle).subset hslot)

/-! ## Filled slots -/

/-- Slots that are filled from the left, each with one thing. -/
inductive Packed : List (List Located) → Prop where
  | rest {slots : List (List Located)} : (∀ slot ∈ slots, slot.filter isArg = []) → Packed slots
  | fill {slot : List Located} {a : Located} {slots : List (List Located)} :
    slot.filter isArg = [a] → Packed slots → Packed (slot :: slots)

theorem isArg_of_isValue (h : x.isValue = true) : x.isArg = true := by
  rw [isArg, h, Bool.or_true]

theorem isValue_of_error (h : x.kind = .error) : x.isValue = false := by
  rw [isValue, h]
  exact Bool.and_false _

theorem filter_isValue (slot : List Located) :
    slot.filter isValue = (slot.filter isArg).filter isValue := by
  rw [List.filter_filter]
  refine List.filter_congr fun x _ => ?_
  cases hx : x.isValue with
  | false => rfl
  | true => rw [isArg_of_isValue hx]; rfl

theorem value?_eq_head? (slot : List Located) : value? slot = (slot.filter isValue).head? :=
  (List.head?_filter ..).symm

theorem value?_eq_none (h : slot.filter isArg = []) : value? slot = none := by
  rw [value?_eq_head?, filter_isValue, h]
  rfl

theorem value?_eq_some (h : slot.filter isArg = [a]) (hintact : isBroken slot = false) :
    value? slot = some a := by
  have ha : a ∈ slot ∧ a.isArg = true := List.mem_filter.1 (h ▸ List.mem_singleton_self a)
  have hne : (a.kind == .error) = false := by
    simpa using List.any_eq_false.1 hintact a ha.1
  have hvalue : a.isValue = true := by simpa [isArg, hne] using ha.2
  rw [value?_eq_head?, filter_isValue, h, List.filter_cons_of_pos hvalue]
  rfl

theorem filterMap_value?_eq_nil (h : ∀ slot ∈ slots, slot.filter isArg = []) :
    slots.filterMap value? = [] :=
  List.filterMap_eq_nil_iff.2 fun slot hslot => value?_eq_none (h slot hslot)

/-- In filled slots there is at most one expression each. -/
theorem Packed.flatMap_filter (h : Packed slots) :
    slots.flatMap (·.filter isValue) = slots.filterMap value? := by
  induction h with
  | rest h =>
    rw [filterMap_value?_eq_nil h, List.flatMap_eq_nil_iff]
    intro slot hslot
    rw [filter_isValue, h slot hslot]
    rfl
  | @fill slot a slots hslot _ ih =>
    have hone : slot.filter isValue = (value? slot).toList := by
      rw [value?_eq_head?, filter_isValue, hslot]
      cases hvalue : a.isValue <;> simp [hvalue]
    rw [List.flatMap_cons, ih, hone, List.filterMap_cons]
    cases value? slot <;> rfl

theorem filter_isArg_cons (h : x.isArg = false) : (x :: slot).filter isArg = slot.filter isArg :=
  List.filter_cons_of_neg (by simp [h])

theorem filter_isValue_cons (h : x.isArg = false) :
    (x :: slot).filter isValue = slot.filter isValue := by
  rw [filter_isValue, filter_isArg_cons h, ← filter_isValue]

theorem Packed.cons_head (h : Packed (slot :: slots)) (hx : x.isArg = false) :
    Packed ((x :: slot) :: slots) := by
  cases h with
  | rest h =>
    obtain ⟨hslot, hslots⟩ := List.forall_mem_cons.1 h
    exact .rest (List.forall_mem_cons.2 ⟨(filter_isArg_cons hx).trans hslot, hslots⟩)
  | fill hslot h => exact .fill ((filter_isArg_cons hx).trans hslot) h

theorem Packed.drop (h : Packed slots) (n : Nat) : Packed (slots.drop n) := by
  induction n generalizing slots with
  | zero => exact h
  | succ n ih =>
    cases h with
    | rest h => exact .rest fun slot hslot => h slot (List.mem_of_mem_drop hslot)
    | fill _ h => exact ih h

/-- If the first slots are intact, leaving out as many expressions leaves out these slots. -/
theorem Packed.drop_filterMap (h : Packed slots)
    (hintact : ∀ slot ∈ slots.take n, isBroken slot = false) :
    (slots.filterMap value?).drop n = (slots.drop n).filterMap value? := by
  induction n generalizing slots with
  | zero => rfl
  | succ n ih =>
    cases h with
    | rest h =>
      rw [filterMap_value?_eq_nil h,
        filterMap_value?_eq_nil fun slot hslot => h slot (List.mem_of_mem_drop hslot)]
      rfl
    | @fill slot a slots hslot h =>
      rw [List.take_succ_cons, List.forall_mem_cons] at hintact
      rw [List.filterMap_cons_some (value?_eq_some hslot hintact.1)]
      exact ih h hintact.2

/-- If the first slot is intact, the first expression stands there. -/
theorem Packed.head?_filterMap (h : Packed slots)
    (hintact : ∀ slot ∈ slots.head?, isBroken slot = false) :
    (slots.filterMap value?).head? = slots.head?.bind value? := by
  cases h with
  | rest h =>
    rw [filterMap_value?_eq_nil h]
    cases slots with
    | nil => rfl
    | cons slot slots => exact (value?_eq_none (h slot List.mem_cons_self)).symm
  | @fill slot a slots hslot _ =>
    have hvalue := value?_eq_some hslot (hintact slot rfl)
    rw [List.filterMap_cons_some hvalue]
    exact hvalue.symm

theorem isTrivia_of_isExpr {k : Kind} (h : k.isExpr = true) : k.isTrivia = false := by
  unfold Kind.isTrivia
  split
  case h_5 => rfl
  all_goals cases h

/-- A broken slot holds no expression. -/
theorem Packed.value?_of_isBroken (h : Packed slots) (hslot : slot ∈ slots)
    (hbroken : isBroken slot = true) : value? slot = none := by
  obtain ⟨x, hx, hk⟩ := List.any_eq_true.1 hbroken
  have hx : x ∈ slot.filter isArg := List.mem_filter.2 ⟨hx, by rw [isArg, hk, Bool.true_or]⟩
  have hno := isValue_of_error (eq_of_beq hk)
  induction h with
  | rest h => exact absurd (h slot hslot ▸ hx) List.not_mem_nil
  | @fill slot' a slots ha _ ih =>
    rcases List.mem_cons.1 hslot with rfl | hslot
    · rw [ha] at hx
      obtain rfl := List.mem_singleton.1 hx
      rw [value?_eq_head?, filter_isValue, ha, List.filter_cons_of_neg (by simp [hno])]
      rfl
    · exact ih hslot

/-- If one of the first slots is broken, they hold fewer expressions than there are slots, so an
expression with a number behind them stands in a later slot. -/
theorem Packed.exists_of_broken (h : Packed slots) {i : Nat} {e : Located}
    (hbroken : ∃ slot ∈ slots.take (i + 1), isBroken slot = true)
    (he : (slots.filterMap value?)[i]? = some e) :
    ∃ j, i < j ∧ slots[j]?.bind value? = some e := by
  obtain ⟨slot, hslot, hb⟩ := hbroken
  have hnone := h.value?_of_isBroken (List.mem_of_mem_take hslot) hb
  have hlt : ((slots.take (i + 1)).filterMap value?).length < (slots.take (i + 1)).length :=
    List.length_filterMap_lt_length_iff_exists.2 ⟨slot, hslot, hnone⟩
  rw [← List.take_append_drop (i + 1) slots, List.filterMap_append,
    List.getElem?_append_right (by rw [List.length_take] at hlt; omega)] at he
  obtain ⟨slot', hslot', hvalue⟩ := List.mem_filterMap.1 (List.mem_of_getElem? he)
  obtain ⟨j, hj⟩ := List.mem_iff_getElem?.1 hslot'
  refine ⟨i + 1 + j, by omega, ?_⟩
  rw [List.getElem?_drop] at hj
  rw [hj]
  exact hvalue

theorem exprs_eq_filter (l : Located) : l.exprs = l.significant.filter isValue := by
  rw [exprs, nodes, significant, List.filter_filter, List.filter_filter]
  refine List.filter_congr fun x _ => ?_
  rw [isValue]
  cases hx : x.kind.isExpr with
  | false => simp
  | true => simp [isTrivia_of_isExpr hx]

/-! ## Answers -/

/-- The slots of a node are filled from the left, and hold all expressions of the node. -/
structure Slotted (l : Located) : Prop where
  packed : Packed l.argSlots
  exprs : l.exprs = l.argSlots.flatMap (·.filter isValue)

/-- The answer for a slot is the expression there, if no slot up to it is broken. -/
def Answers (l : Located) (i : Nat) (answer : Option Located) : Prop :=
  l.Intact (i + 1) → answer = l.arg? i

/-- The answer for all slots from one on are the expressions there, if no slot in front of them is
broken. -/
def AnswersFrom (l : Located) (i : Nat) (answer : List Located) : Prop :=
  l.Intact i → answer = l.argsFrom i

/-- What accessors answer that count the expressions of a node. A loop with one argument has its end
there, one with more begins with the first. -/
structure OwnSlots (l : Located) : Prop where
  /-- The expressions are those of the slots, in order. -/
  exprs : l.exprs = l.argSlots.filterMap value?
  /-- If a slot up to some number is broken, the expression with that number stands further to the
  right. -/
  behind : ∀ i e, ¬ l.Intact (i + 1) → l.exprs[i]? = some e → ∃ j, i < j ∧ l.arg? j = some e
  binaryFile : l.kind = .incbinDirective → l.Answers 0 (BinaryFile.of l).path ∧
    l.Answers 1 (BinaryFile.of l).offset ∧ l.Answers 2 (BinaryFile.of l).length
  assertion : l.kind = .assertDirective →
    l.Answers 0 (Assertion.of l).condition ∧ l.Answers 1 (Assertion.of l).message
  sectionStart : l.kind = .sectionDirective →
    l.Answers 0 (SectionStart.of l).name ∧ l.Answers 1 (SectionStart.of l).address
  alignment : l.kind = .alignDirective ∨ l.kind = .alignSpec →
    l.Answers 0 (Alignment.of l).alignment ∧ l.Answers 1 (Alignment.of l).offset
  charmap : l.kind = .charmapDirective →
    l.Answers 0 (Charmap.of l).mapping ∧ l.AnswersFrom 1 (Charmap.of l).values
  space : l.kind = .dsDirective → (Space.of l).align = none →
    l.Answers 0 (Space.of l).length ∧ l.AnswersFrom 1 (Space.of l).fill
  alignedSpace : l.kind = .dsDirective → (Space.of l).align ≠ none →
    (Space.of l).length = none ∧ l.AnswersFrom 0 (Space.of l).fill
  loop : l.kind = .forBlock →
    (l.Intact 2 → (ForBlock.of l).start = (l.arg? 1).bind fun _ => l.arg? 0) ∧
    (l.Intact 2 → (ForBlock.of l).stop = (l.arg? 1).or (l.arg? 0)) ∧
    l.Answers 2 (ForBlock.of l).step

namespace Slotted

variable (h : l.Slotted)

include h

theorem exprs_eq : l.exprs = l.argSlots.filterMap value? := by
  rw [h.exprs, h.packed.flatMap_filter]

theorem exists_behind {i : Nat} {e : Located} (hbroken : ¬ l.Intact (i + 1))
    (he : l.exprs[i]? = some e) : ∃ j, i < j ∧ l.arg? j = some e := by
  rw [h.exprs_eq] at he
  refine h.packed.exists_of_broken ?_ he
  simpa [Intact] using hbroken

theorem answersFrom (n : Nat) : l.AnswersFrom n (l.exprs.drop n) := fun hintact => by
  rw [h.exprs_eq, h.packed.drop_filterMap hintact]
  rfl

theorem answers (n : Nat) : l.Answers n l.exprs[n]? := fun hintact => by
  have hdrop := h.answersFrom n (hintact.mono (Nat.le_succ n))
  have hslot : ∀ slot ∈ (l.argSlots.drop n).head?, isBroken slot = false := by
    intro slot hslot
    rw [List.head?_drop] at hslot
    exact hintact slot (List.mem_of_getElem? (List.getElem?_take_of_succ.trans hslot))
  rw [← List.head?_drop, hdrop, argsFrom, (h.packed.drop n).head?_filterMap hslot,
    List.head?_drop]
  rfl

theorem answers_head : l.Answers 0 l.exprs.head? := by
  rw [List.head?_eq_getElem?]
  exact h.answers 0

theorem loop_start (hintact : l.Intact 2) :
    (ForBlock.of l).start = (l.arg? 1).bind fun _ => l.arg? 0 := by
  rw [← h.answers 1 hintact, ← h.answers 0 (hintact.mono (by decide))]
  unfold ForBlock.start ForBlock.of
  match l.exprs with
  | [] | [_] | _ :: _ :: _ => simp

theorem loop_stop (hintact : l.Intact 2) :
    (ForBlock.of l).stop = (l.arg? 1).or (l.arg? 0) := by
  rw [← h.answers 1 hintact, ← h.answers 0 (hintact.mono (by decide))]
  unfold ForBlock.stop ForBlock.of
  match l.exprs with
  | [] | [_] | _ :: _ :: _ => simp

/-- **Accessors answer with the arguments of their own slots**, up to the first region. -/
theorem ownSlots : l.OwnSlots where
  exprs := h.exprs_eq
  behind := fun _ _ => h.exists_behind
  binaryFile := fun _ => ⟨h.answers 0, h.answers 1, h.answers 2⟩
  assertion := fun _ => ⟨h.answers 0, h.answers 1⟩
  sectionStart := fun _ => ⟨h.answers 0, h.answers 1⟩
  alignment := fun _ => ⟨h.answers 0, h.answers 1⟩
  charmap := fun _ => ⟨h.answers_head, h.answersFrom 1⟩
  space := by
    intro _ halign
    unfold Space.of at halign ⊢
    split at halign
    · cases halign
    · exact ⟨h.answers_head, h.answersFrom 1⟩
  alignedSpace := by
    intro _ halign
    unfold Space.of at halign ⊢
    split at halign
    · exact ⟨rfl, h.answersFrom 0⟩
    · exact absurd rfl halign
  loop := fun _ => ⟨h.loop_start, h.loop_stop, h.answers 2⟩

end Slotted

end Located

end AsmTree
