import AsmTree.Proofs.Table.First
import AsmTree.Proofs.Table.Follow

/-!
# Bounds for lookaheads

Sets of tokens for each nonterminal, wide enough for every production, bound what can follow it.
**Main statement (`Bounds.follows`):** every lookahead of an item is in the set of its nonterminal.

The sets are numbers and the productions lists of numbers, so that a proof can compute them.
-/

namespace AsmTree

/-! ## Numbers for sets and symbols -/

/-- The number of a symbol, even for a terminal and odd for a nonterminal. -/
def Symbol.code : Symbol → Nat
  | .terminal k => 2 * k.index
  | .nonterminal id => 2 * id + 1

theorem Symbol.code_inj {a b : Symbol} (h : a.code = b.code) : a = b := by
  cases a <;> cases b <;> simp only [code] at h
  · exact congrArg terminal (Kind.index_inj.1 (by omega))
  · omega
  · omega
  · exact congrArg nonterminal (by omega)

/-- Whether the symbol with a number is a nonterminal. -/
def isNonterminal (x : Nat) : Bool := Nat.beq (Nat.mod x 2) 1

/-- The number of the token or nonterminal that the symbol with a number is. -/
def half (x : Nat) : Nat := Nat.div x 2

@[simp] theorem isNonterminal_terminal (k : Kind) :
    isNonterminal (Symbol.terminal k).code = false := by
  have h : 2 * k.index % 2 = 0 := by omega
  show Nat.beq (2 * k.index % 2) 1 = false
  rw [h]
  rfl

@[simp] theorem isNonterminal_nonterminal (id : Nat) :
    isNonterminal (Symbol.nonterminal id).code = true := by
  have h : (2 * id + 1) % 2 = 1 := by omega
  show Nat.beq ((2 * id + 1) % 2) 1 = true
  rw [h]
  rfl

@[simp] theorem half_terminal (k : Kind) : half (Symbol.terminal k).code = k.index := by
  show 2 * k.index / 2 = k.index
  omega

@[simp] theorem half_nonterminal (id : Nat) : half (Symbol.nonterminal id).code = id := by
  show (2 * id + 1) / 2 = id
  omega

/-- Whether a number is in a set given by its bits. -/
def hasBit (a i : Nat) : Bool := Nat.beq (Nat.land (Nat.shiftRight a i) 1) 1

theorem hasBit_eq (a i : Nat) : hasBit a i = a.testBit i := by
  show Nat.beq ((a >>> i) &&& 1) 1 = a.testBit i
  rw [Nat.and_one_is_mod, Nat.testBit_eq_decide_div_mod_eq, Nat.shiftRight_eq_div_pow]
  exact Bool.eq_iff_iff.2 (by simp [Nat.beq_eq])

/-- Whether a set is part of another. -/
def subset (a b : Nat) : Bool := Nat.beq (Nat.lor a b) b

theorem testBit_of_subset {a b i : Nat} (h : subset a b = true) (hi : a.testBit i = true) :
    b.testBit i = true := by
  have heq : a ||| b = b := Nat.eq_of_beq_eq_true h
  rw [← heq, Nat.testBit_or, hi, Bool.true_or]

/-- The set with a given number among sets of numbers below 256. -/
def setAt (sets n : Nat) : Nat := Nat.mod (Nat.shiftRight sets (Nat.mul 256 n)) (Nat.pow 2 256)

theorem testBit_setAt (sets n i : Nat) :
    (setAt sets n).testBit i = (decide (i < 256) && sets.testBit (256 * n + i)) := by
  show ((sets >>> (256 * n)) % 2 ^ 256).testBit i = _
  rw [Nat.testBit_mod_two_pow, Nat.testBit_shiftRight]

/-- Sets with more members in one of them. -/
def widen (sets n more : Nat) : Nat :=
  Nat.lor sets (Nat.shiftLeft (Nat.mod more (Nat.pow 2 256)) (Nat.mul 256 n))

theorem testBit_widen {sets n more m i : Nat}
    (h : (setAt (widen sets n more) m).testBit i = true) :
    (setAt sets m).testBit i = true ∨ (m = n ∧ more.testBit i = true) := by
  have hbit : (widen sets n more).testBit (256 * m + i) =
      (sets.testBit (256 * m + i) || (decide (256 * n ≤ 256 * m + i) &&
        (decide (256 * m + i - 256 * n < 256) && more.testBit (256 * m + i - 256 * n)))) := by
    show (sets ||| ((more % 2 ^ 256) <<< (256 * n))).testBit (256 * m + i) = _
    rw [Nat.testBit_or, Nat.testBit_shiftLeft, Nat.testBit_mod_two_pow]
  rw [testBit_setAt, hbit] at h
  rw [testBit_setAt]
  simp only [Bool.and_eq_true, Bool.or_eq_true, decide_eq_true_eq] at h ⊢
  obtain ⟨hi, hold | ⟨hle, hlt, hmore⟩⟩ := h
  · exact Or.inl ⟨hi, hold⟩
  · obtain rfl : m = n := by omega
    rw [Nat.add_sub_cancel_left] at hmore
    exact Or.inr ⟨rfl, hmore⟩

/-- A function applied to a number that has been computed. -/
def strictly {α : Type} (n : Nat) (f : Nat → α) : α :=
  match n with
  | 0 => f 0
  | n + 1 => f (n + 1)

@[simp] theorem strictly_eq {α : Type} (n : Nat) (f : Nat → α) : strictly n f = f n := by
  cases n <;> rfl

/-! ## Productions as numbers -/

/-- Sets that bound what the nonterminals of a grammar derive. -/
structure Bounds where
  /-- Nonterminals that may be empty. -/
  nullable : Nat
  /-- For each nonterminal the tokens that it may begin with. -/
  first : Nat
  /-- For each nonterminal the tokens that may follow it. -/
  follow : Nat

namespace Bounds

variable (b : Bounds)

/-- Whether all symbols may be empty. -/
def vanishes : List Nat → Bool
  | [] => true
  | x :: xs => isNonterminal x && hasBit b.nullable (half x) && vanishes xs

/-- Tokens that symbols may begin with. -/
def starts : List Nat → Nat
  | [] => 0
  | x :: xs =>
    bif isNonterminal x then
      bif hasBit b.nullable (half x) then Nat.lor (setAt b.first (half x)) (starts xs)
      else setAt b.first (half x)
    else Nat.shiftLeft 1 (half x)

/-- Whether the sets are wide enough for what follows the symbols of a production. -/
def closedWithin (lhs : Nat) : List Nat → Bool
  | [] => true
  | x :: xs =>
    (!isNonterminal x ||
      (subset (b.starts xs) (setAt b.follow (half x)) &&
        (!b.vanishes xs || subset (setAt b.follow lhs) (setAt b.follow (half x))))) &&
    closedWithin lhs xs

/-- Whether the sets are wide enough for a production. -/
def closedFor (p : Nat × List Nat) : Bool :=
  (!b.vanishes p.2 || hasBit b.nullable p.1) && subset (b.starts p.2) (setAt b.first p.1) &&
    b.closedWithin p.1 p.2

end Bounds

namespace Grammar

/-- The nonterminals and symbols of the productions, that of the whole input last. -/
def coded (g : Grammar) : List (Nat × List Nat) :=
  g.augmented.productions.toList.map fun p => (p.lhs, p.rhs.map Symbol.code)

variable {g : Grammar}

theorem getElem?_coded {p : Nat} (h : p < g.augmented.productions.size) :
    g.coded[p]? = some (g.augmented.lhs p, (g.augmented.rhs p).map Symbol.code) := by
  have hp := Array.getElem?_eq_getElem h
  rw [coded, List.getElem?_map, Array.getElem?_toList, hp, Augmented.lhs_eq hp,
    Augmented.rhs_eq hp]
  rfl

theorem mem_coded {p : Nat} (h : p < g.augmented.productions.size) :
    (g.augmented.lhs p, (g.augmented.rhs p).map Symbol.code) ∈ g.coded :=
  List.mem_of_getElem? (getElem?_coded h)

end Grammar

/-! ## Finding bounds -/

/-- A function applied `n` times. -/
def rounds {α : Type} (f : α → α) : Nat → α → α
  | 0, a => a
  | n + 1, a => rounds f n (f a)

namespace Bounds

/-- Adds the nonterminals that some production makes empty. -/
def widenNullable : List (Nat × List Nat) → Bounds → Bounds
  | [], b => b
  | (lhs, rhs) :: ps, b =>
    bif b.vanishes rhs then strictly (Nat.lor b.nullable (Nat.shiftLeft 1 lhs)) fun nullable =>
      widenNullable ps ⟨nullable, b.first, b.follow⟩
    else widenNullable ps b

/-- Adds the tokens that each production begins with. -/
def widenFirst : List (Nat × List Nat) → Bounds → Bounds
  | [], b => b
  | (lhs, rhs) :: ps, b => strictly (widen b.first lhs (b.starts rhs)) fun first =>
    widenFirst ps ⟨b.nullable, first, b.follow⟩

/-- Adds the tokens that follow the symbols of a production of a nonterminal. -/
def widenWithin (lhs : Nat) : List Nat → Bounds → Bounds
  | [], b => b
  | x :: xs, b =>
    bif isNonterminal x then
      strictly (widen b.follow (half x) (bif b.vanishes xs then
          Nat.lor (b.starts xs) (setAt b.follow lhs) else b.starts xs)) fun follow =>
        widenWithin lhs xs ⟨b.nullable, b.first, follow⟩
    else widenWithin lhs xs b

/-- Adds the tokens that follow the symbols of each production. -/
def widenFollow : List (Nat × List Nat) → Bounds → Bounds
  | [], b => b
  | (lhs, rhs) :: ps, b => widenFollow ps (widenWithin lhs rhs b)

/-- Bounds for a grammar after some rounds over its productions. They are wide enough once nothing
changes any more, which `closed` checks. -/
def ofGrammar (g : Grammar) (n : Nat) : Bounds :=
  let eof := widen 0 g.nonterminals.size (Nat.shiftLeft 1 Kind.eof.index)
  rounds (widenFollow g.coded) n <| rounds (widenFirst g.coded) n <|
    rounds (widenNullable g.coded) n ⟨0, 0, eof⟩

/-- Whether the bounds are wide enough for a grammar. -/
def closed (b : Bounds) (g : Grammar) : Bool :=
  g.coded.all b.closedFor && hasBit (setAt b.follow g.nonterminals.size) Kind.eof.index

end Bounds

/-! ## The bounds hold -/

namespace Bounds

open Grammar Inclusions

/-- The sets are wide enough for every production, and for the end of the text. -/
structure Closed (b : Bounds) (g : Grammar) : Prop where
  production : ∀ p < g.augmented.productions.size,
    b.closedFor (g.augmented.lhs p, (g.augmented.rhs p).map Symbol.code) = true
  eof : (setAt b.follow g.nonterminals.size).testBit Kind.eof.index = true

variable {b : Bounds} {g : Grammar}

theorem starts_terminal (k : Kind) (xs : List Nat) :
    b.starts ((Symbol.terminal k).code :: xs) = 1 <<< k.index := by
  rw [starts, isNonterminal_terminal, half_terminal]
  rfl

theorem starts_nonterminal (id : Nat) (xs : List Nat) :
    b.starts ((Symbol.nonterminal id).code :: xs) =
      if b.nullable.testBit id then setAt b.first id ||| b.starts xs else setAt b.first id := by
  rw [starts, isNonterminal_nonterminal, half_nonterminal, hasBit_eq]
  cases b.nullable.testBit id <;> rfl

theorem vanishes_iff (ss : List Symbol) : b.vanishes (ss.map Symbol.code) = true ↔
    ∀ s ∈ ss, ∃ id, s = .nonterminal id ∧ b.nullable.testBit id = true := by
  induction ss with
  | nil => simp [vanishes]
  | cons s ss ih =>
    rw [List.map_cons, vanishes, Bool.and_eq_true, Bool.and_eq_true, ih, List.forall_mem_cons]
    refine and_congr_left fun _ => ?_
    cases s with
    | terminal k => simp
    | nonterminal id => simp [hasBit_eq]

theorem closed_of_check : b.closed g = true → b.Closed g := by
  intro h
  rw [closed, Bool.and_eq_true, List.all_eq_true, hasBit_eq] at h
  exact ⟨fun p hp => h.1 _ (mem_coded hp), h.2⟩

theorem Closed.of_mem (h : b.Closed g) {p : Production} (hp : p ∈ g.augmented.productions) :
    b.closedFor (p.lhs, p.rhs.map Symbol.code) = true := by
  obtain ⟨i, hi⟩ := Array.getElem?_of_mem hp
  have hlt := (Array.getElem?_eq_some_iff.1 hi).1
  have hclosed := h.production i hlt
  rwa [Augmented.lhs_eq hi, Augmented.rhs_eq hi] at hclosed

/-! ## Nullable nonterminals -/

theorem Closed.contains_nullable (h : b.Closed g) {id : Nat}
    (hid : g.analysis.nullable.contains id = true) : b.nullable.testBit id = true := by
  refine nullable_induction (P := fun id => b.nullable.testBit id = true) ?_ hid
  intro p hp hall
  have hclosed := h.of_mem hp
  rw [closedFor, (vanishes_iff p.rhs).2 hall] at hclosed
  simp only [Bool.not_true, Bool.false_or, Bool.and_eq_true, hasBit_eq] at hclosed
  exact hclosed.1.1

/-! ## First sets -/

theorem Closed.mem_leading (h : b.Closed g) {ss : List Symbol} {s : Symbol}
    (hs : s ∈ Augmented.leading g.analysis.nullable ss) :
    (∀ k, s = .terminal k → (b.starts (ss.map Symbol.code)).testBit k.index = true) ∧
    ∀ id i, s = .nonterminal id → (setAt b.first id).testBit i = true →
      (b.starts (ss.map Symbol.code)).testBit i = true := by
  induction ss with
  | nil => cases hs
  | cons x ss ih =>
    rw [List.map_cons]
    rw [Augmented.leading] at hs
    cases x with
    | terminal k =>
      rw [starts_terminal]
      rw [Augmented.symbolNullable, if_neg Bool.false_ne_true, List.mem_singleton] at hs
      subst hs
      refine ⟨fun k' hk => ?_, fun id i hid => by cases hid⟩
      cases hk
      simp
    | nonterminal id =>
      rw [starts_nonterminal]
      have hown : ∀ id' i, Symbol.nonterminal id = .nonterminal id' →
          (setAt b.first id').testBit i = true →
          (if b.nullable.testBit id then setAt b.first id ||| b.starts (ss.map Symbol.code)
            else setAt b.first id).testBit i = true := by
        intro id' i hid hi
        cases hid
        split
        · rw [Nat.testBit_or, hi, Bool.true_or]
        · exact hi
      split at hs
      · next hnull =>
        rw [if_pos (h.contains_nullable hnull)] at hown ⊢
        rcases List.mem_cons.1 hs with rfl | hs
        · exact ⟨fun k hk => (by cases hk), hown⟩
        · obtain ⟨hterminal, hnonterminal⟩ := ih hs
          refine ⟨fun k hk => ?_, fun id' i hid hi => ?_⟩
          · rw [Nat.testBit_or, hterminal k hk, Bool.or_true]
          · rw [Nat.testBit_or, hnonterminal id' i hid hi, Bool.or_true]
      · rw [List.mem_singleton] at hs
        subst hs
        exact ⟨fun k hk => (by cases hk), hown⟩

theorem Closed.contains_first (h : b.Closed g) {id i : Nat}
    (hi : (g.analysis.first.getD id ∅).contains i = true) :
    (setAt b.first id).testBit i = true := by
  have hfirst : ∀ p ∈ g.augmented.productions, ∀ i,
      (b.starts (p.rhs.map Symbol.code)).testBit i = true →
      (setAt b.first p.lhs).testBit i = true := by
    intro p hp i hi
    have hclosed := h.of_mem hp
    simp only [closedFor, Bool.and_eq_true] at hclosed
    exact testBit_of_subset hclosed.1.2 hi
  refine solve_least (P := fun v i => (setAt b.first v).testBit i = true) ?_ ?_ id i hi
  · intro v x hm
    obtain ⟨p, hp, s, hs, ⟨k, rfl, hd, -⟩ | ⟨id', -, hd⟩⟩ :=
      demands_firstInclusions (d := .member v x).1 hm
    · cases hd
      exact hfirst p hp _ ((h.mem_leading hs).1 k rfl)
    · cases hd
  · intro v w hl _ x hx
    obtain ⟨p, hp, s, hs, ⟨k, -, hd, -⟩ | ⟨id', rfl, hd⟩⟩ :=
      demands_firstInclusions (d := .link v w).1 hl
    · cases hd
    · cases hd
      exact hfirst p hp _ ((h.mem_leading hs).2 v x rfl hx)

theorem Closed.firstOf (h : b.Closed g) (ss : List Symbol) :
    (∀ i, (g.analysis.firstOf ss).1.contains i = true →
      (b.starts (ss.map Symbol.code)).testBit i = true) ∧
    ((g.analysis.firstOf ss).2 = true → b.vanishes (ss.map Symbol.code) = true) := by
  induction ss with
  | nil => exact ⟨fun i hi => by simp [Analysis.firstOf] at hi, fun _ => rfl⟩
  | cons s ss ih =>
    rw [List.map_cons]
    cases s with
    | terminal k =>
      rw [starts_terminal]
      refine ⟨fun i hi => ?_, fun he => (by cases he)⟩
      have heq : k.index = i := by simpa [Analysis.firstOf] using hi
      simp [heq]
    | nonterminal id =>
      rw [starts_nonterminal, Analysis.firstOf]
      split
      · next hnull =>
        have hbit := h.contains_nullable hnull
        rw [if_pos hbit]
        refine ⟨fun i hi => ?_, fun he => ?_⟩
        · rw [Nat.testBit_or, Bool.or_eq_true]
          dsimp only at hi
          rw [BitSet.contains_union, Bool.or_eq_true] at hi
          exact hi.imp h.contains_first (ih.1 i)
        · have hrest := ih.2 he
          rw [vanishes, hrest]
          simp [hasBit_eq, hbit]
      · refine ⟨fun i hi => ?_, fun he => (by cases he)⟩
        have hi' := h.contains_first hi
        split
        · rw [Nat.testBit_or, hi', Bool.true_or]
        · exact hi'

/-! ## Follow sets -/

theorem closedWithin_drop {lhs id : Nat} {xs rest : List Nat} {n : Nat}
    (h : b.closedWithin lhs xs = true) (hd : xs.drop n = (Symbol.nonterminal id).code :: rest) :
    subset (b.starts rest) (setAt b.follow id) = true ∧
      (b.vanishes rest = true → subset (setAt b.follow lhs) (setAt b.follow id) = true) := by
  induction xs generalizing n with
  | nil => simp at hd
  | cons x xs ih =>
    rw [closedWithin, Bool.and_eq_true] at h
    cases n with
    | zero =>
      cases hd
      rw [isNonterminal_nonterminal, half_nonterminal, Bool.not_true, Bool.false_or,
        Bool.and_eq_true] at h
      refine ⟨h.1.1, fun hv => ?_⟩
      simpa [hv] using h.1.2
    | succ n => exact ih h.2 hd

/-- **Every lookahead of an item is in the set of its nonterminal.** -/
theorem Closed.follows (h : b.Closed g) (hg : g.WellFormed) {state : Nat} {item : Item}
    {k : Nat} (hk : g.Follows state item k) :
    (setAt b.follow (g.augmented.lhs item.production)).testBit k = true := by
  have hwithin : ∀ i ∈ g.items, ∀ id rest, g.analysis.remaining i = .nonterminal id :: rest →
      subset (b.starts (rest.map Symbol.code)) (setAt b.follow id) = true ∧
        (b.vanishes (rest.map Symbol.code) = true →
          subset (setAt b.follow (g.augmented.lhs i.production)) (setAt b.follow id) = true) := by
    intro i hi id rest hr
    have hclosed := h.production i.production (mem_items.1 hi).1
    simp only [closedFor, Bool.and_eq_true] at hclosed
    refine closedWithin_drop (n := i.dot) hclosed.2 ?_
    rw [← List.map_drop, ← remaining_eq_drop, hr]
    rfl
  refine lookahead_induction hg (F := fun id k => (setAt b.follow id).testBit k = true)
    h.eof ?_ ?_ hk
  · intro i hi id rest hr k hk
    exact testBit_of_subset (hwithin i hi id rest hr).1 ((h.firstOf rest).1 k hk)
  · intro i hi id rest hr hempty k hk
    exact testBit_of_subset ((hwithin i hi id rest hr).2 ((h.firstOf rest).2 hempty)) hk

end Bounds

end AsmTree
