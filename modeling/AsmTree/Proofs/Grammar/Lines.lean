import AsmTree.Grammar.Basic

/-!
# Grammars of lines

A file is a sequence of lines, each closed by its `newline` but perhaps the last. `HasLines` says
so of the productions of a grammar, and `Weighted` that productions make symbols lighter, so that
reductions come to an end. Both can be computed.
-/

namespace AsmTree

namespace Grammar

/-- The right-hand sides of a nonterminal, in order. -/
def rhsOf (g : Grammar) (id : Nat) : List (List Symbol) :=
  (g.productions.toList.filter fun p => p.lhs == id).map Production.rhs

theorem mem_rhsOf {g : Grammar} {id : Nat} {rhs : List Symbol} :
    rhs ∈ g.rhsOf id ↔ ∃ p ∈ g.productions, p.lhs = id ∧ p.rhs = rhs := by
  simp [rhsOf, and_assoc]

/-! ## Lines -/

/-- The productions of a file, with `lines` for complete lines and `line` for what stands on one.
The start forms a file. -/
structure HasLines (g : Grammar) (lines line : Nat) : Prop where
  resumePoint : g.resumePoint = some lines
  ofSource : g.rhsOf g.start = [[.nonterminal lines, .nonterminal line], [.nonterminal lines],
    [.nonterminal line], []]
  ofLines : g.rhsOf lines = [
    [.nonterminal lines, .nonterminal line, .terminal .newline],
    [.nonterminal lines, .terminal .newline],
    [.nonterminal line, .terminal .newline], [.terminal .newline]]
  /-- A recovered region may stand on a line. -/
  error : [.terminal .error] ∈ g.rhsOf line
  /-- A file is not part of anything. -/
  start : ∀ p ∈ g.productions, .nonterminal g.start ∉ p.rhs
  /-- Only lines and files begin with lines. -/
  first : ∀ p ∈ g.productions, p.rhs.head? = some (.nonterminal lines) →
    p.lhs = lines ∨ p.lhs = g.start
  /-- Only a file can be empty. -/
  empty : ∀ p ∈ g.productions, p.rhs = [] → p.lhs = g.start
  eof : ∀ p ∈ g.productions, .terminal .eof ∉ p.rhs
  hidden : g.kindOf? g.start = none ∧ g.kindOf? lines = none
  /-- No rule makes nodes that look like recovered regions. -/
  visible : ∀ id, g.kindOf? id ≠ some .error
  precedence : g.tokenPrecedence? .newline = none ∧ g.tokenPrecedence? .eof = none ∧
    g.tokenPrecedence? .error = none
  extras : .newline ∉ g.extras ∧ .eof ∉ g.extras

/-- Whether the productions are those of a file of lines. -/
def hasLines (g : Grammar) (lines line : Nat) : Bool :=
  g.resumePoint == some lines &&
    g.rhsOf g.start == [[.nonterminal lines, .nonterminal line], [.nonterminal lines],
      [.nonterminal line], []] &&
    g.rhsOf lines == [
      [.nonterminal lines, .nonterminal line, .terminal .newline],
      [.nonterminal lines, .terminal .newline],
      [.nonterminal line, .terminal .newline], [.terminal .newline]] &&
    (g.rhsOf line).contains [.terminal .error] &&
    (g.productions.toList.all fun p =>
      !p.rhs.contains (.nonterminal g.start) && !p.rhs.contains (.terminal .eof) &&
        match p.rhs with
        | [] => p.lhs == g.start
        | s :: _ => s != .nonterminal lines || p.lhs == lines || p.lhs == g.start) &&
    (g.kindOf? g.start).isNone && (g.kindOf? lines).isNone &&
    (g.nonterminals.toList.all fun n => n.kind != some .error) &&
    (g.tokenPrecedence? .newline).isNone && (g.tokenPrecedence? .eof).isNone &&
    (g.tokenPrecedence? .error).isNone &&
    !g.extras.contains .newline && !g.extras.contains .eof

theorem hasLines_of_check {g : Grammar} {lines line : Nat} (h : g.hasLines lines line = true) :
    g.HasLines lines line := by
  simp only [hasLines, Bool.and_eq_true, beq_iff_eq, List.contains_iff_mem, List.all_eq_true,
    Array.mem_toList_iff, Option.isNone_iff_eq_none, bne_iff_ne, Bool.not_eq_true',
    ← Bool.not_eq_true] at h
  obtain ⟨⟨⟨⟨⟨⟨⟨⟨⟨⟨⟨⟨hresume, hsource⟩, hlines⟩, herror⟩, hall⟩, hstart⟩, hhidden⟩, hvisible⟩,
    hnewline⟩, heof⟩, hperror⟩, hne⟩, hee⟩ := h
  refine ⟨hresume, hsource, hlines, herror, fun p hp => (hall p hp).1.1, fun p hp hfirst => ?_,
    fun p hp hempty => ?_, fun p hp => (hall p hp).1.2, ⟨hstart, hhidden⟩, fun id hid => ?_,
    ⟨hnewline, heof, hperror⟩, ⟨hne, hee⟩⟩
  · have hcase := (hall p hp).2
    cases hr : p.rhs with
    | nil => simp [hr] at hfirst
    | cons s rest =>
      rw [hr] at hcase hfirst
      obtain rfl : s = .nonterminal lines := by simpa using hfirst
      simpa using hcase
  · have hcase := (hall p hp).2
    rw [hempty] at hcase
    simpa using hcase
  · obtain ⟨n, hn, hkind⟩ := Option.bind_eq_some_iff.1 hid
    exact hvisible n (Array.mem_of_getElem? hn) hkind

end Grammar

/-! ## Weights -/

/-- What a terminal weighs. No nonterminal is heavier. -/
def heaviest : Nat := 255

namespace Symbol

/-- What a symbol weighs, given what nonterminals weigh. -/
def weight (w : Nat → Nat) : Symbol → Nat
  | .terminal _ => heaviest
  | .nonterminal id => w id

def weightAll (w : Nat → Nat) : List Symbol → Nat
  | [] => 0
  | s :: ss => s.weight w + weightAll w ss

@[simp] theorem weightAll_nil (w : Nat → Nat) : weightAll w [] = 0 := rfl

@[simp] theorem weightAll_cons (w : Nat → Nat) (s : Symbol) (ss : List Symbol) :
    weightAll w (s :: ss) = s.weight w + weightAll w ss := rfl

@[simp] theorem weightAll_append (w : Nat → Nat) (a b : List Symbol) :
    weightAll w (a ++ b) = weightAll w a + weightAll w b := by
  induction a with
  | nil => simp
  | cons s a ih => simp [ih, Nat.add_assoc]

@[simp] theorem weightAll_reverse (w : Nat → Nat) (ss : List Symbol) :
    weightAll w ss.reverse = weightAll w ss := by
  induction ss with
  | nil => rfl
  | cons s ss ih => simp [ih, Nat.add_comm]

end Symbol

namespace Grammar

/-- A production of some symbols makes something lighter, and a file weighs nothing. -/
structure Weighted (g : Grammar) (w : Nat → Nat) : Prop where
  lt : ∀ p ∈ g.productions, p.rhs ≠ [] → w p.lhs < Symbol.weightAll w p.rhs
  le : ∀ id, w id ≤ heaviest
  start : w g.start = 0
  /-- There are enough productions for the limit of moves. -/
  room : heaviest < Nat.pow 2 g.productions.size

def weightIn (weights : List Nat) (id : Nat) : Nat := min (weights.getD id 0) heaviest

/-- Makes nonterminals lighter than single nonterminals that they are formed of. -/
def lighten : List Production → List Nat → List Nat
  | [], weights => weights
  | p :: ps, weights =>
    match p.rhs with
    | [.nonterminal id] =>
      if weightIn weights p.lhs < weightIn weights id then lighten ps weights
      else lighten ps (weights.set p.lhs (weightIn weights id - 1))
    | _ => lighten ps weights

/-- Weights for the nonterminals of a grammar after some rounds. -/
def weights (g : Grammar) : Nat → List Nat
  | 0 => (List.replicate g.nonterminals.size (heaviest - 1)).set g.start 0
  | n + 1 => lighten g.productions.toList (g.weights n)

/-- Whether every production makes something lighter. -/
def weighted (g : Grammar) (weights : List Nat) : Bool :=
  (g.productions.toList.all fun p => p.rhs.isEmpty ||
    weightIn weights p.lhs < Symbol.weightAll (weightIn weights) p.rhs) &&
    weightIn weights g.start == 0 && Nat.blt heaviest (Nat.pow 2 g.productions.size)

theorem weighted_of_check {g : Grammar} {weights : List Nat} (h : g.weighted weights = true) :
    g.Weighted (weightIn weights) := by
  simp only [weighted, Bool.and_eq_true, List.all_eq_true, Array.mem_toList_iff, Bool.or_eq_true,
    List.isEmpty_iff, decide_eq_true_eq, beq_iff_eq, Nat.blt_eq] at h
  exact ⟨fun p hp hne => (h.1.1 p hp).resolve_left hne, fun id => Nat.min_le_right _ _, h.1.2,
    h.2⟩

end Grammar

end AsmTree
