import AsmTree.Proofs.Machine.Nodes
import AsmTree.Proofs.Machine.Skeletons
import AsmTree.Proofs.Table.Operators
import AsmTree.Proofs.Tree.Grouping

/-!
# Operators on the stack

What stands on a stack bears on what may be put above it: an operator was shifted in front of a
state that has its item, and behind an operand that fits in front of it. `Bonds` says so of the
frames, and `Machine.Bonded` of a machine, with what is known of the next token. **Main
statements:** shifts and recoveries keep the bonds (`Bonded.shift`, `Bonded.recover`).
-/

namespace AsmTree

open View AsmTree.Tree

abbrev Frame.trees (f : Frame) : List Tree := f.backward.reverse

namespace Grammar

/-- The nonterminal is that of expressions or of a sort of them. -/
def IsOperand (g : Grammar) (expr id : Nat) : Prop :=
  id = expr ∨ ∃ k, g.kindOf? id = some k ∧ k.isExpr = true

theorem IsOperand.cases {g : Grammar} {expr id : Nat} (hhidden : g.kindOf? expr = none)
    (h : g.IsOperand expr id) : g.kindOf? id = none ∧ id = expr ∨
      ∃ k, g.kindOf? id = some k ∧ k.isExpr = true := by
  rcases h with rfl | hkind
  · exact Or.inl ⟨hhidden, rfl⟩
  · exact Or.inr hkind

/-- An expression may stand above a state: it fits behind the operators that read it last. -/
def FitsAbove (g : Grammar) (expr binary unary state : Nat) (a : Tree) : Prop :=
  ∀ item n, g.InState state item → g.OfOperator binary unary item n →
    g.analysis.remaining item = [.nonterminal expr] → a.FitsRight n

/-- An expression on top may stand in front of a token. -/
def FitsBefore (g : Grammar) (expr : Nat) (f : Frame) (read : List Symbol) (k : Kind) : Prop :=
  ∀ id a o, read.head? = some (.nonterminal id) → g.IsOperand expr id → Holds f.trees a →
    BinaryOp.ofKind? k = some o → a.FitsLeft o

variable {g : Grammar} {t : ParseTable} {expr binary unary : Nat}

/-- Frames with operators that fit their operands. -/
inductive Bonds (g : Grammar) (t : ParseTable) (expr binary unary : Nat) :
    List Frame → List Symbol → Prop where
  | bottom (f : Frame) : Bonds g t expr binary unary [f] []
  | region {f below : Frame} {frames : List Frame} {read : List Symbol} :
    Bonds g t expr binary unary (below :: frames) read →
    Bonds g t expr binary unary (f :: below :: frames) (.terminal .error :: read)
  | token {f below : Frame} {frames : List Frame} {read : List Symbol} {k : Kind} :
    (t.explicitAction below.state k).move = .shift f.state → operands f.trees = [] →
    operators f.trees = (BinaryOp.ofKind? k).toList → g.FitsBefore expr below read k →
    Bonds g t expr binary unary (below :: frames) read →
    Bonds g t expr binary unary (f :: below :: frames) (.terminal k :: read)
  | operand {f below : Frame} {frames : List Frame} {read : List Symbol} {id : Nat} {a : Tree} :
    g.IsOperand expr id → Holds f.trees a → g.FitsAbove expr binary unary below.state a →
    Bonds g t expr binary unary (below :: frames) read →
    Bonds g t expr binary unary (f :: below :: frames) (.nonterminal id :: read)
  | other {f below : Frame} {frames : List Frame} {read : List Symbol} {id : Nat} :
    ¬ g.IsOperand expr id → Bonds g t expr binary unary (below :: frames) read →
    Bonds g t expr binary unary (f :: below :: frames) (.nonterminal id :: read)

namespace Bonds

variable {frames : List Frame} {read : List Symbol} {id : Nat} {k : Kind}

theorem drop (h : Bonds g t expr binary unary frames read) (n : Nat) {base : Frame}
    {rest : List Frame} (hd : frames.drop n = base :: rest) :
    Bonds g t expr binary unary (base :: rest) (read.drop n) := by
  induction n generalizing frames read with
  | zero => exact hd ▸ h
  | succ n ih =>
    cases h with
    | bottom => simp at hd
    | region h => exact ih h hd
    | token _ _ _ _ h => exact ih h hd
    | operand _ _ _ h => exact ih h hd
    | other _ h => exact ih h hd

theorem exists_operand (h : Bonds g t expr binary unary frames (.nonterminal id :: read))
    (hid : g.IsOperand expr id) : ∃ f below rest a, frames = f :: below :: rest ∧
      Holds f.trees a ∧ g.FitsAbove expr binary unary below.state a ∧
      Bonds g t expr binary unary (below :: rest) read := by
  cases h with
  | operand _ hholds hfits h => exact ⟨_, _, _, _, rfl, hholds, hfits, h⟩
  | other hnot _ => exact absurd hid hnot

theorem exists_token (h : Bonds g t expr binary unary frames (.terminal k :: read))
    (hk : k ≠ .error) : ∃ f below rest, frames = f :: below :: rest ∧
      (t.explicitAction below.state k).move = .shift f.state ∧ operands f.trees = [] ∧
      operators f.trees = (BinaryOp.ofKind? k).toList ∧ g.FitsBefore expr below read k ∧
      Bonds g t expr binary unary (below :: rest) read := by
  cases h with
  | region _ => exact absurd rfl hk
  | token hshift hoperands hoperators hfits h =>
    exact ⟨_, _, _, rfl, hshift, hoperands, hoperators, hfits, h⟩

end Bonds

end Grammar

open Grammar

namespace Machine

variable {g : Grammar} {s : Setup} {m m' : Machine} {read : List Symbol} {t : ParseTable}
  {expr binary unary : Nat} {k : Kind}

/-! ## Wrapped expressions -/

section Wrapped

variable (ho : g.HasOperators expr binary unary) (ht : g.HasTable t)

theorem operands_takeWhile (t : ParseTable) (ts : List Tree) :
    operands (ts.takeWhile (isExtraTree t)) = [] := by
  refine operands_eq_nil fun tree htree => ?_
  have hextra := isExtraTree_of_mem_takeWhile htree
  simp only [isExtraTree, Bool.and_eq_true] at hextra
  exact hextra.1

theorem operands_dropWhile (t : ParseTable) (ts : List Tree) :
    operands (ts.dropWhile (isExtraTree t)) = operands ts := by
  conv_rhs => rw [← List.takeWhile_append_dropWhile (p := isExtraTree t) (l := ts)]
  rw [operands_append, operands_takeWhile, List.nil_append]

include ho ht

theorem operators_takeWhile (ts : List Tree) : operators (ts.takeWhile (isExtraTree t)) = [] := by
  refine operators_eq_nil fun tree htree => ?_
  have hextra := isExtraTree_of_mem_takeWhile htree
  simp only [isExtraTree, Bool.and_eq_true] at hextra
  cases tree with
  | token k text => exact ho.ofKind?_of_isExtra ht hextra.2
  | node k cs => rfl

theorem operators_dropWhile (ts : List Tree) :
    operators (ts.dropWhile (isExtraTree t)) = operators ts := by
  conv_rhs => rw [← List.takeWhile_append_dropWhile (p := isExtraTree t) (l := ts)]
  rw [operators_append, operators_takeWhile ho ht, List.nil_append]

theorem holds_wrap (hk : k.isExpr = true) (backward : List Tree) :
    Holds (wrap t k backward).reverse
      (.node k (backward.reverse.dropWhile (isExtraTree t))) := by
  rw [reverse_wrap]
  constructor
  · rw [operands_append, operands_takeWhile, List.nil_append]
    simp [operands, isToken, Tree.kind, hk]
  · rw [operators_append, operators_takeWhile ho ht, List.nil_append]
    rfl

end Wrapped

/-! ## Bonds between frames -/

/-- Each frame fits the one below, and all nodes that have been made are grouped. -/
structure Bonded (g : Grammar) (expr binary unary : Nat) (s : Setup) (m : Machine)
    (read : List Symbol) : Prop where
  path : g.Path m.states read
  bonds : Bonds g s.table expr binary unary m.frames read
  /-- An expression on top may stand in front of the next token. -/
  top : g.FitsBefore expr m.top read (m.next s).kind
  grouped : ∀ t ∈ Frame.joined m.frames, t.Everywhere Grouped
  input : ∀ l ∈ m.input, Sorted s.table.isExtra l

theorem Bonded.congr (h : Bonded g expr binary unary s m read) (hf : m'.frames = m.frames)
    (hi : m'.input = m.input) : Bonded g expr binary unary s m' read := by
  have htop : m'.top = m.top := (List.cons.inj hf).1
  have hnext : m'.next s = m.next s := by
    rw [next, ahead, hi]
    rfl
  exact ⟨by rw [states, hf]; exact h.path, by rw [hf]; exact h.bonds,
    by rw [htop, hnext]; exact h.top, by rw [hf]; exact h.grouped, by rw [hi]; exact h.input⟩

/-! ## Shifts and recovery -/

theorem Bonded.shift (ho : g.HasOperators expr binary unary) (ht : g.HasTable s.table)
    (hstop : s.table.isExtra s.stop.kind = false) (h : Bonded g expr binary unary s m read)
    {target : Nat}
    (hm : (s.table.explicitAction m.top.state (m.next s).kind).move = .shift target) :
    Bonded g expr binary unary s (m.shift s target) (.terminal (m.next s).kind :: read) where
  path := path_shift ht h.path hm
  bonds := by
    refine .token hm ?_ ?_ h.top h.bonds
    · show operands (m.ahead s 0).trees.reverse.reverse = []
      rw [List.reverse_reverse]
      refine operands_eq_nil fun tree htree => ?_
      obtain ⟨token, -, rfl⟩ := exists_token_of_mem_trees htree
      rfl
    · show operators (m.ahead s 0).trees.reverse.reverse = _
      have htrivia : operators (m.ahead s 0).triviaTrees = [] := by
        refine operators_eq_nil fun tree htree => ?_
        obtain ⟨token, htoken, rfl⟩ := List.mem_map.1 htree
        exact ho.ofKind?_of_isExtra ht ((sorted_ahead h.input hstop 0).trivia token htoken)
      rw [List.reverse_reverse, Lookahead.trees, operators_append, htrivia, List.nil_append]
      exact operators_token _ _
  top := fun id a o hhead => by cases hhead
  grouped := by
    rw [show (m.shift s target).frames =
      ⟨target, (m.ahead s 0).trees.reverse, (m.next s).stop⟩ :: m.frames from rfl,
      Frame.joined_cons, List.forall_mem_append]
    exact ⟨fun t ht => everywhere_trees _ t (List.mem_reverse.1 ht), h.grouped⟩
  input := fun l hl => h.input l (List.mem_of_mem_tail hl)

/-- A recovered region is neither an operand nor an operator. -/
theorem Bonded.recover (ht : g.HasTable s.table) (h : Bonded g expr binary unary s m read)
    (hr : m.recover? s = some m') : ∃ read', Bonded g expr binary unary s m' read' := by
  obtain ⟨r, base, rest, n, -, hdrop, hmove, rfl⟩ := recover?_eq_some hr
  have hdrop' : (m.look n).frames.drop r.above = base :: rest := hdrop
  refine ⟨_, path_resynchronize (m := m.look n) ht h.path hdrop' hmove, ?_,
    (fun id a o hhead => by cases hhead), ?_, ?_⟩
  · rw [frames_resynchronize hdrop']
    exact .region (h.bonds.drop _ hdrop)
  · have hall := h.grouped
    rw [← List.take_append_drop r.above m.frames, hdrop, Frame.joined_append,
      List.forall_mem_append] at hall
    rw [frames_resynchronize hdrop', Frame.joined_cons, List.forall_mem_append, everywhere_wrap,
      everywhere_skipTokens]
    exact ⟨⟨.other (by decide) (by decide), hall.1⟩, hall.2⟩
  · rw [input_resynchronize hdrop']
    exact fun l hl => h.input l (List.mem_of_mem_drop hl)

end Machine

end AsmTree
