import AsmTree.Proofs.Grammar.Lines
import AsmTree.View.Expr

/-!
# Grammars of operators

An expression is one node, and two of its sorts are made with operators: two expressions with an
operator between them, and an expression with one in front. `HasOperators` says so of the
productions of a grammar, and that its levels are the binding strengths of the operators. It can be
computed.
-/

namespace AsmTree

open View

/-- The binding strength of an operator in front of an operand. -/
def View.UnaryOp.precedence : Nat := 8

/-- How the operators of a binding strength group. -/
def View.BinaryOp.assoc (o : BinaryOp) : Assoc := if o.isRightAssoc then .right else .left

theorem View.BinaryOp.precedence_lt (o : BinaryOp) : o.precedence < 10 := by
  cases o <;> decide

theorem View.BinaryOp.isRightAssoc_iff {o : BinaryOp} :
    o.isRightAssoc = true ↔ o.precedence = 9 := by
  cases o <;> decide

theorem View.BinaryOp.eq_pow_of_unary {o : BinaryOp}
    (h : UnaryOp.precedence < o.precedence ∨
      UnaryOp.precedence = o.precedence ∧ o.isRightAssoc = true) : o = .pow := by
  revert h
  cases o <;> decide

theorem View.BinaryOp.mem_tokens {k : Kind} {o : BinaryOp} (h : ofKind? k = some o) :
    k ∈ Kind.tokens := by
  revert h
  cases k <;> first | (intro _; decide) | (intro h; cases h)

namespace Grammar

/-- The productions of expressions, with numbers for expressions and for their sorts with an
operator between two operands and in front of one. -/
structure HasOperators (g : Grammar) (expr binary unary : Nat) : Prop where
  ofExpr : ∀ rhs ∈ g.rhsOf expr, ∃ id k, rhs = [.nonterminal id] ∧ g.kindOf? id = some k ∧
    k.isExpr = true
  sorts : [.nonterminal binary] ∈ g.rhsOf expr ∧ [.nonterminal unary] ∈ g.rhsOf expr
  ofBinary : ∀ p ∈ g.productions, p.lhs = binary → ∃ k o, BinaryOp.ofKind? k = some o ∧
    p.rhs = [.nonterminal expr, .terminal k, .nonterminal expr] ∧
    g.productionLevel? p = some (.ofNat o.precedence)
  ofUnary : ∀ p ∈ g.productions, p.lhs = unary → ∃ k o, UnaryOp.ofKind? k = some o ∧
    p.rhs = [.terminal k, .nonterminal expr] ∧
    g.productionLevel? p = some (.ofNat UnaryOp.precedence)
  /-- Every operator can stand between two operands. -/
  all : ∀ k o, BinaryOp.ofKind? k = some o →
    [.nonterminal expr, .terminal k, .nonterminal expr] ∈ g.rhsOf binary
  /-- The levels of the operators are their binding strengths. -/
  tokens : ∀ k o, BinaryOp.ofKind? k = some o →
    g.tokenPrecedence? k = some (.ofNat o.precedence, o.assoc)
  hidden : g.kindOf? expr = none
  visible : g.kindOf? binary = some .binaryExpr ∧ g.kindOf? unary = some .unaryExpr
  /-- No other rule makes such nodes. -/
  only : ∀ id, (g.kindOf? id = some .binaryExpr → id = binary) ∧
    (g.kindOf? id = some .unaryExpr → id = unary)
  /-- Such nodes are part of expressions only. -/
  inside : ∀ p ∈ g.productions, .nonterminal binary ∈ p.rhs ∨ .nonterminal unary ∈ p.rhs →
    p.lhs = expr
  start : g.start ≠ binary ∧ g.start ≠ unary
  /-- No operator may stand anywhere. -/
  extras : ∀ k ∈ g.extras, BinaryOp.ofKind? k = none

/-- Whether the productions are those of operators. -/
def hasOperators (g : Grammar) (expr binary unary : Nat) : Bool :=
  ((g.rhsOf expr).all fun
    | [.nonterminal id] => (g.kindOf? id).any Kind.isExpr
    | _ => false) &&
    (g.rhsOf expr).contains [.nonterminal binary] &&
    (g.rhsOf expr).contains [.nonterminal unary] &&
    (g.productions.toList.all fun p =>
      (p.lhs != binary ||
        match p.rhs with
        | [.nonterminal a, .terminal k, .nonterminal b] => a == expr && b == expr &&
          (BinaryOp.ofKind? k).any fun o => g.productionLevel? p == some (.ofNat o.precedence)
        | _ => false) &&
      (p.lhs != unary ||
        match p.rhs with
        | [.terminal k, .nonterminal b] => b == expr && (UnaryOp.ofKind? k).isSome &&
          g.productionLevel? p == some (.ofNat UnaryOp.precedence)
        | _ => false) &&
      ((!p.rhs.contains (.nonterminal binary) && !p.rhs.contains (.nonterminal unary)) ||
        p.lhs == expr)) &&
    (Kind.tokens.all fun k => (BinaryOp.ofKind? k).all fun o =>
      (g.rhsOf binary).contains [.nonterminal expr, .terminal k, .nonterminal expr] &&
        g.tokenPrecedence? k == some (.ofNat o.precedence, o.assoc)) &&
    (g.kindOf? expr).isNone && g.kindOf? binary == some .binaryExpr &&
    g.kindOf? unary == some .unaryExpr &&
    ((List.range g.nonterminals.size).all fun id =>
      (g.kindOf? id != some .binaryExpr || id == binary) &&
        (g.kindOf? id != some .unaryExpr || id == unary)) &&
    g.start != binary && g.start != unary &&
    g.extras.all fun k => (BinaryOp.ofKind? k).isNone

theorem hasOperators_of_check {g : Grammar} {expr binary unary : Nat}
    (h : g.hasOperators expr binary unary = true) : g.HasOperators expr binary unary := by
  simp only [hasOperators, Bool.and_eq_true, Bool.or_eq_true, beq_iff_eq, bne_iff_ne,
    List.contains_iff_mem, List.all_eq_true, Array.mem_toList_iff, Option.isNone_iff_eq_none,
    Option.all_eq_true, Bool.not_eq_true', ← Bool.not_eq_true, List.mem_range] at h
  obtain ⟨⟨⟨⟨⟨⟨⟨⟨⟨⟨⟨hexpr, hsortb⟩, hsortu⟩, hall⟩, htokens⟩, hhidden⟩, hbinary⟩, hunary⟩, honly⟩,
    hstartb⟩, hstartu⟩, hextras⟩ := h
  have hkinds : ∀ id k, g.kindOf? id = some k → id < g.nonterminals.size := by
    intro id k hid
    obtain ⟨n, hn, -⟩ := Option.bind_eq_some_iff.1 hid
    exact (Array.getElem?_eq_some_iff.1 hn).1
  constructor
  case ofExpr =>
    intro rhs hrhs
    have hcase := hexpr rhs hrhs
    split at hcase
    · next id =>
      obtain ⟨k, hk, hkind⟩ := (Option.any_eq_true _ _).1 hcase
      exact ⟨id, k, rfl, hk, hkind⟩
    · cases hcase
  case ofBinary =>
    intro p hp hlhs
    have hcase := (hall p hp).1.1.resolve_left (not_not_intro hlhs)
    split at hcase
    · next a k b hrhs =>
      simp only [Bool.and_eq_true, beq_iff_eq] at hcase
      obtain ⟨⟨rfl, rfl⟩, hany⟩ := hcase
      obtain ⟨o, ho, hlevel⟩ := (Option.any_eq_true _ _).1 hany
      exact ⟨k, o, ho, hrhs, eq_of_beq hlevel⟩
    · cases hcase
  case ofUnary =>
    intro p hp hlhs
    have hcase := (hall p hp).1.2.resolve_left (not_not_intro hlhs)
    split at hcase
    · next k b hrhs =>
      simp only [Bool.and_eq_true, beq_iff_eq] at hcase
      obtain ⟨⟨rfl, hsome⟩, hlevel⟩ := hcase
      obtain ⟨o, ho⟩ := Option.isSome_iff_exists.1 hsome
      exact ⟨k, o, ho, hrhs, hlevel⟩
    · cases hcase
  case inside =>
    intro p hp hmem
    exact (hall p hp).2.resolve_left fun hnot => hmem.elim hnot.1 hnot.2
  case only =>
    intro id
    exact ⟨fun hid => (honly id (hkinds id _ hid)).1.resolve_left (not_not_intro hid),
      fun hid => (honly id (hkinds id _ hid)).2.resolve_left (not_not_intro hid)⟩
  case all => exact fun k o hk => (htokens k (BinaryOp.mem_tokens hk) o hk).1
  case tokens => exact fun k o hk => (htokens k (BinaryOp.mem_tokens hk) o hk).2
  case sorts => exact ⟨hsortb, hsortu⟩
  case hidden => exact hhidden
  case visible => exact ⟨hbinary, hunary⟩
  case start => exact ⟨hstartb, hstartu⟩
  case extras => exact fun k hk => hextras k hk

end Grammar

end AsmTree
