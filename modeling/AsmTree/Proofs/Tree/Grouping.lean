import AsmTree.Proofs.Grammar.Operators
import AsmTree.Proofs.Tree.Subtrees

/-!
# How operators are grouped

Every node for an operator says by its children how the operators around it are grouped: an operand
that has an operator of its own binds at least as tight. `Grouped` says so of a node by the trees
below it, and `View.Groups` by the parts that are found in it. **Main statement
(`Tree.Grouped.groups`):** a node that is grouped is so for its readers.
-/

namespace AsmTree

open View

namespace Tree

/-! ## Operands and operators -/

def operands (ts : List Tree) : List Tree := ts.filter fun t => !t.isToken && t.kind.isExpr

/-- The operator that a token stands for. -/
def operator? : Tree → Option BinaryOp
  | token k _ => BinaryOp.ofKind? k
  | node .. => none

def operators (ts : List Tree) : List BinaryOp := ts.filterMap operator?

@[simp] theorem operands_append (a b : List Tree) : operands (a ++ b) = operands a ++ operands b :=
  List.filter_append a b

@[simp] theorem operators_append (a b : List Tree) :
    operators (a ++ b) = operators a ++ operators b :=
  List.filterMap_append

theorem operands_eq_nil {ts : List Tree} (h : ∀ t ∈ ts, t.isToken = true) : operands ts = [] :=
  List.filter_eq_nil_iff.2 fun t ht => by simp [h t ht]

theorem operators_eq_nil {ts : List Tree} (h : ∀ t ∈ ts, t.operator? = none) :
    operators ts = [] :=
  List.filterMap_eq_nil_iff.2 h

theorem operators_token (k : Kind) (text : String) :
    operators [token k text] = (BinaryOp.ofKind? k).toList := by
  cases h : BinaryOp.ofKind? k <;> simp [operators, operator?, h]

/-- Trees with one expression and no operator among them. -/
structure Holds (ts : List Tree) (a : Tree) : Prop where
  operands : operands ts = [a]
  operators : operators ts = []

/-! ## Grouped nodes -/

/-- How tight the operator of an expression binds. -/
def strength? : Tree → Option Nat
  | node .binaryExpr cs => (operators cs).head?.map BinaryOp.precedence
  | node .unaryExpr _ => some UnaryOp.precedence
  | _ => none

/-- The tree may stand in front of an operator. -/
def FitsLeft (o : BinaryOp) (t : Tree) : Prop :=
  ∀ n ∈ t.strength?, o.precedence < n ∨ o.precedence = n ∧ o.isRightAssoc = false

/-- The tree may stand behind an operator of some binding strength. -/
def FitsRight (n : Nat) (t : Tree) : Prop :=
  ∀ cs, t = node .binaryExpr cs → ∀ o ∈ (operators cs).head?,
    n < o.precedence ∨ n = o.precedence ∧ o.isRightAssoc = true

/-- The children of a node for an operator are as its binding strength says. -/
inductive Grouped : Kind → List Tree → Prop where
  | binary {cs : List Tree} {a b : Tree} {o : BinaryOp} : operands cs = [a, b] →
    operators cs = [o] → a.FitsLeft o → b.FitsRight o.precedence → Grouped .binaryExpr cs
  | unary {cs : List Tree} {b : Tree} : operands cs = [b] → b.FitsRight UnaryOp.precedence →
    Grouped .unaryExpr cs
  | other {k : Kind} {cs : List Tree} : k ≠ .binaryExpr → k ≠ .unaryExpr → Grouped k cs

theorem strength?_of_ne {k : Kind} (cs : List Tree) (hb : k ≠ .binaryExpr)
    (hu : k ≠ .unaryExpr) : (node k cs).strength? = none := by
  unfold strength?
  split
  · next h => exact absurd (node.inj h).1 hb
  · next h => exact absurd (node.inj h).1 hu
  · rfl

theorem fitsLeft_of_ne {k : Kind} {cs : List Tree} {o : BinaryOp} (hb : k ≠ .binaryExpr)
    (hu : k ≠ .unaryExpr) : (node k cs).FitsLeft o := by
  intro n hn
  rw [strength?_of_ne cs hb hu] at hn
  cases hn

theorem fitsRight_of_ne {k : Kind} {cs : List Tree} {n : Nat} (hb : k ≠ .binaryExpr) :
    (node k cs).FitsRight n :=
  fun _ he => absurd (node.inj he).1 hb

theorem fitsLeft_binary {cs : List Tree} {o p : BinaryOp} (h : operators cs = [p]) :
    (node .binaryExpr cs).FitsLeft o ↔
      o.precedence < p.precedence ∨ o.precedence = p.precedence ∧ o.isRightAssoc = false := by
  simp [FitsLeft, strength?, h]

theorem fitsLeft_unary {cs : List Tree} {o : BinaryOp} : (node .unaryExpr cs).FitsLeft o ↔
    o.precedence < UnaryOp.precedence ∨
      o.precedence = UnaryOp.precedence ∧ o.isRightAssoc = false := by
  simp [FitsLeft, strength?]

theorem fitsRight_binary {cs : List Tree} {n : Nat} {o : BinaryOp} (h : operators cs = [o]) :
    (node .binaryExpr cs).FitsRight n ↔
      n < o.precedence ∨ n = o.precedence ∧ o.isRightAssoc = true := by
  simp [FitsRight, h]

end Tree

/-! ## Reading grouped nodes -/

open AsmTree.Tree

namespace View

/-- The parts of a node for an operator are grouped as the binding strengths say. -/
structure Groups (e : Located) : Prop where
  /-- An operator between two operands has both. The left one may bind as tight if the operators
  group from the left, the right one if they group from the right, and a sign in front of the left
  one binds looser than a power. -/
  binary : e.isToken = false → e.kind = .binaryExpr → ∃ l o r, (Binary.of e).lhs = some l ∧
    (Binary.of e).op? = some o ∧ (Binary.of e).rhs = some r ∧
    (l.kind = .binaryExpr → ∀ p, (Binary.of l).op? = some p →
      o.precedence < p.precedence ∨ o.precedence = p.precedence ∧ o.isRightAssoc = false) ∧
    (r.kind = .binaryExpr → ∀ p, (Binary.of r).op? = some p →
      o.precedence < p.precedence ∨ o.precedence = p.precedence ∧ o.isRightAssoc = true) ∧
    (l.kind = .unaryExpr → o ≠ .pow)
  /-- Of the operators between two operands only a power may stand behind a sign. -/
  unary : e.isToken = false → e.kind = .unaryExpr → ∃ x, (Unary.of e).operand = some x ∧
    (x.kind = .binaryExpr → (Binary.of x).op? = some .pow)

theorem map_tree_exprs (e : Located) : e.exprs.map Located.tree = operands e.tree.children := by
  rw [Located.exprs, Located.nodes, List.filter_filter, ← Located.map_tree_children, operands,
    List.filter_map]
  congr 1
  refine List.filter_congr fun x _ => ?_
  exact Bool.and_comm _ _

/-- The operator of a node is the first one among its children. -/
theorem Binary.op?_of (e : Located) :
    (Binary.of e).op? = (operators e.tree.children).head? := by
  have hread : ∀ ls : List Located, ((ls.filter Located.isToken).find? fun x =>
      (BinaryOp.ofKind? x.kind).isSome).bind (BinaryOp.ofKind? ·.kind) =
        (operators (ls.map Located.tree)).head? := by
    intro ls
    induction ls with
    | nil => rfl
    | cons x ls ih =>
      obtain ⟨start, t⟩ := x
      cases t with
      | node k cs => exact ih
      | token k text =>
        cases hk : BinaryOp.ofKind? k with
        | none =>
          simpa [Located.isToken, isToken, operators, operator?, Located.kind, kind, hk] using ih
        | some o => simp [Located.isToken, isToken, operators, operator?, Located.kind, kind, hk]
  rw [← Located.map_tree_children]
  exact hread e.children

end View

theorem strength?_of_kind {l : Located} (ht : l.isToken = false) (hk : l.kind = .binaryExpr) :
    l.tree.strength? = (View.Binary.of l).op?.map BinaryOp.precedence := by
  obtain ⟨start, t⟩ := l
  cases t with
  | token => cases ht
  | node k cs =>
    obtain rfl : k = .binaryExpr := hk
    rw [Binary.op?_of]
    rfl

theorem Tree.FitsLeft.precedence {o p : BinaryOp} {l : Located} (h : l.tree.FitsLeft o)
    (ht : l.isToken = false) (hk : l.kind = .binaryExpr) (hp : (Binary.of l).op? = some p) :
    o.precedence < p.precedence ∨ o.precedence = p.precedence ∧ o.isRightAssoc = false :=
  h _ (by rw [strength?_of_kind ht hk, hp]; rfl)

theorem Tree.FitsLeft.ne_pow {o : BinaryOp} {t : Tree} (h : t.FitsLeft o)
    (ht : t.isToken = false) (hk : t.kind = .unaryExpr) : o ≠ .pow := by
  cases t with
  | token => cases ht
  | node k cs =>
    obtain rfl : k = .unaryExpr := hk
    rintro rfl
    rcases h _ rfl with hlt | ⟨-, hassoc⟩
    · exact absurd hlt (by decide)
    · cases hassoc

theorem Tree.FitsRight.precedence {n : Nat} {p : BinaryOp} {r : Located} (h : r.tree.FitsRight n)
    (ht : r.isToken = false) (hk : r.kind = .binaryExpr) (hp : (Binary.of r).op? = some p) :
    n < p.precedence ∨ n = p.precedence ∧ p.isRightAssoc = true := by
  obtain ⟨start, t⟩ := r
  cases t with
  | token => cases ht
  | node k cs =>
    obtain rfl : k = .binaryExpr := hk
    exact h cs rfl p ((Binary.op?_of _).symm.trans hp)

theorem Tree.Everywhere.exists_op {x : Located} (h : x.tree.Everywhere Grouped)
    (ht : x.isToken = false) (hk : x.kind = .binaryExpr) : ∃ o, (Binary.of x).op? = some o := by
  obtain ⟨start, t⟩ := x
  cases t with
  | token => cases ht
  | node k cs =>
    obtain rfl : k = .binaryExpr := hk
    cases h.1 with
    | @binary _ _ _ o _ hoperators _ _ =>
      exact ⟨o, (Binary.op?_of _).trans (congrArg List.head? hoperators)⟩
    | other hb _ => exact absurd rfl hb

/-- **A node that is grouped is so for its readers.** -/
theorem Tree.Everywhere.groups {e : Located} (h : e.tree.Everywhere Grouped) : Groups e := by
  have htokens : ∀ x ∈ e.exprs, x.isToken = false := fun x hx => by
    simpa using (List.mem_filter.1 (List.mem_filter.1 hx).1).2
  have hexprs := map_tree_exprs e
  obtain ⟨start, t⟩ := e
  constructor
  case binary =>
    rintro ht hk
    cases t with
    | token => cases ht
    | node k cs =>
      obtain rfl : k = .binaryExpr := hk
      cases h.1 with
      | @binary _ a b o hoperands hoperators hleft hright =>
        rw [show (node .binaryExpr cs).children = cs from rfl, hoperands] at hexprs
        obtain ⟨l, ls, hl, rfl, hls⟩ := List.map_eq_cons_iff.1 hexprs
        obtain ⟨r, rs, rfl, rfl, -⟩ := List.map_eq_cons_iff.1 hls
        rw [hl] at htokens
        have hlt := htokens l List.mem_cons_self
        have hrt := htokens r (List.mem_cons_of_mem _ List.mem_cons_self)
        refine ⟨l, o, r, ?_, ?_, ?_, fun hk p hp => hleft.precedence hlt hk hp,
          fun hk p hp => (hright.precedence hrt hk hp).imp_right ?_, hleft.ne_pow hlt⟩
        · rw [Binary.of, hl]
          rfl
        · exact (Binary.op?_of _).trans (congrArg List.head? hoperators)
        · rw [Binary.of, hl]
          rfl
        · rintro ⟨heq, hassoc⟩
          rw [BinaryOp.isRightAssoc_iff] at hassoc ⊢
          exact ⟨heq, heq.trans hassoc⟩
      | other hb _ => exact absurd rfl hb
  case unary =>
    rintro ht hk
    cases t with
    | token => cases ht
    | node k cs =>
      obtain rfl : k = .unaryExpr := hk
      obtain ⟨hnode, hbelow⟩ := everywhere_node.1 h
      cases hnode with
      | @unary _ b hoperands hright =>
        have hb : b ∈ cs := (List.mem_filter.1 (hoperands ▸ List.mem_singleton_self b)).1
        rw [show (node .unaryExpr cs).children = cs from rfl, hoperands] at hexprs
        obtain ⟨x, xs, hx, rfl, -⟩ := List.map_eq_cons_iff.1 hexprs
        rw [hx] at htokens
        have hxt := htokens x List.mem_cons_self
        refine ⟨x, by rw [Unary.of, hx]; rfl, fun hk => ?_⟩
        obtain ⟨o, ho⟩ := (hbelow _ hb).exists_op hxt hk
        rw [ho, BinaryOp.eq_pow_of_unary (hright.precedence hxt hk ho)]
      | other _ hu => exact absurd rfl hu

end AsmTree
