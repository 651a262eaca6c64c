import AsmTree.Proofs.Grammar.Operators
import AsmTree.Proofs.Machine.LineEnds
import AsmTree.Proofs.Table.Precedence

/-!
# Where operators meet

In a state in which an expression has just been read every operator can come next, and wherever an
operator's production is complete every operator can follow it. So the levels decide each of these
cells. **Main statements:** the next operator is shifted only if it binds tighter than the complete
one (`shift_tighter`), and the complete one is reduced before it only if it is the tighter of the
two (`reduce_tighter`).
-/

namespace AsmTree

open View

namespace Grammar

variable {g : Grammar} {expr binary unary state target n p : Nat} {t : ParseTable} {k : Kind}
  {o : BinaryOp} {item : Item} {after : List Symbol}

/-- The item is one of an operator, of a binding strength. -/
structure OfOperator (g : Grammar) (binary unary : Nat) (item : Item) (n : Nat) : Prop where
  lhs : g.augmented.lhs item.production = binary ∨ g.augmented.lhs item.production = unary
  level : g.levelOf? item.production = some (.ofNat n)
  lt : n < 10

theorem OfOperator.advance (h : g.OfOperator binary unary item n) :
    g.OfOperator binary unary item.advance n :=
  ⟨h.lhs, h.level, h.lt⟩

theorem ne_of_lhs_lt (hg : g.WellFormed) (hlhs : g.augmented.lhs p < g.nonterminals.size) :
    p ≠ g.productions.size := by
  rintro rfl
  rw [lhs_accept hg] at hlhs
  exact Nat.lt_irrefl _ hlhs

theorem InState.production (hg : g.WellFormed) (hin : g.InState state item)
    (hne : item.production ≠ g.productions.size) : ∃ q ∈ g.productions,
      g.productions[item.production]? = some q ∧ g.augmented.lhs item.production = q.lhs ∧
        g.augmented.rhs item.production = q.rhs := by
  have hlt := (mem_items.1 (mem_items_of_mem_closure_kernel hg hin.2)).1
  rw [size_productions] at hlt
  have hq := Array.getElem?_eq_getElem (Nat.lt_of_le_of_ne (Nat.le_of_lt_succ hlt) hne)
  exact ⟨_, Array.mem_of_getElem? hq, hq, Augmented.lhs_eq (getElem?_augmented hq),
    Augmented.rhs_eq (getElem?_augmented hq)⟩

theorem InState.initial (hg : g.WellFormed) (hin : g.InState state ⟨p, 0⟩)
    (hp : p ≠ g.productions.size) : ∃ i after, g.InState state i ∧
      g.analysis.remaining i = .nonterminal (g.augmented.lhs p) :: after := by
  obtain ⟨-, i, hi, after, hr⟩ := closure_initial hg hin.2 (not_mem_kernel_of_ne hp)
  exact ⟨i, after, ⟨hin.1, hi⟩, hr⟩

/-! ## Levels -/

/-- What levels make of a shift against one production. -/
theorem Decided.of_levels {a : Action} {rule token : UInt8} {assoc : Assoc} (hk : k ≠ .error)
    (hrule : g.levelOf? p = some rule) (htoken : g.tokenPrecedence? k = some (token, assoc))
    (h : g.Decided k (some target) {p} a) :
    a = .shift target ∧ (rule < token ∨ rule = token ∧ assoc = .right) ∨
      a = .reduce p ∧ (token < rule ∨ token = rule ∧ assoc = .left) ∨
      a = .error ∧ assoc = .nonAssoc := by
  have hsame : ∀ {q : Nat} {level : UInt8}, ({p} : Set Nat) = {q} → g.levelOf? q = some level →
      q = p ∧ level = rule := by
    intro q level hset hlevel
    obtain rfl := Set.singleton_eq_singleton_iff.1 hset
    exact ⟨rfl, Option.some.inj (hlevel.symm.trans hrule)⟩
  generalize hset : ({p} : Set Nat) = set at h
  cases h with
  | shift => exact absurd hset (Set.singleton_ne_empty p)
  | region he => exact absurd he hk
  | tighter _ hq htoken' hlt =>
    obtain ⟨rfl, rfl⟩ := hsame hset hq
    rw [htoken] at htoken'
    cases htoken'
    exact Or.inl ⟨rfl, Or.inl hlt⟩
  | looser _ hq htoken' hlt =>
    obtain ⟨rfl, rfl⟩ := hsame hset hq
    rw [htoken] at htoken'
    cases htoken'
    exact Or.inr (Or.inl ⟨rfl, Or.inl hlt⟩)
  | left _ hq htoken' =>
    obtain ⟨rfl, rfl⟩ := hsame hset hq
    rw [htoken] at htoken'
    cases htoken'
    exact Or.inr (Or.inl ⟨rfl, Or.inr ⟨rfl, rfl⟩⟩)
  | right _ hq htoken' =>
    obtain ⟨rfl, rfl⟩ := hsame hset hq
    rw [htoken] at htoken'
    cases htoken'
    exact Or.inl ⟨rfl, Or.inr ⟨rfl, rfl⟩⟩
  | nonAssoc _ hq htoken' =>
    rw [htoken] at htoken'
    cases htoken'
    exact Or.inr (Or.inr ⟨rfl, rfl⟩)

/-- Levels are for operators: only operators have levels of their own, and a production with a level
that ends with a nonterminal is one of an operator, if an operator may follow it. -/
structure Ranks (g : Grammar) (binary unary : Nat) : Prop where
  token : ∀ k : Kind, k.index < Kind.tokenCount → (g.tokenPrecedence? k).isSome = true →
    ∃ o, BinaryOp.ofKind? k = some o
  production : ∀ p ∈ g.productions, (g.productionLevel? p).isSome = true →
    (∃ k, p.rhs.getLast? = some (.terminal k)) ∨ p.lhs = binary ∨ p.lhs = unary ∨
      ∀ k o, BinaryOp.ofKind? k = some o → ∀ state (item : Item),
        g.augmented.lhs item.production = p.lhs → ¬ g.Follows state item k.index

/-- Whether levels are for operators, by bounds on what follows. -/
def ranks (g : Grammar) (b : Bounds) (binary unary : Nat) : Bool :=
  (Kind.tokens.all fun k => (g.tokenPrecedence? k).isNone || (BinaryOp.ofKind? k).isSome) &&
    g.productions.toList.all fun p => (g.productionLevel? p).isNone ||
      match p.rhs.getLast? with
      | some (.terminal _) => true
      | _ => p.lhs == binary || p.lhs == unary || Kind.tokens.all fun k =>
        (BinaryOp.ofKind? k).isNone || !hasBit (setAt b.follow p.lhs) k.index

theorem ranks_of_check {b : Bounds} (hg : g.WellFormed) (hb : b.Closed g)
    (h : g.ranks b binary unary = true) : g.Ranks binary unary := by
  simp only [ranks, Bool.and_eq_true, List.all_eq_true, Bool.or_eq_true, Option.isNone_iff_eq_none,
    Array.mem_toList_iff] at h
  refine ⟨fun k hk hlevel => ?_, fun p hp hlevel => ?_⟩
  · refine Option.isSome_iff_exists.1 ((h.1 k (mem_tokens_iff.2 hk)).resolve_left fun hnone => ?_)
    rw [hnone] at hlevel
    cases hlevel
  · have hcase := (h.2 p hp).resolve_left fun hnone => by
      rw [hnone] at hlevel
      cases hlevel
    split at hcase
    · next k hlast => exact Or.inl ⟨k, hlast⟩
    · simp only [Bool.or_eq_true, beq_iff_eq, List.all_eq_true, Option.isNone_iff_eq_none] at hcase
      refine Or.inr ?_
      rcases hcase with (hbinary | hunary) | hnone
      · exact Or.inl hbinary
      · exact Or.inr (Or.inl hunary)
      · refine Or.inr (Or.inr fun k o hk state item hlhs hf => ?_)
        have hbit := (hnone k (BinaryOp.mem_tokens hk)).resolve_left
          (by rw [hk]; exact Option.some_ne_none o)
        rw [hasBit_eq, ← hlhs, hb.follows hg hf] at hbit
        cases hbit
namespace HasOperators

variable (ho : g.HasOperators expr binary unary)

include ho

/-! ## Items of operators -/

theorem lt_of_sort {id : Nat} (h : id = binary ∨ id = unary) : id < g.nonterminals.size := by
  have hkind : ∃ k, g.kindOf? id = some k := by
    rcases h with rfl | rfl
    · exact ⟨_, ho.visible.1⟩
    · exact ⟨_, ho.visible.2⟩
  obtain ⟨k, hk⟩ := hkind
  obtain ⟨n, hn, -⟩ := Option.bind_eq_some_iff.1 hk
  exact (Array.getElem?_eq_some_iff.1 hn).1

theorem lt_expr (hg : g.WellFormed) : expr < g.nonterminals.size := by
  obtain ⟨p, hp, rfl, -⟩ := exists_production ho.sorts.1
  refine lhs_lt_of_ne hg ?_ (Nat.ne_of_lt hp)
  rw [size_productions]
  omega

variable (hg : g.WellFormed)

include hg

theorem ofBinary_item (hin : g.InState state item)
    (hlhs : g.augmented.lhs item.production = binary) : ∃ k o, BinaryOp.ofKind? k = some o ∧
      g.augmented.rhs item.production = [.nonterminal expr, .terminal k, .nonterminal expr] ∧
      g.OfOperator binary unary item o.precedence := by
  obtain ⟨q, hq, hget, hlhs', hrhs⟩ :=
    hin.production hg (ne_of_lhs_lt hg (ho.lt_of_sort (Or.inl hlhs)))
  obtain ⟨k, o, hk, hqrhs, hlevel⟩ := ho.ofBinary q hq (hlhs'.symm.trans hlhs)
  refine ⟨k, o, hk, hrhs.trans hqrhs, Or.inl hlhs, ?_, o.precedence_lt⟩
  rw [levelOf?, hget]
  exact hlevel

theorem ofUnary_item (hin : g.InState state item)
    (hlhs : g.augmented.lhs item.production = unary) : ∃ k o, UnaryOp.ofKind? k = some o ∧
      g.augmented.rhs item.production = [.terminal k, .nonterminal expr] ∧
      g.OfOperator binary unary item UnaryOp.precedence := by
  obtain ⟨q, hq, hget, hlhs', hrhs⟩ :=
    hin.production hg (ne_of_lhs_lt hg (ho.lt_of_sort (Or.inr hlhs)))
  obtain ⟨k, o, hk, hqrhs, hlevel⟩ := ho.ofUnary q hq (hlhs'.symm.trans hlhs)
  refine ⟨k, o, hk, hrhs.trans hqrhs, Or.inr hlhs, ?_, by decide⟩
  rw [levelOf?, hget]
  exact hlevel

/-! ## What can come next -/

theorem inState_operator (hin : g.InState state item)
    (hr : g.analysis.remaining item = .nonterminal expr :: after)
    (hk : BinaryOp.ofKind? k = some o) : ∃ p, g.InState state ⟨p, 0⟩ ∧
      g.analysis.remaining ⟨p, 0⟩ = [.nonterminal expr, .terminal k, .nonterminal expr] := by
  obtain ⟨q, hq, hqlhs, hqrhs⟩ := exists_production ho.sorts.1
  obtain ⟨hqin, hqr, -⟩ := inState_expand hg hin hr hq hqlhs
  obtain ⟨p, hp, hplhs, hprhs⟩ := exists_production (ho.all k o hk)
  obtain ⟨hpin, hpr, -⟩ := inState_expand hg hqin (hqr.trans hqrhs) hp hplhs
  exact ⟨p, hpin, hpr.trans hprhs⟩

theorem next?_operator (hm : g.automaton.next? state (.nonterminal expr) = some target)
    (hk : BinaryOp.ofKind? k = some o) :
    ∃ next, g.automaton.next? target (.terminal k) = some next := by
  obtain ⟨hs, htarget⟩ := lt_of_next? hg hm
  obtain ⟨j, hj⟩ := List.exists_mem_of_ne_nil _ (kernel_ne_nil htarget)
  obtain ⟨i, hi, hhead, -⟩ := exists_of_next? hg hm hj
  obtain ⟨after, hr⟩ := List.head?_eq_some_iff.1 hhead
  obtain ⟨p, hpin, hpr⟩ := ho.inState_operator hg ⟨hs, hi⟩ hr hk
  obtain ⟨hin, hr', -⟩ := inState_of_next? hg hpin hpr hm
  exact exists_next? hg hin hr'

/-- What reads a sort of expression is an expression that begins. -/
theorem initial_of_reads_sort {id : Nat} (hin : g.InState state item)
    (hr : g.analysis.remaining item = .nonterminal id :: after) (hid : id = binary ∨ id = unary) :
    g.augmented.lhs item.production = expr ∧ item.dot = 0 ∧ after = [] := by
  have hmem := mem_rhs_of_remaining hr
  have hne : item.production ≠ g.productions.size := by
    intro he
    rw [he, rhs_accept, List.mem_singleton, Symbol.nonterminal.injEq] at hmem
    exact hid.elim (fun h => ho.start.1 (hmem.symm.trans h)) fun h =>
      ho.start.2 (hmem.symm.trans h)
  obtain ⟨q, hq, -, hlhs, hrhs⟩ := hin.production hg hne
  rw [hrhs] at hmem
  have hexpr : q.lhs = expr := by
    refine ho.inside q hq ?_
    rcases hid with rfl | rfl
    · exact Or.inl hmem
    · exact Or.inr hmem
  obtain ⟨id', -, hsingle, -⟩ := ho.ofExpr q.rhs (mem_rhsOf.2 ⟨q, hq, hexpr, rfl⟩)
  rw [remaining_eq_drop, hrhs, hsingle] at hr
  refine ⟨hlhs.trans hexpr, ?_⟩
  cases hdot : item.dot with
  | zero =>
    rw [hdot] at hr
    exact ⟨rfl, ((List.cons.inj hr).2).symm⟩
  | succ dot =>
    rw [hdot] at hr
    simp at hr

theorem follows_expr (hk : BinaryOp.ofKind? k = some o) (hin : g.InState state ⟨p, 0⟩)
    (hlhs : g.augmented.lhs p = expr) : g.Follows state ⟨p, 0⟩ k.index := by
  -- where an expression is read, an operator begins with one that it follows
  obtain ⟨j, after, hj, hjr⟩ := hin.initial hg (ne_of_lhs_lt hg (hlhs ▸ ho.lt_expr hg))
  rw [hlhs] at hjr
  obtain ⟨p', hp', hpr'⟩ := ho.inState_operator hg hj hjr hk
  refine .first hp' (mem_items.1 (mem_items_of_mem_closure_kernel hg hin.2)).1
    (hpr'.trans (by rw [hlhs])) ?_
  exact (contains_firstOf hg).2 ⟨k, rfl, _, .refl⟩

theorem follows_initial (hk : BinaryOp.ofKind? k = some o) (hin : g.InState state ⟨p, 0⟩)
    (hlhs : g.augmented.lhs p = binary ∨ g.augmented.lhs p = unary) :
    g.Follows state ⟨p, 0⟩ k.index := by
  -- the operator is there for an expression that begins
  obtain ⟨⟨q, dot⟩, after, hi, hr⟩ := hin.initial hg (ne_of_lhs_lt hg (ho.lt_of_sort hlhs))
  obtain ⟨hq, hdot, rfl⟩ := ho.initial_of_reads_sort hg hi hr hlhs
  obtain rfl : dot = 0 := hdot
  exact .rest hi (mem_items.1 (mem_items_of_mem_closure_kernel hg hin.2)).1 hr
    ((firstOf_vanishes hg).2 .refl) (ho.follows_expr hg hk hi hq)

/-- **Every operator can follow an operator, wherever its production has been read up to.** -/
theorem follows_operator (hk : BinaryOp.ofKind? k = some o) (hin : g.InState state item)
    (hlhs : g.augmented.lhs item.production = binary ∨
      g.augmented.lhs item.production = unary) : g.Follows state item k.index := by
  have hinitial : ∀ {state : Nat} {item : Item}, g.InState state item → item.dot = 0 →
      (g.augmented.lhs item.production = binary ∨ g.augmented.lhs item.production = unary) →
      g.Follows state item k.index := by
    rintro state ⟨p, dot⟩ hin rfl hlhs
    exact ho.follows_initial hg hk hin hlhs
  refine state_induction hg (P := fun state => ∀ item, g.InState state item →
    (g.augmented.lhs item.production = binary ∨ g.augmented.lhs item.production = unary) →
    g.Follows state item k.index) ?zero ?move hin.1 item hin hlhs
  case zero =>
    intro item hin hlhs
    rcases (mem_closure hg).1 hin.2 with hkernel | ⟨hdot, -⟩
    · rw [kernel_zero, List.mem_singleton] at hkernel
      exact hinitial hin (by rw [hkernel]) hlhs
    · exact hinitial hin hdot hlhs
  case move =>
    intro before s target ih hm item hin hlhs
    rcases (mem_closure hg).1 hin.2 with hkernel | ⟨hdot, -⟩
    · obtain ⟨i, hi, -, rfl⟩ := exists_of_next? hg hm hkernel
      exact .advance hm hkernel (ih i ⟨(lt_of_next? hg hm).1, hi⟩ hlhs)
    · exact hinitial hin hdot hlhs

/-! ## Cells -/

omit hg

variable (ht : g.HasTable t)
  (hone : ∀ state < g.automaton.size, ∀ k, (g.finished state k).Subsingleton)

include ht

theorem ofKind?_of_isExtra (hk : t.isExtra k = true) : BinaryOp.ofKind? k = none :=
  ho.extras k ((isExtra_iff ht.build).1 hk)

include hone

/-- In the cell of an operator only the complete one is finished. -/
theorem decided_operator (hc : g.Complete state item) (hn : g.OfOperator binary unary item n)
    (hk : BinaryOp.ofKind? k = some o)
    (hm : g.automaton.next? state (.terminal k) = some target) :
    g.Decided k (some target) {item.production} (t.explicitAction state k) := by
  have hg := ht.wellFormed
  have hs := hc.inState.1
  have hfollows := ho.follows_operator hg hk hc.inState hn.lhs
  have hfinished : g.finished state k = {item.production} :=
    (hone state hs k).eq_singleton_of_mem (mem_finished_of_complete hg hc hfollows)
  have hdecided := hg.followsYacc.cells t ht.build ht.indexed.actions state hs k
    (mem_tokens_iff.1 (BinaryOp.mem_tokens hk)) (hone state hs k)
  rwa [hfinished, shiftOf?, hm] at hdecided

/-- **The levels decide between a complete operator and the next one.** -/
theorem cell_operator (hc : g.Complete state item) (hn : g.OfOperator binary unary item n)
    (hk : BinaryOp.ofKind? k = some o)
    (hm : g.automaton.next? state (.terminal k) = some target) :
    (t.explicitAction state k).move = .shift target ∧
        (n < o.precedence ∨ n = o.precedence ∧ o.isRightAssoc = true) ∨
      (t.explicitAction state k).move = .reduce item.production ∧
        (o.precedence < n ∨ o.precedence = n ∧ o.isRightAssoc = false) := by
  have hne : k ≠ .error := by
    rintro rfl
    cases hk
  -- neither number is cut off where a byte ends
  have hn256 : n < UInt8.size := Nat.lt_trans hn.lt (by decide)
  have ho256 : o.precedence < UInt8.size := Nat.lt_trans o.precedence_lt (by decide)
  have hinj : UInt8.ofNat n = UInt8.ofNat o.precedence → n = o.precedence := fun h => by
    simpa [UInt8.toNat_ofNat_of_lt' hn256, UInt8.toNat_ofNat_of_lt' ho256] using
      congrArg UInt8.toNat h
  rcases (ho.decided_operator ht hone hc hn hk hm).of_levels hne hn.level (ho.tokens k o hk) with
    ⟨hcell, hlevel⟩ | ⟨hcell, hlevel⟩ | ⟨-, hassoc⟩
  · have hlt := Nat.lt_of_lt_of_le (lt_of_next? ht.wellFormed hm).2 ht.fits.states
    refine Or.inl ⟨by rw [hcell, Action.move_shift, Nat.mod_eq_of_lt hlt], hlevel.imp ?_ ?_⟩
    · exact (UInt8.ofNat_lt_iff_lt hn256 ho256).1
    · rintro ⟨heq, hassoc⟩
      exact ⟨hinj heq, by simpa [BinaryOp.assoc] using hassoc⟩
  · have hlt := Nat.lt_of_le_of_lt (hc.production_le ht.wellFormed) ht.fits.productions
    refine Or.inr ⟨by rw [hcell, Action.move_reduce, Nat.mod_eq_of_lt hlt], hlevel.imp ?_ ?_⟩
    · exact (UInt8.ofNat_lt_iff_lt ho256 hn256).1
    · rintro ⟨heq, hassoc⟩
      exact ⟨(hinj heq.symm).symm, by simpa [BinaryOp.assoc] using hassoc⟩
  · unfold BinaryOp.assoc at hassoc
    split at hassoc <;> cases hassoc

/-- **The next operator is shifted only if it binds tighter**, or as tight and groups from the
right. -/
theorem shift_tighter (hc : g.Complete state item) (hn : g.OfOperator binary unary item n)
    (hk : BinaryOp.ofKind? k = some o)
    (hm : (t.explicitAction state k).move = .shift target) :
    n < o.precedence ∨ n = o.precedence ∧ o.isRightAssoc = true := by
  have hnext := ht.next?_of_shift hm
  rcases ho.cell_operator ht hone hc hn hk hnext with ⟨-, h⟩ | ⟨hreduce, -⟩
  · exact h
  · rw [hm] at hreduce
    cases hreduce

/-- **A complete operator is reduced before another one only if it binds tighter**, or as tight and
groups from the left. -/
theorem reduce_tighter (hc : g.Complete target item) (hn : g.OfOperator binary unary item n)
    (hexpr : g.automaton.next? state (.nonterminal expr) = some target)
    (hk : BinaryOp.ofKind? k = some o)
    (hm : (t.explicitAction target k).move = .reduce p) :
    o.precedence < n ∨ o.precedence = n ∧ o.isRightAssoc = false := by
  obtain ⟨next, hnext⟩ := ho.next?_operator ht.wellFormed hexpr hk
  rcases ho.cell_operator ht hone hc hn hk hnext with ⟨hshift, -⟩ | ⟨-, h⟩
  · rw [hm] at hshift
    cases hshift
  · exact h

/-- A state in which an operator is complete looks at the next token: it shifts the tightest
operator. -/
theorem default?_eq_none (hc : g.Complete target item) (hn : g.OfOperator binary unary item n)
    (hexpr : g.automaton.next? state (.nonterminal expr) = some target) :
    t.default? target = none := by
  obtain ⟨next, hnext⟩ := ho.next?_operator ht.wellFormed hexpr (k := .starStar) rfl
  have hshift : (t.explicitAction target .starStar).move = .shift next := by
    refine ((ho.cell_operator ht hone hc hn rfl hnext).resolve_right fun h => ?_).1
    have hlt := hn.lt
    rcases h.2 with h | ⟨-, h⟩
    · rw [show BinaryOp.pow.precedence = 9 from rfl] at h
      omega
    · cases h
  cases hd : t.default? target with
  | none => rfl
  | some q =>
    have hne : t.explicitAction target .starStar ≠ .error := by
      intro he
      rw [he] at hshift
      cases hshift
    rw [move_of_default? ht.build ht.indexed.actions hd hne] at hshift
    cases hshift

end HasOperators

end Grammar

end AsmTree
