import AsmTree.Proofs.Machine.Bonds
import AsmTree.Proofs.Machine.Invariants

/-!
# Machines group operators

When an operator's production is complete, its right operand was made above the operator's frame and
fits behind it, and its left operand stood under the operator when that was shifted and fits in
front of it. So the node that is made is grouped, and it fits where it stands in its turn. **Main
statement (`bonded_invariant`):** every step keeps the bonds, so all nodes that a run makes are
grouped.
-/

namespace AsmTree

open View AsmTree.Tree Grammar

namespace Machine

variable {g : Grammar} {s : Setup} {m m' : Machine} {read : List Symbol}
  {expr binary unary : Nat} {k : Kind} {item : Item} {base : Frame} {rest : List Frame}

/-! ## Reductions -/

/-- An expression fits where it stands: above a state and before a token. -/
structure Fits (g : Grammar) (expr binary unary state : Nat) (k : Kind) (a : Tree) : Prop where
  above : g.FitsAbove expr binary unary state a
  before : ∀ o, BinaryOp.ofKind? k = some o → a.FitsLeft o

abbrev taken (g : Grammar) (m : Machine) (p : Nat) : List Tree :=
  (Frame.joined (m.frames.take (g.augmented.rhs p).length)).reverse

theorem move_of_reduction {p : Nat} (hd : s.table.default? m.top.state = none)
    (hr : m.reduction? s = some p) :
    (s.table.explicitAction m.top.state (m.next s).kind).move = .reduce p := by
  rw [reduction?, hd] at hr
  dsimp only at hr
  split at hr
  · next q hmove => exact hmove.trans (congrArg Move.reduce (Option.some.inj hr))
  · cases hr

/-- An operator and the operand behind it are on top of the stack. -/
structure Applied (g : Grammar) (expr binary unary : Nat) (s : Setup) (m : Machine) (n : Nat)
    (k : Kind) (read : List Symbol) (f below : Frame) (rest : List Frame) (b : Tree) : Prop where
  frames : m.frames = m.top :: f :: below :: rest
  holds : Holds m.top.trees b
  right : b.FitsRight n
  operands : operands f.trees = []
  operators : operators f.trees = (BinaryOp.ofKind? k).toList
  shifted : (s.table.explicitAction below.state k).move = .shift f.state
  before : g.FitsBefore expr below read k
  bonds : Bonds g s.table expr binary unary (below :: rest) read
  path : g.Path ((below :: rest).map Frame.state) read
  move : g.automaton.next? f.state (.nonterminal expr) = some m.top.state

theorem Bonded.fits_top {id : Nat}
    (h : Bonded g expr binary unary s m (.nonterminal id :: read)) (hid : g.IsOperand expr id) :
    ∃ below rest a, m.frames = m.top :: below :: rest ∧ Holds m.top.trees a ∧
      Fits g expr binary unary below.state (m.next s).kind a := by
  obtain ⟨top, below, rest, a, hframes, hholds, habove, -⟩ := h.bonds.exists_operand hid
  obtain rfl : m.top = top := (List.cons.inj hframes).1
  exact ⟨below, rest, a, hframes, hholds, habove, fun o ho => h.top id a o rfl hid hholds ho⟩

theorem Bonded.applied (ht : g.HasTable s.table)
    (h : Bonded g expr binary unary s m (.nonterminal expr :: .terminal k :: read))
    (hk : k ≠ .error) {n : Nat} (hc : g.Complete m.top.state item) (hdot : item.dot ≠ 0)
    (hn : g.OfOperator binary unary item n) :
    ∃ f below rest b, Applied g expr binary unary s m n k read f below rest b := by
  obtain ⟨top, f, _, b, hframes, hholds, habove, hbonds⟩ := h.bonds.exists_operand (Or.inl rfl)
  obtain ⟨_, below, rest, hcons, hshift, hoperands, hoperators, hbefore, hbonds'⟩ :=
    hbonds.exists_token hk
  obtain ⟨rfl, rfl⟩ := List.cons.inj hcons
  obtain rfl : m.top = top := (List.cons.inj hframes).1
  have hpath := h.path
  rw [states, hframes] at hpath
  obtain ⟨hmove, hpath⟩ := hpath.of_cons
  obtain ⟨-, hpath⟩ := hpath.of_cons
  obtain ⟨i, hi, hir, rfl⟩ := hc.before ht.wellFormed hdot hmove
  exact ⟨f, below, rest, b, hframes, hholds, habove i n hi ⟨hn.lhs, hn.level, hn.lt⟩ hir,
    hoperands, hoperators, hshift, hbefore, hbonds', hpath, hmove⟩

section Reductions

variable (ho : g.HasOperators expr binary unary) (ht : g.HasTable s.table)
  (hone : ∀ state < g.automaton.size, ∀ k, (g.finished state k).Subsingleton)

include ho ht hone

theorem tighter_of_reduction {below : Nat} {n : Nat} {o : BinaryOp}
    (hc : g.Complete m.top.state item) (hn : g.OfOperator binary unary item n)
    (hm : g.automaton.next? below (.nonterminal expr) = some m.top.state)
    (hr : m.reduction? s = some item.production)
    (hk : BinaryOp.ofKind? (m.next s).kind = some o) :
    o.precedence < n ∨ o.precedence = n ∧ o.isRightAssoc = false :=
  ho.reduce_tighter ht hone hc hn hm hk
    (move_of_reduction (ho.default?_eq_none ht hone hc hn hm) hr)

/-- **An operator between two operands is grouped, and fits where it stands.** -/
theorem Bonded.reduct_binary (h : Bonded g expr binary unary s m read)
    (hc : g.Complete m.top.state item) (hr : m.reduction? s = some item.production)
    (hlhs : g.augmented.lhs item.production = binary)
    (hread : read.take (g.augmented.rhs item.production).length =
      (g.augmented.rhs item.production).reverse)
    (hdrop : m.frames.drop (g.augmented.rhs item.production).length = base :: rest) :
    Grouped .binaryExpr ((taken g m item.production).dropWhile (isExtraTree s.table)) ∧
      Fits g expr binary unary base.state (m.next s).kind
        (.node .binaryExpr ((taken g m item.production).dropWhile (isExtraTree s.table))) := by
  obtain ⟨k, o, hk, hrhs, hn⟩ := ho.ofBinary_item ht.wellFormed hc.inState hlhs
  have hdot := hc.dot_ne_zero ht.wellFormed (by rw [hrhs]; simp)
  have hkne : k ≠ .error := by
    rintro rfl
    cases hk
  rw [hrhs] at hread hdrop
  obtain ⟨read', rfl⟩ : _ <+: read := hread ▸ List.take_prefix _ read
  -- on the stack the left operand stands below the operator, and the base below both
  obtain ⟨f, below, _, b, happlied⟩ := h.applied ht hkne hc hdot hn
  obtain ⟨_, base', _, a, hcons, ha, -, -⟩ := happlied.bonds.exists_operand (Or.inl rfl)
  obtain ⟨rfl, rfl⟩ := List.cons.inj hcons
  obtain ⟨hmove, -⟩ := happlied.path.of_cons
  have hframes := happlied.frames
  obtain ⟨rfl, -⟩ : base' = base ∧ _ :=
    List.cons.inj ((congrArg (List.drop 3) hframes).symm.trans hdrop)
  have htaken : taken g m item.production = below.trees ++ (f.trees ++ m.top.trees) := by
    rw [taken, hrhs, hframes]
    simp [Frame.trees]
  have hoperands : operands ((taken g m item.production).dropWhile (isExtraTree s.table)) =
      [a, b] := by
    rw [operands_dropWhile, htaken, operands_append, operands_append, ha.operands,
      happlied.operands, happlied.holds.operands]
    rfl
  have hoperators : operators ((taken g m item.production).dropWhile (isExtraTree s.table)) =
      [o] := by
    rw [operators_dropWhile ho ht, htaken, operators_append, operators_append, ha.operators,
      happlied.operators, happlied.holds.operators, hk]
    rfl
  refine ⟨.binary hoperands hoperators ?_ happlied.right, fun j n hj hjn hjr => ?_,
    fun o' ho' => ?_⟩
  · exact happlied.before expr a o rfl (Or.inl rfl) ha hk
  · -- the operator was shifted where another one was complete
    obtain ⟨hjin, hjr', -⟩ := inState_of_next? ht.wellFormed hj hjr hmove
    refine (fitsRight_binary hoperators).2 ?_
    exact ho.shift_tighter ht hone ⟨hjin, hjr'⟩ hjn.advance hk happlied.shifted
  · refine (fitsLeft_binary hoperators).2 ?_
    exact tighter_of_reduction ho ht hone hc hn happlied.move hr ho'

/-- **An operator in front of an operand is grouped, and fits where it stands.** -/
theorem Bonded.reduct_unary (h : Bonded g expr binary unary s m read)
    (hc : g.Complete m.top.state item) (hr : m.reduction? s = some item.production)
    (hlhs : g.augmented.lhs item.production = unary)
    (hread : read.take (g.augmented.rhs item.production).length =
      (g.augmented.rhs item.production).reverse) (state : Nat) :
    Grouped .unaryExpr ((taken g m item.production).dropWhile (isExtraTree s.table)) ∧
      Fits g expr binary unary state (m.next s).kind
        (.node .unaryExpr ((taken g m item.production).dropWhile (isExtraTree s.table))) := by
  obtain ⟨k, o, hk, hrhs, hn⟩ := ho.ofUnary_item ht.wellFormed hc.inState hlhs
  have hdot := hc.dot_ne_zero ht.wellFormed (by rw [hrhs]; simp)
  have hkne : k ≠ .error := by
    rintro rfl
    cases hk
  rw [hrhs] at hread
  obtain ⟨read', rfl⟩ : _ <+: read := hread ▸ List.take_prefix _ read
  obtain ⟨f, below, _, b, happlied⟩ := h.applied ht hkne hc hdot hn
  have htaken : taken g m item.production = f.trees ++ m.top.trees := by
    rw [taken, hrhs, happlied.frames]
    simp [Frame.trees]
  have hoperands : operands ((taken g m item.production).dropWhile (isExtraTree s.table)) =
      [b] := by
    rw [operands_dropWhile, htaken, operands_append, happlied.operands, happlied.holds.operands]
    rfl
  refine ⟨.unary hoperands happlied.right, fun _ _ _ _ _ => fitsRight_of_ne (by decide),
    fun o' ho' => fitsLeft_unary.2 ?_⟩
  exact tighter_of_reduction ho ht hone hc hn happlied.move hr ho'

/-- A node that a reduction makes is grouped, and fits where it stands. -/
theorem Bonded.reduct_node (h : Bonded g expr binary unary s m read)
    (hc : g.Complete m.top.state item) (hr : m.reduction? s = some item.production)
    (hread : read.take (g.augmented.rhs item.production).length =
      (g.augmented.rhs item.production).reverse)
    (hdrop : m.frames.drop (g.augmented.rhs item.production).length = base :: rest)
    (hk : g.kindOf? (g.augmented.lhs item.production) = some k) :
    Grouped k ((taken g m item.production).dropWhile (isExtraTree s.table)) ∧
      Fits g expr binary unary base.state (m.next s).kind
        (.node k ((taken g m item.production).dropWhile (isExtraTree s.table))) := by
  by_cases hb : k = .binaryExpr
  · subst hb
    exact h.reduct_binary ho ht hone hc hr ((ho.only _).1 hk) hread hdrop
  · by_cases hu : k = .unaryExpr
    · subst hu
      exact h.reduct_unary ho ht hone hc hr ((ho.only _).2 hk) hread base.state
    · exact ⟨.other hb hu, fun _ _ _ _ _ => fitsRight_of_ne hb, fun _ _ => fitsLeft_of_ne hb hu⟩

/-- **What a reduction makes is grouped, and if it is an expression it fits where it stands.** -/
theorem Bonded.reduct (h : Bonded g expr binary unary s m read) (hc : g.Complete m.top.state item)
    (hr : m.reduction? s = some item.production)
    (hread : read.take (g.augmented.rhs item.production).length =
      (g.augmented.rhs item.production).reverse)
    (hdrop : m.frames.drop (g.augmented.rhs item.production).length = base :: rest)
    (hne : item.production ≠ g.productions.size) (target : Nat) :
    (∀ k ∈ g.kindOf? (g.augmented.lhs item.production),
      Grouped k ((taken g m item.production).dropWhile (isExtraTree s.table))) ∧
    (g.IsOperand expr (g.augmented.lhs item.production) → ∃ a,
      Holds (reducedFrame s.table (s.table.production item.production)
        (m.frames.take (g.augmented.rhs item.production).length) base target).trees a ∧
      Fits g expr binary unary base.state (m.next s).kind a) := by
  have hnode := fun k => h.reduct_node ho ht hone (k := k) hc hr hread hdrop
  refine ⟨fun k hk => (hnode k hk).1, fun hid => ?_⟩
  rw [ht.production_of_complete hc]
  rcases hid.cases ho.hidden with ⟨hkind, hlhs⟩ | ⟨k, hkind, hexpr⟩
  · -- an expression is what one of its sorts is
    obtain ⟨id, k, hrhs, hk, hexpr⟩ := ho.ofExpr _ (hlhs ▸ hc.rhs_mem ht.wellFormed hne)
    rw [hrhs] at hread hdrop ⊢
    obtain ⟨read', rfl⟩ : _ <+: read := hread ▸ List.take_prefix _ read
    obtain ⟨below, _, a, hframes, hholds, hfits⟩ := h.fits_top (Or.inr ⟨k, hk, hexpr⟩)
    rw [hframes] at hdrop
    obtain ⟨rfl, -⟩ := List.cons.inj hdrop
    rw [hkind, hframes]
    exact ⟨a, hholds, hfits⟩
  · rw [hkind]
    exact ⟨_, holds_wrap ho ht hexpr _, (hnode k hkind).2⟩

theorem Bonded.reduce (h : Bonded g expr binary unary s m read) {p n : Nat}
    (hr : m.reduction? s = some p) (he : (m.look n).reduce? s p = some m') :
    ∃ read', Bonded g expr binary unary s m' read' := by
  obtain ⟨item, hc, rfl, hne⟩ := complete_of_reduction ht hr
  obtain ⟨base, rest, target, hdrop, hread, -, -, heq⟩ := reduce?_of_path ht h.path hr
  have hpath := path_reduced ht h.path hr n he
  rw [heq n] at he
  cases he
  obtain ⟨hnode, hoperand⟩ := h.reduct ho ht hone hc hr hread hdrop hne target
  refine ⟨_, hpath, ?_, ?_, ?_, h.input⟩
  · have hbelow := h.bonds.drop _ hdrop
    by_cases hid : g.IsOperand expr (g.augmented.lhs item.production)
    · obtain ⟨a, hholds, hfits⟩ := hoperand hid
      exact .operand hid hholds hfits.above hbelow
    · exact .other hid hbelow
  · rintro id a o hhead hid hholds ho'
    obtain rfl := Symbol.nonterminal.inj (Option.some.inj hhead)
    obtain ⟨a', hholds', hfits⟩ := hoperand hid
    obtain rfl : a' = a := (List.cons.inj (hholds'.operands.symm.trans hholds.operands)).1
    exact hfits.before o ho'
  · have hall := h.grouped
    rw [← List.take_append_drop (g.augmented.rhs item.production).length m.frames, hdrop,
      Frame.joined_append, List.forall_mem_append] at hall
    unfold reduced
    rw [frames, Frame.joined_cons, List.forall_mem_append, everywhere_reducedFrame,
      ht.production_of_complete hc]
    exact ⟨⟨hnode, hall.1⟩, hall.2⟩

end Reductions

/-! ## Runs -/

/-- **Every step keeps the bonds**, so all nodes that a run makes are grouped, if those that it
takes over are. -/
theorem bonded_invariant (ho : g.HasOperators expr binary unary) (ht : g.HasTable s.table)
    (hone : ∀ state < g.automaton.size, ∀ k, (g.finished state k).Subsingleton)
    (hstop : s.table.isExtra s.stop.kind = false) (htakes : Brings s Grouped) :
    Invariant s (fun m => ∃ read, Bonded g expr binary unary s m read) fun ts =>
      ∀ t ∈ ts, t.Everywhere Grouped where
  congr := fun ⟨read, h⟩ hf hi => ⟨read, h.congr hf hi⟩
  shift := fun ⟨_, h⟩ hm => ⟨_, h.shift ho ht hstop hm⟩
  reduce := fun ⟨_, h⟩ hr he => h.reduce ho ht hone (n := 0) hr (by rwa [look_zero])
  recover := fun ⟨_, h⟩ hr => h.recover ht hr
  accept := fun ⟨_, h⟩ => everywhere_accept h.grouped
  abandon := fun ⟨_, h⟩ => everywhere_abandon h.grouped fun _ => .other (by decide) (by decide)
  takes := fun ⟨_, h⟩ => htakes.everywhere h.grouped

end Machine

end AsmTree
