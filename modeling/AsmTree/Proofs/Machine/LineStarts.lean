import AsmTree.Proofs.Machine.Viable

/-!
# Where a line may begin

A line may begin in the first state, and in the state behind complete lines. **Main statement
(`LineStart.landing`):** a recovered region can stand there, and behind it the end of the line and
the end of the text can follow.
-/

namespace AsmTree

namespace Grammar

open Machine

variable {g : Grammar} {t : ParseTable} {lines line state target p : Nat} {w : Nat → Nat}
  {k : Kind} {rest : List Nat} {read : List Symbol}

/-! ## Productions and moves -/

theorem exists_production {id : Nat} {rhs : List Symbol} (h : rhs ∈ g.rhsOf id) :
    ∃ p < g.productions.size, g.augmented.lhs p = id ∧ g.augmented.rhs p = rhs := by
  obtain ⟨q, hq, rfl, rfl⟩ := mem_rhsOf.1 h
  obtain ⟨p, hp⟩ := Array.getElem?_of_mem hq
  exact ⟨p, (Array.getElem?_eq_some_iff.1 hp).1, Augmented.lhs_eq (getElem?_augmented hp),
    Augmented.rhs_eq (getElem?_augmented hp)⟩

theorem inState_of_next? (hg : g.WellFormed) {i : Item} {s : Symbol} {after : List Symbol}
    (hi : g.InState state i) (hr : g.analysis.remaining i = s :: after)
    (hm : g.automaton.next? state s = some target) :
    g.InState target i.advance ∧ g.analysis.remaining i.advance = after ∧
      ∀ k, g.Follows state i k → g.Follows target i.advance k := by
  obtain ⟨target', hm', hmem⟩ := next?_of_mem hg hi.1 hi.2 (s := s) (by rw [hr]; rfl)
  rw [hm] at hm'
  cases hm'
  exact ⟨⟨(lt_of_next? hg hm).2, mem_closure_of_mem hmem⟩, remaining_advance hr,
    fun k hk => .advance hm hmem hk⟩

theorem exists_next? (hg : g.WellFormed) {i : Item} {s : Symbol} {after : List Symbol}
    (hi : g.InState state i) (hr : g.analysis.remaining i = s :: after) :
    ∃ target, g.automaton.next? state s = some target := by
  obtain ⟨target, hm, -⟩ := next?_of_mem hg hi.1 hi.2 (s := s) (by rw [hr]; rfl)
  exact ⟨target, hm⟩

/-- A production of what an item reads next begins there. -/
theorem inState_expand (hg : g.WellFormed) {i : Item} {id : Nat} {after : List Symbol}
    (hi : g.InState state i) (hr : g.analysis.remaining i = .nonterminal id :: after)
    (hp : p < g.productions.size) (hlhs : g.augmented.lhs p = id) :
    g.InState state ⟨p, 0⟩ ∧ g.analysis.remaining ⟨p, 0⟩ = g.augmented.rhs p ∧
      (∀ k, (g.analysis.firstOf after).1.contains k = true → g.Follows state ⟨p, 0⟩ k) ∧
      ((g.analysis.firstOf after).2 = true → ∀ k, g.Follows state i k →
        g.Follows state ⟨p, 0⟩ k) := by
  subst hlhs
  have hlt : p < g.augmented.productions.size := by
    rw [size_productions]
    omega
  exact ⟨⟨hi.1, closure_expand hg hi.2 hlt hr⟩, by rw [remaining_eq_drop]; rfl,
    fun k hk => .first hi hlt hr hk, fun he k hk => .rest hi hlt hr he hk⟩

/-! ## What follows on a stack -/

variable (ht : g.HasTable t)

include ht

theorem action_of_explicit {m : Move} (hm : (t.explicitAction state k).move = m)
    (hne : m ≠ .error) : (t.action state k).move = m := by
  rw [move_action ht.wellFormed ht.build ht.indexed.actions, hm]
  intro he
  rw [he] at hm
  exact hne hm.symm

theorem canFollow_of_explicit (hmove : (∃ target, (t.explicitAction state k).move = .shift target) ∨
    (t.explicitAction state k).move = .accept) : CanFollow t (state :: rest) k := by
  refine canFollow_of_move (hmove.imp ?_ ?_)
  · rintro ⟨target, hmove⟩
    exact ⟨target, action_of_explicit ht hmove Move.noConfusion⟩
  · exact fun hmove => action_of_explicit ht hmove Move.noConfusion

/-- A reduction before a token puts the state behind the nonterminal on the stack. -/
theorem exists_reduced (h : g.Path (state :: rest) read) (hc : g.Complete state item)
    (hmove : (t.explicitAction state k).move = .reduce item.production) :
    ∃ base below target, item.production ≠ g.productions.size ∧
      (state :: rest).drop (g.augmented.rhs item.production).length = base :: below ∧
      g.automaton.next? base (.nonterminal (g.augmented.lhs item.production)) = some target ∧
      t.reduced? k (state :: rest) = some (target :: base :: below) ∧
      g.Path (target :: base :: below) (.nonterminal (g.augmented.lhs item.production) ::
        read.drop (g.augmented.rhs item.production).length) := by
  obtain ⟨-, -, -, -, hne⟩ := ht.complete_of_reduce hmove
  obtain ⟨base, below, target, hdrop, -, hpath, hm, hgoto⟩ := ht.reduction h hc hne
  have haction := action_of_explicit ht hmove Move.noConfusion
  refine ⟨base, below, target, hne, hdrop, hm, ParseTable.reduced?_eq_some.2
    ⟨state, rest, item.production, base, below, target, rfl, haction, ?_, ?_, rfl⟩, .move hpath hm⟩
  · rw [ht.production_of_complete hc]
    exact hdrop
  · rw [ht.production_of_complete hc]
    exact hgoto

theorem canFollow_of_next? (hk : k.index < Kind.tokenCount) (hprec : g.tokenPrecedence? k = none)
    (hm : g.automaton.next? state (.terminal k) = some target) :
    CanFollow t (state :: rest) k := by
  have hmove := move_of_next? ht.wellFormed ht.fits.productions ht.fits.states ht.build
    ht.indexed.actions hk hprec hm
  exact canFollow_of_explicit ht (Or.inl ⟨target, hmove⟩)

/-- A token can follow where a complete item is reduced before it, if it can follow then. -/
theorem canFollow_of_complete (hk : k.index < Kind.tokenCount)
    (hprec : g.tokenPrecedence? k = none) (hke : k ≠ .error) (h : g.Path (state :: rest) read)
    {i : Item} (hc : g.Complete state i) (hne : i.production ≠ g.productions.size)
    (hf : g.Follows state i k.index)
    (hnext : ∀ base below target, (state :: rest).drop (g.augmented.rhs i.production).length =
        base :: below → g.automaton.next? base (.nonterminal (g.augmented.lhs i.production)) =
        some target → CanFollow t (target :: base :: below) k) :
    CanFollow t (state :: rest) k := by
  have hexplicit := move_of_follows ht.wellFormed ht.fits.productions ht.build ht.indexed.actions hk
    hprec hke
    hc.inState hc.remaining hf
  rw [if_neg hne] at hexplicit
  obtain ⟨base, below, target, -, hdrop, hm, hreduced, -⟩ := exists_reduced ht h hc hexplicit
  exact (canFollow_reduced hreduced).2 (hnext base below target hdrop hm)

omit ht

theorem newline_index : Kind.newline.index < Kind.tokenCount := by decide

theorem eof_index : Kind.eof.index < Kind.tokenCount := by decide

theorem error_index : Kind.error.index < Kind.tokenCount := by decide

theorem firstOf_terminal (k : Kind) (after : List Symbol) :
    (g.analysis.firstOf (.terminal k :: after)).1.contains k.index = true := by
  simp [Analysis.firstOf]

/-! ## Line starts -/

/-- A state in which a line may begin, behind `d` symbols of its production. -/
structure LineStart (g : Grammar) (line state d : Nat) : Prop where
  /-- The line may be closed by its end. -/
  closed : ∃ p < g.productions.size, g.InState state ⟨p, d⟩ ∧
    g.analysis.remaining ⟨p, d⟩ = [.nonterminal line, .terminal .newline]
  /-- The line may be the last of the file. -/
  last : ∃ p < g.productions.size, g.InState state ⟨p, d⟩ ∧
    g.analysis.remaining ⟨p, d⟩ = [.nonterminal line] ∧
    g.augmented.lhs p = g.start ∧ g.Follows state ⟨p, d⟩ Kind.eof.index

theorem inState_input (g : Grammar) : g.InState 0 ⟨g.productions.size, 0⟩ ∧
    g.analysis.remaining ⟨g.productions.size, 0⟩ = [.nonterminal g.start] ∧
    g.Follows 0 ⟨g.productions.size, 0⟩ Kind.eof.index := by
  refine ⟨inState_start g, ?_, Follows.eof⟩
  rw [remaining_eq_drop, rhs_accept]
  rfl

theorem inState_source (hg : g.WellFormed) {rhs : List Symbol} (h : rhs ∈ g.rhsOf g.start) :
    ∃ p < g.productions.size, g.InState 0 ⟨p, 0⟩ ∧ g.analysis.remaining ⟨p, 0⟩ = rhs ∧
      g.augmented.lhs p = g.start ∧ g.Follows 0 ⟨p, 0⟩ Kind.eof.index := by
  obtain ⟨hin, hr, hf⟩ := inState_input g
  obtain ⟨p, hp, hlhs, hrhs⟩ := exists_production h
  obtain ⟨hin', hr', -, hfollow⟩ := inState_expand hg hin hr hp hlhs
  exact ⟨p, hp, hin', by rw [hr', hrhs], hlhs, hfollow rfl _ hf⟩

variable (hl : g.HasLines lines line)

include hl

theorem HasLines.inState_lines (hg : g.WellFormed) {rhs : List Symbol}
    (h : rhs ∈ g.rhsOf lines) : ∃ p < g.productions.size, g.InState 0 ⟨p, 0⟩ ∧
      g.analysis.remaining ⟨p, 0⟩ = rhs := by
  obtain ⟨q, -, hin, hr, -, -⟩ := inState_source hg
    (show [.nonterminal lines] ∈ _ by rw [hl.ofSource]; simp)
  obtain ⟨p, hp, hlhs, hrhs⟩ := exists_production h
  obtain ⟨hin', hr', -, -⟩ := inState_expand hg hin hr hp hlhs
  exact ⟨p, hp, hin', by rw [hr', hrhs]⟩

theorem HasLines.lineStart_zero (hg : g.WellFormed) : g.LineStart line 0 0 := by
  constructor
  · exact hl.inState_lines hg (by rw [hl.ofLines]; simp)
  · exact inState_source hg (by rw [hl.ofSource]; simp)

theorem HasLines.lineStart_resume (hg : g.WellFormed)
    (hm : g.automaton.next? 0 (.nonterminal lines) = some state) : g.LineStart line state 1 := by
  constructor
  · obtain ⟨p, hp, hin, hr⟩ := hl.inState_lines hg
      (show [.nonterminal lines, .nonterminal line, .terminal .newline] ∈ _ by
        rw [hl.ofLines]; simp)
    obtain ⟨hin', hr', -⟩ := inState_of_next? hg hin hr hm
    exact ⟨p, hp, hin', hr'⟩
  · obtain ⟨p, hp, hin, hr, hlhs, hf⟩ := inState_source hg
      (show [.nonterminal lines, .nonterminal line] ∈ _ by rw [hl.ofSource]; simp)
    obtain ⟨hin', hr', hfollow⟩ := inState_of_next? hg hin hr hm
    exact ⟨p, hp, hin', hr', hlhs, hfollow _ hf⟩

include ht

/-- Behind a file only the end of the text follows, and it is accepted. -/
theorem canFollow_source (hm : g.automaton.next? 0 (.nonterminal g.start) = some state) :
    (t.explicitAction state .eof).move = .accept := by
  obtain ⟨hin, hr, hf⟩ := inState_input g
  obtain ⟨hin', hr', hfollow⟩ := inState_of_next? ht.wellFormed hin hr hm
  rw [move_of_follows ht.wellFormed ht.fits.productions ht.build ht.indexed.actions
    eof_index hl.precedence.2.1
    (by decide) hin' hr' (hfollow _ hf)]
  exact if_pos rfl

/-- Where a line may begin, a line can be followed by its end and by the end of the text. -/
theorem LineStart.canFollow_line {d : Nat} (hs : g.LineStart line state d)
    (h : g.Path (state :: rest) read)
    (hm : g.automaton.next? state (.nonterminal line) = some target) :
    CanFollow t (target :: state :: rest) .newline ∧
      CanFollow t (target :: state :: rest) .eof := by
  have hg := ht.wellFormed
  constructor
  · obtain ⟨p, -, hin, hr⟩ := hs.closed
    obtain ⟨hin', hr', -⟩ := inState_of_next? hg hin hr hm
    obtain ⟨behind, hnext⟩ := exists_next? hg hin' hr'
    exact canFollow_of_next? ht newline_index hl.precedence.1 hnext
  · obtain ⟨p, hp, hin, hr, hlhs, hf⟩ := hs.last
    obtain ⟨hin', hr', hfollow⟩ := inState_of_next? hg hin hr hm
    refine canFollow_of_complete ht eof_index hl.precedence.2.1 (by decide) (.move h hm)
      ⟨hin', hr'⟩ (Nat.ne_of_lt hp) (hfollow _ hf) ?_
    intro base below file hdrop hfile
    rw [show g.augmented.lhs (Item.advance ⟨p, d⟩).production = g.start from hlhs] at hfile
    obtain rfl := eq_zero_of_next?_start hg hl hfile
    exact canFollow_of_explicit ht (Or.inr (canFollow_source ht hl hfile))

/-- **Where a line may begin, a recovered region can stand, and behind it the end of the line and
the end of the text can follow.** -/
theorem LineStart.landing {d : Nat} (hs : g.LineStart line state d)
    (h : g.Path (state :: rest) read) : ∃ landed,
      (t.explicitAction state .error).move = .shift landed ∧
      CanFollow t (landed :: state :: rest) .newline ∧
      CanFollow t (landed :: state :: rest) .eof := by
  have hg := ht.wellFormed
  obtain ⟨pe, hpe, hlhs, hrhs⟩ := exists_production hl.error
  obtain ⟨pc, -, hinc, hrc⟩ := hs.closed
  obtain ⟨pl, -, hinl, hrl, -, hfl⟩ := hs.last
  obtain ⟨hin, hr, hfirst, -⟩ := inState_expand hg hinc hrc hpe hlhs
  obtain ⟨-, -, -, hrest⟩ := inState_expand hg hinl hrl hpe hlhs
  rw [hrhs] at hr
  obtain ⟨landed, hm⟩ := exists_next? hg hin hr
  obtain ⟨hin', hr', hfollow⟩ := inState_of_next? hg hin hr hm
  have hreduce : ∀ k : Kind, k.index < Kind.tokenCount → g.tokenPrecedence? k = none →
      k ≠ .error → g.Follows state ⟨pe, 0⟩ k.index →
      (∀ target, g.automaton.next? state (.nonterminal line) = some target →
        CanFollow t (target :: state :: rest) k) → CanFollow t (landed :: state :: rest) k := by
    intro k hk hprec hke hf hline
    refine canFollow_of_complete ht hk hprec hke (.move h hm) ⟨hin', hr'⟩ (Nat.ne_of_lt hpe)
      (hfollow _ hf) ?_
    intro base below target hdrop hnext
    rw [show g.augmented.rhs (Item.advance ⟨pe, 0⟩).production = _ from hrhs] at hdrop
    rw [show g.augmented.lhs (Item.advance ⟨pe, 0⟩).production = line from hlhs] at hnext
    cases hdrop
    exact hline target hnext
  refine ⟨landed, ?_, ?_, ?_⟩
  · exact move_of_next? hg ht.fits.productions ht.fits.states ht.build
      ht.indexed.actions error_index
      hl.precedence.2.2 hm
  · exact hreduce .newline newline_index hl.precedence.1 (by decide)
      (hfirst _ (firstOf_terminal _ _)) fun target hnext => (hs.canFollow_line ht hl h hnext).1
  · exact hreduce .eof eof_index hl.precedence.2.1 (by decide) (hrest rfl _ hfl)
      fun target hnext => (hs.canFollow_line ht hl h hnext).2

end Grammar

end AsmTree
