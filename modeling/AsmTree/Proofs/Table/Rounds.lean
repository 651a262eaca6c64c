import AsmTree.Proofs.Table.Loops
import AsmTree.Proofs.Table.Spread
import Mathlib.Data.Finset.Option

/-!
# First sets round by round

Both tables of an analysis, the nonterminals that can be empty and the tokens that nonterminals can
begin with, can be made together: a round goes over the productions and notes in the tables what
the symbols of each say of its nonterminal, and rounds are made until one changes nothing.

**Main statements:** from empty tables the rounds come to an end, with the tables of the analysis
(`mem_eval_again`), and these say of every row of symbols what it derives
(`exactFirstSets_of_toGrammar`).

What the tables say is kept in one form. A fact `none` about a nonterminal is that it can be empty,
a fact `some n` that it can begin with the token number `n`.
-/

namespace AsmTree

open Inclusions StateTransition

/-! ## Rounds -/

/-- An analysis in the making, and whether the round has changed it. -/
structure Round where
  analysis : Analysis
  changed : Bool := false

/-- Notes for the nonterminal of a production what its symbols begin with, and whether they can be
empty. -/
def Round.note (r : Round) (p : Production) : Round :=
  let (first, empty) := r.analysis.firstOf p.rhs
  let own := r.analysis.first.getD p.lhs ∅
  let fresh := empty && !r.analysis.nullable.contains p.lhs
  { analysis :=
      { r.analysis with
        nullable := if fresh then r.analysis.nullable ∪ .singleton p.lhs else r.analysis.nullable
        first := r.analysis.first.setIfInBounds p.lhs (own ∪ first) }
    changed := r.changed || decide (own ∪ first ≠ own) || fresh }

namespace Analysis

variable {an an' : Analysis} {v : Nat} {x : Option Nat} {ss : List Symbol}

def round (an : Analysis) : Round := an.augmented.productions.foldl Round.note { analysis := an }

/-- Goes on with another round unless the last one has changed nothing. -/
def again (an : Analysis) : Option Analysis :=
  if an.round.changed then some an.round.analysis else none

def blank (an : Analysis) : Analysis :=
  { an with nullable := ∅, first := Array.replicate an.augmented.nonterminalCount ∅ }

/-! ## What the tables say -/

/-- The tables say something of a nonterminal: that it can be empty, or a token that it can begin
with. -/
def Knows (an : Analysis) (v : Nat) : Option Nat → Prop
  | none => an.nullable.contains v = true
  | some n => Member an.first v n

instance : Decidable (an.Knows v x) :=
  match x with
  | none => inferInstanceAs (Decidable (an.nullable.contains v = true))
  | some n => inferInstanceAs (Decidable (Member an.first v n))

/-- The tables say something of a row of symbols. -/
def Tells (an : Analysis) (ss : List Symbol) : Option Nat → Prop
  | none => (an.firstOf ss).2 = true
  | some n => (an.firstOf ss).1.contains n = true

/-- What an analysis knows, the other knows too. -/
def Within (an an' : Analysis) : Prop := ∀ v x, an.Knows v x → an'.Knows v x

/-- What the symbols of productions tell is known of their nonterminals. -/
def Closed (an : Analysis) : Prop :=
  ∀ p ∈ an.augmented.productions, ∀ x, an.Tells p.rhs x → an.Knows p.lhs x

theorem Within.trans {an'' : Analysis} (h : an.Within an') (h' : an'.Within an'') :
    an.Within an'' :=
  fun v x hv => h' v x (h v x hv)

@[simp] theorem tells_nil : an.Tells [] x ↔ x = none := by
  cases x <;> simp [Tells, firstOf]

@[simp] theorem tells_terminal {k : Kind} {rest : List Symbol} :
    an.Tells (.terminal k :: rest) x ↔ x = some k.index := by
  cases x <;> simp [Tells, firstOf, eq_comm]

theorem tells_nonterminal {id : Nat} {rest : List Symbol} :
    an.Tells (.nonterminal id :: rest) x ↔
      x ≠ none ∧ an.Knows id x ∨ an.Knows id none ∧ an.Tells rest x := by
  by_cases hnull : an.nullable.contains id = true
  · cases x <;> simp [Tells, Knows, firstOf, Member, hnull]
  · cases x <;> simp [Tells, Knows, firstOf, Member, hnull]

theorem Tells.mono (h : an.Within an') (hx : an.Tells ss x) : an'.Tells ss x := by
  induction ss with
  | nil => exact tells_nil.2 (tells_nil.1 hx)
  | cons s ss ih =>
    cases s with
    | terminal k => exact tells_terminal.2 (tells_terminal.1 hx)
    | nonterminal id =>
      rw [tells_nonterminal] at hx ⊢
      rcases hx with ⟨hne, hx⟩ | ⟨hnull, hx⟩
      · exact Or.inl ⟨hne, h id x hx⟩
      · exact Or.inr ⟨h id none hnull, ih hx⟩

theorem tells_append {before after : List Symbol}
    (hbefore : ∀ s ∈ before, ∃ id, s = .nonterminal id ∧ an.Knows id none)
    (h : an.Tells after x) : an.Tells (before ++ after) x := by
  induction before with
  | nil => exact h
  | cons s before ih =>
    obtain ⟨id, rfl, hid⟩ := hbefore s List.mem_cons_self
    have hrest := ih fun s hs => hbefore s (List.mem_cons_of_mem _ hs)
    exact tells_nonterminal.2 (Or.inr ⟨hid, hrest⟩)

theorem eq_of_within (haug : an.augmented = an'.augmented) (hedge : an.leftEdge = an'.leftEdge)
    (hsize : an.first.size = an'.first.size) (h : an.Within an') (h' : an'.Within an) :
    an = an' := by
  have hnullable : an.nullable = an'.nullable :=
    BitSet.ext fun v => Bool.eq_iff_iff.2 ⟨h v none, h' v none⟩
  have hfirst : an.first = an'.first := by
    refine Array.ext hsize fun v hv hv' => BitSet.ext fun n => Bool.eq_iff_iff.2 ?_
    have hiff : Member an.first v n ↔ Member an'.first v n := ⟨h v (some n), h' v (some n)⟩
    simpa [Member, Array.getD, hv, hv'] using hiff
  cases an
  cases an'
  simp_all

end Analysis

/-! ## One production -/

namespace Round

variable {r : Round} {p : Production} {v : Nat} {x : Option Nat}

/-- A production is noted for its own nonterminal only. -/
theorem knows_note (hp : p.lhs < r.analysis.first.size) :
    (r.note p).analysis.Knows v x ↔
      r.analysis.Knows v x ∨ v = p.lhs ∧ r.analysis.Tells p.rhs x := by
  cases x with
  | none =>
    simp only [Analysis.Knows, Analysis.Tells, note]
    by_cases hempty : (r.analysis.firstOf p.rhs).2 = true
    · by_cases hold : r.analysis.nullable.contains p.lhs = true
      · rw [hempty, hold]
        refine ⟨Or.inl, ?_⟩
        rintro (h | ⟨rfl, -⟩)
        · exact h
        · exact hold
      · rw [Bool.not_eq_true] at hold
        rw [hempty, hold, Bool.not_false, Bool.and_true, if_pos rfl, BitSet.contains_union,
          Bool.or_eq_true, BitSet.contains_singleton, decide_eq_true_iff, eq_comm (a := v)]
        simp
    · simp [hempty]
  | some n =>
    simp only [Analysis.Knows, Analysis.Tells, note]
    rw [member_setIfInBounds]
    by_cases hv : v = p.lhs
    · subst hv
      simp [hp, Member]
    · simp [hv]

/-- What a production tells is known already, and nothing changes, or a change is reported. -/
theorem note_cases (r : Round) (p : Production) :
    (r.note p = r ∧ ∀ x, r.analysis.Tells p.rhs x → r.analysis.Knows p.lhs x) ∨
      ((r.note p).changed = true ∧
        ∃ x, r.analysis.Tells p.rhs x ∧ ¬ r.analysis.Knows p.lhs x) := by
  by_cases hknown : ∀ x, r.analysis.Tells p.rhs x → r.analysis.Knows p.lhs x
  · have hnull : ((r.analysis.firstOf p.rhs).2 && !r.analysis.nullable.contains p.lhs) = false := by
      by_cases hempty : (r.analysis.firstOf p.rhs).2 = true
      · rw [show r.analysis.nullable.contains p.lhs = true from hknown none hempty]
        simp
      · simp [hempty]
    have hunion : r.analysis.first.getD p.lhs ∅ ∪ (r.analysis.firstOf p.rhs).1 =
        r.analysis.first.getD p.lhs ∅ := by
      refine BitSet.ext fun n => ?_
      rw [BitSet.contains_union]
      cases hn : (r.analysis.firstOf p.rhs).1.contains n with
      | false => rw [Bool.or_false]
      | true => rw [show (r.analysis.first.getD p.lhs ∅).contains n = true from hknown (some n) hn,
          Bool.or_true]
    have hset : r.analysis.first.setIfInBounds p.lhs (r.analysis.first.getD p.lhs ∅) =
        r.analysis.first := by
      refine Array.ext Array.size_setIfInBounds fun i hi hi' => ?_
      rw [Array.getElem_setIfInBounds hi']
      split
      · next h =>
        subst h
        simp [Array.getD, hi']
      · rfl
    refine Or.inl ⟨?_, hknown⟩
    simp only [note, hnull, hunion, hset]
    simp
  · push Not at hknown
    obtain ⟨x, htells, hnew⟩ := hknown
    refine Or.inr ⟨?_, x, htells, hnew⟩
    cases x with
    | none =>
      have hfresh : (r.analysis.firstOf p.rhs).2 = true ∧
          r.analysis.nullable.contains p.lhs = false := ⟨htells, Bool.eq_false_iff.2 hnew⟩
      simp [note, hfresh.1, hfresh.2]
    | some n =>
      have hne : r.analysis.first.getD p.lhs ∅ ∪ (r.analysis.firstOf p.rhs).1 ≠
          r.analysis.first.getD p.lhs ∅ := by
        intro heq
        apply hnew
        show (r.analysis.first.getD p.lhs ∅).contains n = true
        rw [← heq, BitSet.contains_union, Bool.or_eq_true]
        exact Or.inr htells
      simp only [note, decide_eq_true hne, Bool.or_true, Bool.true_or]

theorem changed_note (h : r.changed = true) (p : Production) : (r.note p).changed = true := by
  simp [note, h]

@[simp] theorem size_first_note (r : Round) (p : Production) :
    (r.note p).analysis.first.size = r.analysis.first.size :=
  Array.size_setIfInBounds

theorem within_note (hp : p.lhs < r.analysis.first.size) :
    r.analysis.Within (r.note p).analysis :=
  fun _ _ hv => (knows_note hp).2 (Or.inl hv)

/-! ## Some productions -/

variable {ps : List Production}

theorem changed_foldl_note (h : r.changed = true) : (ps.foldl note r).changed = true := by
  induction ps generalizing r with
  | nil => exact h
  | cons p ps ih => exact ih (changed_note h p)

/-- Productions that change nothing tell what is known. -/
theorem foldl_note_of_not_changed (h : (ps.foldl note r).changed = false) :
    ps.foldl note r = r ∧
      ∀ p ∈ ps, ∀ x, r.analysis.Tells p.rhs x → r.analysis.Knows p.lhs x := by
  induction ps generalizing r with
  | nil => exact ⟨rfl, fun p hp => by cases hp⟩
  | cons p ps ih =>
    rw [List.foldl_cons] at h ⊢
    rcases note_cases r p with ⟨hsame, hknown⟩ | ⟨hchanged, -⟩
    · rw [hsame] at h ⊢
      obtain ⟨hrest, hps⟩ := ih h
      refine ⟨hrest, fun q hq => ?_⟩
      rcases List.mem_cons.1 hq with rfl | hq
      · exact hknown
      · exact hps q hq
    · rw [changed_foldl_note hchanged] at h
      cases h

end Round

namespace Grammar

variable {g : Grammar} {an an' : Analysis} {r : Round} {v : Nat} {x : Option Nat}

/-! ## The tables of the analysis -/

theorem size_first (g : Grammar) : g.analysis.first.size = g.augmented.nonterminalCount :=
  (size_solve _).trans (size_firstInclusions _)

theorem closed_analysis (hg : g.WellFormed) : g.analysis.Closed := by
  intro p hp x hx
  cases x with
  | none =>
    refine nullable_of_mem hg hp ?_
    rw [← firstOf_snd]
    exact hx
  | some n =>
    obtain ⟨s, hs, hopens⟩ := contains_firstOf_iff.1 hx
    exact member_first_of_mem hg hp hs hopens

/-- The analysis knows nothing that productions do not tell. -/
theorem analysis_within (haug : an.augmented = g.augmented) (h : an.Closed) :
    g.analysis.Within an := by
  have hnull : ∀ id, g.analysis.nullable.contains id = true → an.Knows id none := by
    intro id hid
    refine nullable_induction (P := fun id => an.Knows id none) (fun p hp hsymbols => ?_) hid
    refine h p (haug ▸ hp) none ?_
    rw [← List.append_nil p.rhs]
    exact Analysis.tells_append hsymbols (Analysis.tells_nil.2 rfl)
  have hbefore {before : List Symbol} (hall : before.all g.symbolNullable = true) :
      ∀ s ∈ before, ∃ id, s = .nonterminal id ∧ an.Knows id none := by
    intro s hs
    have hs := List.all_eq_true.1 hall s hs
    cases s with
    | terminal k => cases hs
    | nonterminal id => exact ⟨id, rfl, hnull id hs⟩
  intro v x hx
  cases x with
  | none => exact hnull v hx
  | some n =>
    refine first_induction (P := fun v n => an.Knows v (some n)) ?_ ?_ hx
    · intro p hp before k after hrhs hall
      refine h p (haug ▸ hp) _ ?_
      rw [hrhs]
      exact Analysis.tells_append (hbefore hall) (Analysis.tells_terminal.2 rfl)
    · intro p hp before id after hrhs hall n hid
      refine h p (haug ▸ hp) _ ?_
      rw [hrhs]
      refine Analysis.tells_append (hbefore hall) (Analysis.tells_nonterminal.2 (Or.inl ⟨?_, hid⟩))
      exact Option.some_ne_none n

/-- The nonterminals and facts that an analysis can know of: tokens are numbered below the mark. -/
def facts (g : Grammar) : Finset (Nat × Option Nat) :=
  Finset.range g.augmented.nonterminalCount ×ˢ (Finset.range Spread.mark).insertNone

theorem mem_facts (hg : g.WellFormed) (h : g.analysis.Knows v x) : (v, x) ∈ g.facts := by
  have hv : v < g.augmented.nonterminalCount := by
    cases x with
    | none =>
      exact nullable_induction (P := fun v => v < g.augmented.nonterminalCount)
        (fun p hp _ => lhs_lt_of_mem hg hp) h
    | some n =>
      rw [← size_first]
      by_contra hle
      exact not_member_of_size_le (Nat.le_of_not_lt hle) n h
  have hx : ∀ n, x = some n → n < Spread.mark := by
    rintro n rfl
    exact first_induction (P := fun _ n => n < Spread.mark)
      (fun _ _ _ k _ _ _ => k.index_lt_mark) (fun _ _ _ _ _ _ _ _ hn => hn) h
  refine Finset.mem_product.2 ⟨Finset.mem_range.2 hv, Finset.mem_insertNone.2 fun n hn => ?_⟩
  exact Finset.mem_range.2 (hx n hn)

/-! ## Rounds come to an end -/

/-- An analysis on the way to that of the grammar. -/
structure Making (g : Grammar) (an : Analysis) : Prop where
  augmented : an.augmented = g.augmented
  leftEdge : an.leftEdge = g.analysis.leftEdge
  size : an.first.size = g.augmented.nonterminalCount
  within : an.Within g.analysis

theorem making_blank (g : Grammar) : g.Making g.analysis.blank where
  augmented := rfl
  leftEdge := rfl
  size := Array.size_replicate
  within v x hx := by
    cases x with
    | none => simp [Analysis.Knows, Analysis.blank] at hx
    | some n =>
      have hempty : ¬ Member (Array.replicate g.augmented.nonterminalCount ∅) v n :=
        not_demands_ofSize _ (.member v n)
      exact absurd hx hempty

theorem Making.note (hg : g.WellFormed) (h : g.Making r.analysis) {p : Production}
    (hp : p ∈ g.augmented.productions) : g.Making (r.note p).analysis where
  augmented := h.augmented
  leftEdge := h.leftEdge
  size := (r.size_first_note p).trans h.size
  within v x hx := by
    rw [Round.knows_note (h.size ▸ lhs_lt_of_mem hg hp)] at hx
    rcases hx with hx | ⟨rfl, hx⟩
    · exact h.within v x hx
    · exact closed_analysis hg p hp x (hx.mono h.within)

/-- Noting some productions keeps what is known, and a change that it reports is something new. -/
theorem Making.foldl_note (hg : g.WellFormed) (h : g.Making r.analysis) {ps : List Production}
    (hps : ∀ p ∈ ps, p ∈ g.augmented.productions) :
    g.Making (ps.foldl Round.note r).analysis ∧
      r.analysis.Within (ps.foldl Round.note r).analysis ∧
      (r.changed = false → (ps.foldl Round.note r).changed = true →
        ∃ v x, (ps.foldl Round.note r).analysis.Knows v x ∧ ¬ r.analysis.Knows v x) := by
  induction ps generalizing r with
  | nil => exact ⟨h, fun _ _ hv => hv, fun hr hchanged => by cases hr.symm.trans hchanged⟩
  | cons p ps ih =>
    have hp := hps p List.mem_cons_self
    have hlt : p.lhs < r.analysis.first.size := h.size ▸ lhs_lt_of_mem hg hp
    obtain ⟨hmaking, hwithin, hnew⟩ :=
      ih (h.note hg hp) fun q hq => hps q (List.mem_cons_of_mem _ hq)
    rw [List.foldl_cons]
    refine ⟨hmaking, (Round.within_note hlt).trans hwithin, fun hr hchanged => ?_⟩
    rcases Round.note_cases r p with ⟨hsame, -⟩ | ⟨-, x, htells, hunknown⟩
    · rw [hsame] at hnew hchanged ⊢
      exact hnew hr hchanged
    · exact ⟨p.lhs, x, hwithin _ x ((Round.knows_note hlt).2 (Or.inr ⟨rfl, htells⟩)), hunknown⟩

theorem Making.round_eq (h : g.Making an) :
    an.round = g.augmented.productions.toList.foldl Round.note { analysis := an } := by
  rw [Analysis.round, h.augmented, Array.foldl_toList]

theorem Making.again (hg : g.WellFormed) (h : g.Making an) (hnext : an.again = some an') :
    g.Making an' ∧ an.Within an' ∧ ∃ v x, an'.Knows v x ∧ ¬ an.Knows v x := by
  rw [Analysis.again, h.round_eq] at hnext
  split at hnext
  · next hchanged =>
    obtain rfl := Option.some.inj hnext
    obtain ⟨hmaking, hwithin, hnew⟩ :=
      Making.foldl_note (r := { analysis := an }) hg h fun p hp => Array.mem_toList_iff.1 hp
    exact ⟨hmaking, hwithin, hnew rfl hchanged⟩
  · cases hnext

/-- Where no round follows, the tables are those of the analysis. -/
theorem Making.eq_analysis (h : g.Making an) (hend : an.again = none) :
    an = g.analysis := by
  have hclosed : an.Closed := by
    rw [Analysis.again, h.round_eq] at hend
    split at hend
    · cases hend
    · next hsame =>
      rw [Bool.not_eq_true] at hsame
      intro p hp
      rw [h.augmented] at hp
      exact (Round.foldl_note_of_not_changed hsame).2 p (Array.mem_toList_iff.2 hp)
  exact Analysis.eq_of_within h.augmented h.leftEdge (h.size.trans (size_first g).symm) h.within
    (analysis_within h.augmented hclosed)

/-- **The rounds come to an end, with the tables of the analysis.** Each but the last finds one of
finitely many facts. -/
theorem mem_eval_again (hg : g.WellFormed) :
    g.analysis ∈ eval Analysis.again g.analysis.blank := by
  obtain ⟨an, hreached, hmaking, hend⟩ := Loop.exists_mem_eval
    (fun an => (g.facts.filter fun fact => ¬ an.Knows fact.1 fact.2).card)
    (fun an next (h : g.Making an) hnext => by
      obtain ⟨hmaking, hwithin, v, x, hnew, hold⟩ := h.again hg hnext
      refine ⟨hmaking, Finset.card_lt_card (Finset.ssubset_iff_of_subset ?_ |>.2 ⟨(v, x), ?_, ?_⟩)⟩
      · intro fact hfact
        rw [Finset.mem_filter] at hfact ⊢
        exact ⟨hfact.1, fun hknown => hfact.2 (hwithin _ _ hknown)⟩
      · exact Finset.mem_filter.2 ⟨mem_facts hg (hmaking.within v x hnew), hold⟩
      · exact fun hfact => (Finset.mem_filter.1 hfact).2 hnew)
    (making_blank g)
  obtain rfl := hmaking.eq_analysis hend
  exact hreached

/-! ## What the tables stand for -/

/-- Rounds from empty tables come to an end, with tables that say of every nonterminal and of every
row of symbols whether it derives the empty row, and which tokens begin what it derives. -/
structure ExactFirstSets (g : Grammar) : Prop where
  ends : g.analysis ∈ eval Analysis.again g.analysis.blank
  nullable : ∀ id, g.analysis.nullable.contains id = true ↔ g.Vanishes [.nonterminal id]
  first : ∀ id n, Member g.analysis.first id n ↔
    ∃ k : Kind, k.index = n ∧ g.Begins [.nonterminal id] k
  vanishes : ∀ ss, (g.analysis.firstOf ss).2 = true ↔ g.Vanishes ss
  begins : ∀ ss n, (g.analysis.firstOf ss).1.contains n = true ↔
    ∃ k : Kind, k.index = n ∧ g.Begins ss k

theorem WellFormed.exactFirstSets (hg : g.WellFormed) : g.ExactFirstSets where
  ends := mem_eval_again hg
  nullable id := by
    rw [vanishes_iff hg, List.all_cons, List.all_nil, Bool.and_true]
    rfl
  first id n := by
    rw [← contains_firstOf hg]
    show g.analysis.Knows id (some n) ↔ g.analysis.Tells [.nonterminal id] (some n)
    simp [Analysis.tells_nonterminal]
  vanishes _ := firstOf_vanishes hg
  begins _ _ := contains_firstOf hg

end Grammar

namespace RuleSet

/-- **First sets are exact**: for every grammar made of rules with fewer than 65536 nonterminals,
the rounds over its productions come to an end, and their tables say what every row of symbols
derives. -/
theorem exactFirstSets_of_toGrammar {rules : RuleSet} {g : Grammar}
    (h : rules.toGrammar = .ok g) (hsize : g.nonterminals.size < 65536) : g.ExactFirstSets :=
  (toGrammar_wellFormed h hsize).exactFirstSets

/-- Two rules that begin with each other, and may both be empty. -/
def entangled : RuleSet where
  name := "entangled"
  start := "_left"
  definitions := [
    .hidden "_left" (.choice [.seq [.rule "_right", .rule "_left", .token .plus], .blank]),
    .hidden "_right" (.choice [.seq [.rule "_left", .rule "_right"], .token .minus, .blank])]

/-- Neither rule is settled without the other. -/
theorem exactFirstSets_entangled :
    ∃ g, entangled.toGrammar = .ok g ∧ g.nonterminals.size < 65536 ∧ g.ExactFirstSets := by
  obtain ⟨g, h, hsize⟩ := exists_toGrammar entangled (by decide +kernel)
  exact ⟨g, h, hsize, exactFirstSets_of_toGrammar h hsize⟩

end RuleSet

end AsmTree
