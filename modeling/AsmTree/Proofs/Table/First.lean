import AsmTree.Proofs.Table.Items
import Mathlib.Logic.Relation

/-!
# What rows of symbols derive

**Main statements:** the analysis of a grammar finds the rows of symbols that derive the empty row
(`vanishes_iff`), and the tokens that rows of symbols can begin with (`contains_firstOf`).
-/

namespace AsmTree

open Inclusions

namespace Grammar

variable {g : Grammar}

/-! ## Derivations -/

/-- A nonterminal in a row of symbols is replaced by the symbols of one of its productions. -/
inductive Rewrites (g : Grammar) : List Symbol → List Symbol → Prop where
  | mk {p : Production} (hp : p ∈ g.augmented.productions) (before after : List Symbol) :
    Rewrites g (before ++ .nonterminal p.lhs :: after) (before ++ (p.rhs ++ after))

/-- A row of symbols derives another. -/
abbrev Derives (g : Grammar) : List Symbol → List Symbol → Prop :=
  Relation.ReflTransGen g.Rewrites

/-- A row of symbols derives the empty row. -/
def Vanishes (g : Grammar) (ss : List Symbol) : Prop := g.Derives ss []

/-- A row of symbols derives one that begins with a token. -/
def Begins (g : Grammar) (ss : List Symbol) (k : Kind) : Prop :=
  ∃ rest, g.Derives ss (.terminal k :: rest)

theorem Derives.append_left {a b : List Symbol} (h : g.Derives a b) (c : List Symbol) :
    g.Derives (c ++ a) (c ++ b) := by
  refine h.lift (c ++ ·) ?_
  rintro _ _ ⟨hp, before, after⟩
  have hmk := Rewrites.mk hp (c ++ before) after
  rwa [List.append_assoc, List.append_assoc] at hmk

theorem Derives.append_right {a b : List Symbol} (h : g.Derives a b) (c : List Symbol) :
    g.Derives (a ++ c) (b ++ c) := by
  refine h.lift (· ++ c) ?_
  rintro _ _ ⟨hp, before, after⟩
  have hmk := Rewrites.mk hp before (after ++ c)
  rwa [← List.cons_append, ← List.append_assoc, ← List.append_assoc _ after,
    ← List.append_assoc] at hmk

theorem derives_of_mem {p : Production} (hp : p ∈ g.augmented.productions) (after : List Symbol) :
    g.Derives (.nonterminal p.lhs :: after) (p.rhs ++ after) :=
  .single (Rewrites.mk hp [] after)

theorem Vanishes.append {a b : List Symbol} (ha : g.Vanishes a) (hb : g.Vanishes b) :
    g.Vanishes (a ++ b) :=
  (Derives.append_right ha b).trans hb

theorem Begins.append {a b : List Symbol} {k : Kind} (ha : g.Vanishes a) (hb : g.Begins b k) :
    g.Begins (a ++ b) k := by
  obtain ⟨rest, hb⟩ := hb
  exact ⟨rest, (Derives.append_right ha b).trans hb⟩

/-! ## Symbols that can be empty -/

/-- A symbol that the analysis takes to derive the empty row. -/
abbrev symbolNullable (g : Grammar) (s : Symbol) : Bool :=
  Augmented.symbolNullable g.analysis.nullable s

theorem symbolNullable_mono {a b : BitSet} (h : ∀ id, a.contains id = true → b.contains id = true)
    {s : Symbol} (hs : Augmented.symbolNullable a s = true) :
    Augmented.symbolNullable b s = true := by
  cases s with
  | terminal k => exact hs
  | nonterminal id => exact h id hs

/-- A round over productions keeps what has been found, and finds each production whose symbols can
be empty. -/
theorem foldl_nullable (ps : List Production) (found : BitSet) :
    (∀ id, found.contains id = true → (ps.foldl (fun found p =>
      if p.rhs.all (Augmented.symbolNullable found) then found ∪ .singleton p.lhs else found)
      found).contains id = true) ∧
    ∀ p ∈ ps, p.rhs.all (Augmented.symbolNullable found) = true → (ps.foldl (fun found p =>
      if p.rhs.all (Augmented.symbolNullable found) then found ∪ .singleton p.lhs else found)
      found).contains p.lhs = true := by
  induction ps generalizing found with
  | nil => exact ⟨fun _ h => h, fun p hp => (by cases hp)⟩
  | cons q ps ih =>
    rw [List.foldl_cons]
    have hmono : ∀ id, found.contains id = true → (if q.rhs.all (Augmented.symbolNullable found)
        then found ∪ .singleton q.lhs else found).contains id = true := by
      intro id hid
      split
      · rw [BitSet.contains_union, hid, Bool.true_or]
      · exact hid
    obtain ⟨hkeep, hfind⟩ := ih (if q.rhs.all (Augmented.symbolNullable found)
      then found ∪ .singleton q.lhs else found)
    refine ⟨fun id hid => hkeep id (hmono id hid), fun p hp hall => ?_⟩
    rcases List.mem_cons.1 hp with rfl | hp
    · refine hkeep _ ?_
      rw [if_pos hall, BitSet.contains_union, BitSet.contains_singleton, decide_eq_true rfl,
        Bool.or_true]
    · refine hfind p hp (List.all_eq_true.2 fun s hs => ?_)
      exact symbolNullable_mono hmono (List.all_eq_true.1 hall s hs)

theorem nullableStep_eq (found : BitSet) : g.augmented.nullableStep found =
    g.augmented.productions.toList.foldl (fun found p =>
      if p.rhs.all (Augmented.symbolNullable found) then found ∪ .singleton p.lhs else found)
      found := by
  rw [Augmented.nullableStep, Array.foldl_toList]

/-- What the analysis finds has a property that passes from the symbols of a production to the
nonterminal. -/
theorem nullable_induction {P : Nat → Prop} (step : ∀ p ∈ g.augmented.productions,
    (∀ s ∈ p.rhs, ∃ id, s = .nonterminal id ∧ P id) → P p.lhs) {id : Nat}
    (h : g.analysis.nullable.contains id = true) : P id := by
  have hround (found : BitSet) (hfound : ∀ id, found.contains id = true → P id) :
      ∀ id, (g.augmented.nullableStep found).contains id = true → P id := by
    rw [nullableStep_eq]
    refine List.foldlRecOn (motive := fun found : BitSet =>
      ∀ id, found.contains id = true → P id) _ _ hfound ?_
    intro found hfound p hp id hid
    split at hid
    · next hall =>
      rw [BitSet.contains_union, Bool.or_eq_true] at hid
      rcases hid with hid | hid
      · exact hfound id hid
      · obtain rfl : p.lhs = id := by simpa using hid
        refine step p (Array.mem_toList_iff.1 hp) fun s hs => ?_
        have hnull := List.all_eq_true.1 hall s hs
        cases s with
        | terminal k => cases hnull
        | nonterminal id => exact ⟨id, rfl, hfound id hnull⟩
    · exact hfound id hid
  have hrounds (fuel : Nat) : ∀ found : BitSet, (∀ id, found.contains id = true → P id) →
      ∀ id, (g.augmented.nullableFrom fuel found).contains id = true → P id := by
    induction fuel with
    | zero => exact fun found hfound => hfound
    | succ fuel ih =>
      intro found hfound
      unfold Augmented.nullableFrom
      dsimp only
      split
      · exact hfound
      · exact ih _ (hround found hfound)
  exact hrounds _ ∅ (fun id hid => by simp at hid) id h

theorem lt_of_nullableStep (hg : g.WellFormed) {found : BitSet}
    (hfound : ∀ id, found.contains id = true → id < g.augmented.nonterminalCount) :
    ∀ id, (g.augmented.nullableStep found).contains id = true →
      id < g.augmented.nonterminalCount := by
  rw [nullableStep_eq]
  refine List.foldlRecOn (motive := fun found : BitSet =>
    ∀ id, found.contains id = true → id < g.augmented.nonterminalCount) _ _ hfound ?_
  intro found hfound p hp id hid
  split at hid
  · rw [BitSet.contains_union, Bool.or_eq_true] at hid
    rcases hid with hid | hid
    · exact hfound id hid
    · obtain rfl : p.lhs = id := by simpa using hid
      exact lhs_lt_of_mem hg (Array.mem_toList_iff.1 hp)
  · exact hfound id hid

/-- Enough rounds leave nothing to be found: each but the last finds a nonterminal. -/
theorem nullableStep_nullableFrom (hg : g.WellFormed) {fuel : Nat} {found : BitSet}
    (hfound : ∀ id, found.contains id = true → id < g.augmented.nonterminalCount)
    (hfuel : g.augmented.nonterminalCount <
      ((Finset.range g.augmented.nonterminalCount).filter (found.contains ·)).card + fuel) :
    g.augmented.nullableStep (g.augmented.nullableFrom fuel found) =
      g.augmented.nullableFrom fuel found := by
  induction fuel generalizing found with
  | zero =>
    have hle := Finset.card_filter_le (Finset.range g.augmented.nonterminalCount)
      (found.contains ·)
    rw [Finset.card_range] at hle
    omega
  | succ fuel ih =>
    unfold Augmented.nullableFrom
    dsimp only
    split
    · next heq => exact heq
    · next hne =>
      obtain ⟨hmono, -⟩ := foldl_nullable g.augmented.productions.toList found
      rw [← nullableStep_eq] at hmono
      have hbound := lt_of_nullableStep hg hfound
      refine ih hbound ?_
      have hlt : ((Finset.range g.augmented.nonterminalCount).filter (found.contains ·)).card <
          ((Finset.range g.augmented.nonterminalCount).filter
            ((g.augmented.nullableStep found).contains ·)).card := by
        obtain ⟨id, hnew, hold⟩ : ∃ id, (g.augmented.nullableStep found).contains id = true ∧
            ¬ found.contains id = true := by
          by_contra hnone
          push Not at hnone
          exact hne (BitSet.ext fun id => Bool.eq_iff_iff.2 ⟨hnone id, hmono id⟩)
        refine Finset.card_lt_card (Finset.ssubset_iff_of_subset ?_ |>.2 ⟨id, ?_, ?_⟩)
        · intro id hid
          rw [Finset.mem_filter] at hid ⊢
          exact ⟨hid.1, hmono id hid.2⟩
        · exact Finset.mem_filter.2 ⟨Finset.mem_range.2 (hbound id hnew), hnew⟩
        · exact fun hid => hold (Finset.mem_filter.1 hid).2
      omega

theorem nullable_of_mem (hg : g.WellFormed) {p : Production} (hp : p ∈ g.augmented.productions)
    (hall : p.rhs.all g.symbolNullable = true) : g.analysis.nullable.contains p.lhs = true := by
  have hfix : g.augmented.nullableStep g.analysis.nullable = g.analysis.nullable :=
    nullableStep_nullableFrom hg (fun id hid => by simp at hid)
      (Nat.lt_of_lt_of_le (Nat.lt_succ_self _) (Nat.le_add_left _ _))
  rw [← hfix, nullableStep_eq]
  exact (foldl_nullable _ _).2 p (Array.mem_toList_iff.2 hp) hall

/-- **The analysis finds the rows that derive the empty row.** -/
theorem vanishes_iff (hg : g.WellFormed) {ss : List Symbol} :
    g.Vanishes ss ↔ ss.all g.symbolNullable = true := by
  constructor
  · intro h
    induction h using Relation.ReflTransGen.head_induction_on with
    | refl => rfl
    | head hstep _ ih =>
      obtain ⟨hp, before, after⟩ := hstep
      rw [List.all_append, List.all_append, Bool.and_eq_true, Bool.and_eq_true] at ih
      rw [List.all_append, List.all_cons, ih.1, ih.2.2, Bool.true_and, Bool.and_true]
      exact nullable_of_mem hg hp ih.2.1
  · have hrow : ∀ ss : List Symbol, (∀ s ∈ ss, g.Vanishes [s]) → g.Vanishes ss := by
      intro ss
      induction ss with
      | nil => exact fun _ => .refl
      | cons s ss ih =>
        intro hss
        have hrest := ih fun s hs => hss s (List.mem_cons_of_mem _ hs)
        exact Vanishes.append (hss s List.mem_cons_self) hrest
    intro hall
    refine hrow ss fun s hs => ?_
    have hnull := List.all_eq_true.1 hall s hs
    cases s with
    | terminal k => cases hnull
    | nonterminal id =>
      refine nullable_induction (P := fun id => g.Vanishes [.nonterminal id]) ?_ hnull
      intro p hp hsymbols
      have hderives := derives_of_mem hp []
      rw [List.append_nil] at hderives
      refine hderives.trans (hrow p.rhs fun s hs => ?_)
      obtain ⟨id, rfl, hid⟩ := hsymbols s hs
      exact hid

/-! ## Tokens that symbols can begin with -/

/-- What may be read first of a row of symbols: a symbol behind some that can be empty. -/
theorem mem_leading {ss : List Symbol} {s : Symbol} :
    s ∈ Augmented.leading g.analysis.nullable ss ↔
      ∃ before after, ss = before ++ s :: after ∧ before.all g.symbolNullable = true := by
  induction ss with
  | nil => simp [Augmented.leading]
  | cons x ss ih =>
    rw [Augmented.leading]
    constructor
    · split
      · next hnull =>
        intro h
        rcases List.mem_cons.1 h with rfl | h
        · exact ⟨[], ss, rfl, rfl⟩
        · obtain ⟨before, after, rfl, hall⟩ := ih.1 h
          refine ⟨x :: before, after, rfl, ?_⟩
          rw [List.all_cons, hall, Bool.and_true]
          exact hnull
      · intro h
        obtain rfl := List.mem_singleton.1 h
        exact ⟨[], ss, rfl, rfl⟩
    · rintro ⟨before, after, hsplit, hall⟩
      cases before with
      | nil =>
        obtain ⟨rfl, rfl⟩ := List.cons.inj hsplit
        split
        · exact List.mem_cons_self
        · exact List.mem_singleton_self _
      | cons y before =>
        obtain ⟨rfl, rfl⟩ := List.cons.inj hsplit
        rw [List.all_cons, Bool.and_eq_true] at hall
        rw [if_pos hall.1]
        exact List.mem_cons_of_mem _ (ih.2 ⟨before, after, rfl, hall.2⟩)

theorem mem_leading_append {a b : List Symbol} {s : Symbol} :
    s ∈ Augmented.leading g.analysis.nullable (a ++ b) ↔
      s ∈ Augmented.leading g.analysis.nullable a ∨
        a.all g.symbolNullable = true ∧ s ∈ Augmented.leading g.analysis.nullable b := by
  induction a with
  | nil => simp [Augmented.leading]
  | cons x a ih =>
    rw [List.cons_append, Augmented.leading, Augmented.leading, List.all_cons, Bool.and_eq_true]
    by_cases hx : Augmented.symbolNullable g.analysis.nullable x = true
    · rw [if_pos hx, if_pos hx, List.mem_cons, List.mem_cons, ih, or_assoc]
      simp only [show g.symbolNullable x = true from hx, true_and]
    · rw [if_neg hx, if_neg hx]
      simp only [show ¬ g.symbolNullable x = true from hx, Bool.false_eq_true, false_and, or_false]

/-- A step of the system of first sets: what a symbol in front asks for. -/
theorem adds_leading (n lhs : Nat) (s : Symbol) :
    Adds n (fun sys => match s with
      | .terminal k => sys.bound lhs (.singleton k.index)
      | .nonterminal id => sys.link id lhs) fun d =>
        (∃ k, s = .terminal k ∧ d = .member lhs k.index ∧ lhs < n) ∨
        ∃ id, s = .nonterminal id ∧ d = .link id lhs := by
  cases s with
  | terminal k =>
    refine ⟨(Adds.bound lhs _).size, fun sys hs d => ?_⟩
    rw [(Adds.bound lhs _).demands sys hs d]
    refine or_congr_right ?_
    constructor
    · rintro ⟨i, rfl, hlt, hi⟩
      have : k.index = i := by simpa using hi
      exact Or.inl ⟨k, rfl, by rw [this], hlt⟩
    · rintro (⟨k', hk, rfl, hlt⟩ | ⟨id, hid, -⟩)
      · cases hk
        exact ⟨_, rfl, hlt, by simp⟩
      · cases hid
  | nonterminal id =>
    refine ⟨(Adds.link id lhs).size, fun sys hs d => ?_⟩
    rw [(Adds.link id lhs).demands sys hs d]
    simp

theorem demands_firstInclusions {nullable : BitSet} {d : Demand} :
    (g.augmented.firstInclusions nullable).Demands d ↔
    ∃ p ∈ g.augmented.productions, ∃ s ∈ Augmented.leading nullable p.rhs,
      (∃ k, s = .terminal k ∧ d = .member p.lhs k.index ∧ p.lhs < g.augmented.nonterminalCount) ∨
        ∃ id, s = .nonterminal id ∧ d = .link id p.lhs := by
  have hadds := Adds.foldl (n := g.augmented.nonterminalCount) g.augmented.productions.toList
    fun p _ => Adds.foldl (Augmented.leading nullable p.rhs) fun s _ => adds_leading _ p.lhs s
  have hfold : g.augmented.firstInclusions nullable = _ :=
    (Array.foldl_toList ..).symm
  rw [hfold]
  refine (hadds.demands_ofSize d).trans ?_
  simp only [Array.mem_toList_iff]

theorem size_firstInclusions (nullable : BitSet) :
    (g.augmented.firstInclusions nullable).bounds.size = g.augmented.nonterminalCount := by
  have hadds := Adds.foldl (n := g.augmented.nonterminalCount) g.augmented.productions.toList
    fun p _ => Adds.foldl (Augmented.leading nullable p.rhs) fun s _ => adds_leading _ p.lhs s
  have hfold : g.augmented.firstInclusions nullable = _ :=
    (Array.foldl_toList ..).symm
  rw [hfold]
  exact hadds.size_ofSize

/-- A token that the analysis takes a symbol to begin with. -/
def Opens (g : Grammar) (n : Nat) : Symbol → Prop
  | .terminal k => k.index = n
  | .nonterminal id => Member g.analysis.first id n

/-- The analysis finds the tokens of the symbols that may be read first. -/
theorem contains_firstOf_iff {ss : List Symbol} {n : Nat} :
    (g.analysis.firstOf ss).1.contains n = true ↔
      ∃ s ∈ Augmented.leading g.analysis.nullable ss, g.Opens n s := by
  induction ss with
  | nil => simp [Analysis.firstOf, Augmented.leading]
  | cons s ss ih =>
    rw [Augmented.leading]
    cases s with
    | terminal k => simp [Analysis.firstOf, Augmented.symbolNullable, Opens]
    | nonterminal id =>
      rw [Analysis.firstOf, Augmented.symbolNullable]
      by_cases hnull : g.analysis.nullable.contains id = true
      · rw [if_pos hnull, if_pos hnull, List.exists_mem_cons_iff, ← ih]
        dsimp only
        rw [BitSet.contains_union, Bool.or_eq_true]
        rfl
      · rw [if_neg hnull, if_neg hnull]
        simp [Opens, Member]

theorem firstOf_snd (ss : List Symbol) :
    (g.analysis.firstOf ss).2 = ss.all g.symbolNullable := by
  induction ss with
  | nil => rfl
  | cons s ss ih =>
    rw [List.all_cons, ← ih]
    cases s with
    | terminal k => rfl
    | nonterminal id =>
      rw [Analysis.firstOf]
      by_cases hnull : g.analysis.nullable.contains id = true
      · rw [if_pos hnull, show g.symbolNullable (.nonterminal id) = true from hnull]
        rfl
      · rw [if_neg hnull, show g.symbolNullable (.nonterminal id) = false from
          Bool.eq_false_iff.2 hnull]
        rfl

/-- A nonterminal begins with what its productions begin with. -/
theorem member_first_of_mem (hg : g.WellFormed) {p : Production}
    (hp : p ∈ g.augmented.productions) {s : Symbol} {n : Nat}
    (hs : s ∈ Augmented.leading g.analysis.nullable p.rhs) (hn : g.Opens n s) :
    Member g.analysis.first p.lhs n := by
  have hlt := lhs_lt_of_mem hg hp
  cases s with
  | terminal k =>
    obtain rfl : k.index = n := hn
    exact solve_bound (demands_firstInclusions.2 ⟨p, hp, _, hs, Or.inl ⟨k, rfl, rfl, hlt⟩⟩)
  | nonterminal id =>
    refine solve_link (demands_firstInclusions (d := .link id p.lhs).2
      ⟨p, hp, _, hs, Or.inr ⟨id, rfl, rfl⟩⟩) ?_ hn
    rw [size_firstInclusions]
    exact hlt

/-- What the analysis finds has a property that holds of what productions begin with. -/
theorem first_induction {P : Nat → Nat → Prop}
    (terminal : ∀ p ∈ g.augmented.productions, ∀ before k after,
      p.rhs = before ++ .terminal k :: after → before.all g.symbolNullable = true → P p.lhs k.index)
    (nonterminal : ∀ p ∈ g.augmented.productions, ∀ before id after,
      p.rhs = before ++ .nonterminal id :: after → before.all g.symbolNullable = true →
      ∀ n, P id n → P p.lhs n) {id n : Nat} (h : Member g.analysis.first id n) : P id n := by
  refine solve_least (P := P) ?_ ?_ id n h
  · intro v i hm
    obtain ⟨p, hp, s, hs, ⟨k, rfl, hd, -⟩ | ⟨id, -, hd⟩⟩ :=
      demands_firstInclusions (d := .member v i).1 hm
    · cases hd
      obtain ⟨before, after, hrhs, hall⟩ := mem_leading.1 hs
      exact terminal p hp before k after hrhs hall
    · cases hd
  · intro v w hl _ i hi
    obtain ⟨p, hp, s, hs, ⟨k, -, hd, -⟩ | ⟨id, rfl, hd⟩⟩ :=
      demands_firstInclusions (d := .link v w).1 hl
    · cases hd
    · cases hd
      obtain ⟨before, after, hrhs, hall⟩ := mem_leading.1 hs
      exact nonterminal p hp before v after hrhs hall i hi

theorem firstOf_vanishes (hg : g.WellFormed) {ss : List Symbol} :
    (g.analysis.firstOf ss).2 = true ↔ g.Vanishes ss := by
  rw [firstOf_snd, vanishes_iff hg]

/-- **The analysis finds the tokens that rows of symbols can begin with.** -/
theorem contains_firstOf (hg : g.WellFormed) {ss : List Symbol} {n : Nat} :
    (g.analysis.firstOf ss).1.contains n = true ↔ ∃ k : Kind, k.index = n ∧ g.Begins ss k := by
  rw [contains_firstOf_iff]
  constructor
  · rintro ⟨s, hs, hn⟩
    obtain ⟨before, after, rfl, hall⟩ := mem_leading.1 hs
    have hsymbol : ∃ k : Kind, k.index = n ∧ g.Begins [s] k := by
      cases s with
      | terminal k => exact ⟨k, hn, [], .refl⟩
      | nonterminal id =>
        refine first_induction
          (P := fun id n => ∃ k : Kind, k.index = n ∧ g.Begins [.nonterminal id] k) ?_ ?_ hn
        · intro p hp before k after hrhs hall
          have hderives := derives_of_mem hp []
          rw [hrhs, List.append_nil] at hderives
          exact ⟨k, rfl, after, hderives.trans
            (((vanishes_iff hg).2 hall).append_right (.terminal k :: after))⟩
        · rintro p hp before id after hrhs hall n ⟨k, hk, rest, hbegins⟩
          have hderives := derives_of_mem hp []
          rw [hrhs, List.append_nil] at hderives
          refine ⟨k, hk, rest ++ after, hderives.trans ?_⟩
          have hvanishes := ((vanishes_iff hg).2 hall).append_right (.nonterminal id :: after)
          exact hvanishes.trans (hbegins.append_right after)
    obtain ⟨k, hk, rest, hbegins⟩ := hsymbol
    exact ⟨k, hk, Begins.append ((vanishes_iff hg).2 hall)
      ⟨rest ++ after, hbegins.append_right after⟩⟩
  · rintro ⟨k, rfl, rest, h⟩
    induction h using Relation.ReflTransGen.head_induction_on with
    | refl =>
      refine ⟨.terminal k, ?_, rfl⟩
      exact mem_leading.2 ⟨[], rest, rfl, rfl⟩
    | head hstep _ ih =>
      obtain ⟨s, hs, hn⟩ := ih
      cases hstep with | @mk p hp before after =>
      rcases mem_leading_append.1 hs with hs | ⟨hbefore, hs⟩
      · exact ⟨s, mem_leading_append.2 (Or.inl hs), hn⟩
      rcases mem_leading_append.1 hs with hs | ⟨hrhs, hs⟩
      · refine ⟨.nonterminal p.lhs, ?_, member_first_of_mem hg hp hs hn⟩
        exact mem_leading.2 ⟨before, after, rfl, hbefore⟩
      · refine ⟨s, mem_leading_append.2 (Or.inr ⟨hbefore, ?_⟩), hn⟩
        have hnull : Augmented.symbolNullable g.analysis.nullable (.nonterminal p.lhs) = true :=
          nullable_of_mem hg hp hrhs
        rw [Augmented.leading, if_pos hnull]
        exact List.mem_cons_of_mem _ hs

end Grammar

end AsmTree
