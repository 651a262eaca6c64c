import AsmTree.Proofs.Table.First
import AsmTree.Table.Lookahead

/-!
# Lookaheads within a state

Lookaheads are handed on until no item of the state has any left to hand on. `Receives` says what
an item is handed at all.

**Main statements:** `Analysis.spread` finds the items of the state (`mem_spread`) and gives each
what it receives (`contains_spread`), so the work has not been cut short.
-/

namespace AsmTree

theorem Kind.index_lt_mark (k : Kind) : k.index < Spread.mark := by
  cases k <;> decide

namespace Spread

variable {s : Spread} {set : BitSet} {item j : Item} {n : Nat}

/-! ## One gift -/

theorem lookaheads_eq (s : Spread) (item : Item) : s.lookaheads item = s.sets[item]?.getD ∅ :=
  Std.HashMap.getD_eq_getD_getElem?

/-- Lookaheads that an item has already change nothing; others give it something to hand on. -/
theorem give_cases (s : Spread) (set : BitSet) (item : Item) :
    (s.give set item = s ∧ item ∈ s.sets ∧
      ∀ n, set.contains n = true → (s.lookaheads item).contains n = true) ∨
    (s.give set item = ⟨s.sets.insert item (s.lookaheads item ∪ set), item :: s.work⟩ ∧
      (item ∉ s.sets ∨ ∃ n, set.contains n = true ∧ ¬ (s.lookaheads item).contains n = true)) := by
  rw [lookaheads_eq]
  unfold give
  split
  · next old hold =>
    have hmem : item ∈ s.sets := by
      rw [Std.HashMap.mem_iff_isSome_getElem?, hold]
      rfl
    rw [hold, Option.getD_some]
    split
    · next hsame =>
      refine Or.inl ⟨rfl, hmem, fun n hn => ?_⟩
      rw [← hsame, BitSet.contains_union, hn, Bool.or_true]
    · next hne =>
      refine Or.inr ⟨rfl, Or.inr ?_⟩
      by_contra hnone
      push Not at hnone
      refine hne (BitSet.ext fun n => ?_)
      rw [BitSet.contains_union]
      cases hn : set.contains n with
      | false => rw [Bool.or_false]
      | true => rw [hnone n hn, Bool.or_true]
  · next hnone =>
    refine Or.inr ⟨?_, Or.inl ?_⟩
    · rw [hnone, Option.getD_none]
      congr 2
      exact BitSet.ext fun n => by simp
    · rw [Std.HashMap.mem_iff_isSome_getElem?, hnone]
      exact Bool.false_ne_true

theorem mem_give : j ∈ (s.give set item).sets ↔ j ∈ s.sets ∨ j = item := by
  rcases give_cases s set item with ⟨he, hmem, -⟩ | ⟨he, -⟩
  · rw [he]
    exact ⟨Or.inl, fun h => h.elim id fun h => h ▸ hmem⟩
  · rw [he, Std.HashMap.mem_insert, or_comm, beq_iff_eq, eq_comm]

theorem contains_give : ((s.give set item).lookaheads j).contains n = true ↔
    (s.lookaheads j).contains n = true ∨ j = item ∧ set.contains n = true := by
  rcases give_cases s set item with ⟨he, -, hsub⟩ | ⟨he, -⟩
  · rw [he]
    refine ⟨Or.inl, ?_⟩
    rintro (h | ⟨rfl, hn⟩)
    · exact h
    · exact hsub n hn
  · rw [he, lookaheads, Std.HashMap.getD_insert]
    by_cases hj : j = item
    · subst hj
      rw [if_pos (beq_self_eq_true j), BitSet.contains_union, Bool.or_eq_true]
      simp
    · rw [if_neg (by simpa using Ne.symm hj)]
      exact ⟨Or.inl, fun h => h.resolve_right fun h => hj h.1⟩

theorem mem_work_give (h : j ∈ (s.give set item).work) : j ∈ s.work ∨ j = item := by
  rcases give_cases s set item with ⟨he, -⟩ | ⟨he, -⟩
  · exact Or.inl (he ▸ h)
  · rw [he] at h
    exact (List.mem_cons.1 h).symm

theorem length_work_give_le (s : Spread) (set : BitSet) (item : Item) :
    (s.give set item).work.length ≤ s.work.length + 1 := by
  rcases give_cases s set item with ⟨he, -⟩ | ⟨he, -⟩
  · rw [he]
    exact Nat.le_succ _
  · rw [he, List.length_cons]

/-- Nothing is lost, and what has something to hand on is kept in mind. -/
structure Extends (s s' : Spread) : Prop where
  mem : ∀ j ∈ s.sets, j ∈ s'.sets
  contains : ∀ j n, (s.lookaheads j).contains n = true → (s'.lookaheads j).contains n = true
  work : ∀ j ∈ s.work, j ∈ s'.work
  /-- What has nothing to hand on has got nothing. -/
  settled : ∀ j ∉ s'.work, (j ∈ s'.sets → j ∈ s.sets) ∧
    ∀ n, (s'.lookaheads j).contains n = true → (s.lookaheads j).contains n = true

theorem Extends.refl (s : Spread) : s.Extends s :=
  ⟨fun _ h => h, fun _ _ h => h, fun _ h => h, fun _ _ => ⟨id, fun _ h => h⟩⟩

theorem Extends.trans {s₁ s₂ s₃ : Spread} (h : s₁.Extends s₂) (h' : s₂.Extends s₃) :
    s₁.Extends s₃ where
  mem j hj := h'.mem j (h.mem j hj)
  contains j n hn := h'.contains j n (h.contains j n hn)
  work j hj := h'.work j (h.work j hj)
  settled j hj := by
    have hj₂ : j ∉ s₂.work := fun hw => hj (h'.work j hw)
    exact ⟨fun hm => (h.settled j hj₂).1 ((h'.settled j hj).1 hm),
      fun n hn => (h.settled j hj₂).2 n ((h'.settled j hj).2 n hn)⟩

theorem extends_give (s : Spread) (set : BitSet) (item : Item) : s.Extends (s.give set item) where
  mem j hj := mem_give.2 (Or.inl hj)
  contains j n hn := contains_give.2 (Or.inl hn)
  work j hj := by
    rcases give_cases s set item with ⟨he, -⟩ | ⟨he, -⟩
    · rwa [he]
    · rw [he]
      exact List.mem_cons_of_mem _ hj
  settled j hj := by
    rcases give_cases s set item with ⟨he, -⟩ | ⟨he, -⟩
    · rw [he]
      exact ⟨id, fun _ h => h⟩
    · have hne : j ≠ item := by
        rintro rfl
        rw [he] at hj
        exact hj List.mem_cons_self
      exact ⟨fun h => (mem_give.1 h).resolve_right hne,
        fun n h => (contains_give.1 h).resolve_right fun h => hne h.1⟩

/-! ## Several gifts -/

variable {gifts : List (Item × BitSet)}

theorem mem_giveAll : j ∈ (s.giveAll gifts).sets ↔ j ∈ s.sets ∨ ∃ gift ∈ gifts, j = gift.1 := by
  unfold giveAll
  induction gifts generalizing s with
  | nil => simp
  | cons gift gifts ih => rw [List.foldl_cons, ih, mem_give, List.exists_mem_cons_iff, or_assoc]

theorem contains_giveAll : ((s.giveAll gifts).lookaheads j).contains n = true ↔
    (s.lookaheads j).contains n = true ∨
      ∃ gift ∈ gifts, j = gift.1 ∧ gift.2.contains n = true := by
  unfold giveAll
  induction gifts generalizing s with
  | nil => simp
  | cons gift gifts ih =>
    rw [List.foldl_cons, ih, contains_give, List.exists_mem_cons_iff, or_assoc]

theorem extends_giveAll (s : Spread) (gifts : List (Item × BitSet)) :
    s.Extends (s.giveAll gifts) := by
  unfold giveAll
  induction gifts generalizing s with
  | nil => exact .refl s
  | cons gift gifts ih => exact (extends_give s gift.2 gift.1).trans (ih _)

theorem mem_of_mem_work_giveAll (hs : ∀ j ∈ s.work, j ∈ s.sets) :
    ∀ j ∈ (s.giveAll gifts).work, j ∈ (s.giveAll gifts).sets := by
  unfold giveAll
  induction gifts generalizing s with
  | nil => exact hs
  | cons gift gifts ih =>
    exact ih fun j hj => mem_give.2 ((mem_work_give hj).imp_left (hs j))

theorem length_work_giveAll_le (s : Spread) (gifts : List (Item × BitSet)) :
    (s.giveAll gifts).work.length ≤ s.work.length + gifts.length := by
  unfold giveAll
  induction gifts generalizing s with
  | nil => exact Nat.le_refl _
  | cons gift gifts ih =>
    have hone := length_work_give_le s gift.2 gift.1
    have hrest := ih (s.give gift.2 gift.1)
    rw [List.foldl_cons, List.length_cons]
    omega

/-! ## Work -/

/-- What the initial items of `count` productions hold: that they have been found, and their
lookaheads. -/
def held (count : Nat) (s : Spread) : Finset (Nat × Nat) :=
  (Finset.range count ×ˢ Finset.range (width + 1)).filter fun x =>
    (⟨x.1, 0⟩ : Item) ∈ s.sets ∧ (x.2 = width ∨ (s.lookaheads ⟨x.1, 0⟩).contains x.2 = true)

theorem card_held_le (count : Nat) (s : Spread) : (held count s).card ≤ count * (width + 1) := by
  refine (Finset.card_filter_le _ _).trans ?_
  rw [Finset.card_product, Finset.card_range, Finset.card_range]

theorem held_mono {s' : Spread} (h : s.Extends s') (count : Nat) :
    held count s ⊆ held count s' := by
  intro x hx
  rw [held, Finset.mem_filter] at hx ⊢
  exact ⟨hx.1, h.mem _ hx.2.1, hx.2.2.imp id (h.contains _ _)⟩

/-- Each gift that makes work adds to what is held. -/
theorem work_give {count p : Nat} (hp : p < count) (hset : ∀ n, set.contains n = true → n < width) :
    (s.give set ⟨p, 0⟩).work.length + (held count s).card ≤
      s.work.length + (held count (s.give set ⟨p, 0⟩)).card := by
  have hmono := held_mono (extends_give s set ⟨p, 0⟩) count
  rcases give_cases s set ⟨p, 0⟩ with ⟨he, -⟩ | ⟨he, hnew⟩
  · rw [he]
  · have hmem : (⟨p, 0⟩ : Item) ∈ (s.give set ⟨p, 0⟩).sets := mem_give.2 (Or.inr rfl)
    have hlt : (held count s).card < (held count (s.give set ⟨p, 0⟩)).card := by
      refine Finset.card_lt_card ((Finset.ssubset_iff_of_subset hmono).2 ?_)
      rcases hnew with hnew | ⟨n, hn, hold⟩
      · refine ⟨(p, width), Finset.mem_filter.2 ⟨?_, hmem, Or.inl rfl⟩, fun h => ?_⟩
        · exact Finset.mem_product.2 ⟨Finset.mem_range.2 hp, Finset.mem_range.2 (by simp)⟩
        · exact hnew (Finset.mem_filter.1 h).2.1
      · refine ⟨(p, n), Finset.mem_filter.2 ⟨?_, hmem, Or.inr ?_⟩, fun h => ?_⟩
        · have hwidth := hset n hn
          exact Finset.mem_product.2 ⟨Finset.mem_range.2 hp, Finset.mem_range.2 (by omega)⟩
        · exact contains_give.2 (Or.inr ⟨rfl, hn⟩)
        · rcases (Finset.mem_filter.1 h).2.2 with rfl | h
          · exact Nat.lt_irrefl _ (hset _ hn)
          · exact hold h
    have hlength : (s.give set ⟨p, 0⟩).work.length = s.work.length + 1 := by
      rw [he, List.length_cons]
    omega

theorem work_giveAll {count : Nat}
    (hgifts : ∀ gift ∈ gifts, (∃ p < count, gift.1 = ⟨p, 0⟩) ∧
      ∀ n, gift.2.contains n = true → n < width) :
    (s.giveAll gifts).work.length + (held count s).card ≤
      s.work.length + (held count (s.giveAll gifts)).card := by
  unfold giveAll
  induction gifts generalizing s with
  | nil => exact Nat.le_refl _
  | cons gift gifts ih =>
    obtain ⟨⟨p, hp, hitem⟩, hset⟩ := hgifts gift List.mem_cons_self
    have hone := work_give (s := s) hp hset
    have hrest := ih (s := s.give gift.2 gift.1) fun gift hg =>
      hgifts gift (List.mem_cons_of_mem _ hg)
    rw [← hitem] at hone
    rw [List.foldl_cons]
    omega

end Spread

namespace Grammar

open Spread

variable {g : Grammar} {seeds : List (Item × BitSet)} {s : Spread} {item : Item} {n : Nat}

/-! ## What items receive -/

/-- A kernel hands a token on to an item of its state, or brings it along. -/
inductive Receives (g : Grammar) (seeds : List (Item × BitSet)) : Item → Nat → Prop where
  | seed {item : Item} {set : BitSet} {n : Nat} : (item, set) ∈ seeds → set.contains n = true →
    Receives g seeds item n
  | first {item : Item} {p n : Nat} {rest : List Symbol} :
    item ∈ g.analysis.closure (seeds.map Prod.fst) → p < g.augmented.productions.size →
    g.analysis.remaining item = .nonterminal (g.augmented.lhs p) :: rest →
    (g.analysis.firstOf rest).1.contains n = true → Receives g seeds ⟨p, 0⟩ n
  | rest {item : Item} {p n : Nat} {rest : List Symbol} :
    item ∈ g.analysis.closure (seeds.map Prod.fst) → p < g.augmented.productions.size →
    g.analysis.remaining item = .nonterminal (g.augmented.lhs p) :: rest →
    (g.analysis.firstOf rest).2 = true → Receives g seeds item n → Receives g seeds ⟨p, 0⟩ n

/-- What has been found belongs to the state, and has received what it has. -/
structure Sound (g : Grammar) (seeds : List (Item × BitSet)) (s : Spread) : Prop where
  mem : ∀ item ∈ s.sets, item ∈ g.analysis.closure (seeds.map Prod.fst)
  contains : ∀ item n, (s.lookaheads item).contains n = true → g.Receives seeds item n
  work : ∀ item ∈ s.work, item ∈ s.sets

/-- The item has handed on its lookaheads. -/
def Handed (g : Grammar) (s : Spread) (item : Item) : Prop :=
  ∀ p < g.augmented.productions.size, ∀ rest,
    g.analysis.remaining item = .nonterminal (g.augmented.lhs p) :: rest →
    ⟨p, 0⟩ ∈ s.sets ∧ (∀ n, (g.analysis.firstOf rest).1.contains n = true →
      (s.lookaheads ⟨p, 0⟩).contains n = true) ∧
    ((g.analysis.firstOf rest).2 = true → ∀ n, (s.lookaheads item).contains n = true →
      (s.lookaheads ⟨p, 0⟩).contains n = true)

theorem handOn_eq (an : Analysis) {id : Nat} {rest : List Symbol}
    (hr : an.remaining item = .nonterminal id :: rest) (s : Spread) :
    an.handOn item s = s.giveAll ((an.augmented.productionsOf id).map fun p =>
      (⟨p, 0⟩, an.followOf rest (s.lookaheads item))) := by
  unfold Analysis.handOn
  rw [hr]

theorem handOn_of_ne (an : Analysis) (s : Spread)
    (h : ∀ id rest, an.remaining item ≠ .nonterminal id :: rest) : an.handOn item s = s := by
  unfold Analysis.handOn
  split
  · next id rest hr => exact absurd hr (h id rest)
  · rfl

theorem contains_followOf {rest : List Symbol} {own : BitSet} :
    (g.analysis.followOf rest own).contains n = true ↔
      (g.analysis.firstOf rest).1.contains n = true ∨
        (g.analysis.firstOf rest).2 = true ∧ own.contains n = true := by
  unfold Analysis.followOf
  dsimp only
  by_cases h : (g.analysis.firstOf rest).2 = true
  · rw [if_pos h, BitSet.contains_union, Bool.or_eq_true]
    exact or_congr_right ⟨fun hn => ⟨h, hn⟩, fun hn => hn.2⟩
  · rw [if_neg h]
    exact ⟨Or.inl, fun hn => hn.resolve_right fun hn => h hn.1⟩

theorem lt_mark_of_firstOf (hg : g.WellFormed) {rest : List Symbol}
    (h : (g.analysis.firstOf rest).1.contains n = true) : n < mark := by
  obtain ⟨k, rfl, -⟩ := (contains_firstOf hg).1 h
  exact k.index_lt_mark

theorem Receives.lt_width (hg : g.WellFormed)
    (hseeds : ∀ seed ∈ seeds, ∀ n, seed.2.contains n = true → n < width)
    (h : g.Receives seeds item n) : n < width := by
  induction h with
  | seed hmem hn => exact hseeds _ hmem _ hn
  | first _ _ _ hn => exact Nat.lt_succ_of_lt (lt_mark_of_firstOf hg hn)
  | rest _ _ _ _ _ ih => exact ih

/-! ## Steps -/

/-- The work on one item keeps to the state. -/
theorem Sound.handOn (hg : g.WellFormed) (h : g.Sound seeds s)
    (hitem : item ∈ g.analysis.closure (seeds.map Prod.fst)) :
    g.Sound seeds (g.analysis.handOn item s) := by
  by_cases hr : ∃ id rest, g.analysis.remaining item = .nonterminal id :: rest
  · obtain ⟨id, rest, hr⟩ := hr
    rw [handOn_eq _ hr]
    refine ⟨fun j hj => ?_, fun j n hn => ?_, mem_of_mem_work_giveAll h.work⟩
    · rcases mem_giveAll.1 hj with hj | ⟨gift, hgift, rfl⟩
      · exact h.mem j hj
      · obtain ⟨p, hp, rfl⟩ := List.mem_map.1 hgift
        obtain ⟨hlt, rfl⟩ := (mem_productionsOf hg).1 hp
        exact closure_expand hg hitem hlt hr
    · rcases contains_giveAll.1 hn with hold | ⟨gift, hgift, rfl, hgot⟩
      · exact h.contains j n hold
      · obtain ⟨p, hp, rfl⟩ := List.mem_map.1 hgift
        obtain ⟨hlt, rfl⟩ := (mem_productionsOf hg).1 hp
        rcases contains_followOf.1 hgot with hfirst | ⟨hempty, hown⟩
        · exact .first hitem hlt hr hfirst
        · exact .rest hitem hlt hr hempty (h.contains item n hown)
  · rw [handOn_of_ne _ _ fun id rest he => hr ⟨id, rest, he⟩]
    exact h

theorem extends_handOn (g : Grammar) (item : Item) (s : Spread) :
    s.Extends (g.analysis.handOn item s) := by
  unfold Analysis.handOn
  split
  · exact extends_giveAll _ _
  · exact .refl s

/-- An item has handed on its lookaheads unless it has got more. -/
theorem handed_handOn (hg : g.WellFormed) (hw : item ∉ (g.analysis.handOn item s).work) :
    g.Handed (g.analysis.handOn item s) item := by
  have hkeep := ((extends_handOn g item s).settled item hw).2
  intro p hp rest hr
  have hgift : ((⟨p, 0⟩ : Item), g.analysis.followOf rest (s.lookaheads item)) ∈
      (g.augmented.productionsOf (g.augmented.lhs p)).map fun p =>
        ((⟨p, 0⟩ : Item), g.analysis.followOf rest (s.lookaheads item)) :=
    List.mem_map.2 ⟨p, (mem_productionsOf hg).2 ⟨hp, rfl⟩, rfl⟩
  rw [handOn_eq _ hr] at hkeep ⊢
  refine ⟨mem_giveAll.2 (Or.inr ⟨_, hgift, rfl⟩), fun n hn => ?_, fun hempty n hn => ?_⟩
  · exact contains_giveAll.2 (Or.inr ⟨_, hgift, rfl, contains_followOf.2 (Or.inl hn)⟩)
  · exact contains_giveAll.2 (Or.inr ⟨_, hgift, rfl,
      contains_followOf.2 (Or.inr ⟨hempty, hkeep n hn⟩)⟩)

/-- What has been handed on stays so while nothing is added to it. -/
theorem Handed.extends {s' : Spread} (h : g.Handed s item) (he : s.Extends s')
    (hw : item ∉ s'.work) : g.Handed s' item := by
  intro p hp rest hr
  obtain ⟨hmem, hfirst, hrest⟩ := h p hp rest hr
  exact ⟨he.mem _ hmem, fun n hn => he.contains _ n (hfirst n hn), fun hempty n hn =>
    he.contains _ n (hrest hempty n ((he.settled item hw).2 n hn))⟩

/-- What holds while lookaheads are handed on. -/
structure Spreading (g : Grammar) (seeds : List (Item × BitSet)) (s : Spread) : Prop where
  sound : g.Sound seeds s
  seeds : ∀ seed ∈ seeds, seed.1 ∈ s.sets ∧
    ∀ n, seed.2.contains n = true → (s.lookaheads seed.1).contains n = true
  /-- An item without work has handed on its lookaheads. -/
  handed : ∀ item ∈ s.sets, item ∉ s.work → g.Handed s item

/-- **Each piece of work keeps the invariant and leaves less to do.** -/
theorem Spreading.handOn (hg : g.WellFormed)
    (hseeds : ∀ seed ∈ seeds, ∀ n, seed.2.contains n = true → n < width) {work : List Item}
    (h : g.Spreading seeds s) (hwork : s.work = item :: work) :
    g.Spreading seeds (g.analysis.handOn item { s with work }) ∧
      (g.analysis.handOn item { s with work }).work.length +
        (held g.augmented.productions.size s).card <
      s.work.length + (held g.augmented.productions.size
        (g.analysis.handOn item { s with work })).card := by
  have hmem := h.sound.work item (by rw [hwork]; exact List.mem_cons_self)
  have hitem := h.sound.mem item hmem
  have hsound : g.Sound seeds { s with work } :=
    ⟨h.sound.mem, h.sound.contains, fun j hj =>
      h.sound.work j (by rw [hwork]; exact List.mem_cons_of_mem _ hj)⟩
  have hext := extends_handOn g item { s with work }
  refine ⟨⟨hsound.handOn hg hitem, fun seed hseed => ?_, fun j hj hw => ?_⟩, ?_⟩
  · obtain ⟨hfound, hgot⟩ := h.seeds seed hseed
    exact ⟨hext.mem _ hfound, fun n hn => hext.contains _ n (hgot n hn)⟩
  · by_cases hne : j = item
    · subst hne
      exact handed_handOn hg hw
    · refine Handed.extends ?_ hext hw
      have hold : j ∉ s.work := by
        rw [hwork, List.mem_cons]
        exact fun hj => hj.elim hne fun hj => hw (hext.work j hj)
      exact h.handed j ((hext.settled j hw).1 hj) hold
  · have hle : (g.analysis.handOn item { s with work }).work.length +
        (held g.augmented.productions.size s).card ≤ work.length +
          (held g.augmented.productions.size (g.analysis.handOn item { s with work })).card := by
      by_cases hr : ∃ id rest, g.analysis.remaining item = .nonterminal id :: rest
      · obtain ⟨id, rest, hr⟩ := hr
        rw [handOn_eq _ hr]
        refine work_giveAll (s := { s with work }) fun gift hgift => ?_
        obtain ⟨p, hp, rfl⟩ := List.mem_map.1 hgift
        refine ⟨⟨p, ((mem_productionsOf hg).1 hp).1, rfl⟩, fun n hn => ?_⟩
        rcases contains_followOf.1 hn with hfirst | ⟨-, hown⟩
        · exact Nat.lt_succ_of_lt (lt_mark_of_firstOf hg hfirst)
        · exact (h.sound.contains item n hown).lt_width hg hseeds
      · rw [handOn_of_ne _ _ fun id rest he => hr ⟨id, rest, he⟩]
        exact Nat.le_refl _
    rw [hwork, List.length_cons]
    omega

/-- With enough fuel the work gets done. -/
theorem Spreading.spreadFrom (hg : g.WellFormed)
    (hseeds : ∀ seed ∈ seeds, ∀ n, seed.2.contains n = true → n < width)
    (h : g.Spreading seeds s) {fuel : Nat}
    (hfuel : s.work.length + g.augmented.productions.size * (width + 1) ≤
      fuel + (held g.augmented.productions.size s).card) :
    g.Spreading seeds (g.analysis.spreadFrom fuel s) ∧
      (g.analysis.spreadFrom fuel s).work = [] := by
  induction fuel generalizing s with
  | zero =>
    have hle := card_held_le g.augmented.productions.size s
    have hnone : s.work.length = 0 := by omega
    exact ⟨h, List.length_eq_zero_iff.1 hnone⟩
  | succ fuel ih =>
    unfold Analysis.spreadFrom
    split
    · next hwork => exact ⟨h, hwork⟩
    · next item work hwork =>
      obtain ⟨hnext, hless⟩ := h.handOn hg hseeds hwork
      exact ih hnext (by omega)

/-! ## What is found -/

theorem spreading_seeds (g : Grammar) (seeds : List (Item × BitSet)) :
    g.Spreading seeds (giveAll {} seeds) := by
  have hmem {j : Item} (hj : j ∈ (giveAll {} seeds).sets) : ∃ seed ∈ seeds, j = seed.1 :=
    (mem_giveAll.1 hj).resolve_left (by simp)
  refine ⟨⟨fun j hj => ?_, fun j n hn => ?_, ?_⟩, fun seed hseed => ?_, fun j hj hw => ?_⟩
  · obtain ⟨seed, hseed, rfl⟩ := hmem hj
    exact mem_closure_of_mem (List.mem_map_of_mem hseed)
  · rcases contains_giveAll.1 hn with hold | ⟨seed, hseed, rfl, hgot⟩
    · simp [lookaheads] at hold
    · exact .seed hseed hgot
  · exact mem_of_mem_work_giveAll (by simp)
  · exact ⟨mem_giveAll.2 (Or.inr ⟨seed, hseed, rfl⟩), fun n hn =>
      contains_giveAll.2 (Or.inr ⟨seed, hseed, rfl, hn⟩)⟩
  · exact absurd (((extends_giveAll {} seeds).settled j hw).1 hj) (by simp)

variable (hg : g.WellFormed)
  (hseeds : ∀ seed ∈ seeds, ∀ n, seed.2.contains n = true → n < width)

include hg hseeds

theorem spread_spec : g.Spreading seeds (g.analysis.spread seeds) ∧
    (g.analysis.spread seeds).work = [] := by
  refine (spreading_seeds g seeds).spreadFrom hg hseeds ?_
  have hle := length_work_giveAll_le {} seeds
  have hempty : (({} : Spread).work).length = 0 := rfl
  rw [hempty] at hle
  exact Nat.le_trans (Nat.add_le_add_right (by omega) _) (Nat.le_add_right _ _)

/-- **All items of the state are found, and no others.** -/
theorem mem_spread : item ∈ (g.analysis.spread seeds).sets ↔
    item ∈ g.analysis.closure (seeds.map Prod.fst) := by
  obtain ⟨h, hwork⟩ := spread_spec hg hseeds
  refine ⟨h.sound.mem item, closure_induction (fun i hi => ?_) (fun i hi p hp rest hr => ?_) hg⟩
  · obtain ⟨seed, hseed, rfl⟩ := List.mem_map.1 hi
    exact (h.seeds seed hseed).1
  · have hdone : i ∉ (g.analysis.spread seeds).work := by
      rw [hwork]
      exact List.not_mem_nil
    exact (h.handed i hi hdone p hp rest hr).1

/-- **Each item is given what it receives.** -/
theorem contains_spread : ((g.analysis.spread seeds).lookaheads item).contains n = true ↔
    g.Receives seeds item n := by
  obtain ⟨h, hwork⟩ := spread_spec hg hseeds
  have hhanded {item : Item} (hitem : item ∈ g.analysis.closure (seeds.map Prod.fst)) :
      g.Handed (g.analysis.spread seeds) item := by
    refine h.handed item ((mem_spread hg hseeds).2 hitem) ?_
    rw [hwork]
    exact List.not_mem_nil
  refine ⟨h.sound.contains item n, fun hreceives => ?_⟩
  induction hreceives with
  | seed hmem hn => exact (h.seeds _ hmem).2 _ hn
  | first hitem hp hr hn => exact (hhanded hitem _ hp _ hr).2.1 _ hn
  | rest hitem hp hr hempty _ ih => exact (hhanded hitem _ hp _ hr).2.2 hempty _ ih

end Grammar

end AsmTree
