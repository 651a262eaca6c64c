import AsmTree.Table.BitSet
import Mathlib.Data.Finset.Card
import Mathlib.Data.Finset.Prod

/-!
# Least solutions of inclusions

`Inclusions.solve` sweeps over the links of a system until nothing changes. **Main statements:**

* `solve_bound` and `solve_link`: the sets that it yields contain their lower bounds and respect
  every link, so the sweeps have not been cut short;
* `solve_least`: a relation that contains the bounds and respects the links contains those sets.

Systems are built by folds over a grammar. `Adds` says of one step of such a fold which demands it
adds to the system, whatever the system was before.
-/

namespace AsmTree

namespace BitSet

theorem ext {a b : BitSet} (h : ∀ i, a.contains i = b.contains i) : a = b := by
  cases a with
  | mk x =>
    cases b with
    | mk y => exact congrArg BitSet.mk (Nat.eq_of_testBit_eq h)

theorem lt_of_contains {s : BitSet} {i : Nat} (h : s.contains i = true) :
    i < s.bits.log2 + 1 := by
  have hle : 2 ^ i ≤ s.bits := Nat.ge_two_pow_of_testBit h
  have hne : s.bits ≠ 0 := by
    have hpos := Nat.two_pow_pos i
    omega
  have := (Nat.le_log2 hne).2 hle
  omega

end BitSet

namespace Inclusions

/-! ## Members of unknowns -/

def Member (sets : Array BitSet) (v i : Nat) : Prop := (sets.getD v ∅).contains i = true

instance (sets : Array BitSet) (v i : Nat) : Decidable (Member sets v i) :=
  inferInstanceAs (Decidable ((sets.getD v ∅).contains i = true))

theorem not_member_of_size_le {sets : Array BitSet} {v : Nat} (h : sets.size ≤ v) (i : Nat) :
    ¬ Member sets v i := by
  intro hm
  rw [Member, Array.getD_eq_getD_getElem?, Array.getElem?_eq_none h] at hm
  simp at hm

theorem member_setIfInBounds {sets : Array BitSet} {w : Nat} {s : BitSet} {v i : Nat} :
    Member (sets.setIfInBounds w s) v i ↔
      if v = w ∧ w < sets.size then s.contains i = true else Member sets v i := by
  unfold Member
  rw [Array.getD_eq_getD_getElem?, Array.getElem?_setIfInBounds]
  by_cases hv : w = v
  · subst hv
    by_cases hw : w < sets.size
    · simp [hw]
    · simp [hw]
  · rw [if_neg hv, if_neg (fun h => hv h.1.symm), Array.getD_eq_getD_getElem?]

@[simp] theorem size_enforce (sw : Sweep) (ab : Nat × Nat) :
    (enforce sw ab).sets.size = sw.sets.size := by
  unfold enforce
  dsimp only
  split
  · rfl
  · exact Array.size_setIfInBounds

/-- Making one inclusion hold adds to one unknown what the other contains. -/
theorem member_enforce {sw : Sweep} {ab : Nat × Nat} {v i : Nat} :
    Member (enforce sw ab).sets v i ↔
      Member sw.sets v i ∨ (v = ab.2 ∧ ab.2 < sw.sets.size ∧ Member sw.sets ab.1 i) := by
  unfold enforce
  dsimp only
  split
  · next h =>
    refine ⟨Or.inl, ?_⟩
    rintro (hm | ⟨rfl, -, hm⟩)
    · exact hm
    · rw [Member, ← h, BitSet.contains_union, Bool.or_eq_true]
      exact Or.inr hm
  · rw [member_setIfInBounds]
    split
    · next h =>
      obtain ⟨rfl, hlt⟩ := h
      rw [BitSet.contains_union, Bool.or_eq_true]
      constructor
      · rintro (hm | hm)
        · exact Or.inl hm
        · exact Or.inr ⟨rfl, hlt, hm⟩
      · rintro (hm | ⟨-, -, hm⟩)
        · exact Or.inl hm
        · exact Or.inr hm
    · next h =>
      refine ⟨Or.inl, ?_⟩
      rintro (hm | ⟨rfl, hlt, -⟩)
      · exact hm
      · exact absurd ⟨rfl, hlt⟩ h

/-! ## Sweeps -/

@[simp] theorem size_foldl_enforce (links : List (Nat × Nat)) (sw : Sweep) :
    (links.foldl enforce sw).sets.size = sw.sets.size := by
  induction links generalizing sw with
  | nil => rfl
  | cons ab links ih => rw [List.foldl_cons, ih, size_enforce]

theorem member_foldl_enforce {links : List (Nat × Nat)} {sw : Sweep} {v i : Nat}
    (h : Member sw.sets v i) : Member (links.foldl enforce sw).sets v i := by
  induction links generalizing sw with
  | nil => exact h
  | cons ab links ih => exact ih (member_enforce.2 (Or.inl h))

theorem foldl_enforce_least {P : Nat → Nat → Prop} {links : List (Nat × Nat)} {sw : Sweep}
    (hl : ∀ ab ∈ links, ab.2 < sw.sets.size → ∀ i, P ab.1 i → P ab.2 i)
    (hs : ∀ v i, Member sw.sets v i → P v i) :
    ∀ v i, Member (links.foldl enforce sw).sets v i → P v i := by
  induction links generalizing sw with
  | nil => exact hs
  | cons ab links ih =>
    refine ih (fun x hx hlt => hl x (List.mem_cons_of_mem _ hx) (size_enforce sw ab ▸ hlt))
      fun v i hm => ?_
    rcases member_enforce.1 hm with hm | ⟨rfl, hlt, hm⟩
    · exact hs v i hm
    · exact hl ab List.mem_cons_self hlt i (hs _ i hm)

/-- A sweep that adds nothing has found every inclusion in force. -/
theorem link_of_foldl_enforce {links : List (Nat × Nat)} {sw : Sweep}
    (h : ∀ v i, Member (links.foldl enforce sw).sets v i → Member sw.sets v i) :
    ∀ ab ∈ links, ab.2 < sw.sets.size → ∀ i, Member sw.sets ab.1 i → Member sw.sets ab.2 i := by
  induction links generalizing sw with
  | nil => intro ab hab; cases hab
  | cons x links ih =>
    rw [List.foldl_cons] at h
    have hback : ∀ v i, Member (enforce sw x).sets v i → Member sw.sets v i := by
      intro v i hv
      exact h v i (member_foldl_enforce hv)
    have hforth : ∀ v i, Member sw.sets v i → Member (enforce sw x).sets v i := by
      intro v i hv
      exact member_enforce.2 (Or.inl hv)
    have htail := ih fun v i hv => hforth v i (h v i hv)
    intro ab hab hlt i hm
    rcases List.mem_cons.1 hab with hx | hab
    · rw [hx] at hlt hm ⊢
      exact hback _ i (member_enforce.2 (Or.inr ⟨rfl, hlt, hm⟩))
    · rw [← size_enforce sw x] at hlt
      exact hback _ i (htail ab hab hlt i (hforth _ i hm))

theorem changed_foldl_enforce {links : List (Nat × Nat)} {sw : Sweep} (h : sw.changed = true) :
    (links.foldl enforce sw).changed = true := by
  induction links generalizing sw with
  | nil => exact h
  | cons ab links ih =>
    apply ih
    unfold enforce
    dsimp only
    split
    · exact h
    · rfl

/-- A sweep that reports no change has made none. -/
theorem foldl_enforce_of_not_changed {links : List (Nat × Nat)} {sw : Sweep}
    (h : (links.foldl enforce sw).changed = false) : links.foldl enforce sw = sw := by
  induction links generalizing sw with
  | nil => rfl
  | cons ab links ih =>
    have he : enforce sw ab = sw := by
      by_contra hne
      have hc : (enforce sw ab).changed = true := by
        revert hne
        unfold enforce
        dsimp only
        split
        · intro hne; exact absurd rfl hne
        · intro _; rfl
      rw [List.foldl_cons, changed_foldl_enforce hc] at h
      cases h
    rw [List.foldl_cons, he] at h ⊢
    exact ih h

/-! ## Sweeping until nothing changes -/

theorem sweep_eq_foldl (links : Array (Nat × Nat)) (sets : Array BitSet) :
    sweep links sets = links.toList.foldl enforce ⟨sets, false⟩ :=
  (Array.foldl_toList ..).symm

@[simp] theorem size_settle (links : Array (Nat × Nat)) (fuel : Nat) (sets : Array BitSet) :
    (settle links fuel sets).size = sets.size := by
  induction fuel generalizing sets with
  | zero => rfl
  | succ fuel ih =>
    unfold settle
    dsimp only
    split
    · rw [ih, sweep_eq_foldl, size_foldl_enforce]
    · rw [sweep_eq_foldl, size_foldl_enforce]

theorem member_settle {links : Array (Nat × Nat)} {fuel : Nat} {sets : Array BitSet} {v i : Nat}
    (h : Member sets v i) : Member (settle links fuel sets) v i := by
  induction fuel generalizing sets with
  | zero => exact h
  | succ fuel ih =>
    have hs : Member (sweep links sets).sets v i := by
      rw [sweep_eq_foldl]
      exact member_foldl_enforce h
    unfold settle
    dsimp only
    split
    · exact ih hs
    · exact hs

theorem settle_least {P : Nat → Nat → Prop} {links : Array (Nat × Nat)} {fuel : Nat}
    {sets : Array BitSet} (hl : ∀ ab ∈ links, ab.2 < sets.size → ∀ i, P ab.1 i → P ab.2 i)
    (hs : ∀ v i, Member sets v i → P v i) : ∀ v i, Member (settle links fuel sets) v i → P v i := by
  induction fuel generalizing sets with
  | zero => exact hs
  | succ fuel ih =>
    have hsweep : ∀ v i, Member (sweep links sets).sets v i → P v i := by
      rw [sweep_eq_foldl]
      exact foldl_enforce_least (fun ab hab => hl ab (Array.mem_toList_iff.1 hab)) hs
    have hsize : (sweep links sets).sets.size = sets.size := by
      rw [sweep_eq_foldl, size_foldl_enforce]
    unfold settle
    dsimp only
    split
    · exact ih (fun ab hab hlt => hl ab hab (hsize ▸ hlt)) hsweep
    · exact hsweep

/-- Every inclusion between unknowns of the system is in force. -/
def Settled (links : Array (Nat × Nat)) (sets : Array BitSet) : Prop :=
  ∀ ab ∈ links, ab.2 < sets.size → ∀ i, Member sets ab.1 i → Member sets ab.2 i

theorem Settled.congr {links : Array (Nat × Nat)} {a b : Array BitSet} (h : Settled links a)
    (hsize : b.size = a.size) (hab : ∀ v i, Member b v i ↔ Member a v i) : Settled links b := by
  intro x hx hlt i hm
  exact (hab _ i).2 (h x hx (hsize ▸ hlt) i ((hab _ i).1 hm))

theorem settled_of_sweep {links : Array (Nat × Nat)} {sets : Array BitSet}
    (h : ∀ v i, Member (sweep links sets).sets v i → Member sets v i) : Settled links sets := by
  rw [sweep_eq_foldl] at h
  intro ab hab hlt i hm
  exact link_of_foldl_enforce h ab (Array.mem_toList_iff.2 hab) hlt i hm

theorem member_settle_iff {links : Array (Nat × Nat)} {fuel : Nat} {sets : Array BitSet}
    (h : Settled links sets) (v i : Nat) : Member (settle links fuel sets) v i ↔ Member sets v i :=
  ⟨settle_least h (fun _ _ hm => hm) v i, member_settle⟩

/-- The members below `w` of all unknowns. -/
def members (w : Nat) (sets : Array BitSet) : Finset (Nat × Nat) :=
  (Finset.range sets.size ×ˢ Finset.range w).filter fun vi => Member sets vi.1 vi.2

theorem mem_members {w : Nat} {sets : Array BitSet} {v i : Nat} :
    (v, i) ∈ members w sets ↔ i < w ∧ Member sets v i := by
  simp only [members, Finset.mem_filter, Finset.mem_product, Finset.mem_range]
  constructor
  · rintro ⟨⟨-, hi⟩, hm⟩
    exact ⟨hi, hm⟩
  · rintro ⟨hi, hm⟩
    refine ⟨⟨?_, hi⟩, hm⟩
    by_contra hv
    exact not_member_of_size_le (Nat.le_of_not_lt hv) i hm

theorem card_members_le (w : Nat) (sets : Array BitSet) :
    (members w sets).card ≤ sets.size * w := by
  refine (Finset.card_filter_le _ _).trans ?_
  rw [Finset.card_product, Finset.card_range, Finset.card_range]

/-- Enough sweeps settle a system: each but the last adds a member. -/
theorem settled_settle {w : Nat} {links : Array (Nat × Nat)} {fuel : Nat} {sets : Array BitSet}
    (hw : ∀ v i, Member sets v i → i < w) (hf : sets.size * w < (members w sets).card + fuel) :
    Settled links (settle links fuel sets) := by
  induction fuel generalizing sets with
  | zero =>
    have := card_members_le w sets
    omega
  | succ fuel ih =>
    have hmono : ∀ v i, Member sets v i → Member (sweep links sets).sets v i := by
      rw [sweep_eq_foldl]
      exact fun v i hm => member_foldl_enforce hm
    have hsize : (sweep links sets).sets.size = sets.size := by
      rw [sweep_eq_foldl, size_foldl_enforce]
    have hlt : ∀ v i, Member (sweep links sets).sets v i → i < w := by
      rw [sweep_eq_foldl]
      exact foldl_enforce_least (P := fun _ i => i < w) (fun _ _ _ _ hi => hi) hw
    by_cases hsame : ∀ v i, Member (sweep links sets).sets v i → Member sets v i
    · -- nothing was added, so every later sweep keeps the sets as they are
      have hset : Settled links (sweep links sets).sets :=
        (settled_of_sweep hsame).congr hsize fun v i => ⟨hsame v i, hmono v i⟩
      unfold settle
      dsimp only
      split
      · exact hset.congr (size_settle _ _ _) (member_settle_iff hset)
      · exact hset
    · have hcard : (members w sets).card < (members w (sweep links sets).sets).card := by
        push Not at hsame
        obtain ⟨v, i, hnew, hold⟩ := hsame
        refine Finset.card_lt_card (Finset.ssubset_iff_of_subset ?_ |>.2 ⟨(v, i), ?_, ?_⟩)
        · rintro ⟨v, i⟩ hm
          rw [mem_members] at hm ⊢
          exact ⟨hm.1, hmono v i hm.2⟩
        · exact mem_members.2 ⟨hlt v i hnew, hnew⟩
        · exact fun hm => hold (mem_members.1 hm).2
      unfold settle
      dsimp only
      split
      · refine ih hlt ?_
        rw [hsize]
        omega
      · next hc =>
        exfalso
        apply hsame
        rw [sweep_eq_foldl] at hc ⊢
        rw [foldl_enforce_of_not_changed (by simpa using hc)]
        exact fun _ _ hm => hm

/-! ## The solution -/

theorem member_lt_width {sys : Inclusions} {v i : Nat} (h : Member sys.bounds v i) :
    i < sys.width := by
  have hv : v < sys.bounds.size := by
    by_contra hv
    exact not_member_of_size_le (Nat.le_of_not_lt hv) i h
  have hmax : ∀ (l : List BitSet) (w : Nat), w ≤ l.foldl (fun w s => max w (s.bits.log2 + 1)) w ∧
      ∀ s ∈ l, s.bits.log2 + 1 ≤ l.foldl (fun w s => max w (s.bits.log2 + 1)) w := by
    intro l
    induction l with
    | nil => intro w; exact ⟨Nat.le_refl _, fun s hs => by cases hs⟩
    | cons x l ih =>
      intro w
      obtain ⟨h1, h2⟩ := ih (max w (x.bits.log2 + 1))
      refine ⟨(Nat.le_max_left _ _).trans h1, fun s hs => ?_⟩
      rcases List.mem_cons.1 hs with rfl | hs
      · exact (Nat.le_max_right _ _).trans h1
      · exact h2 s hs
  have hmem : sys.bounds[v] ∈ sys.bounds.toList := by simp
  have hle := (hmax sys.bounds.toList 0).2 _ hmem
  rw [Array.foldl_toList] at hle
  have hi : i < sys.bounds[v].bits.log2 + 1 := by
    apply BitSet.lt_of_contains
    rwa [Member, Array.getD_eq_getD_getElem?, Array.getElem?_eq_getElem hv, Option.getD_some] at h
  exact Nat.lt_of_lt_of_le hi hle

@[simp] theorem size_solve (sys : Inclusions) : sys.solve.size = sys.bounds.size :=
  size_settle _ _ _

/-- **The solution contains the lower bounds.** -/
theorem solve_bound {sys : Inclusions} {v i : Nat} (h : Member sys.bounds v i) :
    Member sys.solve v i :=
  member_settle h

/-- **The solution respects every link.** -/
theorem solve_link {sys : Inclusions} {a b : Nat} (h : (a, b) ∈ sys.links)
    (hb : b < sys.bounds.size) {i : Nat} (hm : Member sys.solve a i) : Member sys.solve b i := by
  have hset : Settled sys.links sys.solve :=
    settled_settle (w := sys.width) (fun v i => member_lt_width) (by omega)
  exact hset (a, b) h (by rwa [size_solve]) i hm

/-- **The solution is the least one.** -/
theorem solve_least {sys : Inclusions} {P : Nat → Nat → Prop}
    (hb : ∀ v i, Member sys.bounds v i → P v i)
    (hl : ∀ a b, (a, b) ∈ sys.links → b < sys.bounds.size → ∀ i, P a i → P b i) :
    ∀ v i, Member sys.solve v i → P v i :=
  settle_least (fun ab hab hlt => hl ab.1 ab.2 hab hlt) hb

/-! ## Building a system -/

/-- What a system asks for: a member of an unknown, or an inclusion between two. -/
inductive Demand where
  | member (v i : Nat)
  | link (a b : Nat)

def Demands (sys : Inclusions) : Demand → Prop
  | .member v i => Member sys.bounds v i
  | .link a b => (a, b) ∈ sys.links

/-- A step that adds exactly the demands `D` to a system of `n` unknowns. -/
structure Adds (n : Nat) (f : Inclusions → Inclusions) (D : Demand → Prop) : Prop where
  size : ∀ sys, sys.bounds.size = n → (f sys).bounds.size = n
  demands : ∀ sys, sys.bounds.size = n → ∀ d, (f sys).Demands d ↔ sys.Demands d ∨ D d

namespace Adds

variable {n : Nat}

theorem nothing : Adds n (fun sys => sys) fun _ => False :=
  ⟨fun _ h => h, fun _ _ _ => (or_iff_left id).symm⟩

theorem bound (v : Nat) (s : BitSet) :
    Adds n (fun sys => sys.bound v s)
      fun d => ∃ i, d = .member v i ∧ v < n ∧ s.contains i = true := by
  refine ⟨fun sys h => ?_, fun sys h d => ?_⟩
  · rw [Inclusions.bound, Array.size_modify, h]
  · cases d with
    | link a b => simp [Demands, Inclusions.bound]
    | member w i =>
      simp only [Demands, Inclusions.bound, Member, Demand.member.injEq]
      rw [Array.getD_eq_getD_getElem?, Array.getElem?_modify, Array.getD_eq_getD_getElem?]
      by_cases hw : v = w
      · subst hw
        by_cases hv : v < sys.bounds.size
        · simp [hv, ← h]
        · simp [hv, ← h]
      · rw [if_neg hw]
        refine ⟨Or.inl, ?_⟩
        rintro (hm | ⟨j, ⟨rfl, -⟩, -, -⟩)
        · exact hm
        · exact absurd rfl hw

theorem link (a b : Nat) : Adds n (fun sys => sys.link a b) fun d => d = .link a b := by
  refine ⟨fun sys h => h, fun sys h d => ?_⟩
  cases d with
  | member v i => simp [Demands, Inclusions.link]
  | link x y => simp [Demands, Inclusions.link, Array.mem_push]

theorem comp {f g : Inclusions → Inclusions} {D E : Demand → Prop} (hf : Adds n f D)
    (hg : Adds n g E) : Adds n (fun sys => g (f sys)) fun d => D d ∨ E d := by
  refine ⟨fun sys h => hg.size _ (hf.size sys h), fun sys h d => ?_⟩
  rw [hg.demands _ (hf.size sys h), hf.demands sys h, or_assoc]

theorem foldl {α : Type} {f : Inclusions → α → Inclusions} {D : α → Demand → Prop} (l : List α)
    (h : ∀ x ∈ l, Adds n (fun sys => f sys x) (D x)) :
    Adds n (fun sys => l.foldl f sys) fun d => ∃ x ∈ l, D x d := by
  induction l with
  | nil => exact ⟨fun _ h => h, fun _ _ _ => by simp⟩
  | cons x l ih =>
    have htail := ih fun y hy => h y (List.mem_cons_of_mem _ hy)
    have hboth := (h x List.mem_cons_self).comp htail
    refine ⟨hboth.size, fun sys hs d => ?_⟩
    rw [List.foldl_cons, hboth.demands sys hs d]
    simp

end Adds

theorem not_demands_ofSize (n : Nat) (d : Demand) : ¬ (ofSize n).Demands d := by
  cases d with
  | link a b => simp [Demands, ofSize]
  | member v i =>
    simp only [Demands, ofSize, Member, Array.getD_eq_getD_getElem?, Array.getElem?_replicate]
    split <;> simp

theorem Adds.demands_ofSize {n : Nat} {f : Inclusions → Inclusions} {D : Demand → Prop}
    (h : Adds n f D) (d : Demand) : (f (ofSize n)).Demands d ↔ D d := by
  rw [h.demands _ (by simp [ofSize])]
  exact or_iff_right (not_demands_ofSize n d)

theorem Adds.size_ofSize {n : Nat} {f : Inclusions → Inclusions} {D : Demand → Prop}
    (h : Adds n f D) : (f (ofSize n)).bounds.size = n :=
  h.size _ (by simp [ofSize])

end Inclusions

end AsmTree
