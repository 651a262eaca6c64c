import AsmTree.Proofs.Table.Items

/-!
# The moves of a state

`Analysis.successors` sorts the steps of a state and splits them by symbol. **Main statements:**

* `mem_of_mem_successors` and `exists_mem_successors`: the kernel behind a symbol holds exactly the
  items of the state that read the symbol next, each with one more symbol read;
* `successors_pairwise` and `strict_of_mem_successors`: there is one kernel for each symbol, and
  its items stand in strict order.
-/

namespace AsmTree

/-! ## Orders -/

theorem Symbol.ble_total (a b : Symbol) : a.ble b = true ∨ b.ble a = true := by
  cases a with
  | terminal i =>
    cases b with
    | terminal j => simpa [ble] using Nat.le_total i.index j.index
    | nonterminal j => exact Or.inl rfl
  | nonterminal i =>
    cases b with
    | terminal j => exact Or.inr rfl
    | nonterminal j => simpa [ble] using Nat.le_total i j

theorem Symbol.ble_refl (a : Symbol) : a.ble a = true := by
  rcases ble_total a a with h | h <;> exact h

theorem Symbol.ble_trans {a b c : Symbol} (hab : a.ble b = true) (hbc : b.ble c = true) :
    a.ble c = true := by
  cases a <;> cases b <;> cases c <;> simp_all [ble]
  · exact Nat.le_trans hab hbc
  · exact Nat.le_trans hab hbc

theorem Symbol.ble_antisymm {a b : Symbol} (hab : a.ble b = true) (hba : b.ble a = true) :
    a = b := by
  cases a <;> cases b <;> simp_all [ble]
  · exact Kind.index_inj.1 (Nat.le_antisymm hab hba)
  · exact Nat.le_antisymm hab hba

namespace Item

theorem ble_iff {i j : Item} :
    i.ble j = true ↔
      i.production < j.production ∨ (i.production = j.production ∧ i.dot ≤ j.dot) := by
  simp [ble]

theorem ble_total (i j : Item) : i.ble j = true ∨ j.ble i = true := by
  rw [ble_iff, ble_iff]
  omega

theorem ble_trans {i j k : Item} (hij : i.ble j = true) (hjk : j.ble k = true) :
    i.ble k = true := by
  rw [ble_iff] at hij hjk ⊢
  omega

theorem ble_antisymm {i j : Item} (hij : i.ble j = true) (hji : j.ble i = true) : i = j := by
  rw [ble_iff] at hij hji
  cases i
  cases j
  simp only [mk.injEq] at hij hji ⊢
  omega

/-- Strictly before in the order of items. -/
def Before (i j : Item) : Prop := i.ble j = true ∧ i ≠ j

theorem Before.trans {i j k : Item} (hij : i.Before j) (hjk : j.Before k) : i.Before k := by
  refine ⟨ble_trans hij.1 hjk.1, ?_⟩
  rintro rfl
  exact hij.2 (ble_antisymm hij.1 hjk.1)

end Item

/-- The items of a kernel stand in strict order. -/
def Kernel.Strict (kernel : Kernel) : Prop := kernel.Pairwise Item.Before

theorem Kernel.Strict.ext {a b : Kernel} (ha : a.Strict) (hb : b.Strict)
    (h : ∀ i, i ∈ a ↔ i ∈ b) : a = b := by
  have hnodup : ∀ {k : Kernel}, k.Strict → k.Nodup := fun hk => hk.imp fun hij => hij.2
  have hperm : a.Perm b := (List.perm_ext_iff_of_nodup (hnodup ha) (hnodup hb)).2 h
  refine hperm.eq_of_pairwise ?_ ha hb
  intro i j _ _ hij hji
  exact Item.ble_antisymm hij.1 hji.1

namespace Analysis

/-! ## Grouping -/

/-- The kernels that grouping makes are not empty and hold only items of the list. -/
theorem mem_of_mem_group {l : List (Symbol × Item)} {s : Symbol} {kernel : Kernel}
    (h : (s, kernel) ∈ group l) : kernel ≠ [] ∧ ∀ i ∈ kernel, (s, i) ∈ l := by
  induction l generalizing s kernel with
  | nil => cases h
  | cons x l ih =>
    obtain ⟨t, item⟩ := x
    have hold : ∀ {s kernel}, (s, kernel) ∈ group l →
        kernel ≠ [] ∧ ∀ i ∈ kernel, (s, i) ∈ (t, item) :: l := fun hm =>
      ⟨(ih hm).1, fun i hi => List.mem_cons_of_mem _ ((ih hm).2 i hi)⟩
    rw [group] at h
    split at h
    · next s' items groups hg =>
      split at h
      · next ht =>
        subst ht
        split at h
        · exact hold (hg ▸ h)
        · rcases List.mem_cons.1 h with h | h
          · cases h
            refine ⟨List.cons_ne_nil _ _, fun i hi => ?_⟩
            rcases List.mem_cons.1 hi with rfl | hi
            · exact List.mem_cons_self
            · exact (hold (hg ▸ List.mem_cons_self)).2 i hi
          · exact hold (hg ▸ List.mem_cons_of_mem _ h)
      · rcases List.mem_cons.1 h with h | h
        · cases h
          refine ⟨List.cons_ne_nil _ _, fun i hi => ?_⟩
          rw [List.mem_singleton.1 hi]
          exact List.mem_cons_self
        · exact hold (hg ▸ h)
    · rw [List.mem_singleton] at h
      cases h
      refine ⟨List.cons_ne_nil _ _, fun i hi => ?_⟩
      rw [List.mem_singleton.1 hi]
      exact List.mem_cons_self

/-- The first kernel that grouping makes begins with the first item of the list. -/
theorem group_cons (s : Symbol) (item : Item) (l : List (Symbol × Item)) :
    ∃ items groups, group ((s, item) :: l) = (s, item :: items) :: groups := by
  rw [group]
  split
  · next s' items groups hg =>
    split
    · next hs =>
      subst hs
      split
      · next hhead =>
        cases items with
        | nil => cases hhead
        | cons i items =>
          cases hhead
          exact ⟨items, groups, rfl⟩
      · exact ⟨items, groups, rfl⟩
    · exact ⟨[], _, rfl⟩
  · exact ⟨[], [], rfl⟩

/-- Every item of the list is in a kernel that grouping makes. -/
theorem exists_mem_group {l : List (Symbol × Item)} {s : Symbol} {i : Item} (h : (s, i) ∈ l) :
    ∃ kernel, (s, kernel) ∈ group l ∧ i ∈ kernel := by
  induction l with
  | nil => cases h
  | cons x l ih =>
    rcases List.mem_cons.1 h with rfl | hl
    · obtain ⟨items, groups, hg⟩ := group_cons s i l
      exact ⟨i :: items, hg ▸ List.mem_cons_self, List.mem_cons_self⟩
    · obtain ⟨t, item⟩ := x
      obtain ⟨kernel, hmem, hi⟩ := ih hl
      rw [group]
      split
      · next s' items groups hg =>
        rw [hg] at hmem
        split
        · next ht =>
          split
          · exact ⟨kernel, hmem, hi⟩
          · rcases List.mem_cons.1 hmem with hm | hm
            · cases hm
              exact ⟨item :: kernel, by rw [ht]; exact List.mem_cons_self,
                List.mem_cons_of_mem _ hi⟩
            · exact ⟨kernel, List.mem_cons_of_mem _ hm, hi⟩
        · exact ⟨kernel, List.mem_cons_of_mem _ hmem, hi⟩
      · next hg =>
        rw [hg] at hmem
        cases hmem

theorem stepBle_symbol {a b : Symbol × Item} (h : stepBle a b = true) : a.1.ble b.1 = true := by
  unfold stepBle at h
  split at h
  · next heq =>
    rw [heq]
    exact Symbol.ble_refl _
  · exact h

theorem stepBle_item {s : Symbol} {i j : Item} (h : stepBle (s, i) (s, j) = true) :
    i.ble j = true := by
  rwa [stepBle, if_pos rfl] at h

theorem stepBle_total (a b : Symbol × Item) : stepBle a b = true ∨ stepBle b a = true := by
  unfold stepBle
  by_cases h : a.1 = b.1
  · rw [if_pos h, if_pos h.symm]
    exact Item.ble_total _ _
  · rw [if_neg h, if_neg (Ne.symm h)]
    exact Symbol.ble_total _ _

theorem stepBle_trans {a b c : Symbol × Item} (hab : stepBle a b = true)
    (hbc : stepBle b c = true) : stepBle a c = true := by
  have h := Symbol.ble_trans (stepBle_symbol hab) (stepBle_symbol hbc)
  unfold stepBle at hab hbc ⊢
  by_cases hac : a.1 = c.1
  · rw [if_pos hac]
    by_cases hab' : a.1 = b.1
    · rw [if_pos hab'] at hab
      rw [if_pos (hab' ▸ hac)] at hbc
      exact Item.ble_trans hab hbc
    · rw [if_neg hab'] at hab
      rw [if_neg (fun hb => hab' (hac.trans hb.symm)), ← hac] at hbc
      exact absurd (Symbol.ble_antisymm hab hbc) hab'
  · rw [if_neg hac]
    exact h

/-- Grouping sorted steps makes one kernel for each symbol. -/
theorem group_pairwise {l : List (Symbol × Item)} (h : l.Pairwise fun a b => stepBle a b = true) :
    (group l).Pairwise fun a b => a.1 ≠ b.1 := by
  induction l with
  | nil => exact List.Pairwise.nil
  | cons x l ih =>
    obtain ⟨s, item⟩ := x
    obtain ⟨hx, hl⟩ := List.pairwise_cons.1 h
    have hgroups := ih hl
    -- the first symbol comes before all symbols of the kernels made of the rest
    have hfirst : ∀ t kernel, (t, kernel) ∈ group l → s.ble t = true := by
      intro t kernel hm
      obtain ⟨hne, hall⟩ := mem_of_mem_group hm
      obtain ⟨i, hi⟩ := List.exists_mem_of_ne_nil _ hne
      exact stepBle_symbol (hx _ (hall i hi))
    rw [group]
    split
    · next s' items groups hg =>
      rw [hg] at hgroups hfirst
      obtain ⟨h₁, h₂⟩ := List.pairwise_cons.1 hgroups
      split
      · next hs =>
        split
        · exact hgroups
        · exact List.pairwise_cons.2 ⟨fun b hb => hs ▸ h₁ b hb, h₂⟩
      · next hs =>
        refine List.pairwise_cons.2 ⟨fun b hb hsb => ?_, hgroups⟩
        rcases List.mem_cons.1 hb with rfl | hb
        · exact hs hsb
        · -- `s` comes before `s'`, which comes before the symbol of `b`
          replace hb := List.mem_cons_of_mem (s', items) hb
          have hs' : s'.ble b.1 = true := by
            cases l with
            | nil => cases hg
            | cons y l =>
              obtain ⟨t, i⟩ := y
              obtain ⟨items', groups', hg'⟩ := group_cons t i l
              rw [hg'] at hg
              cases hg
              have hb' : b ∈ group ((s', i) :: l) := hg' ▸ hb
              obtain ⟨t, kernel⟩ := b
              obtain ⟨hne, hall⟩ := mem_of_mem_group hb'
              obtain ⟨j, hj⟩ := List.exists_mem_of_ne_nil _ hne
              rcases List.mem_cons.1 (hall j hj) with he | hmem
              · rw [(Prod.mk.inj he).1]
                exact Symbol.ble_refl _
              · exact stepBle_symbol ((List.pairwise_cons.1 hl).1 _ hmem)
          rw [← hsb] at hs'
          exact hs (Symbol.ble_antisymm (hfirst s' items List.mem_cons_self) hs')
    · exact List.pairwise_singleton _ _

/-- Grouping sorted steps makes strict kernels. -/
theorem strict_of_mem_group {l : List (Symbol × Item)}
    (h : l.Pairwise fun a b => stepBle a b = true) {s : Symbol} {kernel : Kernel}
    (hm : (s, kernel) ∈ group l) : kernel.Strict := by
  induction l generalizing s kernel with
  | nil => cases hm
  | cons x l ih =>
    obtain ⟨t, item⟩ := x
    obtain ⟨hx, hl⟩ := List.pairwise_cons.1 h
    rw [group] at hm
    split at hm
    · next s' items groups hg =>
      have hitems := ih hl (hg ▸ List.mem_cons_self : (s', items) ∈ group l)
      split at hm
      · next ht =>
        subst ht
        split at hm
        · exact ih hl (hg ▸ hm)
        · next hhead =>
          rcases List.mem_cons.1 hm with he | hm
          · cases he
            refine List.pairwise_cons.2 ⟨fun j hj => ⟨?_, ?_⟩, hitems⟩
            · have hmem := (mem_of_mem_group (hg ▸ List.mem_cons_self)).2 j hj
              exact stepBle_item (hx _ hmem)
            · rintro rfl
              cases items with
              | nil => cases hj
              | cons i items =>
                have hmem := (mem_of_mem_group (hg ▸ List.mem_cons_self)).2 i List.mem_cons_self
                have hle := stepBle_item (hx _ hmem)
                rcases List.mem_cons.1 hj with rfl | hj
                · exact hhead rfl
                · have hbefore := (List.pairwise_cons.1 hitems).1 _ hj
                  exact hbefore.2 (Item.ble_antisymm hbefore.1 hle)
          · exact ih hl (hg ▸ List.mem_cons_of_mem _ hm)
      · rcases List.mem_cons.1 hm with he | hm
        · cases he
          exact List.pairwise_singleton _ _
        · exact ih hl (hg ▸ hm)
    · rw [List.mem_singleton] at hm
      cases hm
      exact List.pairwise_singleton _ _

/-! ## Successors -/

variable {an : Analysis} {kernel : Kernel} {s : Symbol}

theorem mem_steps {items : List Item} {j : Item} :
    (s, j) ∈ an.steps items ↔
      ∃ i ∈ items, (an.remaining i).head? = some s ∧ j = i.advance := by
  rw [steps, List.mem_filterMap]
  constructor
  · rintro ⟨i, hi, h⟩
    obtain ⟨s', hs, he⟩ := Option.map_eq_some_iff.1 h
    cases he
    exact ⟨i, hi, hs, rfl⟩
  · rintro ⟨i, hi, hs, rfl⟩
    exact ⟨i, hi, by rw [hs]; rfl⟩

theorem sorted_steps (items : List Item) :
    ((an.steps items).mergeSort stepBle).Pairwise fun a b => stepBle a b = true := by
  refine @List.pairwise_mergeSort _ stepBle (fun _ _ _ => stepBle_trans) (fun a b => ?_) _
  rw [Bool.or_eq_true]
  exact stepBle_total a b

/-- **Every item behind a symbol is an item of the state that reads the symbol next, with one more
symbol read.** -/
theorem mem_of_mem_successors {target : Kernel} (h : (s, target) ∈ an.successors kernel) :
    target ≠ [] ∧ ∀ j ∈ target, ∃ i ∈ an.closure kernel,
      (an.remaining i).head? = some s ∧ j = i.advance := by
  obtain ⟨hne, hall⟩ := mem_of_mem_group h
  refine ⟨hne, fun j hj => ?_⟩
  have hmem := hall j hj
  rw [List.mem_mergeSort] at hmem
  exact mem_steps.1 hmem

/-- **Every item of a state that reads a symbol next moves to the kernel behind it.** -/
theorem exists_mem_successors {i : Item} (hi : i ∈ an.closure kernel)
    (hs : (an.remaining i).head? = some s) :
    ∃ target, (s, target) ∈ an.successors kernel ∧ i.advance ∈ target := by
  apply exists_mem_group
  rw [List.mem_mergeSort]
  exact mem_steps.2 ⟨i, hi, hs, rfl⟩

theorem successors_pairwise (an : Analysis) (kernel : Kernel) :
    (an.successors kernel).Pairwise fun a b => a.1 ≠ b.1 :=
  group_pairwise (sorted_steps _)

theorem eq_of_mem_successors {a b : Kernel} (ha : (s, a) ∈ an.successors kernel)
    (hb : (s, b) ∈ an.successors kernel) : a = b := by
  have hall : ∀ x ∈ an.successors kernel, ∀ y ∈ an.successors kernel, x.1 = y.1 → x = y :=
    fun x hx y hy => List.inj_on_of_nodup_map
      (List.pairwise_map.2 (successors_pairwise an kernel)) hx hy
  exact (Prod.mk.inj (hall _ ha _ hb rfl)).2

theorem strict_of_mem_successors {target : Kernel} (h : (s, target) ∈ an.successors kernel) :
    target.Strict :=
  strict_of_mem_group (sorted_steps _) h

end Analysis

end AsmTree
