import AsmTree.Proofs.Machine.Viable
import Mathlib.Data.Finset.Powerset
import Mathlib.Data.Finset.Prod
import Mathlib.Logic.Relation

/-!
# The limit of dry runs

The search for a token to go on with tries the reductions before it, on a table that need not come
from a grammar and may let them go on forever. **Main statements (`Reduces.lt_moveLimit`,
`viable_iff_canFollow`):** if the reductions come to an end at all, they do so within the limit, so
the limit never decides the answer.

What a dry run pushes on the first stack is determined by the set of the states in it. A state that
was pushed reaches what is above it by itself, and if the run ends, no state reaches itself in this
way, so the states can stand in one order only. Counting the sets and what can be left of the first
stack gives the limit.
-/

namespace AsmTree

namespace ParseTable

variable {t : ParseTable} {k : Kind} {states states' start upper upper' lower kept : List Nat}
  {n n' next x y : Nat}

/-- **A reduction that leaves the lower part of a stack alone is one of the upper part.** -/
theorem reduced?_append (hkept : kept ≠ []) :
    t.reduced? k (upper ++ lower) = some (next :: (kept ++ lower)) ↔
      t.reduced? k upper = some (next :: kept) := by
  rw [reduced?_eq_some, reduced?_eq_some]
  constructor
  · rintro ⟨state, rest, p, base, below, next', hstates, hm, hdrop, hgoto, he⟩
    obtain ⟨rfl, hbelow⟩ := List.cons.inj he
    rw [← hbelow] at hdrop
    have hlen := congrArg List.length hdrop
    have hpos := List.length_pos_of_ne_nil hkept
    rw [List.length_drop, List.length_append, List.length_append] at hlen
    have hle : (t.production p).length ≤ upper.length := by omega
    rw [List.drop_append_of_le_length hle] at hdrop
    have hkept' := List.append_cancel_right hdrop
    cases upper with
    | nil => simp only [List.length_nil] at hle hlen; omega
    | cons state' rest' =>
      obtain ⟨rfl, -⟩ := List.cons.inj hstates
      obtain ⟨base', below', rfl⟩ := List.exists_cons_of_ne_nil hkept
      obtain ⟨rfl, -⟩ := List.cons.inj hbelow
      exact ⟨state', rest', p, base', below', next, rfl, hm, hkept', hgoto, rfl⟩
  · rintro ⟨state, rest, p, base, below, next', rfl, hm, hdrop, hgoto, he⟩
    obtain ⟨rfl, rfl⟩ := List.cons.inj he
    refine ⟨state, rest ++ lower, p, base, below ++ lower, next, rfl, hm, ?_, hgoto, rfl⟩
    have hle : (t.production p).length ≤ (state :: rest).length := by
      by_contra hlt
      rw [List.drop_eq_nil_of_le (by omega)] at hdrop
      cases hdrop
    rw [List.drop_append_of_le_length hle, hdrop]
    rfl

theorem reduced?_append_right (h : t.reduced? k upper = some states) (lower : List Nat) :
    t.reduced? k (upper ++ lower) = some (states ++ lower) := by
  obtain ⟨state, rest, p, base, below, next, -, -, -, -, rfl⟩ := reduced?_eq_some.1 h
  exact (reduced?_append (List.cons_ne_nil base below)).2 h

/-! ## Stacks that a dry run passes -/

/-- Stacks that the reductions before a token pass. -/
def Passes (t : ParseTable) (k : Kind) : List Nat → List Nat → Prop :=
  Relation.ReflTransGen fun states states' => t.reduced? k states = some states'

theorem Passes.append (h : t.Passes k upper kept) (lower : List Nat) :
    t.Passes k (upper ++ lower) (kept ++ lower) := by
  induction h with
  | refl => exact .refl
  | tail _ hr ih => exact ih.tail (reduced?_append_right hr lower)

theorem Reduces.unique (h : t.Reduces k n states) (h' : t.Reduces k n' states) : n = n' := by
  induction h generalizing n' with
  | stop hnone =>
    cases h' with
    | stop _ => rfl
    | move hsome _ => rw [hnone] at hsome; cases hsome
  | move hsome _ ih =>
    cases h' with
    | stop hnone => rw [hnone] at hsome; cases hsome
    | move hsome' hreduces =>
      rw [hsome] at hsome'
      cases hsome'
      rw [ih hreduces]

/-- Fewer reductions are left in each stack that a dry run passes. -/
theorem Reduces.passes (h : t.Reduces k n states) (hp : t.Passes k states states') :
    states' = states ∨ ∃ n' < n, t.Reduces k n' states' := by
  induction hp with
  | refl => exact .inl rfl
  | tail _ hr ih =>
    right
    rcases ih with rfl | ⟨n', hlt, hreduces⟩
    · cases h with
      | stop hnone => rw [hnone] at hr; cases hr
      | move hsome hreduces =>
        rw [hsome] at hr
        cases hr
        exact ⟨_, Nat.lt_succ_self _, hreduces⟩
    · cases hreduces with
      | stop hnone => rw [hnone] at hr; cases hr
      | move hsome hreduces =>
        rw [hsome] at hr
        cases hr
        exact ⟨_, Nat.lt_of_succ_lt hlt, hreduces⟩

/-- A dry run ends on the upper part of a stack if it ends on the whole. -/
theorem Reduces.of_append (h : t.Reduces k n (upper ++ lower)) :
    ∃ n' ≤ n, t.Reduces k n' upper := by
  generalize hstates : upper ++ lower = states at h
  induction h generalizing upper with
  | stop hnone =>
    subst hstates
    cases hr : t.reduced? k upper with
    | none => exact ⟨0, Nat.le_refl 0, .stop hr⟩
    | some kept =>
      rw [reduced?_append_right hr lower] at hnone
      cases hnone
  | move hsome _ ih =>
    subst hstates
    cases hr : t.reduced? k upper with
    | none => exact ⟨0, Nat.zero_le _, .stop hr⟩
    | some kept =>
      rw [reduced?_append_right hr lower] at hsome
      obtain ⟨n', hle, hreduces⟩ := ih (Option.some.inj hsome)
      exact ⟨n' + 1, Nat.succ_le_succ hle, .move hr hreduces⟩

/-! ## The order of what is pushed -/

/-- One state leads by itself to another one above it. -/
def Raises (t : ParseTable) (k : Kind) (x y : Nat) : Prop :=
  ∃ between, t.Passes k [x] (y :: (between ++ [x]))

theorem Reduces.not_raises_self (h : t.Reduces k n [x]) : ¬ t.Raises k x x := by
  rintro ⟨between, hp⟩
  rcases h.passes hp with he | ⟨n', hlt, hreduces⟩
  · simp at he
  · rw [← List.singleton_append] at hreduces
    obtain ⟨n'', hle, hreduces'⟩ := hreduces.of_append
    have := h.unique hreduces'
    omega

theorem Raises.trans {z : Nat} (h : t.Raises k x y) (h' : t.Raises k y z) : t.Raises k x z := by
  obtain ⟨between, hp⟩ := h
  obtain ⟨between', hp'⟩ := h'
  refine ⟨between' ++ y :: between, ?_⟩
  have happend := hp'.append (between ++ [x])
  simp only [List.cons_append, List.nil_append, List.append_assoc] at happend ⊢
  exact Relation.ReflTransGen.trans hp happend

/-- What a dry run has pushed, the last state first: each state leads by itself to what is above
it, now and when that was pushed. -/
structure Grown (t : ParseTable) (k : Kind) (pushed : List Nat) : Prop where
  raises : pushed.Pairwise fun y x => t.Raises k x y
  passes : ∀ {above below : List Nat} {x : Nat}, pushed = above ++ x :: below →
    t.Passes k [x] (above ++ [x])

theorem Grown.nil : t.Grown k [] where
  raises := .nil
  passes h := by simp at h

theorem Grown.singleton (x : Nat) : t.Grown k [x] where
  raises := List.pairwise_singleton _ _
  passes {above below x'} h := by
    cases above with
    | nil => exact .refl
    | cons y above => simp at h

/-- A reduction within what is pushed. -/
theorem Grown.move (h : t.Grown k upper) (hr : t.reduced? k upper = some (next :: kept))
    (hkept : kept <:+ upper) : t.Grown k (next :: kept) := by
  obtain ⟨popped, rfl⟩ := hkept
  -- under each state that stays the reduction is one of what stands above
  have hpasses {above below : List Nat} {x : Nat} (he : kept = above ++ x :: below) :
      t.Passes k [x] (next :: (above ++ [x])) := by
    have hsplit : popped ++ kept = (popped ++ above ++ [x]) ++ below := by simp [he]
    have hne : above ++ [x] ≠ [] := by simp
    have hpassed : t.Passes k [x] (popped ++ above ++ [x]) :=
      h.passes (by rw [hsplit, List.append_assoc _ [x], List.singleton_append])
    have hwhole : t.reduced? k ((popped ++ above ++ [x]) ++ below) =
        some (next :: ((above ++ [x]) ++ below)) := by
      rw [← hsplit, hr, he, List.append_assoc, List.singleton_append]
    exact hpassed.tail ((reduced?_append hne).1 hwhole)
  constructor
  · refine List.pairwise_cons.2 ⟨fun x hx => ?_, (List.pairwise_append.1 h.raises).2.1⟩
    obtain ⟨above, below, he⟩ := List.append_of_mem hx
    exact ⟨above, hpasses he⟩
  · intro above below x he
    cases above with
    | nil => exact .refl
    | cons y above =>
      obtain ⟨rfl, hkept⟩ := List.cons.inj he
      exact hpasses hkept

/-- A dry run that ends on a stack ends on each state that it has pushed. -/
theorem Grown.reduces (h : t.Grown k upper) (hr : t.Reduces k n (upper ++ lower))
    (hx : x ∈ upper) : ∃ n', t.Reduces k n' [x] := by
  obtain ⟨above, below, he⟩ := List.append_of_mem hx
  have hsplit : upper ++ lower = (above ++ [x]) ++ (below ++ lower) := by simp [he]
  rw [hsplit] at hr
  obtain ⟨n', -, hr'⟩ := hr.of_append
  have hback : ∀ {states : List Nat}, t.Passes k states (above ++ [x]) →
      ∃ n', t.Reduces k n' states := by
    intro states hp
    induction hp using Relation.ReflTransGen.head_induction_on with
    | refl => exact ⟨n', hr'⟩
    | head hmove _ ih =>
      obtain ⟨n', hreduces⟩ := ih
      exact ⟨n' + 1, .move hmove hreduces⟩
  exact hback (h.passes he)

/-- **What is pushed is determined by its states.** -/
theorem Grown.eq (h : t.Grown k upper) (h' : t.Grown k upper')
    (hr : t.Reduces k n (upper ++ lower)) (hsame : upper.toFinset = upper'.toFinset) :
    upper = upper' := by
  have hmem (x : Nat) : x ∈ upper ↔ x ∈ upper' := by
    rw [← List.mem_toFinset, hsame, List.mem_toFinset]
  have hself {x : Nat} (hx : x ∈ upper) : ¬ t.Raises k x x := by
    obtain ⟨n', hreduces⟩ := h.reduces hr hx
    exact hreduces.not_raises_self
  have hnodup {pushed : List Nat} (hp : t.Grown k pushed) (hsub : ∀ x ∈ pushed, x ∈ upper) :
      pushed.Nodup := by
    refine hp.raises.imp_of_mem fun {y x} hy _ hraises he => ?_
    subst he
    exact hself (hsub _ hy) hraises
  have hperm : upper.Perm upper' :=
    (List.perm_ext_iff_of_nodup (hnodup h fun _ hx => hx)
      (hnodup h' fun x hx => (hmem x).2 hx)).2 hmem
  refine hperm.eq_of_pairwise (fun x y hx _ hxy hyx => ?_) h.raises h'.raises
  exact absurd (hyx.trans hxy) (hself hx)

/-! ## Counting stacks -/

/-- A stack of a dry run: something pushed on what is left of the first stack. -/
structure Grows (t : ParseTable) (k : Kind) (start : List Nat) (states : List Nat) (left : Nat)
    (pushed : List Nat) : Prop where
  eq : states = pushed ++ start.drop left
  left_le : left ≤ start.length
  grown : t.Grown k pushed
  lt : ∀ x ∈ pushed, x < t.stateCount

/-- A reduction pushes one more state on a stack of a dry run. -/
theorem Grows.move (ht : t.Numbered) {left : Nat} {pushed : List Nat}
    (h : t.Grows k start states left pushed) (hr : t.reduced? k states = some states') :
    ∃ left pushed, t.Grows k start states' left pushed := by
  obtain ⟨state, rest, p, base, below, next, -, -, hdrop, hgoto, rfl⟩ := reduced?_eq_some.1 hr
  have hnext : next < t.stateCount := ht.goto hgoto
  rw [h.eq] at hdrop hr
  by_cases hl : (t.production p).length < pushed.length
  · -- the state under the production is one that was pushed
    rw [List.drop_append_of_le_length (Nat.le_of_lt hl)] at hdrop
    have hkept : pushed.drop (t.production p).length ≠ [] := by
      rw [ne_eq, List.drop_eq_nil_iff]
      omega
    rw [← hdrop, reduced?_append hkept] at hr
    refine ⟨left, next :: pushed.drop (t.production p).length, ?_, h.left_le,
      h.grown.move hr (List.drop_suffix _ _), fun x hx => ?_⟩
    · rw [← hdrop, List.cons_append]
    · rcases List.mem_cons.1 hx with rfl | hx
      · exact hnext
      · exact h.lt x (List.mem_of_mem_drop hx)
  · -- the production takes away all that was pushed
    rw [List.drop_append, List.drop_eq_nil_of_le (by omega), List.nil_append,
      List.drop_drop] at hdrop
    refine ⟨left + ((t.production p).length - pushed.length), [next], ?_, ?_, .singleton next,
      fun x hx => ?_⟩
    · rw [hdrop]
      rfl
    · by_contra hlt
      rw [List.drop_eq_nil_of_le (by omega)] at hdrop
      cases hdrop
    · rw [List.mem_singleton.1 hx]
      exact hnext

/-- The stacks of a dry run that ends, each with the number of reductions that are left. -/
theorem Grows.exists_of_le (ht : t.Numbered) (hr : t.Reduces k n states) {left : Nat}
    {pushed : List Nat} (h : t.Grows k start states left pushed) :
    ∀ i ≤ n, ∃ states left pushed, t.Reduces k i states ∧ t.Grows k start states left pushed := by
  induction hr generalizing left pushed with
  | stop hnone =>
    intro i hi
    obtain rfl := Nat.le_zero.1 hi
    exact ⟨_, left, pushed, .stop hnone, h⟩
  | @move n states states' hsome hreduces ih =>
    intro i hi
    rcases Nat.lt_or_eq_of_le hi with hlt | rfl
    · obtain ⟨left, pushed, hmove⟩ := h.move ht hsome
      exact ih hmove i (Nat.le_of_lt_succ hlt)
    · exact ⟨states, left, pushed, .move hsome hreduces, h⟩

/-- **Reductions before a token that come to an end do so within the limit of moves**, whether or
not the table is that of a grammar. -/
theorem Reduces.lt_moveLimit (ht : t.Numbered) (h : t.Reduces k n states) :
    n < t.moveLimit states.length := by
  have hfirst : t.Grows k states states 0 [] :=
    ⟨rfl, Nat.zero_le _, .nil, fun x hx => by cases hx⟩
  choose! stack left pushed hreduces hgrows using hfirst.exists_of_le ht h
  let code : Nat → Nat × Finset Nat := fun i => (left i, (pushed i).toFinset)
  let codes := Finset.range (states.length + 1) ×ˢ (Finset.range t.stateCount).powerset
  have hmaps : Set.MapsTo code (Finset.range (n + 1)) codes := by
    intro i hi
    have hi : i ≤ n := Nat.le_of_lt_succ (Finset.mem_range.1 hi)
    refine Finset.mem_product.2 ⟨Finset.mem_range.2 ?_, Finset.mem_powerset.2 fun x hx => ?_⟩
    · exact Nat.lt_succ_of_le (hgrows i hi).left_le
    · exact Finset.mem_range.2 ((hgrows i hi).lt x (List.mem_toFinset.1 hx))
  have hinj : Set.InjOn code (Finset.range (n + 1)) := by
    intro i hi j hj he
    have hi : i ≤ n := Nat.le_of_lt_succ (Finset.mem_range.1 hi)
    have hj : j ≤ n := Nat.le_of_lt_succ (Finset.mem_range.1 hj)
    obtain ⟨hleft, hset⟩ := Prod.mk.inj he
    have hreduces' := hreduces i hi
    rw [(hgrows i hi).eq] at hreduces'
    have hpushed := (hgrows i hi).grown.eq (hgrows j hj).grown hreduces' hset
    have hstack : stack i = stack j := by
      rw [(hgrows i hi).eq, (hgrows j hj).eq, hleft, hpushed]
    exact (hstack ▸ hreduces i hi).unique (hreduces j hj)
  have hcard := Finset.card_le_card_of_injOn code hmaps hinj
  rw [Finset.card_range, Finset.card_product, Finset.card_range, Finset.card_powerset,
    Finset.card_range] at hcard
  have hpow : 2 ^ t.stateCount ≤ 2 ^ (t.stateCount + t.productionCount) :=
    Nat.pow_le_pow_right (by decide) (Nat.le_add_right _ _)
  calc n < (states.length + 1) * 2 ^ t.stateCount := hcard
    _ ≤ (states.length + 1) * 2 ^ (t.stateCount + t.productionCount) :=
      Nat.mul_le_mul_left _ hpow
    _ = t.moveLimit states.length := Nat.mul_comm _ _

end ParseTable

namespace Machine

variable {t : ParseTable} {k : Kind} {states : List Nat} {n : Nat}

/-- **The limit does not decide whether a token can follow**, if the reductions before it come to
an end. -/
theorem viable_iff_canFollow (ht : t.Numbered) (h : t.Reduces k n states) :
    viable t states k = true ↔ CanFollow t states k :=
  viableFrom_of_reduces h (h.lt_moveLimit ht)

end Machine

end AsmTree
