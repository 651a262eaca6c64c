import AsmTree.Proofs.Grammar.Language
import AsmTree.Proofs.Table.First

/-!
# Words of derivations

The terminals of a derivation are what its symbol derives (`derives_yields`), and the leaves of its
skeleton (`words_skeleton`).
-/

namespace AsmTree

/-! ## Words of shapes -/

mutual

/-- The leaves of a shape in order. -/
def Shape.word : Shape → List Kind
  | .leaf k => [k]
  | .node _ children => Shape.words children

def Shape.words : List Shape → List Kind
  | [] => []
  | shape :: shapes => shape.word ++ Shape.words shapes

end

@[simp] theorem Shape.words_nil : Shape.words [] = [] := rfl

@[simp] theorem Shape.words_cons (shape : Shape) (shapes : List Shape) :
    Shape.words (shape :: shapes) = shape.word ++ Shape.words shapes := rfl

@[simp] theorem Shape.words_append (a b : List Shape) :
    Shape.words (a ++ b) = Shape.words a ++ Shape.words b := by
  induction a with
  | nil => rfl
  | cons shape a ih => rw [List.cons_append, words_cons, words_cons, ih, List.append_assoc]

variable {g : Grammar}

mutual

/-- **The leaves of a skeleton are the terminals of the derivation.** -/
theorem Derivation.words_skeleton {s : Symbol} :
    ∀ d : Derivation g s, Shape.words d.skeleton = d.yield
  | .leaf k => rfl
  | .node p mem children => by
    have hchildren := Derivations.words_skeleton children
    rw [Derivation.skeleton, Derivation.yield]
    split
    · rw [Shape.words_cons, Shape.words_nil, List.append_nil]
      exact hchildren
    · exact hchildren

theorem Derivations.words_skeleton {ss : List Symbol} :
    ∀ ds : Derivations g ss, Shape.words ds.skeleton = ds.yield
  | .nil => rfl
  | .cons first rest => by
    rw [Derivations.skeleton, Shape.words_append, Derivation.words_skeleton first,
      Derivations.words_skeleton rest, Derivations.yield]

end

/-! ## Words that are derived -/

mutual

theorem Derivation.derives_yield {s : Symbol} :
    ∀ d : Derivation g s, g.Derives [s] (d.yield.map .terminal)
  | .leaf k => .refl
  | .node p mem children => by
    obtain ⟨i, hi⟩ := Array.getElem?_of_mem mem
    have hp := Array.mem_of_getElem? (Grammar.getElem?_augmented hi)
    have hstep := Grammar.derives_of_mem hp []
    rw [List.append_nil] at hstep
    exact hstep.trans (Derivations.derives_yields children)

/-- **Symbols derive the terminals of their derivations.** -/
theorem Derivations.derives_yields {ss : List Symbol} :
    ∀ ds : Derivations g ss, g.Derives ss (ds.yield.map .terminal)
  | .nil => .refl
  | @Derivations.cons _ s ss first rest => by
    rw [Derivations.yield, List.map_append]
    exact ((Derivation.derives_yield first).append_right ss).trans
      ((Derivations.derives_yields rest).append_left _)

end

mutual

theorem Derivation.not_mem_yield {k : Kind} (h : ∀ p ∈ g.productions, .terminal k ∉ p.rhs)
    {s : Symbol} : ∀ d : Derivation g s, s ≠ .terminal k → k ∉ d.yield
  | .leaf k', hs => fun hmem => hs (congrArg Symbol.terminal (List.mem_singleton.1 hmem).symm)
  | .node p mem children, _ => Derivations.not_mem_yield h children (h p mem)

theorem Derivations.not_mem_yield {k : Kind} (h : ∀ p ∈ g.productions, .terminal k ∉ p.rhs)
    {ss : List Symbol} : ∀ ds : Derivations g ss, .terminal k ∉ ss → k ∉ ds.yield
  | .nil, _ => List.not_mem_nil
  | .cons first rest, hss => by
    intro hmem
    rcases List.mem_append.1 hmem with hmem | hmem
    · exact Derivation.not_mem_yield h first (fun he => hss (he ▸ List.mem_cons_self)) hmem
    · exact Derivations.not_mem_yield h rest (fun hin => hss (List.mem_cons_of_mem _ hin)) hmem

end

end AsmTree
