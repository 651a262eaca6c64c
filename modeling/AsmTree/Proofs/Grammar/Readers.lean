import AsmTree.Proofs.Grammar.Derivation

/-!
# Reading derivations along a row

A reader goes along a row of symbols from state to state, and along the row of shapes that they
stand for. `Reads` says that a grammar lets it pass over a hidden nonterminal in one move, whatever
stands in its place; this is a matter of the productions alone.

**Main statement (`Reads.derivations`):** a reader that gets along the symbols of a production gets
along the skeleton of everything that is derived from them, to the same state.
-/

namespace AsmTree.Grammar

variable {g : Grammar} {σ : Type} {symbol? : σ → Symbol → Option σ} {shape? : σ → Shape → Option σ}

/-- What a symbol does to a reader is what stands for it in a skeleton does. -/
structure Reads (g : Grammar) (symbol? : σ → Symbol → Option σ) (shape? : σ → Shape → Option σ) :
    Prop where
  leaf {state state' : σ} {k : Kind} : symbol? state (.terminal k) = some state' →
    shape? state (.leaf k) = some state'
  visible {state state' : σ} {id : Nat} {k : Kind} (cs : List Shape) : g.kindOf? id = some k →
    symbol? state (.nonterminal id) = some state' → shape? state (.node k cs) = some state'
  hidden {state state' : σ} {p : Production} : p ∈ g.productions → g.kindOf? p.lhs = none →
    symbol? state (.nonterminal p.lhs) = some state' → p.rhs.foldlM symbol? state = some state'

mutual

theorem Reads.derivation (h : g.Reads symbol? shape?) {s : Symbol} : ∀ (d : Derivation g s)
    {state state' : σ}, symbol? state s = some state' →
      d.skeleton.foldlM shape? state = some state'
  | .leaf k, _, _, hs => by
    rw [Derivation.skeleton, List.foldlM_cons, h.leaf hs]
    rfl
  | .node p hp children, _, _, hs => by
    cases hk : g.kindOf? p.lhs with
    | some k =>
      rw [Derivation.skeleton, hk]
      dsimp only
      rw [List.foldlM_cons, h.visible _ hk hs]
      rfl
    | none =>
      rw [Derivation.skeleton, hk]
      exact Reads.derivations h children (h.hidden hp hk hs)

/-- **A reader of symbols reads what is derived from them.** -/
theorem Reads.derivations (h : g.Reads symbol? shape?) {ss : List Symbol} :
    ∀ (ds : Derivations g ss) {state state' : σ}, ss.foldlM symbol? state = some state' →
      ds.skeleton.foldlM shape? state = some state'
  | .nil, _, _, hs => hs
  | .cons first rest, _, _, hs => by
    rw [List.foldlM_cons] at hs
    obtain ⟨_, hfirst, hs⟩ := Option.bind_eq_some_iff.1 hs
    rw [Derivations.skeleton, List.foldlM_append, Reads.derivation h first hfirst]
    exact Reads.derivations h rest hs

end

end AsmTree.Grammar
