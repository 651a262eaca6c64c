import AsmTree.Diagnostic.Context
import AsmTree.Proofs.Grammar.Derivation

/-!
# Blocks and their opening words

A word opens a block if another word closes it. `HasBlocks` says that a grammar reads such words to
open blocks only, and to fill raw arguments: a production that goes on behind an opening word ends
with a token, and the symbols of a block show no opening word but those that they are. It can be
computed.

**Main statement (`Derivation.shows`):** an opening word that a symbol shows outside of nodes is the
symbol, or the symbol is raw.
-/

namespace AsmTree

def Kind.isOpener (k : Kind) : Bool := k.blockTerminator?.isSome

namespace Grammar

variable {g : Grammar} {raw : Nat → Bool}

/-- Whether the trees of a symbol may have an opening word outside of nodes. The hidden nonterminals
that do are given by `raw`. -/
def shows (g : Grammar) (raw : Nat → Bool) : Symbol → Bool
  | .terminal k => k.isOpener
  | .nonterminal id => (g.kindOf? id).isNone && raw id

/-- What a grammar does with opening words. -/
structure HasBlocks (g : Grammar) (raw : Nat → Bool) : Prop where
  /-- Behind an opening word a production ends with a token of the text. -/
  closed : ∀ p ∈ g.productions, ∀ k, k.isOpener = true → .terminal k ∈ p.rhs.dropLast →
    ∃ close, p.rhs.getLast? = some (.terminal close) ∧ close ≠ .error
  /-- A hidden nonterminal that is not raw shows no opening words. -/
  hidden : ∀ p ∈ g.productions, g.kindOf? p.lhs = none → raw p.lhs = false →
    ∀ s ∈ p.rhs, g.shows raw s = false
  /-- A block has no raw symbols. -/
  block : ∀ p ∈ g.productions, ∀ k, g.kindOf? p.lhs = some k → k.isBlock = true →
    ∀ id, .nonterminal id ∈ p.rhs → g.shows raw (.nonterminal id) = false

/-- Whether a grammar does so. -/
def hasBlocks (g : Grammar) (raw : Nat → Bool) : Bool :=
  g.productions.toList.all fun p =>
    (!(p.rhs.dropLast.any fun
        | .terminal k => k.isOpener
        | .nonterminal _ => false) ||
      match p.rhs.getLast? with
      | some (.terminal close) => close != .error
      | _ => false) &&
    match g.kindOf? p.lhs with
    | none => raw p.lhs || p.rhs.all (!g.shows raw ·)
    | some k => !k.isBlock || p.rhs.all fun
      | .terminal _ => true
      | .nonterminal id => !g.shows raw (.nonterminal id)

theorem hasBlocks_of_check (h : g.hasBlocks raw = true) : g.HasBlocks raw := by
  simp only [hasBlocks, List.all_eq_true, Array.mem_toList_iff, Bool.and_eq_true,
    Bool.or_eq_true, Bool.not_eq_true'] at h
  refine ⟨fun p hp k hk hmem => ?_, fun p hp hkind hraw s hs => ?_,
    fun p hp k hkind hblock id hid => ?_⟩
  · have hcase := (h p hp).1.resolve_left fun hnone => by
      have hno := List.any_eq_false.1 hnone _ hmem
      exact hno hk
    split at hcase
    · next close hlast => exact ⟨close, hlast, by simpa using hcase⟩
    · cases hcase
  · have hcase := (h p hp).2
    rw [hkind] at hcase
    have hall := (Bool.or_eq_true _ _ ▸ hcase).resolve_left (by simp [hraw])
    simpa using List.all_eq_true.1 hall s hs
  · have hcase := (h p hp).2
    rw [hkind] at hcase
    have hall := (Bool.or_eq_true _ _ ▸ hcase).resolve_left (by simp [hblock])
    simpa using List.all_eq_true.1 hall _ hid

end Grammar

/-! ## Opening words in derivations -/

variable {g : Grammar} {raw : Nat → Bool} {k : Kind}

mutual

/-- **A symbol that shows an opening word is one that may.** -/
theorem Derivation.shows (h : g.HasBlocks raw) {s : Symbol} (d : Derivation g s)
    (hk : k.isOpener = true) (hleaf : .leaf k ∈ d.skeleton) : g.shows raw s = true := by
  cases d with
  | leaf k' =>
    cases List.mem_singleton.1 hleaf
    exact hk
  | node p hp children =>
    rw [Derivation.skeleton] at hleaf
    cases hkind : g.kindOf? p.lhs with
    | some k' =>
      rw [hkind] at hleaf
      cases List.mem_singleton.1 hleaf
    | none =>
      rw [hkind] at hleaf
      obtain ⟨s, hs, hshows⟩ := Derivations.shows h children hk hleaf
      rw [Grammar.shows, hkind]
      cases hraw : raw p.lhs with
      | true => rfl
      | false =>
        rw [h.hidden p hp hkind hraw s hs] at hshows
        cases hshows

theorem Derivations.shows (h : g.HasBlocks raw) {ss : List Symbol} (ds : Derivations g ss)
    (hk : k.isOpener = true) (hleaf : .leaf k ∈ ds.skeleton) :
    ∃ s ∈ ss, g.shows raw s = true := by
  cases ds with
  | nil => cases hleaf
  | cons first rest =>
    rw [Derivations.skeleton] at hleaf
    rcases List.mem_append.1 hleaf with hleaf | hleaf
    · exact ⟨_, List.mem_cons_self, first.shows h hk hleaf⟩
    · obtain ⟨s, hs, hshows⟩ := Derivations.shows h rest hk hleaf
      exact ⟨s, List.mem_cons_of_mem _ hs, hshows⟩

end

theorem Derivation.eq_of_leaf {k' : Kind} (d : Derivation g (.terminal k'))
    (hleaf : .leaf k ∈ d.skeleton) : k = k' := by
  cases d with
  | leaf _ => cases List.mem_singleton.1 hleaf; rfl

end AsmTree
