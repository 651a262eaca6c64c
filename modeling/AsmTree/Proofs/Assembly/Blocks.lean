import AsmTree.Proofs.Assembly.Grammar
import AsmTree.Proofs.Grammar.Blocks

/-!
# The blocks of the assembly language
-/

namespace AsmTree.Assembly

/-- The hidden rules for runs of raw tokens. -/
def isRaw (g : Grammar) (id : Nat) : Bool :=
  ["_raw_first", "_raw_rest", "_raw_token"].contains (g.nonterminalName id)

/-- **Opening words open blocks, or are raw arguments.** -/
theorem hasBlocks {g : Grammar} (hg : grammar = .ok g) : g.HasBlocks (isRaw g) := by
  have hcheck : grammar.toOption.any (fun g => g.hasBlocks (isRaw g)) = true := by
    decide +kernel
  rw [hg] at hcheck
  exact Grammar.hasBlocks_of_check hcheck

/-- Whether a line may be a block that begins with `macro`, with a recovered region behind it. -/
def readsMacroWord (g : Grammar) : Bool :=
  (g.tokenPrecedence? .macroKw).isNone && (g.rhsOf line).any fun
    | [.nonterminal statement] => (g.rhsOf statement).any fun
      | [.nonterminal block] => (g.rhsOf block).any fun
        | .terminal .macroKw :: .terminal .error :: _ => true
        | _ => false
      | _ => false
    | _ => false

/-- **A line may begin with `macro`, and a recovered region may stand behind it.** -/
theorem exists_macroWord {g : Grammar} (hg : grammar = .ok g) : ∃ statement block rest,
    [.nonterminal statement] ∈ g.rhsOf line ∧ [.nonterminal block] ∈ g.rhsOf statement ∧
      .terminal .macroKw :: .terminal .error :: rest ∈ g.rhsOf block ∧
      g.tokenPrecedence? .macroKw = none := by
  have hcheck : grammar.toOption.any readsMacroWord = true := by
    decide +kernel
  rw [hg] at hcheck
  simp only [readsMacroWord, Except.toOption, Option.any_some, Bool.and_eq_true,
    Option.isNone_iff_eq_none, List.any_eq_true] at hcheck
  obtain ⟨hprecedence, rhs, hrhs, hstatement⟩ := hcheck
  split at hstatement
  · next statement =>
    obtain ⟨rhs', hrhs', hblock⟩ := List.any_eq_true.1 hstatement
    split at hblock
    · next block =>
      obtain ⟨rhs'', hrhs'', hopens⟩ := List.any_eq_true.1 hblock
      split at hopens
      · exact ⟨statement, block, _, hrhs, hrhs', hrhs'', hprecedence⟩
      · cases hopens
    · cases hblock
  · cases hstatement

end AsmTree.Assembly
