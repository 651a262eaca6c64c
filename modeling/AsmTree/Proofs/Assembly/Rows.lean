import AsmTree.Proofs.Assembly.Grammar
import AsmTree.Proofs.Grammar.Rows

/-!
# The rows of the assembly language
-/

namespace AsmTree.Assembly

/-- What a hidden rule does along a row: those for lines stay among lines, that for clauses stands
behind lines and clauses, and all others are part of first lines. -/
def within (g : Grammar) (id : Nat) (stage : Stage) : Option Stage :=
  match g.nonterminalName id with
  | "_source" | "_lines" | "_line" | "_statement" => if stage = .lines then some .lines else none
  | "_elif_clauses" => if stage = .lines ∨ stage = .clauses then some .clauses else none
  | _ => if stage = .header then some .header else none

/-- **Labels and statements stand among lines**, and clauses behind them. -/
theorem hasRows {g : Grammar} (hg : grammar = .ok g) : g.HasRows (within g) := by
  have hcheck : grammar.toOption.any (fun g => g.hasRows (within g)) = true := by
    decide +kernel
  rw [hg] at hcheck
  exact Grammar.hasRows_of_check hcheck

end AsmTree.Assembly
