import AsmTree.Proofs.Assembly.Grammar
import AsmTree.Proofs.Table.Operators

/-!
# The operators of the assembly language
-/

namespace AsmTree.Assembly

/-- The number of the rule for expressions. -/
def expr : Nat := 0

def binary : Nat := 1

def unary : Nat := 2

/-- **The rules for expressions are those of operators**, and their levels are the binding
strengths. -/
theorem hasOperators {g : Grammar} (hg : grammar = .ok g) : g.HasOperators expr binary unary := by
  have hcheck : grammar.toOption.any (·.hasOperators expr binary unary) = true := by
    decide +kernel
  rw [hg] at hcheck
  exact Grammar.hasOperators_of_check hcheck

theorem exists_searched {g : Grammar} (hg : grammar = .ok g) : ∃ found,
    g.Searched (.ofGrammar g enoughRounds) enoughRounds enoughKernels found := by
  have hcheck := checkGrammar_of_ok hg
  simp only [checkGrammar, Bool.and_eq_true] at hcheck
  obtain ⟨found, hsearched, -⟩ := Grammar.exists_searched hg hcheck.2
  exact ⟨found, hsearched⟩

theorem subsingleton_finished {g : Grammar} (hg : grammar = .ok g) {state : Nat}
    (hs : state < g.automaton.size) (k : Kind) : (g.finished state k).Subsingleton := by
  obtain ⟨found, hsearched⟩ := exists_searched hg
  exact hsearched.subsingleton_finished hs k

/-- **Levels are for operators.** -/
theorem ranks {g : Grammar} (hg : grammar = .ok g) : g.Ranks binary unary := by
  have hcheck : grammar.toOption.any (fun g =>
      g.ranks (.ofGrammar g enoughRounds) binary unary) = true := by
    decide +kernel
  rw [hg] at hcheck
  obtain ⟨found, hsearched⟩ := exists_searched hg
  exact Grammar.ranks_of_check hsearched.wellFormed hsearched.bounds hcheck

end AsmTree.Assembly
