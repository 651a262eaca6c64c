import AsmTree.Proofs.Grammar.Lines
import AsmTree.Proofs.Grammar.WellFormed
import AsmTree.Proofs.Table.Certificate
import AsmTree.Shipped

/-!
# The grammar of the assembly language

**Main statement (`exists_shipped`):** the rules of the assembly language form a grammar of lines
that has a table. The kernel computes the grammar and its states; all else about the table follows
from what a table is.
-/

namespace AsmTree.Assembly

/-- The number of the rule for lines. -/
def lines : Nat := 11

def line : Nat := 12

/-- Rounds after which the sets and weights of the grammar no longer change. -/
def enoughRounds : Nat := 4

/-- More kernels than a search of the grammar looks at. -/
def enoughKernels : Nat := 100000

/-- Whether a grammar is one of lines and its states have no conflicts. -/
def checkGrammar (g : Grammar) : Bool :=
  g.hasLines lines line && g.weighted (g.weights enoughRounds) &&
    g.tabulates enoughRounds enoughKernels

set_option maxRecDepth 100000 in
theorem check_grammar : (match grammar with
    | .ok g => checkGrammar g
    | .error _ => false) = true := by
  decide +kernel

theorem checkGrammar_of_ok {g : Grammar} (hg : grammar = .ok g) : checkGrammar g = true := by
  have hcheck := check_grammar
  rw [hg] at hcheck
  exact hcheck

theorem unknown_not_mem_rhs {g : Grammar} (hg : grammar = .ok g) :
    ∀ p ∈ g.productions, .terminal .unknown ∉ p.rhs := by
  have hcheck : (match grammar with
      | .ok g => g.productions.toList.all fun p => !p.rhs.contains (.terminal .unknown)
      | .error _ => false) = true := by
    decide +kernel
  rw [hg] at hcheck
  simpa only [List.all_eq_true, Array.mem_toList_iff, Bool.not_eq_true', ← Bool.not_eq_true,
    List.contains_iff_mem] using hcheck

/-- What is known of the grammar and the table of the assembly language. -/
structure Shipped (g : Grammar) (t : ParseTable) (w : Nat → Nat) : Prop where
  grammar : Assembly.grammar = .ok g
  table : Assembly.table = .ok t
  build : ParseTable.build g = .ok t
  wellFormed : g.WellFormed
  fits : g.Fits
  indexed : t.Indexed
  lines : g.HasLines lines line
  weighted : g.Weighted w

theorem table_of_build {g : Grammar} {t : ParseTable} (hg : grammar = .ok g)
    (ht : ParseTable.build g = .ok t) : table = .ok t := by
  unfold table
  rw [hg]
  show ParseTable.ofGrammar g = .ok t
  unfold ParseTable.ofGrammar
  rw [ht]
  rfl

/-- **The assembly language has a table.** -/
theorem exists_shipped : ∃ g t w, Shipped g t w := by
  cases hg : grammar with
  | error e =>
    have hcheck := check_grammar
    rw [hg] at hcheck
    cases hcheck
  | ok g =>
    have hcheck := checkGrammar_of_ok hg
    simp only [checkGrammar, Bool.and_eq_true] at hcheck
    obtain ⟨⟨hlines, hweighted⟩, htabulates⟩ := hcheck
    obtain ⟨t, ht⟩ := Grammar.exists_hasTable hg htabulates
    exact ⟨g, t, _, hg, table_of_build hg ht.build, ht.build, ht.wellFormed, ht.fits, ht.indexed,
      Grammar.hasLines_of_check hlines, Grammar.weighted_of_check hweighted⟩

end AsmTree.Assembly
