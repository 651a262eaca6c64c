import AsmTree.Proofs.Assembly.Operators
import AsmTree.Proofs.Machine.Expected
import AsmTree.Proofs.Parser.Choices

/-!
# Hints

A report of an unexpected token lists what the state on top of the stack has a move for. The list
has every token that the machine would take in place of the unexpected one. But a state stands for
all the stacks that lead to it, and so does its row: a token with a reduction in it may be one that
the machine would take on another stack only.

**Main statement (`exists_table_expected`):** each listed token would be taken on some stack with
the same state on top, and no other token would.
-/

namespace AsmTree

open Machine

namespace Machine

variable {s : Setup} {m : Machine}

theorem errors_report (hknown : (m.next s).kind ≠ .unknown)
    (hopen : (m.next s).kind = .eof → m.openBlock? s = none) : (m.report s).errors =
      m.errors.push (.unexpected (m.next s).kind (m.context s) (s.table.expected m.top.state)
        (m.next s).range) := by
  unfold report
  dsimp only
  split
  · next h => exact absurd h hknown
  · next h =>
    rw [hopen h]
    rfl
  · rfl

end Machine

namespace Parser

/-- **What the hint of an unexpected token lists.** A machine that takes a token with the same state
on top has the token in the list, and for each token in the list there is a stack with that state on
top on which every machine takes it. -/
theorem exists_table_expected (options : ParseOptions) (text : String)
    (old : Option (SyntaxTree × InputEdit)) :
    ∃ g t, Assembly.grammar = .ok g ∧ Assembly.table = .ok t ∧
      let start := (Parser.mk t options).start text old
      ∀ m, Reaches start.setup start.machine m → t.default? m.top.state = none →
        (t.explicitAction m.top.state (m.next start.setup).kind).move = .error →
        ((m.next start.setup).kind ≠ .unknown →
          ((m.next start.setup).kind = .eof → m.openBlock? start.setup = none) →
          ((m.look 1).report start.setup).errors =
            m.errors.push (.unexpected (m.next start.setup).kind (m.context start.setup)
              (t.expected m.top.state) (m.next start.setup).range)) ∧
        ∀ k ≠ .error,
          (∀ m' : Machine, m'.top.state = m.top.state → (m'.next start.setup).kind = k →
            m'.Takes start.setup → k ∈ t.expected m.top.state) ∧
          (k ∈ t.expected m.top.state → ∃ below read, g.Path (m.top.state :: below) read ∧
            ∀ m' : Machine, m'.states = m.top.state :: below → m'.seen ≠ 0 →
              (m'.next start.setup).kind = k → m'.Takes start.setup) := by
  obtain ⟨g, t, w, h⟩ := Assembly.exists_shipped
  refine ⟨g, t, h.grammar, h.table, ?_⟩
  intro start m hreach hdefault _
  have htable : start.setup.table = t := table_start _ _ _
  have hnumbered : start.setup.table.Numbered := by
    rw [htable]
    exact h.hasTable.numbered
  obtain ⟨read, hlive⟩ := live_of_reaches h options text old hreach
  have hexpected {k : Kind} (hk : k ≠ .error) := Grammar.mem_expected_iff
    (Assembly.hasOperators h.grammar) (Assembly.ranks h.grammar) h.hasTable h.lines h.weighted
    (fun state hs k => Assembly.subsingleton_finished h.grammar hs k)
    (hlive.path.lt h.wellFormed) hdefault hk
  refine ⟨fun hknown hopen => ?_, fun k hk => ⟨fun m' htop hnext htakes => ?_, fun hmem => ?_⟩⟩
  · have herrors := errors_report (m := m.look 1) hknown hopen
    rw [htable] at herrors
    exact herrors
  · have hcan := htakes.canFollow hnumbered
    rw [hnext, htable, states, frames, List.map_cons, htop] at hcan
    exact hcan.mem_expected h.build hdefault hk
  · obtain ⟨below, read, hpath, hcan⟩ := (hexpected hk).1 hmem
    refine ⟨below, read, hpath, fun m' hstates hseen hnext => ?_⟩
    obtain ⟨n, -, hreduces⟩ := Grammar.exists_reduces (k := k) h.hasTable h.lines h.weighted hpath
    refine (takes_iff (n := n) hnumbered hseen ?_).2 ?_
    · rw [htable, hnext, hstates]
      exact hreduces
    · rw [htable, hnext, hstates]
      exact hcan

end Parser

end AsmTree
