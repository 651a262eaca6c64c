import AsmTree.Proofs.Assembly.Grammar
import AsmTree.Proofs.Machine.Progress

/-!
# The assembly language is parsed whole

**Main statement (`exists_table_total`):** with the table of the assembly language every parse ends
by acceptance, whatever the text and the options. It never gives up, and on the way no reduction
lacks a state and no recovery lacks a way to go on.
-/

namespace AsmTree

open Machine

namespace Assembly

variable {g : Grammar} {t : ParseTable} {w : Nat → Nat}

theorem Shipped.hasTable (h : Shipped g t w) : g.HasTable t :=
  ⟨h.wellFormed, h.fits, h.build, h.indexed⟩

theorem Shipped.eofOnly (h : Shipped g t w) : t.EofOnly :=
  Grammar.eofOnly_of_build h.wellFormed h.build h.indexed.actions h.lines.eof

end Assembly

namespace Parser

variable {g : Grammar} {w : Nat → Nat}

theorem live_fresh (p : Parser) (text : String) : Live g (p.fresh text).machine [] where
  path := .start
  ends := Lookahead.ends_group rfl fun t ht he => Lexer.tokens_kind _ t ht (Or.inl he)

theorem run_fresh {p : Parser} (h : Assembly.Shipped g p.table w) (text : String) : ∃ m,
    Reaches (p.fresh text).setup (p.fresh text).machine m ∧ m.Accepting (p.fresh text).setup ∧
      (p.fresh text).run = some ((m.look 1).accept (p.fresh text).setup) :=
  (live_fresh p text).run_moveLimit h.hasTable h.lines h.weighted rfl h.eofOnly
    (by simp [Grammar.weigh, heaviest])

/-- **Every text of the assembly language is parsed whole, with every limit of recovery:** the parse
ends by acceptance, and each step on the way can rely on what it needs. -/
theorem exists_table_total : ∃ t, Assembly.table = .ok t ∧
    ∀ (options : ParseOptions) (text : String),
      let start := fresh ⟨t, options⟩ text
      (∃ m, Reaches start.setup start.machine m ∧ m.Accepting start.setup ∧
        start.run = some ((m.look 1).accept start.setup)) ∧
      ∀ m, Reaches start.setup start.machine m → m.Steady start.setup := by
  obtain ⟨g, t, w, h⟩ := Assembly.exists_shipped
  refine ⟨t, h.table, fun options text => ⟨run_fresh (p := ⟨t, options⟩) h text, ?_⟩⟩
  intro m hreach
  obtain ⟨read, hlive⟩ := (live_fresh ⟨t, options⟩ text).reaches h.hasTable h.lines h.weighted rfl
    h.eofOnly hreach
  exact hlive.steady h.hasTable h.lines h.weighted rfl h.eofOnly

end Parser

end AsmTree
