import AsmTree.Proofs.Machine.Accounts
import AsmTree.Proofs.Parser.Totality
import AsmTree.Proofs.Token.Delimiters
import Mathlib.Data.List.Forall2

/-!
# Every unreadable token is reported

**Main statement (`forall₂_tells`):** the diagnostics of a parse from scratch that have a lexical
code are those of the unreadable tokens of the text, one each and in order, and say what the lexer
has found there.
-/

namespace AsmTree

open Lookahead Machine

/-- Grouping keeps the unreadable tokens in order, unless they are extras. -/
theorem Lookahead.unreadables_group {isExtra : Kind → Bool} (hextra : isExtra .unknown = false)
    {stop : Token} (hstop : stop.kind = .eof) (waiting ts : List Token) :
    unreadables (group isExtra stop waiting ts) =
      (ts.filter (·.kind = .unknown)).map .unreadable := by
  induction ts generalizing waiting with
  | nil => exact unreadables_of_eof hstop
  | cons t ts ih =>
    rw [group]
    by_cases hk : t.kind = .unknown
    · rw [hk, hextra, if_neg Bool.false_ne_true, unreadables_cons, ih,
        List.filter_cons_of_pos (by simpa using hk)]
      simp [unreadables, hk]
    · rw [List.filter_cons_of_neg (by simpa using hk)]
      split
      · exact ih _
      · rw [unreadables_cons, ih]
        simp [unreadables, hk]

namespace Parser

variable {g : Grammar} {t : ParseTable}

theorem accounts_fresh {p : Parser} (hextra : p.table.isExtra .unknown = false) (text : String) :
    Accounts (((tokenize text).filter (·.kind = .unknown)).map .unreadable)
      (p.fresh text).machine := by
  show lexicals [] ++ unreadables (group p.table.isExtra (stopToken (.ofText text)) []
    (tokenize text)) = _
  rw [unreadables_group hextra rfl]
  rfl

/-- **Every unreadable token is reported exactly once.** The diagnostics with a lexical code are
those of the unreadable tokens of the text, in order. -/
theorem forall₂_tells (hg : g.WellFormed) (hbuild : ParseTable.build g = .ok t)
    (hactions : t.actions.size ≤ 2 ^ 32) (hunknown : .unknown ∉ g.extras)
    (heof : ∀ p ∈ g.productions, .terminal .eof ∉ p.rhs)
    (options : ParseOptions) (text : String) {fuel : Nat} {out : Output}
    (hrun : (fresh ⟨t, options⟩ text).machine.run (fresh ⟨t, options⟩ text).setup fuel =
      some out) :
    List.Forall₂ (fun d u => d.Tells text u) (out.errors.filter (·.code.isLexical))
      ((tokenize text).filter (·.kind = .unknown)) := by
  have hextra := Grammar.isExtra_eq_false hbuild hunknown
  have hends := (balanced_fresh ⟨t, options⟩ text).ends
  have herrors := (accounts_fresh (p := ⟨t, options⟩) hextra text).run
    (Grammar.eofOnly_of_build hg hbuild hactions heof) rfl hends hrun
  rw [show out.errors.filter (·.code.isLexical) = _ from herrors, List.forall₂_map_left_iff,
    List.forall₂_same]
  intro u hu
  obtain ⟨hmem, hkind⟩ := List.mem_filter.1 hu
  exact tells_unreadable hmem (of_decide_eq_true hkind)

/-- A parse with an invalid character, a string that its line does not close, and a comment that
nothing closes. -/
theorem forall₂_tells_open : ∃ g t out, ParseTable.build g = .ok t ∧
    (fresh ⟨t, {}⟩ "ld ?\ndb \"a\n/* b").run = some out ∧
    List.Forall₂ (fun d u => d.Tells "ld ?\ndb \"a\n/* b" u)
      (out.errors.filter (·.code.isLexical))
      ((tokenize "ld ?\ndb \"a\n/* b").filter (·.kind = .unknown)) := by
  obtain ⟨g, t, w, h⟩ := Assembly.exists_shipped
  obtain ⟨m, -, -, hrun⟩ := run_fresh (p := ⟨t, {}⟩) h "ld ?\ndb \"a\n/* b"
  have hextras : .unknown ∉ g.extras := by
    rw [(RuleSet.declared_of_toGrammar h.grammar).2]
    decide
  exact ⟨g, t, _, h.build, hrun,
    forall₂_tells h.wellFormed h.build h.indexed.actions hextras h.lines.eof {} _ hrun⟩

end Parser

end AsmTree
