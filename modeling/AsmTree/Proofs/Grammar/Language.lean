import AsmTree.Grammar.Rule
import AsmTree.Proofs.Grammar.Derivation
import Mathlib

/-!
# Languages of grammars and of rules

The language of a nonterminal is the set of words of terminals that it derives. A set of rules has a
meaning of its own: the least languages that satisfy the rules as equations, a sequence read as
concatenation, a choice as union and a repetition as Kleene star.

**Main statement:** the language of a grammar is the least valuation of its nonterminals that is
closed under the productions (`closed_language`, `language_le`).
-/

namespace AsmTree

open Computability

/-! ## Words of derivations -/

section Yield

variable {g : Grammar}

mutual

/-- The terminals of a derivation in order. -/
def Derivation.yield {s : Symbol} : Derivation g s → List Kind
  | .leaf k => [k]
  | .node _ _ children => Derivations.yield children

def Derivations.yield {ss : List Symbol} : Derivations g ss → List Kind
  | .nil => []
  | .cons first rest => first.yield ++ Derivations.yield rest

end

end Yield

/-- Languages for the nonterminals. -/
abbrev Valuation := Nat → Language Kind

/-- The words that the nonterminals derive. -/
def Grammar.language (g : Grammar) : Valuation := fun id =>
  {w | ∃ d : Derivation g (.nonterminal id), d.yield = w}

/-! ## Valuations -/

namespace Valuation

def symbol (v : Valuation) : Symbol → Language Kind
  | .terminal k => {[k]}
  | .nonterminal id => v id

def symbols (v : Valuation) : List Symbol → Language Kind
  | [] => 1
  | s :: ss => v.symbol s * v.symbols ss

def alternatives (v : Valuation) : List Alternative → Language Kind
  | [] => 0
  | a :: as => v.symbols a.symbols + v.alternatives as

variable (v : Valuation)

@[simp] theorem symbols_nil : v.symbols [] = 1 := rfl

@[simp] theorem symbols_cons (s : Symbol) (ss : List Symbol) :
    v.symbols (s :: ss) = v.symbol s * v.symbols ss := rfl

@[simp] theorem symbols_append (ss ts : List Symbol) :
    v.symbols (ss ++ ts) = v.symbols ss * v.symbols ts := by
  induction ss with
  | nil => simp
  | cons s ss ih => simp [ih, mul_assoc]

@[simp] theorem alternatives_nil : v.alternatives [] = 0 := rfl

@[simp] theorem alternatives_cons (a : Alternative) (as : List Alternative) :
    v.alternatives (a :: as) = v.symbols a.symbols + v.alternatives as := rfl

@[simp] theorem alternatives_append (as bs : List Alternative) :
    v.alternatives (as ++ bs) = v.alternatives as + v.alternatives bs := by
  induction as with
  | nil => simp
  | cons a as ih => rw [List.cons_append, alternatives_cons, ih, alternatives_cons, add_assoc]

/-- The alternative without symbols. -/
@[simp] theorem alternatives_empty : v.alternatives [{}] = 1 := by simp

@[simp] theorem alternatives_ofSymbol (s : Symbol) :
    v.alternatives [.ofSymbol s] = v.symbol s := by simp [Alternative.ofSymbol]

theorem alternatives_map_append (a : Alternative) (bs : List Alternative) :
    v.alternatives (bs.map a.append) = v.symbols a.symbols * v.alternatives bs := by
  induction bs with
  | nil => simp
  | cons b bs ih =>
    rw [List.map_cons, alternatives_cons, ih, alternatives_cons, mul_add, Alternative.append,
      symbols_append]

theorem alternatives_flatMap_append (as bs : List Alternative) :
    v.alternatives (as.flatMap fun a => bs.map a.append) =
      v.alternatives as * v.alternatives bs := by
  induction as with
  | nil => simp
  | cons a as ih =>
    rw [List.flatMap_cons, alternatives_append, ih, alternatives_map_append, alternatives_cons,
      add_mul]

theorem alternatives_map_level (level : Option UInt8) (as : List Alternative) :
    v.alternatives (as.map fun a => { a with level := level }) = v.alternatives as := by
  induction as with
  | nil => rfl
  | cons a as ih => simp [ih]

/-- The words of each production are words of its nonterminal. -/
def Closed (v : Valuation) (ps : List Production) : Prop :=
  ∀ p ∈ ps, v.symbols p.rhs ≤ v p.lhs

theorem closed_cons {v : Valuation} {p : Production} {ps : List Production} :
    v.Closed (p :: ps) ↔ v.symbols p.rhs ≤ v p.lhs ∧ v.Closed ps :=
  List.forall_mem_cons

end Valuation

/-! ## The language of a grammar is its least closed valuation -/

namespace Grammar

variable {g : Grammar} {v : Valuation}

theorem exists_derivations (ss : List Symbol) {w : List Kind}
    (h : w ∈ g.language.symbols ss) : ∃ ds : Derivations g ss, ds.yield = w := by
  induction ss generalizing w with
  | nil => exact ⟨.nil, ((Language.mem_one w).1 h).symm⟩
  | cons s ss ih =>
    obtain ⟨a, ha, b, hb, rfl⟩ := Language.mem_mul.1 h
    obtain ⟨ds, rfl⟩ := ih hb
    cases s with
    | terminal k => exact ⟨.cons (.leaf k) ds, congrArg (· ++ ds.yield) ha.symm⟩
    | nonterminal id =>
      obtain ⟨d, rfl⟩ := ha
      exact ⟨.cons d ds, rfl⟩

theorem closed_language (g : Grammar) : g.language.Closed g.productions.toList := by
  intro p hp w hw
  obtain ⟨ds, hds⟩ := exists_derivations p.rhs hw
  exact ⟨.node p (Array.mem_toList_iff.1 hp) ds, hds⟩

mutual

theorem yield_mem_symbol (h : v.Closed g.productions.toList) {s : Symbol} :
    ∀ d : Derivation g s, d.yield ∈ v.symbol s
  | .leaf k => rfl
  | .node p mem children =>
    h p (Array.mem_toList_iff.2 mem) (yield_mem_symbols h children)

theorem yield_mem_symbols (h : v.Closed g.productions.toList) {ss : List Symbol} :
    ∀ ds : Derivations g ss, ds.yield ∈ v.symbols ss
  | .nil => Language.nil_mem_one
  | .cons first rest =>
    Language.mem_mul.2 ⟨_, yield_mem_symbol h first, _, yield_mem_symbols h rest, rfl⟩

end

/-- **No closed valuation is less than the language.** -/
theorem language_le (h : v.Closed g.productions.toList) (id : Nat) : g.language id ≤ v id := by
  rintro w ⟨d, rfl⟩
  exact yield_mem_symbol h d

end Grammar

/-! ## The meaning of rules -/

namespace Rule

mutual

/-- The words that a rule describes, if `ρ` has those of the named rules. -/
def denote (ρ : String → Language Kind) : Rule → Language Kind
  | .blank => 1
  | .token k => {[k]}
  | .node k => ρ k.name
  | .rule name => ρ name
  | .seq parts => denoteSeq ρ parts
  | .choice options => denoteChoice ρ options
  | .opt body => denote ρ body + 1
  | .many body => (denote ρ body)∗
  | .many1 body => denote ρ body * (denote ρ body)∗
  | .prec _ body => denote ρ body

def denoteSeq (ρ : String → Language Kind) : List Rule → Language Kind
  | [] => 1
  | part :: parts => denote ρ part * denoteSeq ρ parts

/-- The words of any of several rules. -/
def denoteChoice (ρ : String → Language Kind) : List Rule → Language Kind
  | [] => 0
  | option :: options => denote ρ option + denoteChoice ρ options

end

variable {ρ ρ' : String → Language Kind}

mutual

theorem denote_mono (h : ρ ≤ ρ') : ∀ r : Rule, r.denote ρ ≤ r.denote ρ'
  | .blank => le_refl _
  | .token _ => le_refl _
  | .node k => h k.name
  | .rule name => h name
  | .seq parts => denoteSeq_mono h parts
  | .choice options => denoteChoice_mono h options
  | .opt body => add_le_add_left (denote_mono h body) 1
  | .many body => kstar_mono (denote_mono h body)
  | .many1 body => mul_le_mul' (denote_mono h body) (kstar_mono (denote_mono h body))
  | .prec _ body => denote_mono h body

theorem denoteSeq_mono (h : ρ ≤ ρ') : ∀ rs : List Rule, denoteSeq ρ rs ≤ denoteSeq ρ' rs
  | [] => le_refl _
  | part :: parts => mul_le_mul' (denote_mono h part) (denoteSeq_mono h parts)

theorem denoteChoice_mono (h : ρ ≤ ρ') :
    ∀ rs : List Rule, denoteChoice ρ rs ≤ denoteChoice ρ' rs
  | [] => le_refl _
  | option :: options => add_le_add (denote_mono h option) (denoteChoice_mono h options)

end

end Rule

namespace RuleSet

/-- The equations of a set of rules. A name without a rule has no words. -/
def equations (rules : RuleSet) : (String → Language Kind) →o (String → Language Kind) where
  toFun ρ name :=
    match rules.definitions.find? (·.name == name) with
    | some d => d.body.denote ρ
    | none => 0
  monotone' := by
    intro ρ ρ' h name
    dsimp only
    split
    · next d _ => exact Rule.denote_mono h d.body
    · exact le_refl _

/-- The words of the named rules: the least solution of the equations. -/
def meaning (rules : RuleSet) : String → Language Kind := rules.equations.lfp

end RuleSet

end AsmTree
