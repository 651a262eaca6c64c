import AsmTree.Proofs.Assembly.Grammar
import AsmTree.Proofs.Grammar.Slots

/-!
# The slots of the assembly language
-/

namespace AsmTree.Assembly

/-- The nodes that have their arguments in slots: directives, loops, and the alignments of sections
and of space. -/
def slotted : List Kind :=
  [.incbinDirective, .assertDirective, .sectionDirective, .alignDirective, .alignSpec,
    .charmapDirective, .dsDirective, .forBlock]

/-- What a hidden rule does to the slots of a node: arguments fill the slot at hand, options of a
section stand behind all arguments, and lines behind the first line. -/
def turns (g : Grammar) (node : Kind) (id : Nat) (turn : Turn) : Option Turn :=
  match g.nonterminalName id with
  | "_expr" | "_arg" | "_expr_list" =>
    if turn = .first ∨ turn = .awaiting then some .filled else none
  | "_for_args" => if turn = .lead then some .filled else none
  | "_section_options" =>
    if (turn = .awaiting ∨ turn = .filled) ∧ node = .sectionDirective then some .past else none
  | "_section_option" =>
    if (turn = .awaiting ∨ turn = .past) ∧ node = .sectionDirective then some .past else none
  | "_lines" | "_line" | "_statement" => if turn = .body then some .body else none
  | _ => none

/-- **Arguments fill their slots from the left.** -/
theorem hasSlots {g : Grammar} (hg : grammar = .ok g) :
    ∀ node ∈ slotted, g.HasSlots (turns g node) node := by
  have hcheck : grammar.toOption.any (fun g =>
      slotted.all fun node => g.hasSlots (turns g node) node) = true := by
    decide +kernel
  rw [hg] at hcheck
  exact fun node hnode => Grammar.hasSlots_of_check (List.all_eq_true.1 hcheck node hnode)

end AsmTree.Assembly
