import AsmTree.Blob
import AsmTree.Grammar.Assembly

/-!
# The assembly language

The grammar of the assembly language and its parse table, made once.
-/

namespace AsmTree.Assembly

/-- The grammar of the assembly language. -/
def grammar : Except GrammarError Grammar := rules.toGrammar

/-- The parse table of the assembly language. -/
def table : Except LoadError ParseTable :=
  match grammar with
  | .ok g => ParseTable.ofGrammar g
  | .error e => .error (.construction e)

end AsmTree.Assembly
