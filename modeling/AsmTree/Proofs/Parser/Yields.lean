import AsmTree.Proofs.Machine.Invariants
import AsmTree.Proofs.Machine.Nodes
import AsmTree.Proofs.Machine.Skeletons
import AsmTree.Proofs.Parser.Consistency

/-!
# Trees that parses yield

A tree comes from a parse of some text, which may use another tree and any edit of it, even one that
lies about the texts. So the lines of a tree may come from many parses.

**Main statement (`Yields.everywhere`):** what every run keeps for the nodes that it makes holds of
every node of all these trees. An invariant of machines has to be shown for two starts only, the
empty stack and the one that holds lines of an earlier tree (`Keeps`).
-/

namespace AsmTree

open Machine AsmTree.Tree

namespace Parser

/-- Trees that parses with a table make of any texts: from scratch, or with another tree and any
edit. A tree of the same grammar version is one of them itself. -/
inductive Yields (t : ParseTable) : SyntaxTree → Prop where
  | scratch {options : ParseOptions} {text : String} {tree : SyntaxTree} :
    parse ⟨t, options⟩ text none = .ok tree → Yields t tree
  | edited {options : ParseOptions} {text : String} {old tree : SyntaxTree} {e : InputEdit} :
    (old.grammarVersion = t.grammarVersion → Yields t old) →
    parse ⟨t, options⟩ text (some (old, e)) = .ok tree → Yields t tree

/-- An invariant of machines that gives a property of the nodes that they make. -/
structure Keeps (t : ParseTable) (P : Kind → List Tree → Prop) (I : Setup → Machine → Prop) :
    Prop where
  moves {s : Setup} : s.table = t → s.stop.kind = .eof → Brings s P →
    Invariant s (I s) fun ts => ∀ tree ∈ ts, tree.Everywhere P
  empty {p : Parser} (lexer : Lexer) (splice : Option Splice) : p.table = t →
    I (p.startAt lexer splice).setup (p.startAt lexer splice).machine
  resumed {p : Parser} (text : String) (splice : Option Splice) {point : ResumePoint}
    {state : Nat} : p.table = t → t.resumeState = some state →
    (∀ tree ∈ point.children, tree.Everywhere P) →
    I (p.resumed text splice point state).setup (p.resumed text splice point state).machine

/-- A start with the invariant, for which all that it takes over is as it should be. -/
structure Start.Kept (t : ParseTable) (P : Kind → List Tree → Prop) (I : Setup → Machine → Prop)
    (start : Start) : Prop where
  table : start.setup.table = t
  stop : start.setup.stop.kind = .eof
  takes : Brings start.setup P
  kept : I start.setup start.machine

variable {t : ParseTable} {P : Kind → List Tree → Prop} {I : Setup → Machine → Prop} {p : Parser}
  {old tree : SyntaxTree} {point : ResumePoint} {out : Output}

/-! ## Tokens of the assembly language -/

theorem isExtra_eof {g : Grammar} {w : Nat → Nat} (h : Assembly.Shipped g t w) :
    t.isExtra .eof = false :=
  Grammar.isExtra_eq_false h.build h.lines.extras.2

theorem sorted_lookaheads {g : Grammar} {w : Nat → Nat} (h : Assembly.Shipped g p.table w)
    (lexer : Lexer) : ∀ l ∈ p.lookaheads lexer, Sorted p.table.isExtra l :=
  sorted_group (by simp) (isExtra_eof h)

/-! ## Trees that are used again -/

theorem joined_resumed (p : Parser) (text : String) (splice : Option Splice) (point : ResumePoint)
    (state : Nat) : Frame.joined (p.resumed text splice point state).machine.frames =
      point.children.reverse := by
  simp [resumed, startAt, push, Machine.frames, Frame.joined]

theorem path_resumed {g : Grammar} {w : Nat → Nat} {state : Nat} (h : Assembly.Shipped g t w)
    (hstate : t.resumeState = some state) :
    g.Path [state, 0] [.nonterminal Assembly.lines] := by
  rw [Grammar.resumeState_eq h.build, h.lines.resumePoint] at hstate
  exact .move .start hstate

theorem mem_of_mem_row {ts : List Tree} {ls : List Located} {start : Nat} {tree : Tree}
    (hsub : ls ⊆ Located.row start ts) (h : tree ∈ ls.map Located.tree) : tree ∈ ts := by
  rw [← Located.map_tree_row start ts]
  exact List.map_subset _ hsub h

theorem everywhere_resumePoint (h : ∀ tree ∈ old.children, tree.Everywhere P) {offset : Nat}
    (hpoint : old.resumePoint? offset = some point) :
    ∀ tree ∈ point.children, tree.Everywhere P := by
  obtain ⟨_, _, _, -, -, rfl⟩ := SyntaxTree.resumePoint?_eq_some hpoint
  exact fun tree htree => h tree (mem_of_mem_row (List.takeWhile_sublist _).subset htree)

theorem brings_of_splice (h : ∀ tree ∈ old.children, tree.Everywhere P) {s : Setup} {delta : Int}
    {minOffset : Nat} (hs : s.splice = some ⟨old, delta, minOffset⟩) : Brings s P := by
  intro splice hsplice place tail htail tree htree
  obtain rfl := Option.some.inj (hs.symm.trans hsplice)
  obtain ⟨-, _, _, _, -, -, hchildren, -, -⟩ := Splice.tail?_eq_some htail
  rw [hchildren] at htree
  exact h tree (mem_of_mem_row (List.filter_subset_self _) htree)

/-! ## Starts -/

namespace Keeps

variable (h : Keeps t P I)

include h

theorem kept_startAt (hp : p.table = t) (lexer : Lexer) {splice : Option Splice}
    (htakes : Brings (p.startAt lexer splice).setup P) : (p.startAt lexer splice).Kept t P I :=
  ⟨hp, rfl, htakes, h.empty lexer splice hp⟩

theorem kept_fresh (hp : p.table = t) (text : String) : (p.fresh text).Kept t P I :=
  h.kept_startAt hp _ (.of_fresh rfl)

theorem kept_incremental (hp : p.table = t) (hold : ∀ tree ∈ old.children, tree.Everywhere P)
    (text : String) (e : InputEdit) : (p.incremental text old e).Kept t P I := by
  unfold incremental
  split
  · dsimp only
    split
    · next point state hpoint hstate =>
      exact ⟨hp, rfl, brings_of_splice hold rfl,
        h.resumed text _ hp (hp ▸ hstate) (everywhere_resumePoint hold hpoint)⟩
    · exact h.kept_startAt hp _ (brings_of_splice hold rfl)
  · exact h.kept_fresh hp text

/-- **Every parse begins with the invariant**, if the nodes of the tree that it uses are as they
should be. -/
theorem kept_start (hp : p.table = t) (text : String) (e : InputEdit)
    (hold : old.grammarVersion = t.grammarVersion →
      ∀ tree ∈ old.children, tree.Everywhere P) :
    (p.start text (some (old, e))).Kept t P I := by
  unfold start
  dsimp only
  split
  · next huse =>
    have hfault := Option.isNone_iff_eq_none.1 (Bool.and_eq_true_iff.1 huse).2
    exact h.kept_incremental hp (hold (hp ▸ (InputEdit.fault?_eq_none.1 hfault).1)) text e
  · exact h.kept_fresh hp text

/-! ## Parses -/

theorem everywhere_run {start : Start} (hstart : start.Kept t P I)
    (hrun : start.run = some out) : ∀ tree ∈ out.children, tree.Everywhere P :=
  (h.moves hstart.table hstart.stop hstart.takes).run hstart.kept hrun

theorem everywhere_of_parse {text : String} {earlier : Option (SyntaxTree × InputEdit)}
    (hstart : (p.start text earlier).Kept t P I) (hparse : p.parse text earlier = .ok tree) :
    ∀ child ∈ tree.children, child.Everywhere P := by
  unfold parse at hparse
  split at hparse
  · next out hrun =>
    cases hparse
    exact h.everywhere_run hstart hrun
  · cases hparse

end Keeps

/-- **What every run keeps holds of every node that parses make.** -/
theorem Yields.everywhere (hyields : Yields t tree) (h : Keeps t P I) :
    ∀ child ∈ tree.children, child.Everywhere P := by
  induction hyields with
  | @scratch options text tree hparse =>
    have hstart : (Parser.start ⟨t, options⟩ text none).Kept t P I := h.kept_fresh rfl text
    exact h.everywhere_of_parse hstart hparse
  | @edited options text old tree e _ hparse ih =>
    exact h.everywhere_of_parse (h.kept_start (p := ⟨t, options⟩) rfl text e ih) hparse

end Parser

end AsmTree
