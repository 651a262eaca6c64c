import AsmTree.Proofs.Assembly.Slots
import AsmTree.Proofs.Machine.Productions
import AsmTree.Proofs.Parser.Yields
import AsmTree.Proofs.Tree.Places

/-!
# Arguments and their slots

**Main statement (`accessors_ownSlots`):** in every tree of the assembly language the accessors of
directives and loops answer with the arguments of their own slots, up to the first slot that holds a
recovered region. They count expressions, so behind a region they take the argument of a later slot
for their own.
-/

namespace AsmTree

open Machine AsmTree.Tree

namespace Parser

variable {g : Grammar} {t : ParseTable} {w : Nat → Nat} {tree : SyntaxTree}

/-- **Parses keep showing productions**: an empty stack shows none, and one of earlier lines holds
lines at its bottom only. -/
theorem keeps_produced (h : Assembly.Shipped g t w) : Keeps t (Produced g t.isExtra) fun s m =>
    ∃ read, Producing g Assembly.lines s m read where
  moves := by
    rintro s rfl hstop htakes
    exact produced_invariant h.hasTable h.lines (hstop ▸ isExtra_eof h) htakes
  empty := by
    rintro p lexer splice rfl
    exact ⟨[], .start, .bottom _, fun _ ht => (by cases ht), sorted_lookaheads h lexer⟩
  resumed := by
    rintro p text splice point state rfl hstate hpoint
    refine ⟨[.nonterminal Assembly.lines], path_resumed h hstate, .file (Or.inl rfl),
      fun t ht => hpoint t ?_, sorted_lookaheads h _⟩
    rw [joined_resumed] at ht
    exact List.mem_reverse.1 ht

theorem isExtra_eq_isTrivia (h : Assembly.Shipped g t w) (k : Kind) :
    t.isExtra k = k.isTrivia := by
  have hextras : g.extras = [.whitespace, .comment, .blockComment, .lineCont] :=
    (RuleSet.declared_of_toGrammar h.grammar).2
  rw [Bool.eq_iff_iff, Grammar.isExtra_iff h.build, hextras]
  unfold Kind.isTrivia
  split <;> simp_all

theorem Yields.produced (h : Assembly.Shipped g t w) (hyields : Yields t tree) {l : Located}
    (hl : l ∈ (⟨0, tree.root⟩ : Located).subtrees) (hnode : l.isToken = false)
    (hk : l.kind ≠ .sourceFile) : Produced g t.isExtra l.kind l.tree.children := by
  rcases Located.mem_subtrees_node.1 hl with rfl | hl
  · exact absurd rfl hk
  · have hall := everywhereAll_iff.2 (hyields.everywhere (keeps_produced h))
    have hevery := Located.everywhere_of_mem_subtreesOntoAll hall hl
    obtain ⟨start, tree⟩ := l
    cases tree with
    | token k text => cases hnode
    | node k cs => exact hevery.1

/-- **Accessors answer with the arguments of their own slots, as long as no slot up to theirs holds
a recovered region**, in every tree that parses of the assembly language make. Behind a region an
answer comes from a slot further to the right. -/
theorem accessors_ownSlots (ht : Assembly.table = .ok t) (hyields : Yields t tree) :
    ∀ l ∈ (⟨0, tree.root⟩ : Located).subtrees, l.isToken = false → l.kind ∈ Assembly.slotted →
      l.OwnSlots := by
  intro l hl hnode hk
  obtain ⟨g, t', w, h⟩ := Assembly.exists_shipped
  obtain rfl := Except.ok.inj (ht.symm.trans h.table)
  have hvisible : ∀ k ∈ Assembly.slotted, k ≠ .sourceFile ∧ k ≠ .error := by decide
  obtain ⟨hfile, herror⟩ := hvisible _ hk
  obtain ⟨p, hp, hkind, ds, hds⟩ := (hyields.produced h hl hnode hfile).resolve_left herror
  obtain ⟨turn, hturn⟩ :=
    (Assembly.hasSlots h.grammar _ hk).exists_turn (isExtra_eq_isTrivia h) hp hkind hds
  exact (Located.slotted_of_run hturn).ownSlots

/-- Trees of a line on which the first argument cannot be read. -/
theorem accessors_ownSlots_line : ∃ t tree, Assembly.table = .ok t ∧
    parse ⟨t, {}⟩ "INCBIN ), 2\n" none = .ok tree ∧ Yields t tree ∧
    ∀ l ∈ (⟨0, tree.root⟩ : Located).subtrees, l.isToken = false → l.kind ∈ Assembly.slotted →
      l.OwnSlots := by
  obtain ⟨g, t, w, h⟩ := Assembly.exists_shipped
  obtain ⟨tree, hparse, -⟩ := exists_parse_scratch h {} "INCBIN ), 2\n"
  exact ⟨t, tree, h.table, hparse, .scratch hparse, accessors_ownSlots h.table (.scratch hparse)⟩

end Parser

end AsmTree
