import AsmTree.Proofs.Parser.Literals
import AsmTree.Proofs.Tree.Paths
import AsmTree.Proofs.View.Docs

/-!
# Documentation and the comments that it is made of

**Main statement (`documented_of_makes`):** in every tree of the assembly language a place is
documented by comments right above it. A line comment among them has a line of its own, no line is
empty between a comment and the next one, or the place, and they come in source order.

That comments with code in front of them are left out is true of line comments only. A block comment
documents what follows it whatever stands in front of it on its line.
-/

namespace AsmTree

open Machine AsmTree.Tree AsmTree.View

theorem Kind.isToken_of_isTrivia {k : Kind} (h : k.isTrivia = true) :
    k.isToken = true ∧ k ≠ .error := by
  unfold isTrivia at h
  split at h
  all_goals first | decide | cases h

theorem Assembly.not_isToken_of_kindOf {g : Grammar} (hg : grammar = .ok g) :
    ∀ p ∈ g.productions, ∀ k, g.kindOf? p.lhs = some k → k.isToken = false := by
  have hcheck : grammar.toOption.any (fun g => g.productions.toList.all fun p =>
      (g.kindOf? p.lhs).all (!·.isToken)) = true := by
    decide +kernel
  rw [hg] at hcheck
  intro p hp k hk
  have hlhs := List.all_eq_true.1 hcheck p (Array.mem_toList_iff.2 hp)
  rw [hk] at hlhs
  simpa using hlhs

/-! ## Side by side -/

namespace Located

theorem isChain_row (start : Nat) (ts : List Tree) :
    (row start ts).IsChain fun l l' => l.stop = l'.start := by
  induction ts generalizing start with
  | nil => exact List.isChain_nil
  | cons t ts ih =>
    cases ts with
    | nil => exact List.isChain_singleton _
    | cons t' ts => exact List.isChain_cons_cons.2 ⟨rfl, ih (start + t.length)⟩

end Located

theorem Cursor.mem_subtrees_of_mem_children {root e : Cursor} {path : List Nat} {l : Located}
    (he : root.place? path = some e) (hl : l ∈ e.focus.children) : l ∈ root.focus.subtrees := by
  obtain ⟨i, hi⟩ := List.getElem?_of_mem hl
  obtain ⟨d, hd⟩ := exists_child? (List.getElem?_eq_some_iff.1 hi).1
  obtain rfl : d.focus = l := Option.some.inj ((focus_of_child? hd).symm.trans hi)
  exact focus_mem_subtrees ((place?_concat he i).trans hd)

namespace Parser

variable {g : Grammar} {t : ParseTable} {w : Nat → Nat} {text : String} {tree : SyntaxTree}
  {l : Located}

/-! ## Trees of the assembly language -/

/-- What has the kind of a token is one, or a recovered region. -/
theorem Makes.isToken (h : Assembly.Shipped g t w) (hmakes : Makes t text tree)
    (hl : l ∈ (⟨0, tree.root⟩ : Located).subtrees) (hk : l.kind.isToken = true)
    (hne : l.kind ≠ .error) : l.isToken = true := by
  by_contra hnode
  rw [Bool.not_eq_true] at hnode
  obtain ⟨options, hparse⟩ := hmakes.of_shipped h
  have hfile : l.kind ≠ .sourceFile := fun hfile => by
    rw [hfile] at hk
    revert hk
    decide
  obtain ⟨p, hp, hkind, -⟩ :=
    ((Yields.scratch hparse).produced h hl hnode hfile).resolve_left hne
  rw [Assembly.not_isToken_of_kindOf h.grammar p hp _ hkind] at hk
  cases hk

theorem Makes.isTokenOf (h : Assembly.Shipped g t w) (hmakes : Makes t text tree)
    (hl : l ∈ (⟨0, tree.root⟩ : Located).subtrees) (htoken : l.isToken = true) :
    IsTokenOf text l := by
  rcases Located.mem_subtrees_node.1 hl with rfl | hpart
  · cases htoken
  obtain ⟨start, tree'⟩ := l
  cases tree' with
  | node k cs => cases htoken
  | token k word =>
    obtain ⟨token, hmem, rfl, rfl, rfl⟩ := exists_token_of_mem_parts (hmakes.leaves h) hpart
    exact ⟨token, hmem, rfl⟩

/-- A node begins with trivia only at the start of the text. -/
theorem Makes.start_eq_zero (h : Assembly.Shipped g t w) (hmakes : Makes t text tree) {x : Located}
    (hx : x ∈ (⟨0, tree.root⟩ : Located).subtrees) (hl : x.children.head? = some l)
    (htoken : l.isToken = true) (hk : l.kind.isTrivia = true) : l.start = 0 := by
  rcases Located.mem_subtrees_node.1 hx with rfl | hpart
  · replace hl : (Located.row 0 tree.children).head? = some l := hl
    cases hcs : tree.children with
    | nil =>
      rw [hcs] at hl
      cases hl
    | cons c cs =>
      rw [hcs] at hl
      obtain rfl := Option.some.inj hl
      rfl
  · have htrimmed := Located.everywhere_of_mem_subtreesOntoAll
      (everywhereAll_iff.2 (hmakes.trimmed h)) hpart
    have hnot := Located.not_extra_of_trimmed htrimmed (Or.inl hl)
    rw [isExtraTree, show l.tree.isToken = true from htoken,
      show t.isExtra l.tree.kind = true from (isExtra_eq_isTrivia h l.kind).trans hk] at hnot
    cases hnot

/-- **How the trees before a place stand in the text.** -/
theorem Makes.standing (h : Assembly.Shipped g t w) (hmakes : Makes t text tree)
    {path : List Nat} {c : Cursor} (hc : (Cursor.of ⟨0, tree.root⟩).place? path = some c) :
    Standing text c.focus c.before := by
  obtain rfl | ⟨path, i, rfl⟩ := path.eq_nil_or_concat
  · cases hc
    refine ⟨List.isChain_singleton _, fun _ hl => absurd hl List.not_mem_nil,
      fun _ hl => absurd hl List.not_mem_nil, fun l hl hk => ?_⟩
    obtain rfl := Option.some.inj hl
    cases hk
  · rw [List.concat_eq_append] at hc
    obtain ⟨e, he, hchild⟩ := Cursor.exists_of_place?_concat hc
    obtain ⟨before, x, after, hcs, -, rfl⟩ := Cursor.exists_of_child? hchild
    show Standing text x before.reverse
    have hmem {l : Located} (hl : l ∈ before ++ x :: after) :
        l ∈ (⟨0, tree.root⟩ : Located).subtrees :=
      Cursor.mem_subtrees_of_mem_children he (hcs ▸ hl)
    have hbefore {l : Located} (hl : l ∈ before.reverse) :
        l ∈ (⟨0, tree.root⟩ : Located).subtrees :=
      hmem (List.mem_append_left _ (List.mem_reverse.1 hl))
    have hrow : x :: before.reverse = (before ++ [x]).reverse := by simp
    refine ⟨?_, fun l hl => hmakes.isTokenOf h (hbefore hl),
      fun l hl => hmakes.isToken h (hbefore hl), fun l hl hk => ?_⟩
    · have hchain : (before ++ x :: after).IsChain fun l l' => l.stop = l'.start :=
        hcs ▸ Located.isChain_row e.focus.start e.focus.tree.children
      rw [hrow, List.isChain_reverse]
      rw [List.append_cons] at hchain
      exact hchain.left_of_append
    · rw [hrow, List.getLast?_reverse] at hl
      have hhead : e.focus.children.head? = some l := by
        rw [hcs, List.append_cons, List.head?_append, hl]
        rfl
      have hl' : l ∈ (⟨0, tree.root⟩ : Located).subtrees :=
        Cursor.mem_subtrees_of_mem_children he (List.mem_of_head? hhead)
      obtain ⟨hkind, hne⟩ := Kind.isToken_of_isTrivia hk
      exact hmakes.start_eq_zero h (Cursor.focus_mem_subtrees he) hhead
        (hmakes.isToken h hl' hkind hne) hk

end Parser

/-! ## What documents a place -/

/-- A place of a text is documented by what some comments say, unless they say nothing. They are
tokens of the text before the place, in source order; a line comment is the first token on its line,
and only the first of the comments can be a block comment; and no line is empty between a comment
and the next one, or the place. -/
structure View.Documented (text : String) (c : Cursor) : Prop where
  doc : doc? c = if (documenting c).all fun l => (contents l).isEmpty then none
    else some ("\n".intercalate ((documenting c).map contents))
  comments : ∀ l ∈ documenting c, IsTokenOf text l ∧ (l.kind = .comment ∧ OpensLine text l.start ∨
    l.kind = .blockComment ∧ (documenting c).head? = some l)
  gaps : (documenting c ++ [c.focus]).IsChain fun l l' => Adjoin text l.stop l'.start
  order : (documenting c).Pairwise fun l l' => l.stop ≤ l'.start

theorem View.Standing.documented {text : String} {c : Cursor}
    (h : Standing text c.focus c.before) : Documented text c where
  doc := doc?_eq c
  comments l hl := by
    rw [documenting, List.head?_reverse]
    exact h.comments (Nat.zero_le 1) l (List.mem_reverse.1 hl)
  gaps := by
    rw [documenting, ← List.reverse_cons, List.isChain_reverse]
    exact h.gaps (Nat.zero_le 1)
  order := by
    have hchain := (h.gaps (Nat.zero_le 1)).tail.imp fun _ _ hadjoin => hadjoin.le
    have htrans : IsTrans Located fun l l' => l'.stop ≤ l.start :=
      ⟨fun a b c hab hbc => hbc.trans ((Nat.le_add_right _ _).trans hab)⟩
    rw [documenting, List.pairwise_reverse]
    exact List.isChain_iff_pairwise.1 hchain

namespace Parser

variable {t : ParseTable} {text : String} {tree : SyntaxTree}

/-- **Documentation is made of the comments right above a place**, in every tree that the assembly
language makes of a text. A line comment among them has a line of its own, no line is empty between
a comment and the next one, or the place, and they come in source order. -/
theorem documented_of_makes (ht : Assembly.table = .ok t) (hmakes : Makes t text tree) :
    ∀ (path : List Nat) (c : Cursor), (Cursor.of ⟨0, tree.root⟩).place? path = some c →
      Documented text c := by
  intro path c hc
  obtain ⟨g, t', w, h⟩ := Assembly.exists_shipped
  obtain rfl := Except.ok.inj (ht.symm.trans h.table)
  exact (hmakes.standing h hc).documented

/-- The places of a text that has a comment of each form above a label. -/
theorem documented_of_makes_lines : ∃ t tree, Assembly.table = .ok t ∧
    parse ⟨t, {}⟩ "/* a */\n; b\nx:\n" none = .ok tree ∧
    ∀ (path : List Nat) (c : Cursor), (Cursor.of ⟨0, tree.root⟩).place? path = some c →
      Documented "/* a */\n; b\nx:\n" c := by
  obtain ⟨g, t, w, h⟩ := Assembly.exists_shipped
  obtain ⟨tree, hparse, -⟩ := exists_parse_scratch h {} "/* a */\n; b\nx:\n"
  exact ⟨t, tree, h.table, hparse, documented_of_makes h.table (.scratch hparse)⟩

end Parser

end AsmTree
