import AsmTree.Proofs.Assembly.Blocks
import AsmTree.Proofs.Machine.OpenBlocks
import AsmTree.Proofs.Parser.Consistency
import AsmTree.Proofs.Parser.LineEnds
import AsmTree.Proofs.Parser.Order

/-!
# Reports of open blocks

**Main statement (`exists_table_openBlock`):** a parse from scratch reports an open block at most
once, at the end of the text, and points at the opening word, which is a token of the text and a
child of an error node.
-/

namespace AsmTree

open Machine AsmTree.Tree Located

variable {text : String} {k : Kind}

/-- **A token in its place in the tree of a text is one of the tokens of the text.** -/
theorem exists_token_of_mem_parts {ts : List Tree} {off : Nat} {word : String}
    (hleaves : leavesAll ts = (tokenize text).map Token.leaf)
    (h : ⟨off, .token k word⟩ ∈ Located.parts 0 ts) :
    ∃ t ∈ tokenize text, t.kind = k ∧ t.text = word ∧ t.offset = off := by
  obtain ⟨before, behind, hsplit, hoff⟩ := exists_leaf_of_mem_parts 0 ts h
  rw [hleaves] at hsplit
  obtain ⟨xs, ys, htokens, rfl, hys⟩ := List.map_eq_append_iff.1 hsplit
  obtain ⟨t, zs, rfl, hleaf, -⟩ := List.map_eq_cons_iff.1 hys
  obtain ⟨hkind, htext⟩ := Leaf.mk.inj hleaf
  refine ⟨t, by rw [htokens]; simp, hkind, htext, ?_⟩
  rw [tokenize] at htokens
  obtain ⟨lexer, hreads, hrest⟩ := Lexer.exists_reads htokens
  obtain ⟨a, -, hoffset, -, hlength⟩ := hreads.text
  obtain ⟨-, ht, -⟩ := hreads.next_token hrest
  rw [ht, hoffset, hlength, hoff, Leaf.lengthAll, List.map_map]
  rfl

/-- Diagnostics in order that are at one place and about no unreadable token are at most one. -/
theorem InOrder.length_le_one {ts : List Token} {ds : List Diagnostic} (h : InOrder ts ds)
    {p : Diagnostic → Bool} (start : Nat)
    (hp : ∀ d ∈ ds, p d = true → d.code.isLexical = false ∧ d.range.start = start) :
    (ds.filter p).length ≤ 1 := by
  have hpairwise := h.pairwise.filter p
  have hall : ∀ d ∈ ds.filter p, d.code.isLexical = false ∧ d.range.start = start := fun d hd =>
    hp d (List.mem_filter.1 hd).1 (List.mem_filter.1 hd).2
  match ds.filter p, hpairwise, hall with
  | [], _, _ => exact Nat.zero_le 1
  | [d], _, _ => exact Nat.le_refl 1
  | d :: d' :: _, hpairwise, hall =>
    have hprecedes := (List.pairwise_cons.1 hpairwise).1 d' List.mem_cons_self
    obtain ⟨hcode, hstart⟩ := hall d List.mem_cons_self
    obtain ⟨hcode', hstart'⟩ := hall d' (List.mem_cons_of_mem _ List.mem_cons_self)
    exact absurd (hstart.trans hstart'.symm) (hprecedes.ne hcode hcode')

/-- The words that open a block, each with the word that closes it. -/
def Kind.blocks : List (Kind × Kind) :=
  [(.macroKw, .endmKw), (.reptKw, .endrKw), (.forKw, .endrKw), (.ifKw, .endcKw)]

theorem Kind.exists_of_isOpener (hk : k.isOpener = true) :
    ∃ close, (k, close) ∈ Kind.blocks ∧ k.blockTerminator? = some close := by
  cases k with
  | macroKw | reptKw | forKw | ifKw => exact ⟨_, by decide, rfl⟩
  | _ => cases hk

namespace Parser

variable {g : Grammar} {t : ParseTable} {w : Nat → Nat}

/-- What a parse from scratch reports of open blocks is right. -/
theorem openBlocks_of_reaches (h : Assembly.Shipped g t w) (options : ParseOptions)
    (text : String) {m : Machine}
    (hreach : Reaches (fresh ⟨t, options⟩ text).setup (fresh ⟨t, options⟩ text).machine m) :
    OpenBlocks text.utf8ByteSize m := by
  obtain ⟨-, hextras⟩ := RuleSet.declared_of_toGrammar h.grammar
  have hextra (k : Kind) (hk : k.isOpener = true) : t.isExtra k = false := by
    have hblocks : ∀ b ∈ Kind.blocks, b.1 ∉ g.extras := by
      rw [hextras]
      decide
    obtain ⟨close, hclose, -⟩ := Kind.exists_of_isOpener hk
    exact Grammar.isExtra_eq_false h.build (hblocks _ hclose)
  have ht : g.HasTable (fresh ⟨t, options⟩ text).setup.table := h.hasTable
  have heof := Grammar.isExtra_eq_false h.build h.lines.extras.2
  have hstop : (stopToken (.ofText text)).offset = text.utf8ByteSize := by
    rw [Lexer.stopToken_ofText]
  rw [← hstop]
  refine (hreach.keeps (P := fun m =>
    (∃ read, Sound g (fresh ⟨t, options⟩ text).setup m read) ∧
    (∃ read, Lining g Assembly.lines (fresh ⟨t, options⟩ text).setup (.ofText text) none m read) ∧
    OpenBlocks (stopToken (.ofText text)).offset m) ⟨⟨[], sound_fresh heof text⟩,
      ⟨[], lining_fresh ⟨t, options⟩ text Assembly.lines⟩, fun d hd => by cases hd⟩ ?_).2.2
  rintro m m' ⟨⟨read, hsound⟩, ⟨read', hlining⟩, hblocks⟩ hstep
  exact ⟨hsound.step ht heof h.lines.visible rfl hstep,
    hlining.step ht h.lines h.eofOnly rfl hstep,
    hblocks.step ht (Assembly.hasBlocks h.grammar) h.eofOnly hextra rfl hsound hlining.standing
      hstep⟩

/-- **A parse from scratch reports an open block at most once.** The report is at the end of the
text. It has one related place, that of a word that opens a block, and names this word and the one
that would close the block. The word is a token of the text and in the tree a child of an error
node. -/
theorem exists_table_openBlock : ∃ t, Assembly.table = .ok t ∧
    ∀ (options : ParseOptions) (text : String), ∃ tree,
      parse ⟨t, options⟩ text none = .ok tree ∧
      (tree.errors.filter (·.code = .unterminatedBlock)).length ≤ 1 ∧
      ∀ d ∈ tree.errors, d.code = .unterminatedBlock →
        ∃ word ∈ tokenize text, ∃ close, (word.kind, close) ∈ Kind.blocks ∧
          d.range = .point text.utf8ByteSize ∧
          d.message = "unterminated " ++ word.kind.describe ++ " block" ∧
          d.hint = some ("add " ++ close.describe ++ " to close the block") ∧
          d.related = [⟨word.kind.describe ++ " opened here", word.range⟩] ∧
          ∃ region ∈ (⟨0, tree.root⟩ : Located).subtrees, ∃ cs,
            region.tree = .node .error cs ∧
            ⟨word.offset, .token word.kind word.text⟩ ∈ region.children := by
  obtain ⟨g, t, w, h⟩ := Assembly.exists_shipped
  refine ⟨t, h.table, fun options text => ?_⟩
  obtain ⟨m, hreach, hacc, hrun⟩ := run_fresh (p := ⟨t, options⟩) h text
  obtain ⟨tree, hparse, hout⟩ : ∃ tree, parse ⟨t, options⟩ text none = .ok tree ∧
    tree.output = _ := exists_parse_of_run hrun
  have herrors : tree.errors = m.errors.toList := congrArg Output.errors hout
  have hchildren : tree.children = ((m.look 1).accept (fresh ⟨t, options⟩ text).setup).children :=
    congrArg Output.children hout
  have hblocks := openBlocks_of_reaches h options text hreach
  have horder := (orderly_fresh ⟨t, options⟩ text).run h.hasTable rfl h.eofOnly
    (Token.ascending_tokenize text) (live_fresh (g := g) ⟨t, options⟩ text)
    (Or.inl fun d hd => by cases hd) hrun
  have hleaves := leaves_of_run ⟨t, options⟩ h.eofOnly text hrun
  rw [← hout] at horder hleaves
  refine ⟨tree, hparse, horder.length_le_one text.utf8ByteSize fun d hd hcode => ?_,
    fun d hd hcode => ?_⟩
  · rw [show (SyntaxTree.output tree).errors = m.errors.toList from herrors] at hd
    obtain ⟨k, start, word, rfl, -⟩ := hblocks d hd (by simpa using hcode)
    exact ⟨rfl, rfl⟩
  · rw [herrors] at hd
    obtain ⟨k, start, word, rfl, hk, region, hregion, cs, htree, hchild⟩ := hblocks d hd hcode
    have hmem : region ∈ Located.parts 0 tree.children := by
      rw [hchildren]
      exact parts_accept (m := m.look 1) hregion
    have hword : ⟨start, .token k word⟩ ∈ Located.parts 0 tree.children := by
      refine parts_trans htree (mem_parts_of_mem_row ?_) 0 _ hmem
      rw [Located.children, htree] at hchild
      exact hchild
    obtain ⟨τ, hτ, rfl, rfl, rfl⟩ := exists_token_of_mem_parts hleaves hword
    obtain ⟨close, hclose, hterminator⟩ := Kind.exists_of_isOpener hk
    refine ⟨τ, hτ, close, hclose, rfl, rfl, ?_, rfl, region, mem_subtrees_node.2 (Or.inr hmem), cs,
      htree, hchild⟩
    rw [Diagnostic.openBlock, hterminator]
    rfl

end Parser

end AsmTree
