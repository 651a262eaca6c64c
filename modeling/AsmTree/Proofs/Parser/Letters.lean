import AsmTree.Proofs.Machine.Letters
import AsmTree.Proofs.Parser.Consistency

/-!
# The case of letters does not matter

A parser of any table gives for a text in small letters the tree of the text in small letters
(`parse_toLower`). **Main statement (`exists_table_caseless`):** so texts that differ in the case of
letters only have tokens of the same kinds in the same places, and in the assembly language trees of
the same form with the same checkpoints and the same diagnostics, but for what these quote.
-/

namespace AsmTree

open Machine

/-! ## Elements and results in small letters -/

theorem LineIndex.ofText_toLower (text : String) : ofText text.toLower = ofText text := by
  have hstarts (offset : Nat) (cs : List Char) :
      startsFrom offset (cs.map Char.toLower) = startsFrom offset cs := by
    have hnewline : Caseless '\n' := by decide
    induction cs generalizing offset with
    | nil => rfl
    | cons c cs ih =>
      rw [List.map_cons, startsFrom, startsFrom, utf8Size_toLower, ih]
      simp only [hnewline.toLower_eq_iff]
  rw [ofText, ofText, toList_toLower, hstarts, utf8ByteSize_toLower]

/-- The element over the text in small letters. -/
def Element.lower (e : Element) : Element := { e with text := e.text.map String.toLower }

namespace Tree

mutual

theorem elementsOnto_lower (depth start : Nat) (t : Tree) (rest : List Element) :
    elementsOnto depth start t.lower (rest.map Element.lower) =
      (elementsOnto depth start t rest).map Element.lower := by
  cases t with
  | token k text =>
    rw [lower, elementsOnto, elementsOnto, utf8ByteSize_toLower]
    rfl
  | node k cs =>
    rw [lower, elementsOnto, elementsOnto, lengthAll_lowerAll,
      elementsOntoAll_lower (depth + 1) start cs rest]
    rfl

theorem elementsOntoAll_lower (depth start : Nat) (ts : List Tree) (rest : List Element) :
    elementsOntoAll depth start (lowerAll ts) (rest.map Element.lower) =
      (elementsOntoAll depth start ts rest).map Element.lower := by
  cases ts with
  | nil => rfl
  | cons t ts =>
    rw [lowerAll, elementsOntoAll, elementsOntoAll, length_lower,
      elementsOntoAll_lower depth (start + t.length) ts rest,
      elementsOnto_lower depth start t]

end

end Tree

/-- The tree of the text in small letters. -/
def SyntaxTree.lower (tree : SyntaxTree) : SyntaxTree :=
  { tree with
    children := tree.children.map Tree.lower
    errors := tree.errors.map Diagnostic.lower }

theorem SyntaxTree.elements_lower (tree : SyntaxTree) :
    tree.lower.elements = tree.elements.map Element.lower := by
  have hroot : tree.lower.root = tree.root.lower := (Tree.lower_node _ _).symm
  rw [elements, hroot]
  exact Tree.elementsOnto_lower 0 0 tree.root []

/-! ## What remains without texts -/

/-- An element without its text. Of a token it is left that there was one. -/
def Element.mute (e : Element) : Element := { e with text := e.text.map fun _ => "" }

/-- A diagnostic without its message. -/
def Diagnostic.mute (d : Diagnostic) : Diagnostic := { d with message := "" }

theorem Element.mute_lower (e : Element) : e.lower.mute = e.mute := by
  simp [mute, lower, Function.comp_def]

theorem Diagnostic.mute_lower (d : Diagnostic) : d.lower.mute = d.mute := by
  unfold lower
  split <;> rfl

theorem SyntaxTree.elements_mute_lower (tree : SyntaxTree) :
    tree.lower.elements.map Element.mute = tree.elements.map Element.mute := by
  rw [elements_lower, List.map_map]
  exact List.map_congr_left fun e _ => e.mute_lower

theorem SyntaxTree.errors_mute_lower (tree : SyntaxTree) :
    tree.lower.errors.map Diagnostic.mute = tree.errors.map Diagnostic.mute := by
  rw [lower, List.map_map]
  exact List.map_congr_left fun d _ => d.mute_lower

/-! ## Parsing -/

theorem Lookahead.group_lower (isExtra : Kind → Bool) (stop : Token) (waiting ts : List Token) :
    group isExtra stop.lower (waiting.map Token.lower) (ts.map Token.lower) =
      (group isExtra stop waiting ts).map lower := by
  induction ts generalizing waiting with
  | nil => simp [group, lower]
  | cons t ts ih =>
    rw [List.map_cons, group, group]
    by_cases h : isExtra t.kind = true
    · rw [if_pos h, if_pos (show isExtra t.lower.kind = true from h)]
      exact ih (t :: waiting)
    · rw [if_neg h, if_neg (show ¬isExtra t.lower.kind = true from h), List.map_cons]
      exact congrArg₂ _ (by simp [lower]) (ih [])

namespace Parser

variable (p : Parser)

theorem stopToken_lower (lexer : Lexer) : (stopToken lexer).lower = stopToken lexer :=
  congrArg (Token.mk .eof · _ _) (toLower_ofList [])

theorem stopToken_lexer_lower (lexer : Lexer) : stopToken lexer.lower = stopToken lexer := by
  simp [stopToken, Lexer.lower]

theorem fresh_toLower (text : String) : p.fresh text.toLower =
    ⟨(p.fresh text).setup, (p.fresh text).machine.lower⟩ := by
  have hinput : p.lookaheads (.ofText text.toLower) =
      (p.lookaheads (.ofText text)).map Lookahead.lower := by
    rw [← Lexer.lower_ofText, lookaheads, stopToken_lexer_lower, ← stopToken_lower,
      Lexer.tokens_lower]
    exact Lookahead.group_lower p.table.isExtra _ [] _
  rw [fresh, startAt, hinput, ← Lexer.lower_ofText, stopToken_lexer_lower]
  simp [fresh, startAt, Machine.lower, Frame.lower]

/-- **The tree of a text in small letters is that of the text, in small letters.** -/
theorem parse_toLower (text : String) :
    p.parse text.toLower none = (p.parse text none).map SyntaxTree.lower := by
  have hrun : (p.fresh text.toLower).run = (p.fresh text).run.map Output.lower := by
    rw [fresh_toLower, Start.run, Start.run]
    dsimp only
    rw [show (p.fresh text).machine.lower.input.length = (p.fresh text).machine.input.length from
      List.length_map _]
    exact Machine.run_lower (stopToken_lower _) rfl _ _
  unfold parse
  simp only [start, hrun, LineIndex.ofText_toLower]
  cases (p.fresh text).run <;> rfl

/-- **The case of letters does not matter.** Texts that differ in it only have tokens of the same
kinds in the same places, and the assembly language gives them trees of the same form, the same
checkpoints, and the same diagnostics but for their messages. -/
theorem exists_table_caseless :
    (∀ text text' : String, text.toLower = text'.toLower →
      (tokenize text).map (fun t => (t.kind, t.offset, t.length)) =
        (tokenize text').map fun t => (t.kind, t.offset, t.length)) ∧
    ∃ t, Assembly.table = .ok t ∧
      ∀ (options : ParseOptions) (text text' : String), text.toLower = text'.toLower →
        ∃ tree tree', parse ⟨t, options⟩ text none = .ok tree ∧
          parse ⟨t, options⟩ text' none = .ok tree' ∧
          tree.elements.map Element.mute = tree'.elements.map Element.mute ∧
          tree.checkpoints = tree'.checkpoints ∧
          tree.errors.map Diagnostic.mute = tree'.errors.map Diagnostic.mute := by
  constructor
  · intro text text' h
    have hplace (text : String) :
        (tokenize text.toLower).map (fun t => (t.kind, t.offset, t.length)) =
          (tokenize text).map fun t => (t.kind, t.offset, t.length) := by
      rw [tokenize_toLower, List.map_map]
      refine List.map_congr_left fun t _ => ?_
      simp only [Function.comp_apply, Token.length_lower]
      rfl
    rw [← hplace text, h, hplace text']
  · obtain ⟨g, t, w, hshipped⟩ := Assembly.exists_shipped
    refine ⟨t, hshipped.table, fun options text text' h => ?_⟩
    obtain ⟨tree, hparse, -⟩ := exists_parse_scratch hshipped options text
    obtain ⟨tree', hparse', -⟩ := exists_parse_scratch hshipped options text'
    have hlower : tree.lower = tree'.lower := by
      have hboth := (parse_toLower ⟨t, options⟩ text).symm.trans
        ((congrArg (parse ⟨t, options⟩ · none) h).trans (parse_toLower ⟨t, options⟩ text'))
      rw [hparse, hparse'] at hboth
      exact Except.ok.inj hboth
    refine ⟨tree, tree', hparse, hparse', ?_, ?_, ?_⟩
    · rw [← tree.elements_mute_lower, hlower, tree'.elements_mute_lower]
    · show tree.lower.checkpoints = tree'.lower.checkpoints
      rw [hlower]
    · rw [← tree.errors_mute_lower, hlower, tree'.errors_mute_lower]

/-- An instruction in either case. -/
theorem exists_table_caseless_load :
    "ld A, $Ff\n".toLower = "LD a, $fF\n".toLower ∧
      (tokenize "ld A, $Ff\n").map (fun t => (t.kind, t.offset, t.length)) =
        (tokenize "LD a, $fF\n").map (fun t => (t.kind, t.offset, t.length)) ∧
      ∃ t tree tree', Assembly.table = .ok t ∧
        parse ⟨t, {}⟩ "ld A, $Ff\n" none = .ok tree ∧
        parse ⟨t, {}⟩ "LD a, $fF\n" none = .ok tree' ∧
        tree.elements.map Element.mute = tree'.elements.map Element.mute := by
  have h : "ld A, $Ff\n".toLower = "LD a, $fF\n".toLower := by
    rw [← String.toList_inj, toList_toLower, toList_toLower]
    decide
  obtain ⟨htokens, t, ht, hparse⟩ := exists_table_caseless
  obtain ⟨tree, tree', htree, htree', helements, -⟩ := hparse {} _ _ h
  exact ⟨h, htokens _ _ h, t, tree, tree', ht, htree, htree', helements⟩

end Parser

end AsmTree
