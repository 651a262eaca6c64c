import AsmTree.Proofs.Machine.Leaves
import AsmTree.Proofs.Token.Lines
import Mathlib

/-!
# Reading on

`Lexer.Reads` says that a lexer reads some tokens and then stands elsewhere in the text, and
`Lookahead.Passes` the same of tokens with the extras in front of them.

**Main statements:** what is read up to the end of a line is read whatever follows the line
(`Reads.newline`), and a text is read the same wherever it stands, at the start of a line
(`lookaheads_moved`).
-/

namespace AsmTree

/-! ## Tokens -/

namespace Lexer

/-- The lexer in a text that goes on otherwise. -/
def withRest (lexer : Lexer) (rest : List Char) : Lexer := { lexer with rest }

/-- Reading some tokens leads from one place in a text to another. -/
inductive Reads : Lexer → List Token → Lexer → Prop where
  | nil {lexer : Lexer} : Reads lexer [] lexer
  | cons {lexer behind : Lexer} {ts : List Token} : lexer.rest ≠ [] →
    Reads lexer.next.2 ts behind → Reads lexer (lexer.next.1 :: ts) behind

variable {lexer behind last : Lexer} {ts ts' : List Token} {t : Token}

theorem Reads.append (h : Reads lexer ts behind) (h' : Reads behind ts' last) :
    Reads lexer (ts ++ ts') last := by
  induction h with
  | nil => exact h'
  | cons hne _ ih => exact .cons hne (ih h')

theorem Reads.tokens (h : Reads lexer ts behind) : lexer.tokens = ts ++ behind.tokens := by
  induction h with
  | nil => rfl
  | cons hne _ ih => rw [tokens_of_ne_nil hne, ih, List.cons_append]

theorem exists_reads (h : lexer.tokens = ts ++ ts') :
    ∃ behind, Reads lexer ts behind ∧ behind.tokens = ts' := by
  induction ts generalizing lexer with
  | nil => exact ⟨lexer, .nil, h⟩
  | cons t ts ih =>
    by_cases hne : lexer.rest = []
    · rw [tokens_of_nil hne] at h
      cases h
    · rw [tokens_of_ne_nil hne, List.cons_append] at h
      obtain ⟨rfl, hts⟩ := List.cons.inj h
      obtain ⟨behind, hreads, htokens⟩ := ih hts
      exact ⟨behind, .cons hne hreads, htokens⟩

/-- What is read is a part of the text. -/
theorem Reads.text (h : Reads lexer ts behind) : ∃ a, lexer.rest = a ++ behind.rest ∧
    behind.offset = lexer.offset + byteLength a ∧ behind.position = lexer.position.advance a ∧
    byteLength a = (ts.map Token.length).sum := by
  induction h with
  | nil => exact ⟨[], by simp⟩
  | @cons lexer behind ts hne _ ih =>
    obtain ⟨a, hrest, hoffset, hposition, hlength⟩ := ih
    obtain ⟨c, cs, hcs⟩ := List.exists_cons_of_ne_nil hne
    rw [next_of_cons hcs] at hrest hoffset hposition ⊢
    refine ⟨(scan c cs).lexeme ++ a, ?_, ?_, ?_, ?_⟩
    · rw [hcs, ← scan_lexeme_append_rest c cs, List.append_assoc]
      exact congrArg _ hrest
    · rw [hoffset, byteLength_append, Nat.add_assoc]
    · rw [hposition, Position.advance_append]
    · rw [byteLength_append, hlength, List.map_cons, List.sum_cons, Token.length,
        utf8ByteSize_ofList]

theorem Reads.length_pos (h : Reads lexer ts behind) (ht : t ∈ ts) : 0 < t.length := by
  induction h with
  | nil => cases ht
  | @cons lexer behind ts hne _ ih =>
    rcases List.mem_cons.1 ht with rfl | ht
    · obtain ⟨c, cs, hcs⟩ := List.exists_cons_of_ne_nil hne
      rw [next_of_cons hcs, Token.length, utf8ByteSize_ofList, scan, byteLength_cons]
      exact Nat.add_pos_left (Char.utf8Size_pos c) _
    · exact ih ht

theorem Reads.stop (h : Reads lexer (ts ++ [t]) behind) : t.stop = behind.offset := by
  induction ts generalizing lexer with
  | nil =>
    cases h with
    | cons hne h =>
      obtain ⟨c, cs, hcs⟩ := List.exists_cons_of_ne_nil hne
      cases h
      rw [next_of_cons hcs, Token.stop, Token.length, utf8ByteSize_ofList]
  | cons t' ts ih =>
    cases h with
    | cons _ h => exact ih h

/-! ### Lines -/

theorem scan_append {c : Char} {x : List Char} {k : Kind} {n : Nat} (y : List Char)
    (h : firstToken (c :: (x ++ y)) = (k, n)) (hx : x.length = n - 1) :
    scan c (x ++ y) = ⟨k, c :: x, y⟩ := by
  simp [scan, h, ← hx]

/-- A token behind which a line goes on is read whatever follows the line. -/
theorem next_line {w a : List Char} (hne : lexer.rest ≠ [])
    (h : lexer.next.2.rest = w ++ '\n' :: a) : ∃ v, lexer.rest = v ++ '\n' :: a ∧ ∀ b,
      (lexer.withRest (v ++ '\n' :: b)).next =
        (lexer.next.1, lexer.next.2.withRest (w ++ '\n' :: b)) := by
  obtain ⟨c, cs, hcs⟩ := List.exists_cons_of_ne_nil hne
  have hnext := next_of_cons hcs
  rw [hnext] at h ⊢
  rcases hk : firstToken (c :: cs) with ⟨k, n⟩
  obtain ⟨x, hx, rfl⟩ : ∃ x : List Char, x.length = n - 1 ∧ cs = x ++ (w ++ '\n' :: a) := by
    have hdrop : cs.drop (n - 1) = w ++ '\n' :: a := by
      rw [← h]
      simp [scan, hk]
    refine ⟨cs.take (n - 1), ?_, by rw [← hdrop, List.take_append_drop]⟩
    have hpos := congrArg List.length hdrop
    rw [List.length_drop, List.length_append, List.length_cons] at hpos
    rw [List.length_take]
    omega
  have hscan (b : List Char) :
      scan c (x ++ (w ++ '\n' :: b)) = ⟨k, c :: x, w ++ '\n' :: b⟩ := by
    refine scan_append _ (n := n) ?_ hx
    have hline : firstToken ((c :: (x ++ w)) ++ '\n' :: a) = (k, n) := by
      rw [← hk, List.cons_append, List.append_assoc]
    rw [← List.append_assoc, ← List.cons_append, firstToken_line (a := a), hline]
    rw [hline, List.length_cons, List.length_append, hx]
    omega
  refine ⟨c :: (x ++ w), ?_, fun b => ?_⟩
  · rw [hcs, List.cons_append, List.append_assoc]
  · have hrest : (lexer.withRest (c :: (x ++ w) ++ '\n' :: b)).rest =
        c :: (x ++ (w ++ '\n' :: b)) := by
      rw [withRest, List.cons_append, List.append_assoc]
    rw [next_of_cons hrest, hscan, hscan a]
    rfl

/-- **What is read up to the end of a line is read whatever follows the line.** -/
theorem Reads.newline (ht : t.kind = .newline) (h : Reads lexer (ts ++ [t]) behind) :
    ∃ w, lexer.rest = w ++ '\n' :: behind.rest ∧ ∀ b,
      Reads (lexer.withRest (w ++ '\n' :: b)) (ts ++ [t]) (behind.withRest b) := by
  induction ts generalizing lexer with
  | nil =>
    cases h with
    | cons hne h =>
      obtain ⟨c, cs, hcs⟩ := List.exists_cons_of_ne_nil hne
      cases h
      rw [next_of_cons hcs] at ht ⊢
      obtain rfl : c = '\n' := eq_of_firstToken_newline ht
      have hscan (b : List Char) : scan '\n' b = ⟨.newline, ['\n'], b⟩ :=
        scan_append (x := []) b (firstToken_newline b) rfl
      refine ⟨[], by rw [hcs, hscan]; rfl, fun b => ?_⟩
      have hrest : (lexer.withRest ([] ++ '\n' :: b)).rest = '\n' :: b := rfl
      have hone : Reads (lexer.withRest ([] ++ '\n' :: b)) [_] _ :=
        .cons (by rw [hrest]; simp) .nil
      rw [next_of_cons hrest, hscan] at hone
      rw [hscan]
      exact hone
  | cons t' ts ih =>
    cases h with
    | cons hne h =>
      obtain ⟨w, hw, hreads⟩ := ih h
      obtain ⟨v, hv, hnext⟩ := next_line hne hw
      refine ⟨v, hv, fun b => ?_⟩
      have hcons : Reads (lexer.withRest (v ++ '\n' :: b)) (_ :: (ts ++ [t]))
          (behind.withRest b) := .cons (by simp [withRest]) (by rw [hnext]; exact hreads b)
      rw [hnext] at hcons
      exact hcons

end Lexer

/-! ## Tokens with the extras in front of them -/

namespace Lookahead

def tokens (l : Lookahead) : List Token := l.trivia ++ [l.token]

theorem exists_group_cons (isExtra : Kind → Bool) (stop : Token) (waiting ts : List Token) :
    ∃ l ls, group isExtra stop waiting ts = l :: ls ∧
      l.first = (waiting.reverse ++ ts).headD stop := by
  induction ts generalizing waiting with
  | nil => exact ⟨_, [], rfl, by rw [List.append_nil]; rfl⟩
  | cons t ts ih =>
    rw [group]
    split
    · obtain ⟨l, ls, hgroup, hfirst⟩ := ih (t :: waiting)
      exact ⟨l, ls, hgroup, by simpa using hfirst⟩
    · refine ⟨_, _, rfl, ?_⟩
      cases h : waiting.reverse <;> simp [first]

theorem lengthAll_trees (l : Lookahead) :
    Tree.lengthAll l.trees = (l.tokens.map Token.length).sum := by
  rw [trees, triviaTrees, tokens]
  induction l.trivia with
  | nil => rfl
  | cons t ts ih => simp [Tree.length, Token.length, ih]

/-- The extras and nothing else stand in front of the token. -/
def Grouped (isExtra : Kind → Bool) (l : Lookahead) : Prop :=
  (∀ t ∈ l.trivia, isExtra t.kind = true) ∧ isExtra l.token.kind = false

variable {isExtra : Kind → Bool} {stop : Token} {waiting ts : List Token}

theorem group_extras (h : ∀ t ∈ ts, isExtra t.kind = true) (ts' : List Token) :
    group isExtra stop waiting (ts ++ ts') = group isExtra stop (ts.reverse ++ waiting) ts' := by
  induction ts generalizing waiting with
  | nil => rfl
  | cons t ts ih =>
    rw [List.cons_append, group, if_pos (h t List.mem_cons_self),
      ih fun x hx => h x (List.mem_cons_of_mem _ hx)]
    simp

theorem group_append {ls : List Lookahead} (h : ∀ l ∈ ls, l.Grouped isExtra) (ts : List Token) :
    group isExtra stop [] (ls.flatMap tokens ++ ts) = ls ++ group isExtra stop [] ts := by
  induction ls with
  | nil => rfl
  | cons l ls ih =>
    obtain ⟨htrivia, htoken⟩ := h l List.mem_cons_self
    rw [List.flatMap_cons, tokens, List.append_assoc, List.append_assoc, group_extras htrivia,
      List.singleton_append, group, if_neg (by simp [htoken]),
      ih fun x hx => h x (List.mem_cons_of_mem _ hx)]
    simp

/-- What comes first is grouped of what comes first. -/
theorem exists_of_group {l : Lookahead} {ls : List Lookahead} (hls : ls ≠ [])
    (h : group isExtra stop waiting ts = l :: ls) (hw : ∀ t ∈ waiting, isExtra t.kind = true) :
    ∃ ts₁ ts₂, ts = ts₁ ++ ts₂ ∧ l.tokens = waiting.reverse ++ ts₁ ∧ l.Grouped isExtra ∧
      ls = group isExtra stop [] ts₂ := by
  induction ts generalizing waiting with
  | nil =>
    rw [group] at h
    cases h
    exact absurd rfl hls
  | cons t ts ih =>
    rw [group] at h
    split at h
    · next ht =>
      have hw' : ∀ x ∈ t :: waiting, isExtra x.kind = true := by
        intro x hx
        rcases List.mem_cons.1 hx with rfl | hx
        · exact ht
        · exact hw x hx
      obtain ⟨ts₁, ts₂, rfl, htokens, hgrouped, hrest⟩ := ih h hw'
      exact ⟨t :: ts₁, ts₂, rfl, by rw [htokens]; simp, hgrouped, hrest⟩
    · next ht =>
      obtain ⟨rfl, rfl⟩ := List.cons.inj h
      refine ⟨[t], ts, rfl, rfl, ⟨fun x hx => hw x (List.mem_reverse.1 hx), ?_⟩, rfl⟩
      exact Bool.eq_false_iff.2 ht

end Lookahead

namespace Lexer

/-- Reading some tokens with the extras in front of them leads from one place to another. -/
structure Passes (isExtra : Kind → Bool) (lexer : Lexer) (ls : List Lookahead) (behind : Lexer) :
    Prop where
  reads : lexer.Reads (ls.flatMap Lookahead.tokens) behind
  grouped : ∀ l ∈ ls, l.Grouped isExtra

variable {isExtra : Kind → Bool} {lexer behind last : Lexer} {ls ls' : List Lookahead}
  {l : Lookahead}

theorem Passes.nil : Passes isExtra lexer [] lexer := ⟨.nil, by simp⟩

theorem Passes.append (h : Passes isExtra lexer ls behind) (h' : Passes isExtra behind ls' last) :
    Passes isExtra lexer (ls ++ ls') last := by
  refine ⟨?_, fun l hl => ?_⟩
  · rw [List.flatMap_append]
    exact h.reads.append h'.reads
  · rcases List.mem_append.1 hl with hl | hl
    · exact h.grouped l hl
    · exact h'.grouped l hl

theorem Passes.offset (h : Passes isExtra lexer ls behind) :
    behind.offset = lexer.offset + Tree.lengthAll (ls.flatMap Lookahead.trees) := by
  obtain ⟨a, -, hoffset, -, hlength⟩ := h.reads.text
  have hsum : ((ls.flatMap Lookahead.tokens).map Token.length).sum =
      Tree.lengthAll (ls.flatMap Lookahead.trees) := by
    clear h hlength
    induction ls with
    | nil => rfl
    | cons l ls ih => simp [ih, Lookahead.lengthAll_trees]
  rw [hoffset, hlength, hsum]

theorem Passes.length_pos (h : Passes isExtra lexer ls behind) (hl : l ∈ ls) :
    0 < l.token.length :=
  h.reads.length_pos (List.mem_flatMap.2 ⟨l, hl, by simp [Lookahead.tokens]⟩)

theorem Passes.stop (h : Passes isExtra lexer (ls ++ [l]) behind) :
    l.token.stop = behind.offset := by
  have hreads := h.reads
  rw [List.flatMap_append, List.flatMap_singleton, Lookahead.tokens, ← List.append_assoc] at hreads
  exact hreads.stop

/-- **What is passed up to the end of a line is passed whatever follows the line.** -/
theorem Passes.newline (hl : l.token.kind = .newline)
    (h : Passes isExtra lexer (ls ++ [l]) behind) :
    ∃ w, lexer.rest = w ++ '\n' :: behind.rest ∧ ∀ b,
      Passes isExtra (lexer.withRest (w ++ '\n' :: b)) (ls ++ [l]) (behind.withRest b) := by
  have hreads := h.reads
  rw [List.flatMap_append, List.flatMap_singleton, Lookahead.tokens, ← List.append_assoc] at hreads
  obtain ⟨w, hw, hline⟩ := hreads.newline hl
  refine ⟨w, hw, fun b => ⟨?_, h.grouped⟩⟩
  rw [List.flatMap_append, List.flatMap_singleton, Lookahead.tokens, ← List.append_assoc]
  exact hline b

end Lexer

namespace Parser

variable {p : Parser} {lexer behind : Lexer} {ls ls' : List Lookahead}

theorem stopToken_of_reads {ts : List Token} (h : lexer.Reads ts behind) :
    stopToken behind = stopToken lexer := by
  obtain ⟨a, hrest, hoffset, hposition, -⟩ := h.text
  simp [stopToken, hrest, hoffset, hposition, Position.advance_append, Nat.add_assoc]

theorem lookaheads_of_passes (h : lexer.Passes p.table.isExtra ls behind) :
    p.lookaheads lexer = ls ++ p.lookaheads behind := by
  rw [lookaheads, h.reads.tokens, Lookahead.group_append h.grouped, lookaheads,
    stopToken_of_reads h.reads]

/-- What comes first can be passed. -/
theorem passes_of_lookaheads (hls : ls' ≠ []) (h : p.lookaheads lexer = ls ++ ls') :
    ∃ behind, lexer.Passes p.table.isExtra ls behind ∧ ls' = p.lookaheads behind := by
  induction ls generalizing lexer with
  | nil => exact ⟨lexer, .nil, h.symm⟩
  | cons l ls ih =>
    obtain ⟨ts₁, ts₂, hts, htokens, hgrouped, hrest⟩ :=
      Lookahead.exists_of_group (by simp [hls]) h (by simp)
    rw [List.reverse_nil, List.nil_append] at htokens
    obtain ⟨next, hreads, hnext⟩ := Lexer.exists_reads hts
    have hone : lexer.Passes p.table.isExtra [l] next :=
      ⟨by rw [List.flatMap_singleton, htokens]; exact hreads, by simpa using hgrouped⟩
    have hbehind : p.lookaheads next = ls ++ ls' := by
      rw [lookaheads, hnext, stopToken_of_reads hreads, ← hrest]
      rfl
    obtain ⟨behind, hpasses, hls'⟩ := ih hbehind
    exact ⟨behind, hone.append hpasses, hls'⟩

theorem exists_lookaheads_cons (p : Parser) (lexer : Lexer) : ∃ l ls, p.lookaheads lexer = l :: ls ∧
    l.first.position = lexer.position := by
  obtain ⟨l, ls, hgroup, hfirst⟩ :=
    Lookahead.exists_group_cons p.table.isExtra (stopToken lexer) [] lexer.tokens
  refine ⟨l, ls, hgroup, ?_⟩
  rw [hfirst, List.reverse_nil, List.nil_append]
  by_cases h : lexer.rest = []
  · rw [Lexer.tokens_of_nil h, List.headD_nil, stopToken, h]
    rfl
  · obtain ⟨c, cs, hcs⟩ := List.exists_cons_of_ne_nil h
    rw [Lexer.tokens_of_ne_nil h, Lexer.next_of_cons hcs]
    rfl

end Parser

/-! ## A text in another place -/

def Position.moved (lines : Nat) (p : Position) : Position := ⟨p.line + lines, p.column⟩

def Token.moved (offset lines : Nat) (t : Token) : Token :=
  { t with offset := t.offset + offset, position := t.position.moved lines }

def Lookahead.moved (offset lines : Nat) (l : Lookahead) : Lookahead :=
  ⟨l.trivia.map (Token.moved offset lines), l.token.moved offset lines⟩

def Lexer.moved (offset lines : Nat) (lexer : Lexer) : Lexer :=
  { lexer with offset := lexer.offset + offset, position := lexer.position.moved lines }

section Moved

variable (offset lines : Nat)

theorem Position.advance_moved (p : Position) (cs : List Char) :
    (p.moved lines).advance cs = (p.advance cs).moved lines := by
  induction cs generalizing p with
  | nil => rfl
  | cons c cs ih =>
    have hstep : (p.moved lines).step c = (p.step c).moved lines := by
      unfold step moved
      split
      · simp [Nat.add_right_comm]
      · rfl
    rw [advance, List.foldl_cons, hstep]
    exact ih (p.step c)

@[simp] theorem Token.stop_moved (t : Token) : (t.moved offset lines).stop = t.stop + offset :=
  Nat.add_right_comm _ _ _

@[simp] theorem Lookahead.trees_moved (l : Lookahead) : (l.moved offset lines).trees = l.trees := by
  simp [trees, triviaTrees, moved, Token.moved]

theorem Lexer.next_moved (lexer : Lexer) : (lexer.moved offset lines).next =
    (lexer.next.1.moved offset lines, lexer.next.2.moved offset lines) := by
  cases h : lexer.rest with
  | nil =>
    have h' : (lexer.moved offset lines).rest = [] := h
    unfold next
    rw [h, h']
    rfl
  | cons c cs =>
    have h' : (lexer.moved offset lines).rest = c :: cs := h
    rw [next_of_cons h, next_of_cons h']
    simp [moved, Token.moved, Position.advance_moved, Nat.add_right_comm]

theorem Lexer.tokens_moved (lexer : Lexer) :
    (lexer.moved offset lines).tokens = lexer.tokens.map (Token.moved offset lines) := by
  refine tokens_induction (P := fun lexer ts =>
    (lexer.moved offset lines).tokens = ts.map (Token.moved offset lines)) ?_ ?_ lexer
  · intro lexer h
    exact tokens_of_nil h
  · intro lexer h ih
    have h' : (lexer.moved offset lines).rest ≠ [] := h
    rw [tokens_of_ne_nil h', next_moved, ih, List.map_cons]

theorem Lookahead.group_moved (isExtra : Kind → Bool) (stop : Token) (waiting ts : List Token) :
    group isExtra (stop.moved offset lines) (waiting.map (Token.moved offset lines))
        (ts.map (Token.moved offset lines)) =
      (group isExtra stop waiting ts).map (Lookahead.moved offset lines) := by
  induction ts generalizing waiting with
  | nil => simp [group, moved]
  | cons t ts ih =>
    rw [List.map_cons, group, group]
    by_cases h : isExtra t.kind = true
    · rw [if_pos h, if_pos (show isExtra (t.moved offset lines).kind = true from h)]
      exact ih (t :: waiting)
    · rw [if_neg h, if_neg (show ¬isExtra (t.moved offset lines).kind = true from h),
        List.map_cons]
      exact congrArg₂ _ (by simp [moved]) (ih [])

theorem Parser.stopToken_moved (lexer : Lexer) :
    stopToken (lexer.moved offset lines) = (stopToken lexer).moved offset lines := by
  simp [stopToken, Lexer.moved, Token.moved, Position.advance_moved, Nat.add_right_comm]

/-- **A text is read the same wherever it stands.** -/
theorem Parser.lookaheads_moved (p : Parser) (lexer : Lexer) :
    p.lookaheads (lexer.moved offset lines) =
      (p.lookaheads lexer).map (Lookahead.moved offset lines) := by
  rw [lookaheads, stopToken_moved, Lexer.tokens_moved]
  exact Lookahead.group_moved offset lines p.table.isExtra (stopToken lexer) [] lexer.tokens

end Moved

end AsmTree
