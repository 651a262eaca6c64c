import AsmTree.Proofs.Grammar.Words
import AsmTree.Proofs.Machine.Quiet
import AsmTree.Proofs.Machine.Skeletons

/-!
# What machines read is derived

A machine that shifts and reductions lead to acceptance has no recovered region on its stack, so
what it accepts has exactly the tokens of the input. **Main statements:** the accepted trees are
intact (`Parses.lacks`), and the kinds of their tokens, extras aside, are derived from the start
(`Parses.exists_derivation`).
-/

namespace AsmTree

namespace Tree

/-! ## Trees without a kind -/

mutual

/-- Whether no token and no node is of a kind. -/
def lacks (k : Kind) : Tree → Bool
  | token k' _ => k' != k
  | node k' cs => k' != k && lacksAll k cs

def lacksAll (k : Kind) : List Tree → Bool
  | [] => true
  | t :: ts => lacks k t && lacksAll k ts

end

theorem lacksAll_iff {k : Kind} {ts : List Tree} :
    lacksAll k ts = true ↔ ∀ t ∈ ts, t.lacks k = true := by
  induction ts with
  | nil => simp [lacksAll]
  | cons t ts ih => rw [lacksAll, Bool.and_eq_true, ih, List.forall_mem_cons]

mutual

theorem ne_of_lacks {k : Kind} (depth start : Nat) : ∀ (t : Tree), t.lacks k = true →
    ∀ (others : List Element), ∀ e ∈ t.elementsOnto depth start others, e.kind ≠ k ∨ e ∈ others
  | token k' text, h, others, e, he => by
    rcases List.mem_cons.1 he with rfl | he
    · exact Or.inl (by simpa [lacks] using h)
    · exact Or.inr he
  | node k' cs, h, others, e, he => by
    rw [lacks, Bool.and_eq_true] at h
    rcases List.mem_cons.1 he with rfl | he
    · exact Or.inl (by simpa using h.1)
    · exact ne_of_lacksAll (depth + 1) start cs h.2 others e he

theorem ne_of_lacksAll {k : Kind} (depth start : Nat) : ∀ (ts : List Tree),
    lacksAll k ts = true → ∀ (others : List Element),
    ∀ e ∈ elementsOntoAll depth start ts others, e.kind ≠ k ∨ e ∈ others
  | [], _, _, _, he => Or.inr he
  | t :: ts, h, others, e, he => by
    rw [lacksAll, Bool.and_eq_true] at h
    rcases ne_of_lacks depth start t h.1 _ e he with hne | he
    · exact Or.inl hne
    · exact ne_of_lacksAll depth (start + t.length) ts h.2 others e he

end

/-! ## Words of intact trees -/

def wordAll (isExtra : Kind → Bool) (ts : List Tree) : List Kind :=
  ((leavesAll ts).map Leaf.kind).filter (!isExtra ·)

theorem wordAll_cons (isExtra : Kind → Bool) (t : Tree) (ts : List Tree) :
    wordAll isExtra (t :: ts) = wordAll isExtra [t] ++ wordAll isExtra ts := by
  simp [wordAll, leavesAll_cons]

mutual

theorem words_shape {isExtra : Kind → Bool} : ∀ t : Tree, t.lacks .error = true →
    Shape.words (t.shape isExtra) = wordAll isExtra [t]
  | token k text, _ => by
    have hleaves : leavesAll [token k text] = [⟨k, text⟩] := rfl
    rw [shape, wordAll, hleaves]
    cases hk : isExtra k <;> simp [hk, Shape.word]
  | node k cs, h => by
    rw [lacks, Bool.and_eq_true] at h
    have hchildren : Shape.words (shapeAll isExtra cs) = wordAll isExtra cs :=
      words_shapeAll cs h.2
    rw [shape, if_neg (by simpa using h.1), Shape.words_cons, Shape.words_nil, List.append_nil,
      Shape.word, hchildren, wordAll, wordAll, leavesAll_node]

theorem words_shapeAll {isExtra : Kind → Bool} : ∀ ts : List Tree, lacksAll .error ts = true →
    Shape.words (shapeAll isExtra ts) = wordAll isExtra ts
  | [], _ => rfl
  | t :: ts, h => by
    rw [lacksAll, Bool.and_eq_true] at h
    rw [shapeAll_cons, Shape.words_append, words_shape t h.1, words_shapeAll ts h.2,
      wordAll_cons isExtra t ts]

end

end Tree

open AsmTree.Tree

namespace Machine

variable {g : Grammar} {s : Setup} {m m' : Machine} {ts : List Tree} {k : Kind}

/-! ## Accepted trees lack what the input and the grammar lack -/

/-- No tree on the stack, no token that is left and no visible nonterminal is of a kind. -/
structure Lacks (s : Setup) (m : Machine) (k : Kind) : Prop where
  stack : ∀ t ∈ Frame.joined m.frames, t.lacks k = true
  input : ∀ l ∈ m.input, ∀ t ∈ l.trees, t.lacks k = true

theorem lacks_wrap {t : ParseTable} {kind : Kind} {backward : List Tree} (hkind : kind ≠ k)
    (h : ∀ tree ∈ backward, tree.lacks k = true) :
    ∀ tree ∈ wrap t kind backward, tree.lacks k = true := by
  have hspan : backward.reverse.takeWhile (isExtraTree t) ++
      backward.reverse.dropWhile (isExtraTree t) = backward.reverse :=
    List.takeWhile_append_dropWhile
  have hall : ∀ tree ∈ backward.reverse, tree.lacks k = true := fun tree htree =>
    h tree (List.mem_reverse.1 htree)
  rw [← hspan] at hall
  intro tree htree
  rw [← List.mem_reverse, reverse_wrap] at htree
  rcases List.mem_append.1 htree with htree | htree
  · exact hall tree (List.mem_append_left _ htree)
  · rw [List.mem_singleton.1 htree, lacks, Bool.and_eq_true]
    refine ⟨by simpa using hkind, lacksAll_iff.2 fun child hchild => ?_⟩
    exact hall child (List.mem_append_right _ hchild)

theorem Lacks.trees_ahead (h : Lacks s m k) (hstop : s.stop.kind ≠ k) :
    ∀ t ∈ (m.ahead s 0).trees, t.lacks k = true := by
  rw [ahead, List.getD_eq_getElem?_getD]
  cases hget : m.input[0]? with
  | none =>
    intro t htree
    rw [show (Option.getD none ⟨[], s.stop⟩ : Lookahead).trees =
      [.token s.stop.kind s.stop.text] from rfl, List.mem_singleton] at htree
    rw [htree, lacks]
    simpa using hstop
  | some l => exact h.input l (List.mem_of_getElem? hget)

theorem Lacks.shift (h : Lacks s m k) (hstop : s.stop.kind ≠ k) (target : Nat) :
    Lacks s (m.shift s target) k where
  stack := by
    intro t htree
    rw [show (m.shift s target).frames =
      ⟨target, (m.ahead s 0).trees.reverse, (m.next s).stop⟩ :: m.frames from rfl,
      Frame.joined_cons] at htree
    rcases List.mem_append.1 htree with htree | htree
    · exact h.trees_ahead hstop t (List.mem_reverse.1 htree)
    · exact h.stack t htree
  input := fun l hl => h.input l (List.mem_of_mem_tail hl)

theorem Lacks.reduce (h : Lacks s m k) {p : Nat} (hkind : (s.table.production p).kind ≠ some k)
    (hr : m.reduce? s p = some m') : Lacks s m' k := by
  obtain ⟨base, rest, state, hdrop, -, rfl⟩ := reduce?_eq_some.1 hr
  have hsplit := List.take_append_drop (s.table.production p).length m.frames
  have hall := h.stack
  rw [← hsplit, hdrop, Frame.joined_append] at hall
  have hpopped : ∀ t ∈ Frame.joined (m.frames.take (s.table.production p).length),
      t.lacks k = true := fun t htree => hall t (List.mem_append_left _ htree)
  refine ⟨fun t htree => ?_, h.input⟩
  rw [frames, Frame.joined_cons] at htree
  rcases List.mem_append.1 htree with htree | htree
  · unfold reducedFrame at htree
    dsimp only at htree
    split at htree
    · next kind hk => exact lacks_wrap (fun he => hkind (by rw [hk, he])) hpopped t htree
    · exact hpopped t htree
  · exact hall t (List.mem_append_right _ htree)

/-- **What is accepted lacks what the input and the grammar lack.** -/
theorem Parses.lacks (h : Parses s m ts) (hlacks : Lacks s m k) (hstop : s.stop.kind ≠ k)
    (hkinds : ∀ p, (s.table.production p).kind ≠ some k) : lacksAll k ts = true := by
  induction h with
  | @accept m _ =>
    refine lacksAll_iff.2 fun t htree => ?_
    rcases List.mem_append.1 htree with htree | htree
    · exact hlacks.stack t (List.mem_reverse.1 htree)
    · exact hlacks.trees_ahead hstop t (List.mem_append_left _ htree)
  | reduce _ hm _ ih => exact ih (hlacks.reduce (hkinds _) hm)
  | shift _ _ _ _ ih => exact ih (hlacks.shift hstop _)

/-! ## Accepted words are derived -/

theorem Parses.leaves {word : List Leaf} (h : Parses s m ts) (ht : s.table.EofOnly)
    (hb : Balanced word m) : leavesAll ts = word := by
  induction h with
  | @accept m ha => exact hb.accept (ht.accept _ _ ha.2)
  | reduce _ hm _ ih => exact ih (hb.reduce hm)
  | @shift m target ts _ hm _ _ ih =>
    refine ih (hb.shift (fun he => ?_) target)
    rw [he] at hm
    exact ht.shift _ _ hm

variable {read : List Symbol} (ht : g.HasTable s.table)
  (hstop : s.table.isExtra s.stop.kind = false) (hvisible : ∀ id, g.kindOf? id ≠ some .error)

include ht hstop hvisible

theorem Parses.skeleton (h : Parses s m ts) (hsound : Sound g s m read) :
    ∃ d : Derivation g (.nonterminal g.start), shapeAll s.table.isExtra ts = d.skeleton := by
  induction h generalizing read with
  | accept ha => exact hsound.accept ht hstop ha
  | @reduce m m' p ts hr hm _ ih =>
    obtain ⟨read', hsound'⟩ := hsound.reduce (n := 0) ht hvisible hr (by rw [look_zero]; exact hm)
    exact ih hsound'
  | shift _ hm _ _ ih => exact ih (hsound.shift ht hstop hm)

/-- **The tokens of accepted trees, extras aside, are derived from the start.** -/
theorem Parses.exists_derivation (h : Parses s m ts) (hsound : Sound g s m read)
    (hlacks : lacksAll .error ts = true) :
    ∃ d : Derivation g (.nonterminal g.start), d.yield = wordAll s.table.isExtra ts := by
  obtain ⟨d, hd⟩ := h.skeleton ht hstop hvisible hsound
  refine ⟨d, ?_⟩
  rw [← d.words_skeleton, ← hd, words_shapeAll ts hlacks]

end Machine

end AsmTree
