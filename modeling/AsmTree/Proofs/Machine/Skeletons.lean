import AsmTree.Proofs.Grammar.Derivation
import AsmTree.Proofs.Machine.Leaves
import AsmTree.Proofs.Machine.Runs
import AsmTree.Proofs.Machine.Stacks

/-!
# The stack holds derivations

The trees of each frame, extras aside, are the skeleton of a derivation of the symbol that the frame
stands for. **Main statements:** every step keeps this (`Sound.step`), recovery included, and a
machine that accepts has a derivation of the start on its stack (`Sound.accept`).
-/

namespace AsmTree

open AsmTree.Tree

namespace Machine

variable {g : Grammar} {s : Setup} {m m' : Machine} {read : List Symbol}

/-! ## Shapes of what a machine makes -/

theorem shapeAll_takeWhile (t : ParseTable) (ts : List Tree) :
    shapeAll t.isExtra (ts.takeWhile (isExtraTree t)) = [] := by
  refine shapeAll_eq_nil fun tree htree => ?_
  have hextra := List.all_eq_true.1 List.all_takeWhile tree htree
  cases tree with
  | token k text => simpa [isExtraTree, isToken, Tree.kind, shape] using hextra
  | node k cs => simp [isExtraTree, isToken] at hextra

theorem shapeAll_dropWhile (t : ParseTable) (ts : List Tree) :
    shapeAll t.isExtra (ts.dropWhile (isExtraTree t)) = shapeAll t.isExtra ts := by
  conv_rhs => rw [← List.takeWhile_append_dropWhile (p := isExtraTree t) (l := ts)]
  rw [shapeAll_append, shapeAll_takeWhile, List.nil_append]

theorem shapeAll_wrap (t : ParseTable) (k : Kind) (backward : List Tree) :
    shapeAll t.isExtra (wrap t k backward).reverse =
      if k = .error then [.leaf .error] else [.node k (shapeAll t.isExtra backward.reverse)] := by
  rw [reverse_wrap, shapeAll_append, shapeAll_takeWhile, List.nil_append, shapeAll_cons,
    shapeAll_nil, List.append_nil, shape, shapeAll_dropWhile]

/-- A token that the grammar knows, with extras in front of it. -/
structure Sorted (isExtra : Kind → Bool) (l : Lookahead) : Prop where
  trivia : ∀ t ∈ l.trivia, isExtra t.kind = true
  token : isExtra l.token.kind = false

theorem Sorted.shape_trivia {isExtra : Kind → Bool} {l : Lookahead} (h : Sorted isExtra l) :
    shapeAll isExtra l.triviaTrees = [] := by
  refine shapeAll_eq_nil fun tree htree => ?_
  obtain ⟨t, ht, rfl⟩ := List.mem_map.1 htree
  simp [shape, h.trivia t ht]

theorem Sorted.shape_trees {isExtra : Kind → Bool} {l : Lookahead} (h : Sorted isExtra l) :
    shapeAll isExtra l.trees = [.leaf l.token.kind] := by
  simp [Lookahead.trees, h.shape_trivia, shape, h.token]

theorem sorted_group {isExtra : Kind → Bool} {stop : Token} {waiting ts : List Token}
    (hwaiting : ∀ t ∈ waiting, isExtra t.kind = true) (hstop : isExtra stop.kind = false) :
    ∀ l ∈ Lookahead.group isExtra stop waiting ts, Sorted isExtra l := by
  induction ts generalizing waiting with
  | nil =>
    intro l hl
    rw [Lookahead.group, List.mem_singleton] at hl
    subst hl
    exact ⟨fun t ht => hwaiting t (List.mem_reverse.1 ht), hstop⟩
  | cons t ts ih =>
    rw [Lookahead.group]
    split
    · next ht =>
      refine ih fun x hx => ?_
      rcases List.mem_cons.1 hx with rfl | hx
      · exact ht
      · exact hwaiting x hx
    · next ht =>
      intro l hl
      rcases List.mem_cons.1 hl with rfl | hl
      · exact ⟨fun t ht => hwaiting t (List.mem_reverse.1 ht), by simpa using ht⟩
      · exact ih (by simp) l hl

/-! ## Frames that hold derivations -/

/-- Each frame but the last holds a derivation of the symbol in its place. The last holds
nothing. -/
inductive Covers (g : Grammar) (isExtra : Kind → Bool) : List Frame → List Symbol → Prop where
  | bottom {f : Frame} : f.backward = [] → Covers g isExtra [f] []
  | push {f : Frame} {fs : List Frame} {symbol : Symbol} {read : List Symbol}
    (d : Derivation g symbol) : shapeAll isExtra f.backward.reverse = d.skeleton →
    Covers g isExtra fs read → Covers g isExtra (f :: fs) (symbol :: read)

variable {isExtra : Kind → Bool} {frames : List Frame}

theorem Covers.drop (h : Covers g isExtra frames read) (n : Nat) {base : Frame}
    {rest : List Frame} (hd : frames.drop n = base :: rest) :
    Covers g isExtra (base :: rest) (read.drop n) := by
  induction n generalizing frames read with
  | zero => exact hd ▸ h
  | succ n ih =>
    cases h with
    | bottom _ => simp at hd
    | push _ _ h => exact ih h hd

theorem Covers.of_singleton {symbol : Symbol} (h : Covers g isExtra frames [symbol]) :
    ∃ d : Derivation g symbol, shapeAll isExtra (Frame.joined frames).reverse = d.skeleton := by
  cases h with
  | push d hd hrest =>
    cases hrest with
    | bottom hempty => exact ⟨d, by simp [hempty, hd]⟩

/-- The frames on top hold derivations of what was read last. -/
theorem Covers.take (h : Covers g isExtra frames read) {ss : List Symbol}
    (hss : read.take ss.length = ss.reverse) :
    ∃ ds : Derivations g ss,
      shapeAll isExtra (Frame.joined (frames.take ss.length)).reverse = ds.skeleton := by
  induction ss using List.reverseRecOn generalizing frames read with
  | nil => exact ⟨.nil, rfl⟩
  | append_singleton ss symbol ih =>
    rw [List.length_append, List.length_singleton, List.reverse_append] at hss
    cases h with
    | bottom _ => cases hss
    | push d hd h =>
      obtain ⟨rfl, hrest⟩ := List.cons.inj hss
      obtain ⟨ds, hds⟩ := ih h hrest
      refine ⟨ds.snoc d, ?_⟩
      rw [List.length_append, List.length_singleton, List.take_succ_cons, Frame.joined_cons,
        List.reverse_append, shapeAll_append, hds, hd, Derivations.skeleton_snoc]

/-! ## Steps -/

/-- The stack is a path whose frames hold derivations, and the tokens that are left are sorted. -/
structure Sound (g : Grammar) (s : Setup) (m : Machine) (read : List Symbol) : Prop where
  path : g.Path m.states read
  covers : Covers g s.table.isExtra m.frames read
  input : ∀ l ∈ m.input, Sorted s.table.isExtra l

theorem Sound.congr (h : Sound g s m read) (hf : m'.frames = m.frames)
    (hi : m'.input = m.input) : Sound g s m' read :=
  ⟨by rw [states, hf]; exact h.path, by rw [hf]; exact h.covers, by rw [hi]; exact h.input⟩

theorem sorted_ahead (hinput : ∀ l ∈ m.input, Sorted s.table.isExtra l)
    (hstop : s.table.isExtra s.stop.kind = false) (n : Nat) :
    Sorted s.table.isExtra (m.ahead s n) := by
  rw [ahead, List.getD_eq_getElem?_getD]
  by_cases hn : n < m.input.length
  · rw [List.getElem?_eq_getElem hn]
    exact hinput _ (List.getElem_mem hn)
  · rw [List.getElem?_eq_none (by omega)]
    exact ⟨by simp, hstop⟩

variable (ht : g.HasTable s.table) (hstop : s.table.isExtra s.stop.kind = false)
  (hvisible : ∀ id, g.kindOf? id ≠ some .error)

include ht

include hstop in
theorem Sound.shift (h : Sound g s m read) {target : Nat}
    (hm : (s.table.explicitAction m.top.state (m.next s).kind).move = .shift target) :
    Sound g s (m.shift s target) (.terminal (m.next s).kind :: read) where
  path := path_shift ht h.path hm
  covers := by
    refine .push (.leaf _) ?_ h.covers
    show shapeAll s.table.isExtra (m.ahead s 0).trees.reverse.reverse = _
    rw [List.reverse_reverse, (sorted_ahead h.input hstop 0).shape_trees]
    rfl
  input := fun l hl => h.input l (List.mem_of_mem_tail hl)

include hvisible in
/-- The derivations on top become one of the nonterminal. -/
theorem Sound.reduce (h : Sound g s m read) {p n : Nat} (hr : m.reduction? s = some p)
    (he : (m.look n).reduce? s p = some m') : ∃ read', Sound g s m' read' := by
  obtain ⟨item, hc, rfl, hne⟩ := complete_of_reduction ht hr
  obtain ⟨base, rest, target, hdrop, hread, -, -, heq⟩ := reduce?_of_path ht h.path hr
  have hpath := path_reduced ht h.path hr n he
  rw [heq n] at he
  cases he
  have hlt := Nat.lt_of_le_of_ne (hc.production_le ht.wellFormed) hne
  have hq := Grammar.getElem?_augmented (Array.getElem?_eq_getElem hlt)
  have hkind : (s.table.production item.production).kind =
      g.kindOf? g.productions[item.production].lhs := by
    rw [ht.production_of_complete hc, Augmented.lhs_eq hq]
  refine ⟨_, hpath, ?_, h.input⟩
  unfold reduced
  rw [Augmented.rhs_eq hq] at hread hdrop ⊢
  rw [Augmented.lhs_eq hq]
  obtain ⟨ds, hds⟩ := h.covers.take hread
  refine .push (.node _ (Array.getElem_mem hlt) ds) ?_ (h.covers.drop _ hdrop)
  rw [Derivation.skeleton, ← hds, ← hkind]
  cases hk : (s.table.production item.production).kind with
  | none => simp [reducedFrame, hk]
  | some k =>
    have hne : k ≠ .error := fun he => hvisible _ (by rw [← hkind, hk, he])
    simp [reducedFrame, hk, shapeAll_wrap, hne]

/-- A recovered region is a terminal of its own, whatever it takes. -/
theorem Sound.recover (h : Sound g s m read) (hr : m.recover? s = some m') :
    ∃ read', Sound g s m' read' := by
  obtain ⟨r, base, rest, looked, -, hdrop, hmove, rfl⟩ := recover?_eq_some hr
  have hdrop' : (m.look looked).frames.drop r.above = base :: rest := hdrop
  refine ⟨_, path_resynchronize (m := m.look looked) ht h.path hdrop' hmove, ?_, ?_⟩
  · rw [frames_resynchronize hdrop']
    refine .push (.leaf .error) ?_ (h.covers.drop _ hdrop)
    rw [shapeAll_wrap, if_pos rfl]
    rfl
  · rw [input_resynchronize hdrop']
    exact fun l hl => h.input l (List.mem_of_mem_drop hl)

include hstop hvisible in
/-- **Every step keeps derivations on the stack.** -/
theorem Sound.step (hs : s.splice = none) (h : Sound g s m read)
    (he : m.step s = .running m') : ∃ read', Sound g s m' read' := by
  have hmark {m₁ : Machine} (hrun : m₁.markLine s = .running m')
      (h₁ : ∃ read', Sound g s m₁ read') : ∃ read', Sound g s m' read' := by
    rw [markLine_of_splice hs] at hrun
    cases hrun
    obtain ⟨read', h₁⟩ := h₁
    exact ⟨read', h₁.congr (mark_frames s m₁) (mark_input s m₁)⟩
  have heffect := step_effect s m
  rw [he] at heffect
  generalize ho : Outcome.running m' = o at heffect
  cases heffect with
  | reduce hr _ hm => exact hmark ho.symm (h.reduce ht hvisible hr hm)
  | shift _ hm => exact hmark ho.symm ⟨_, Sound.shift (m := m.look 1) ht hstop (h.congr rfl rfl) hm⟩
  | recover _ _ hm =>
    have hreport : Sound g s ((m.look 1).report s) read :=
      h.congr (by simp) (by simp)
    exact hmark ho.symm (hreport.recover ht hm)
  | stuck _ _ => cases ho
  | accept _ _ => cases ho
  | abandon _ _ _ => cases ho

include hstop in
/-- **A machine that accepts has a derivation of the start on its stack.** -/
theorem Sound.accept (h : Sound g s m read) (ha : m.Accepting s) :
    ∃ d : Derivation g (.nonterminal g.start),
      shapeAll s.table.isExtra ((m.look 1).accept s).children = d.skeleton := by
  obtain ⟨item, hc, hp⟩ := Grammar.complete_of_accept ht.wellFormed ht.build ht.indexed.actions ha.2
  obtain ⟨hread, -⟩ := h.path.accept ht.wellFormed hc.inState hc.remaining hp
  obtain ⟨d, hd⟩ := (hread ▸ h.covers).of_singleton
  refine ⟨d, ?_⟩
  show shapeAll s.table.isExtra
    ((Frame.joined m.frames).reverse ++ (m.ahead s 0).triviaTrees) = d.skeleton
  rw [shapeAll_append, (sorted_ahead h.input hstop 0).shape_trivia, List.append_nil, hd]

end Machine

namespace Parser

variable {g : Grammar} {p : Parser}

theorem sound_fresh (heof : p.table.isExtra .eof = false) (text : String) :
    Machine.Sound g (p.fresh text).setup (p.fresh text).machine [] where
  path := .start
  covers := .bottom rfl
  input := Machine.sorted_group (by simp) heof

/-- **What a parse accepts has the shape of a derivation.** -/
theorem shape_of_accepts (ht : g.HasTable p.table) (heof : p.table.isExtra .eof = false)
    (hvisible : ∀ id, g.kindOf? id ≠ some .error) {text : String} (ha : p.Accepts text)
    {fuel : Nat} {out : Output}
    (hrun : (p.fresh text).machine.run (p.fresh text).setup fuel = some out) :
    ∃ d : Derivation g (.nonterminal g.start),
      shapeAll p.table.isExtra out.children = d.skeleton := by
  obtain ⟨m, hreach, hacc⟩ := ha
  obtain ⟨read, hsound⟩ := hreach.keeps
    (P := fun m => ∃ read, Machine.Sound g (p.fresh text).setup m read)
    ⟨[], sound_fresh heof text⟩
    fun m m' ⟨read, hm⟩ hstep => hm.step ht heof hvisible rfl hstep
  obtain ⟨fuel', hrun'⟩ := Machine.run_of_reaches hreach hrun
  rw [hacc.run hrun']
  exact hsound.accept ht heof hacc

end Parser

end AsmTree
