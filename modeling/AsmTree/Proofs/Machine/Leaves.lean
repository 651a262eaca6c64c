import AsmTree.Parser
import AsmTree.Proofs.Machine.Steps
import AsmTree.Proofs.Table.Cells
import AsmTree.Proofs.Token.Tokens

/-!
# No token is lost

The tokens of the trees on the stack and the tokens that are left are always those of the text.
**Main statement (`leaves_of_run`):** for a table that accepts at the end of the text only, the
leaves of the result of a run are the tokens of the text.
-/

namespace AsmTree

/-! ## Leaves of several trees -/

namespace Tree

def leavesAll (ts : List Tree) : List Leaf := leavesOntoAll ts []

mutual

theorem leavesOnto_append (t : Tree) (a b : List Leaf) :
    leavesOnto t (a ++ b) = leavesOnto t a ++ b := by
  cases t with
  | token k text => rfl
  | node k cs => exact leavesOntoAll_append cs a b

theorem leavesOntoAll_append (ts : List Tree) (a b : List Leaf) :
    leavesOntoAll ts (a ++ b) = leavesOntoAll ts a ++ b := by
  cases ts with
  | nil => rfl
  | cons t ts =>
    rw [leavesOntoAll, leavesOntoAll_append ts a b, leavesOnto_append t _ b]
    rfl

end

@[simp] theorem leavesAll_nil : leavesAll [] = [] := rfl

theorem leavesAll_cons (t : Tree) (ts : List Tree) :
    leavesAll (t :: ts) = t.leaves ++ leavesAll ts := by
  have h := leavesOnto_append t [] (leavesAll ts)
  rw [List.nil_append] at h
  exact h

@[simp] theorem leavesAll_append (a b : List Tree) :
    leavesAll (a ++ b) = leavesAll a ++ leavesAll b := by
  induction a with
  | nil => rfl
  | cons t a ih => rw [List.cons_append, leavesAll_cons, leavesAll_cons, ih, List.append_assoc]

@[simp] theorem leaves_node (k : Kind) (cs : List Tree) : (node k cs).leaves = leavesAll cs := rfl

theorem leavesAll_node (k : Kind) (cs : List Tree) : leavesAll [node k cs] = leavesAll cs := rfl

@[simp] theorem lengthAll_nil : lengthAll [] = 0 := rfl

@[simp] theorem lengthAll_cons (t : Tree) (ts : List Tree) :
    lengthAll (t :: ts) = t.length + lengthAll ts := rfl

@[simp] theorem lengthAll_append (a b : List Tree) :
    lengthAll (a ++ b) = lengthAll a + lengthAll b := by
  induction a with
  | nil => simp
  | cons t a ih => simp [ih, Nat.add_assoc]

@[simp] theorem lengthAll_reverse (ts : List Tree) : lengthAll ts.reverse = lengthAll ts := by
  induction ts with
  | nil => rfl
  | cons t ts ih => simp [ih, Nat.add_comm]

end Tree

open AsmTree.Tree

namespace Token

def leaf (t : Token) : Leaf := ⟨t.kind, t.text⟩

end Token

namespace Lookahead

theorem leavesAll_triviaTrees (l : Lookahead) :
    leavesAll l.triviaTrees = l.trivia.map Token.leaf := by
  unfold triviaTrees
  induction l.trivia with
  | nil => rfl
  | cons t ts ih => rw [List.map_cons, List.map_cons, leavesAll_cons, ih]; rfl

theorem leavesAll_trees (l : Lookahead) :
    leavesAll l.trees = l.trivia.map Token.leaf ++ [l.token.leaf] := by
  rw [trees, leavesAll_append, leavesAll_triviaTrees]
  rfl

/-- The leaves of the tokens that are left, the end of the text excepted. -/
def pending : List Lookahead → List Leaf
  | [] => []
  | [l] => leavesAll l.triviaTrees
  | l :: l' :: ls => leavesAll l.trees ++ pending (l' :: ls)

/-- The end of the text comes last, and nowhere else. -/
inductive Ends : List Lookahead → Prop where
  | last {l : Lookahead} : l.token.kind = .eof → Ends [l]
  | cons {l : Lookahead} {ls : List Lookahead} : l.token.kind ≠ .eof → Ends ls → Ends (l :: ls)

theorem pending_cons {l : Lookahead} {ls : List Lookahead} (h : Ends ls) :
    pending (l :: ls) = leavesAll l.trees ++ pending ls := by
  cases h with
  | last _ => rfl
  | cons _ _ => rfl

theorem Ends.ne_nil {ls : List Lookahead} (h : Ends ls) : ls ≠ [] := by
  cases h with
  | last _ => exact List.cons_ne_nil _ _
  | cons _ _ => exact List.cons_ne_nil _ _

theorem Ends.tail {l : Lookahead} {ls : List Lookahead} (h : Ends (l :: ls))
    (hne : l.token.kind ≠ .eof) : Ends ls := by
  cases h with
  | last he => exact absurd he hne
  | cons _ h => exact h

theorem Ends.drop {input : List Lookahead} {n : Nat} (h : Ends input)
    (hn : ∀ l ∈ input.take n, l.token.kind ≠ .eof) : Ends (input.drop n) := by
  induction n generalizing input with
  | zero => exact h
  | succ n ih =>
    obtain ⟨l, ls, rfl⟩ := List.exists_cons_of_ne_nil h.ne_nil
    refine ih (h.tail (hn l (by simp))) fun x hx => hn x ?_
    rw [List.take_succ_cons]
    exact List.mem_cons_of_mem _ hx

theorem Ends.eq_last {l : Lookahead} {ls : List Lookahead} (h : Ends (l :: ls))
    (he : l.token.kind = .eof) : ls = [] := by
  cases h with
  | last _ => rfl
  | cons hne _ => exact absurd he hne

theorem ends_group {isExtra : Kind → Bool} {stop : Token} {waiting ts : List Token}
    (hstop : stop.kind = .eof) (hts : ∀ t ∈ ts, t.kind ≠ .eof) :
    Ends (group isExtra stop waiting ts) := by
  induction ts generalizing waiting with
  | nil => exact .last hstop
  | cons t ts ih =>
    have htail := fun x hx => hts x (List.mem_cons_of_mem _ hx)
    rw [group]
    split
    · exact ih htail
    · exact .cons (hts t List.mem_cons_self) (ih htail)

theorem pending_group {isExtra : Kind → Bool} {stop : Token} {waiting ts : List Token}
    (hstop : stop.kind = .eof) (hts : ∀ t ∈ ts, t.kind ≠ .eof) :
    pending (group isExtra stop waiting ts) = (waiting.reverse ++ ts).map Token.leaf := by
  induction ts generalizing waiting with
  | nil =>
    rw [group, pending, leavesAll_triviaTrees, List.append_nil]
  | cons t ts ih =>
    have htail := fun x hx => hts x (List.mem_cons_of_mem _ hx)
    rw [group]
    split
    · rw [ih htail, List.reverse_cons, List.append_assoc]
      rfl
    · rw [pending_cons (ends_group hstop htail), ih htail, leavesAll_trees]
      simp

end Lookahead

open Lookahead

namespace Frame

@[simp] theorem joined_nil : joined [] = [] := rfl

@[simp] theorem joined_cons (f : Frame) (fs : List Frame) :
    joined (f :: fs) = f.backward ++ joined fs := by
  cases fs with
  | nil => exact (List.append_nil _).symm
  | cons f' fs => rfl

@[simp] theorem joined_append (a b : List Frame) : joined (a ++ b) = joined a ++ joined b := by
  induction a with
  | nil => rfl
  | cons f a ih => rw [List.cons_append, joined_cons, ih, joined_cons, List.append_assoc]

end Frame

namespace Machine

variable {s : Setup} {m m' : Machine}

/-! ## Trees of frames -/

theorem reverse_wrap (t : ParseTable) (k : Kind) (backward : List Tree) :
    (wrap t k backward).reverse = backward.reverse.takeWhile (isExtraTree t) ++
      [.node k (backward.reverse.dropWhile (isExtraTree t))] := by
  rw [wrap, List.span_eq_takeWhile_dropWhile]
  simp

theorem leavesAll_reverse_wrap (t : ParseTable) (k : Kind) (backward : List Tree) :
    leavesAll (wrap t k backward).reverse = leavesAll backward.reverse := by
  rw [reverse_wrap, leavesAll_append, leavesAll_node, ← leavesAll_append,
    List.takeWhile_append_dropWhile]

def frameLeaves (fs : List Frame) : List Leaf := leavesAll (Frame.joined fs).reverse

theorem frameLeaves_cons (f : Frame) (fs : List Frame) :
    frameLeaves (f :: fs) = frameLeaves fs ++ leavesAll f.backward.reverse := by
  rw [frameLeaves, Frame.joined_cons, List.reverse_append, leavesAll_append]
  rfl

theorem frameLeaves_append (a b : List Frame) :
    frameLeaves (a ++ b) = frameLeaves b ++ frameLeaves a := by
  rw [frameLeaves, Frame.joined_append, List.reverse_append, leavesAll_append]
  rfl

theorem leavesAll_stackTrees (m : Machine) : leavesAll m.stackTrees = frameLeaves m.frames := rfl

theorem leavesAll_reducedFrame (t : ParseTable) (r : Reduction) (popped : List Frame)
    (base : Frame) (state : Nat) :
    leavesAll (reducedFrame t r popped base state).backward.reverse = frameLeaves popped := by
  unfold reducedFrame
  dsimp only
  split
  · exact leavesAll_reverse_wrap _ _ _
  · rfl

/-! ## The tokens of a machine -/

/-- The tokens on the stack and those that are left make up a word. -/
structure Balanced (word : List Leaf) (m : Machine) : Prop where
  word : frameLeaves m.frames ++ pending m.input = word
  ends : Ends m.input

variable {word : List Leaf}

theorem Balanced.congr (h : Balanced word m) (hf : m'.frames = m.frames)
    (hi : m'.input = m.input) : Balanced word m' :=
  ⟨by rw [hf, hi]; exact h.word, by rw [hi]; exact h.ends⟩

theorem ahead_zero {l : Lookahead} {ls : List Lookahead} (h : m.input = l :: ls) :
    m.ahead s 0 = l := by
  rw [ahead, h]
  rfl

theorem next_of_input {l : Lookahead} {ls : List Lookahead} (h : m.input = l :: ls) :
    m.next s = l.token := by
  rw [next, ahead_zero h]

theorem Balanced.shift (h : Balanced word m) (hne : (m.next s).kind ≠ .eof) (target : Nat) :
    Balanced word (m.shift s target) := by
  obtain ⟨l, ls, hinput⟩ := List.exists_cons_of_ne_nil h.ends.ne_nil
  rw [next_of_input hinput] at hne
  have hends := (hinput ▸ h.ends).tail hne
  have hrest : (m.shift s target).input = ls := by
    show m.input.tail = ls
    rw [hinput]
    rfl
  refine ⟨?_, by rw [hrest]; exact hends⟩
  have hword := h.word
  rw [hinput, pending_cons hends, ← List.append_assoc] at hword
  rw [hrest, ← hword]
  show frameLeaves (⟨target, (m.ahead s 0).trees.reverse, _⟩ :: m.frames) ++ _ = _
  rw [frameLeaves_cons, ahead_zero hinput, List.reverse_reverse]

theorem Balanced.reduce (h : Balanced word m) {p : Nat} (hr : m.reduce? s p = some m') :
    Balanced word m' := by
  obtain ⟨base, rest, state, hdrop, -, rfl⟩ := reduce?_eq_some.1 hr
  refine ⟨?_, h.ends⟩
  show frameLeaves (reducedFrame s.table (s.table.production p)
    (m.frames.take (s.table.production p).length) base state :: base :: rest) ++ _ = _
  rw [frameLeaves_cons, leavesAll_reducedFrame, ← hdrop, ← frameLeaves_append,
    List.take_append_drop]
  exact h.word

/-- Skipped tokens move behind the trees. -/
theorem skipTokens_spec (n : Nat) (m : Machine) (backward : List Tree)
    (hn : ∀ l ∈ m.input.take n, l.token.kind ≠ .eof) (hends : Ends m.input) :
    leavesAll (skipTokens s n m backward).2.reverse ++
        pending (skipTokens s n m backward).1.input =
      leavesAll backward.reverse ++ pending m.input ∧
    Ends (skipTokens s n m backward).1.input := by
  induction n generalizing m backward with
  | zero => exact ⟨rfl, hends⟩
  | succ n ih =>
    obtain ⟨l, ls, hinput⟩ := List.exists_cons_of_ne_nil hends.ne_nil
    rw [hinput] at hn hends
    have hne : l.token.kind ≠ .eof := hn l (by simp)
    have hls := hends.tail hne
    have hconsume : (m.consume s).input = ls := by
      show m.input.tail = ls
      rw [hinput]
      rfl
    have htake : ∀ x ∈ (m.consume s).input.take n, x.token.kind ≠ .eof := by
      intro x hx
      rw [hconsume] at hx
      exact hn x (by rw [List.take_succ_cons]; exact List.mem_cons_of_mem _ hx)
    obtain ⟨hword, hends'⟩ := ih (m.consume s) ((m.ahead s 0).trees.reverse ++ backward) htake
      (by rw [hconsume]; exact hls)
    rw [skipTokens]
    refine ⟨?_, hends'⟩
    rw [hword, hconsume, hinput, pending_cons hls, ahead_zero hinput]
    simp

/-- A search passes only tokens before the end of the text. -/
theorem search_skips (viable : Kind → Bool) (limit : Nat) {input : List Lookahead} (skip : Nat)
    (h : Ends input) :
    (∀ n, search viable limit input skip = .found n → skip ≤ n ∧
      ∀ l ∈ input.take (n - skip), l.token.kind ≠ .eof) ∧
    ∀ n looked, search viable limit input skip = .none n looked → skip ≤ n ∧
      ∀ l ∈ input.take (n - skip), l.token.kind ≠ .eof := by
  induction limit generalizing input skip with
  | zero =>
    refine ⟨fun n hn => (by cases hn), fun n looked hn => ?_⟩
    cases hn
    simp
  | succ limit ih =>
    obtain ⟨l, ls, rfl⟩ := List.exists_cons_of_ne_nil h.ne_nil
    rw [search]
    split
    · refine ⟨fun n hn => ?_, fun n looked hn => (by cases hn)⟩
      cases hn
      simp
    · split
      · refine ⟨fun n hn => (by cases hn), fun n looked hn => ?_⟩
        cases hn
        simp
      · next hstop =>
        have hne : l.token.kind ≠ .eof := fun he => hstop (by simp [he])
        have hpass : ∀ n, skip + 1 ≤ n → (∀ x ∈ ls.take (n - (skip + 1)), x.token.kind ≠ .eof) →
            skip ≤ n ∧ ∀ x ∈ (l :: ls).take (n - skip), x.token.kind ≠ .eof := by
          intro n hn hall
          refine ⟨by omega, fun x hx => ?_⟩
          rw [show n - skip = n - (skip + 1) + 1 by omega, List.take_succ_cons] at hx
          rcases List.mem_cons.1 hx with rfl | hx
          · exact hne
          · exact hall x hx
        obtain ⟨hfound, hnone⟩ := ih (skip + 1) (h.tail hne)
        exact ⟨fun n hn => hpass n (hfound n hn).1 (hfound n hn).2,
          fun n looked hn => hpass n (hnone n looked hn).1 (hnone n looked hn).2⟩

/-- A plan skips only tokens before the end of the text. -/
theorem searchFrames_skips {input : List Lookahead} (h : Ends input) (frames : List Frame)
    (above : Nat) (fallback : Option Resync) (looked : Nat)
    (hfall : ∀ r ∈ fallback, ∀ l ∈ input.take r.skip, l.token.kind ≠ .eof) :
    ∀ r ∈ (searchFrames s input frames above fallback looked).resync,
      ∀ l ∈ input.take r.skip, l.token.kind ≠ .eof := by
  induction frames generalizing above fallback looked with
  | nil =>
    intro r hr
    rw [searchFrames] at hr
    exact hfall r (Option.mem_filter_iff.1 hr).1
  | cons f rest ih =>
    rw [searchFrames]
    split
    · exact hfall
    · split
      · next state _ =>
        dsimp only
        have hsearch := search_skips (viable s.table (state :: (f :: rest).map Frame.state))
          (max s.options.recoveryLimit 1) 0 h
        split
        · next skip hfound =>
          intro r hr
          cases hr
          exact (hsearch.1 skip hfound).2
        · next skip n hnone =>
          refine ih _ _ _ fun r hr => ?_
          cases hr
          exact (hsearch.2 skip n hnone).2
      · exact ih _ _ _ hfall

theorem Balanced.recover (h : Balanced word m) (hr : m.recover? s = some m') :
    Balanced word m' := by
  unfold recover? at hr
  dsimp only at hr
  obtain ⟨r, hresync, rfl⟩ := Option.map_eq_some_iff.1 hr
  have hskip := searchFrames_skips (s := s) h.ends m.frames 0 none 0
    (fun r hr => by cases hr) r hresync
  generalize hlook : m.look (searchFrames s m.input m.frames 0 none 0).looked = m₀
  have h₀ : Balanced word m₀ := by
    rw [← hlook]
    exact h.congr rfl rfl
  have hskip₀ : ∀ l ∈ m₀.input.take r.skip, l.token.kind ≠ .eof := by
    rw [← hlook]
    exact hskip
  unfold resynchronize
  split
  · exact h₀
  · next base rest hdrop =>
    obtain ⟨hword, hends⟩ := skipTokens_spec (s := s) r.skip m₀
      (Frame.joined (m₀.frames.take r.above)) hskip₀ h₀.ends
    refine ⟨?_, hends⟩
    show frameLeaves (⟨r.state, wrap s.table .error
      (skipTokens s r.skip m₀ (Frame.joined (m₀.frames.take r.above))).2, _⟩ :: base :: rest) ++
      pending (skipTokens s r.skip m₀ (Frame.joined (m₀.frames.take r.above))).1.input = word
    rw [frameLeaves_cons, leavesAll_reverse_wrap, List.append_assoc, hword, ← List.append_assoc,
      ← hdrop]
    rw [show leavesAll (Frame.joined (m₀.frames.take r.above)).reverse =
      frameLeaves (m₀.frames.take r.above) from rfl, ← frameLeaves_append, List.take_append_drop]
    exact h₀.word

/-! ## Results -/

theorem Balanced.accept (h : Balanced word m) (he : (m.next s).kind = .eof) :
    leavesAll (m.accept s).children = word := by
  obtain ⟨l, ls, hinput⟩ := List.exists_cons_of_ne_nil h.ends.ne_nil
  rw [next_of_input hinput] at he
  obtain rfl := (hinput ▸ h.ends).eq_last he
  show leavesAll (m.stackTrees ++ (m.ahead s 0).triviaTrees) = word
  rw [leavesAll_append, ahead_zero hinput, leavesAll_stackTrees, ← h.word, hinput]
  rfl

theorem Lookahead.Ends.takeWhile {input : List Lookahead} (h : Ends input) :
    ∃ last, input = input.takeWhile (fun l => l.token.kind != .eof) ++ [last] ∧
      last.token.kind = .eof := by
  induction h with
  | @last l he => exact ⟨l, by simp [he], he⟩
  | @cons l ls hne _ ih =>
    obtain ⟨last, heq, he⟩ := ih
    refine ⟨last, ?_, he⟩
    rw [List.takeWhile_cons_of_pos (by simpa using hne), List.cons_append, ← heq]

theorem frames_eq_dropLast (m : Machine) :
    m.frames = m.frames.dropLast ++ [m.frames.getLastD m.top] := by
  have hne : m.frames ≠ [] := List.cons_ne_nil _ _
  rw [List.getLastD_eq_getLast?, List.getLast?_eq_some_getLast hne, Option.getD_some,
    List.dropLast_append_getLast hne]

theorem Balanced.abandon (h : Balanced word m) : leavesAll (m.abandon s).children = word := by
  obtain ⟨last, heq, he⟩ := Lookahead.Ends.takeWhile h.ends
  have hframes := frames_eq_dropLast m
  unfold Machine.abandon
  dsimp only
  generalize hrest : m.input.takeWhile (fun l => l.token.kind != .eof) = rest at heq
  have hskip : ∀ l ∈ m.input.take rest.length, l.token.kind ≠ .eof := by
    intro l hl
    rw [heq, List.take_left] at hl
    rw [← hrest] at hl
    have hkind := List.all_eq_true.1 List.all_takeWhile l hl
    simpa using hkind
  obtain ⟨hword, -⟩ := skipTokens_spec (s := s) rest.length m
    (Frame.joined m.frames.dropLast) hskip h.ends
  have hlast : m.ahead s rest.length = last := by
    rw [ahead, heq]
    simp
  rw [show leavesAll (Frame.joined m.frames.dropLast).reverse =
    frameLeaves m.frames.dropLast from rfl] at hword
  rw [skipTokens_input, heq, List.drop_left] at hword
  show leavesAll (_ ++ (wrap s.table .error _).reverse ++ _) = word
  rw [leavesAll_append, leavesAll_append, leavesAll_reverse_wrap, hlast, List.append_assoc]
  rw [show leavesAll last.triviaTrees = pending [last] from rfl, hword, ← heq, ← h.word, hframes,
    frameLeaves_append, List.append_assoc]
  rw [← hframes]
  rfl

/-! ## Runs -/

def Outcome.Balanced (word : List Leaf) : Outcome → Prop
  | .running m => Machine.Balanced word m
  | .done o => leavesAll o.children = word

theorem Balanced.markLine (hs : s.splice = none) (h : Balanced word m) :
    (m.markLine s).Balanced word := by
  rw [markLine_of_splice hs]
  exact h.congr (mark_frames s m) (mark_input s m)

/-- A step keeps the tokens. -/
theorem Balanced.step (ht : s.table.EofOnly) (hs : s.splice = none) (h : Balanced word m) :
    (m.step s).Balanced word := by
  have hlook : ∀ n, Balanced word (m.look n) := fun n => h.congr rfl rfl
  have hreport : Balanced word ((m.look 1).report s) := by
    refine h.congr ?_ ?_
    · rw [report_frames, look_frames]
    · rw [report_input, look_input]
  have heffect := step_effect s m
  generalize m.step s = o at heffect
  cases heffect with
  | @reduce p n m' _ _ hr => exact ((hlook n).reduce hr).markLine hs
  | @stuck p n _ _ =>
    refine Balanced.abandon ?_
    exact h.congr rfl rfl
  | @shift target _ hmove =>
    refine ((hlook 1).shift ?_ target).markLine hs
    intro he
    rw [look_next] at he
    rw [he] at hmove
    exact ht.shift _ _ hmove
  | accept _ hmove => exact (hlook 1).accept (ht.accept _ _ hmove)
  | recover _ _ hr => exact (hreport.recover hr).markLine hs
  | abandon _ _ _ => exact hreport.abandon

/-- **The leaves of the result of a run are the tokens that it began with.** -/
theorem Balanced.run (ht : s.table.EofOnly) (hs : s.splice = none) (h : Balanced word m)
    {fuel : Nat} {out : Output} (hrun : m.run s fuel = some out) :
    leavesAll out.children = word := by
  induction fuel generalizing m with
  | zero => cases hrun
  | succ fuel ih =>
    have hstep := h.step ht hs
    unfold Machine.run at hrun
    split at hrun
    · next m' hm' =>
      rw [hm'] at hstep
      exact ih hstep hrun
    · next o ho =>
      cases hrun
      rw [ho] at hstep
      exact hstep

end Machine

namespace Parser

theorem balanced_fresh (p : Parser) (text : String) :
    Machine.Balanced ((tokenize text).map Token.leaf) (p.fresh text).machine := by
  have hkinds : ∀ t ∈ tokenize text, t.kind ≠ .eof := fun t ht he =>
    Lexer.tokens_kind _ t ht (Or.inl he)
  refine ⟨?_, ends_group rfl hkinds⟩
  show Machine.frameLeaves [⟨ParseTable.startState, [], 0⟩] ++
    pending (group p.table.isExtra (stopToken (.ofText text)) [] (tokenize text)) = _
  rw [pending_group rfl hkinds]
  rfl

/-- **The leaves of a parse from scratch are the tokens of the text.** -/
theorem leaves_of_run (p : Parser) (ht : p.table.EofOnly) (text : String) {fuel : Nat}
    {out : Output} (h : (p.fresh text).machine.run (p.fresh text).setup fuel = some out) :
    leavesAll out.children = (tokenize text).map Token.leaf :=
  (balanced_fresh p text).run ht rfl h

end Parser

end AsmTree
