import AsmTree.Proofs.Machine.Invariants
import AsmTree.Proofs.Machine.Nodes
import AsmTree.Proofs.Machine.Skeletons

/-!
# Extras stay outside of nodes

Extras are put in front of the next token, so what is on the stack never ends with one, and a node
that is made of it does not either. In front of a node extras are moved out. **Main statement
(`edged_invariant`):** every move keeps this, so no node of a result begins or ends with an
extra.
-/

namespace AsmTree

open AsmTree.Tree Lookahead

namespace Machine

variable {s : Setup} {m m' : Machine} {t : ParseTable} {backward a b : List Tree}

/-! ## Edges -/

/-- The trees of a node neither begin nor end with an extra. -/
def Trimmed (t : ParseTable) (_ : Kind) (cs : List Tree) : Prop :=
  ∀ c, cs.head? = some c ∨ cs.getLast? = some c → isExtraTree t c = false

/-- Trees do not end with an extra. The last one is the first of the list. -/
def Firm (t : ParseTable) (backward : List Tree) : Prop :=
  ∀ c, backward.head? = some c → isExtraTree t c = false

theorem firm_nil : Firm t [] := fun c hc => by cases hc

theorem firm_append (ha : Firm t a) (hb : Firm t b) : Firm t (a ++ b) := by
  intro c hc
  rw [List.head?_append] at hc
  cases a with
  | nil => exact hb c hc
  | cons x a => exact ha c hc

theorem firm_joined {fs : List Frame} (h : ∀ f ∈ fs, Firm t f.backward) :
    Firm t (Frame.joined fs) := by
  induction fs with
  | nil => exact firm_nil
  | cons f fs ih =>
    rw [Frame.joined_cons]
    exact firm_append (h f List.mem_cons_self) (ih fun f' hf' => h f' (List.mem_cons_of_mem _ hf'))

theorem firm_trees {l : Lookahead} (hl : Sorted t.isExtra l) : Firm t l.trees.reverse := by
  intro c hc
  rw [trees, List.reverse_append] at hc
  obtain rfl := Option.some.inj hc
  exact hl.token

theorem firm_wrap (k : Kind) (backward : List Tree) : Firm t (wrap t k backward) := by
  intro c hc
  rw [wrap, List.span_eq_takeWhile_dropWhile] at hc
  obtain rfl := Option.some.inj hc
  rfl

/-- **What is wrapped is trimmed in front by the wrapping, and at the end it was before.** -/
theorem Firm.trimmed (h : Firm t backward) (k : Kind) :
    Trimmed t k (backward.reverse.dropWhile (isExtraTree t)) := by
  rintro c (hc | hc)
  · have hnot := List.head?_dropWhile_not (isExtraTree t) backward.reverse
    rw [hc] at hnot
    simpa using hnot
  · refine h c ?_
    obtain ⟨front, hfront⟩ := List.dropWhile_suffix (isExtraTree t) (l := backward.reverse)
    rw [← List.getLast?_reverse, ← hfront, List.getLast?_append, hc]
    rfl

/-! ## Moves -/

/-- No frame ends with an extra, and all nodes that have been made are trimmed. -/
structure Edged (s : Setup) (m : Machine) : Prop where
  firm : ∀ f ∈ m.frames, Firm s.table f.backward
  trimmed : ∀ t ∈ Frame.joined m.frames, t.Everywhere (Trimmed s.table)
  input : ∀ l ∈ m.input, Sorted s.table.isExtra l

theorem Edged.reduce (h : m.Edged s) {p : Nat} (hr : m.reduce? s p = some m') : m'.Edged s := by
  obtain ⟨base, rest, state, hdrop, -, rfl⟩ := reduce?_eq_some.1 hr
  have hpopped : Firm s.table (Frame.joined (m.frames.take (s.table.production p).length)) :=
    firm_joined fun f hf => h.firm f (List.mem_of_mem_take hf)
  have hall := h.trimmed
  rw [← List.take_append_drop (s.table.production p).length m.frames, hdrop, Frame.joined_append,
    List.forall_mem_append] at hall
  refine ⟨?_, ?_, h.input⟩
  · rw [frames, List.forall_mem_cons, ← hdrop]
    refine ⟨?_, fun f hf => h.firm f (List.mem_of_mem_drop hf)⟩
    unfold reducedFrame
    cases (s.table.production p).kind with
    | none => exact hpopped
    | some k => exact firm_wrap k _
  · rw [frames, Frame.joined_cons, List.forall_mem_append, everywhere_reducedFrame]
    exact ⟨⟨fun k _ => hpopped.trimmed k, hall.1⟩, hall.2⟩

variable (hstop : s.table.isExtra s.stop.kind = false)

include hstop

theorem Edged.shift (h : m.Edged s) (target : Nat) : (m.shift s target).Edged s where
  firm := List.forall_mem_cons.2 ⟨firm_trees (sorted_ahead h.input hstop 0), h.firm⟩
  trimmed := by
    rw [show (m.shift s target).frames =
      ⟨target, (m.ahead s 0).trees.reverse, (m.next s).stop⟩ :: m.frames from rfl,
      Frame.joined_cons, List.forall_mem_append]
    exact ⟨fun t ht => everywhere_trees _ t (List.mem_reverse.1 ht), h.trimmed⟩
  input := fun l hl => h.input l (List.mem_of_mem_tail hl)

theorem firm_skipTokens (n : Nat) (hinput : ∀ l ∈ m.input, Sorted s.table.isExtra l)
    (h : Firm s.table backward) : Firm s.table (skipTokens s n m backward).2 := by
  induction n generalizing m backward with
  | zero => exact h
  | succ n ih =>
    refine ih (fun l hl => hinput l (List.mem_of_mem_tail hl)) ?_
    exact firm_append (firm_trees (sorted_ahead hinput hstop 0)) h

theorem Edged.recover (h : m.Edged s) (hr : m.recover? s = some m') : m'.Edged s := by
  obtain ⟨r, base, rest, n, -, hdrop, -, rfl⟩ := recover?_eq_some hr
  have hdrop' : (m.look n).frames.drop r.above = base :: rest := hdrop
  have hfirm : Firm s.table (skipTokens s r.skip (m.look n)
      (Frame.joined ((m.look n).frames.take r.above))).2 :=
    firm_skipTokens hstop _ h.input (firm_joined fun f hf => h.firm f (List.mem_of_mem_take hf))
  have hall := h.trimmed
  rw [← List.take_append_drop r.above m.frames, hdrop, Frame.joined_append,
    List.forall_mem_append] at hall
  constructor
  · rw [frames_resynchronize hdrop', List.forall_mem_cons, ← hdrop]
    exact ⟨firm_wrap _ _, fun f hf => h.firm f (List.mem_of_mem_drop hf)⟩
  · rw [frames_resynchronize hdrop', Frame.joined_cons, List.forall_mem_append, everywhere_wrap,
      everywhere_skipTokens]
    exact ⟨⟨hfirm.trimmed _, hall.1⟩, hall.2⟩
  · rw [input_resynchronize hdrop']
    exact fun l hl => h.input l (List.mem_of_mem_drop hl)

theorem edged_abandon (h : m.Edged s) :
    ∀ t ∈ (m.abandon s).children, t.Everywhere (Trimmed s.table) :=
  everywhere_abandon h.trimmed fun n =>
    (firm_skipTokens hstop n h.input
      (firm_joined fun f hf => h.firm f (List.mem_of_mem_dropLast hf))).trimmed _

/-! ## Runs -/

/-- **Every move keeps extras outside of nodes.** -/
theorem edged_invariant (hs : s.splice = none) :
    Invariant s (Edged s) fun ts => ∀ t ∈ ts, t.Everywhere (Trimmed s.table) where
  congr h hf hi :=
    ⟨by rw [hf]; exact h.firm, by rw [hf]; exact h.trimmed, by rw [hi]; exact h.input⟩
  shift h _ := h.shift hstop _
  reduce h _ hr := h.reduce hr
  recover h hr := h.recover hstop hr
  accept h := everywhere_accept h.trimmed
  abandon h := edged_abandon hstop h
  takes h := (Brings.of_fresh hs).everywhere h.trimmed

end Machine

end AsmTree
