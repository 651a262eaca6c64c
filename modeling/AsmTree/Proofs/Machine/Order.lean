import AsmTree.Proofs.Machine.Accounts
import AsmTree.Proofs.Token.Delimiters

/-!
# Reports come in order

What a machine reports begins where the next token begins, and the tokens come in order. So all that
can be out of order is a second report of one token. There is none: to go on behind a report,
recovery skips the token or has found that it can follow, and as long as it can follow no move before
it is an error.

**Main statements:** a step keeps the reports in order (`Orderly.step`), and so does a run
(`Orderly.run`).
-/

namespace AsmTree

open Lookahead

/-! ## Diagnostics in order -/

/-- The diagnostic does not begin behind another one, nor at the same place unless one of the two is
about an unreadable token. -/
structure Diagnostic.Precedes (d d' : Diagnostic) : Prop where
  le : d.range.start ≤ d'.range.start
  ne : d.code.isLexical = false → d'.code.isLexical = false → d.range.start ≠ d'.range.start

theorem Diagnostic.Precedes.of_lt {d d' : Diagnostic} (h : d.range.start < d'.range.start) :
    d.Precedes d' :=
  ⟨Nat.le_of_lt h, fun _ _ => Nat.ne_of_lt h⟩

theorem Diagnostic.Precedes.unreadable {d : Diagnostic} {t : Token}
    (h : d.range.start ≤ t.offset) : d.Precedes (.unreadable t) where
  le := by
    rw [range_unreadable]
    exact h
  ne _ hcode := by
    rw [isLexical_unreadable] at hcode
    cases hcode

/-- Tokens one behind the other. The end of the text is empty. -/
structure Token.Ascending (ts : List Token) : Prop where
  pairwise : ts.Pairwise (·.offset < ·.offset)
  stop : ∀ t ∈ ts, t.kind = .eof → t.range = .point t.offset

/-- Diagnostics in order, each of them at a token. -/
structure InOrder (ts : List Token) (ds : List Diagnostic) : Prop where
  pairwise : ds.Pairwise Diagnostic.Precedes
  placed : ∀ d ∈ ds, ∃ t ∈ ts, d.range = t.range

theorem InOrder.nil (ts : List Token) : InOrder ts [] := ⟨.nil, by simp⟩

theorem InOrder.append {ts : List Token} {ds ds' : List Diagnostic} (h : InOrder ts ds)
    (h' : InOrder ts ds') (hbetween : ∀ d ∈ ds, ∀ d' ∈ ds', d.Precedes d') :
    InOrder ts (ds ++ ds') :=
  ⟨List.pairwise_append.2 ⟨h.pairwise, h'.pairwise, hbetween⟩,
    List.forall_mem_append.2 ⟨h.placed, h'.placed⟩⟩

namespace Machine

open Grammar

variable {g : Grammar} {s : Setup} {m m' : Machine} {ts : List Token} {read : List Symbol}
  {l : Lookahead} {ls : List Lookahead} {n : Nat}

theorem exists_of_mem_unreadables {d : Diagnostic} (h : d ∈ unreadables ls) :
    ∃ l ∈ ls, d = .unreadable l.token := by
  obtain ⟨l, hl, hsome⟩ := List.mem_filterMap.1 h
  split at hsome
  · exact ⟨l, hl, (Option.some.inj hsome).symm⟩
  · cases hsome

/-- Unreadable tokens are reported in order. -/
theorem inOrder_unreadables (hts : Token.Ascending ts) (h : (ls.map Lookahead.token).Sublist ts) :
    InOrder ts (unreadables ls) := by
  induction ls with
  | nil => exact .nil ts
  | cons l ls ih =>
    have hpairwise := List.pairwise_cons.1 (hts.pairwise.sublist h)
    rw [unreadables_cons]
    refine .append ⟨?_, fun d hd => ?_⟩ (ih ((List.sublist_cons_self _ _).trans h)) ?_
    · unfold unreadables
      exact List.pairwise_filterMap.2 (List.pairwise_singleton _ l)
    · obtain ⟨l', hl', rfl⟩ := exists_of_mem_unreadables hd
      obtain rfl := List.mem_singleton.1 hl'
      exact ⟨l'.token, h.subset (List.mem_cons_self ..), Diagnostic.range_unreadable _⟩
    · intro d hd d' hd'
      obtain ⟨l', hl', rfl⟩ := exists_of_mem_unreadables hd
      obtain rfl := List.mem_singleton.1 hl'
      obtain ⟨l'', hl'', rfl⟩ := exists_of_mem_unreadables hd'
      refine .unreadable ?_
      rw [Diagnostic.range_unreadable]
      exact Nat.le_of_lt (hpairwise.1 _ (List.mem_map_of_mem hl''))

/-! ## Machines in order -/

/-- The tokens that are left are among those of the text, and what has been reported of them is in
order and not behind the next one. -/
structure Orderly (ts : List Token) (s : Setup) (m : Machine) : Prop where
  left : (m.input.map Lookahead.token).Sublist ts
  inOrder : InOrder ts m.errors.toList
  upto : ∀ d ∈ m.errors.toList, d.range.start ≤ (m.next s).offset

/-- Nothing has been reported of the next token, or it can follow. -/
def Clear (s : Setup) (m : Machine) : Prop :=
  (∀ d ∈ m.errors.toList, d.range.start < (m.next s).offset) ∨
    CanFollow s.table m.states (m.next s).kind

theorem Orderly.congr (h : Orderly ts s m) (hi : m'.input = m.input)
    (he : m'.errors = m.errors) : Orderly ts s m' where
  left := by
    rw [hi]
    exact h.left
  inOrder := by
    rw [he]
    exact h.inOrder
  upto := by
    rw [he, next_congr hi]
    exact h.upto

/-- The next token is in front of the others that are left. -/
theorem Orderly.next_le (hts : Token.Ascending ts) (h : Orderly ts s m) (hl : l ∈ m.input) :
    (m.next s).offset ≤ l.token.offset := by
  have hpairwise := hts.pairwise.sublist h.left
  cases hinput : m.input with
  | nil =>
    rw [hinput] at hl
    cases hl
  | cons l' ls =>
    rw [hinput] at hl hpairwise
    rw [next_of_input hinput]
    rcases List.mem_cons.1 hl with rfl | hl
    · exact Nat.le_refl _
    · exact Nat.le_of_lt ((List.pairwise_cons.1 hpairwise).1 _ (List.mem_map_of_mem hl))

theorem Orderly.inOrder_skip (hts : Token.Ascending ts) (h : Orderly ts s m) (n : Nat) :
    InOrder ts (m.errors.toList ++ unreadables (m.input.take n)) := by
  have hsub : ((m.input.take n).map Lookahead.token).Sublist ts :=
    ((List.take_sublist n m.input).map _).trans h.left
  refine h.inOrder.append (inOrder_unreadables hts hsub) fun d hd d' hd' => ?_
  obtain ⟨l, hl, rfl⟩ := exists_of_mem_unreadables hd'
  exact .unreadable (Nat.le_trans (h.upto d hd) (h.next_le hts (List.mem_of_mem_take hl)))

/-- **What is left behind some tokens is behind all that has been reported.** -/
theorem Orderly.skip (hts : Token.Ascending ts) (h : Orderly ts s m) (hn : 0 < n)
    (hends : Ends m'.input)
    (he : m'.errors = m.errors ++ (unreadables (m.input.take n)).toArray)
    (hi : m'.input = m.input.drop n) : Orderly ts s m' ∧ m'.Clear s := by
  obtain ⟨l, ls, hinput⟩ := List.exists_cons_of_ne_nil hends.ne_nil
  have hsplit : m.input = m.input.take n ++ l :: ls := by
    rw [← hinput, hi, List.take_append_drop]
  have hpairwise := hts.pairwise.sublist h.left
  rw [hsplit, List.map_append, List.map_cons, List.pairwise_append] at hpairwise
  have hpassed : ∀ l' ∈ m.input.take n, l'.token.offset < l.token.offset := fun l' hl' =>
    hpairwise.2.2 _ (List.mem_map_of_mem hl') _ (List.mem_cons_self ..)
  have hnext : (m.next s).offset < l.token.offset := by
    have hne : m.input.take n ≠ [] := by
      intro hnil
      rcases List.take_eq_nil_iff.1 hnil with hzero | hnil
      · exact absurd hzero (Nat.ne_of_gt hn)
      · rw [hnil] at hsplit
        simp at hsplit
    obtain ⟨l', hl'⟩ := List.exists_mem_of_ne_nil _ hne
    exact Nat.lt_of_le_of_lt (h.next_le hts (List.mem_of_mem_take hl')) (hpassed l' hl')
  have hlt : ∀ d ∈ m'.errors.toList, d.range.start < (m'.next s).offset := by
    intro d hd
    rw [next_of_input hinput]
    rw [he, Array.toList_append] at hd
    rcases List.mem_append.1 hd with hd | hd
    · exact Nat.lt_of_le_of_lt (h.upto d hd) hnext
    · obtain ⟨l', hl', rfl⟩ := exists_of_mem_unreadables hd
      rw [Diagnostic.range_unreadable]
      exact hpassed l' hl'
  refine ⟨⟨?_, ?_, fun d hd => Nat.le_of_lt (hlt d hd)⟩, Or.inl hlt⟩
  · rw [hi]
    exact ((List.drop_sublist n m.input).map _).trans h.left
  · rw [he, Array.toList_append]
    exact h.inOrder_skip hts n

/-! ## Moves -/

/-- A token that cannot be used is reported where it begins. -/
theorem report_at (s : Setup) (m : Machine)
    (hstop : (m.next s).kind = .eof → (m.next s).range = .point (m.next s).offset) :
    ∃ ds, (m.report s).errors.toList = m.errors.toList ++ ds ∧ ds.length ≤ 1 ∧
      ∀ d ∈ ds, d.range = (m.next s).range := by
  unfold report
  dsimp only
  split
  · exact ⟨[], by simp⟩
  · next heof =>
    split
    · refine ⟨[_], Array.toList_push, Nat.le_refl 1, fun d hd => ?_⟩
      rw [List.mem_singleton.1 hd]
      exact (hstop heof).symm
    · exact ⟨[_], Array.toList_push, Nat.le_refl 1, by simp [Diagnostic.unexpected, next]⟩
  · exact ⟨[_], Array.toList_push, Nat.le_refl 1, by simp [Diagnostic.unexpected, next]⟩

/-- A report of which nothing has been reported yet. -/
theorem Orderly.report (hts : Token.Ascending ts) (h : Orderly ts s m) (hends : Ends m.input)
    (hlt : ∀ d ∈ m.errors.toList, d.range.start < (m.next s).offset) :
    Orderly ts s (m.report s) := by
  obtain ⟨l, ls, hinput⟩ := List.exists_cons_of_ne_nil hends.ne_nil
  have hmem : m.next s ∈ ts := by
    refine h.left.subset ?_
    rw [hinput, next_of_input hinput]
    exact List.mem_cons_self ..
  obtain ⟨ds, herrors, hlen, hrange⟩ := report_at s m (hts.stop _ hmem)
  have hstart : ∀ d ∈ ds, d.range.start = (m.next s).offset := fun d hd => by
    rw [hrange d hd]
    rfl
  refine ⟨by rw [report_input]; exact h.left, ?_, ?_⟩
  · rw [herrors]
    refine h.inOrder.append ⟨?_, fun d hd => ⟨_, hmem, hrange d hd⟩⟩ fun d hd d' hd' => ?_
    · match ds, hlen with
      | [], _ => exact .nil
      | [d], _ => exact List.pairwise_singleton _ d
    · exact .of_lt (by rw [hstart d' hd']; exact hlt d hd)
  · rw [herrors, report_next]
    intro d hd
    rcases List.mem_append.1 hd with hd | hd
    · exact Nat.le_of_lt (hlt d hd)
    · exact (hstart d hd).le

theorem Clear.lt (h : m.Clear s) (hd : s.table.default? m.top.state = none)
    (hm : (s.table.explicitAction m.top.state (m.next s).kind).move = .error) :
    ∀ d ∈ m.errors.toList, d.range.start < (m.next s).offset :=
  h.resolve_right (not_canFollow_of_error hd hm)

theorem Clear.reduce (ht : g.HasTable s.table) (h : m.Clear s) {p : Nat}
    (hr : m.reduction? s = some p) (he : (m.look n).reduce? s p = some m') : m'.Clear s := by
  have hreduced := reduced?_of_reduction ht.numbered hr he
  obtain ⟨base, rest, state, -, -, rfl⟩ := reduce?_eq_some.1 he
  exact h.imp_right (canFollow_reduced hreduced).1

/-- **Recovery skips the next token, or has found that it can follow.** -/
theorem Orderly.recover (hts : Token.Ascending ts) (h : Orderly ts s m) (hends : Ends m.input)
    (hr : m.recover? s = some m') : Orderly ts s m' ∧ m'.Clear s := by
  obtain ⟨r, base, rest, looked, hplan, hdrop, -, rfl⟩ := recover?_eq_some hr
  have hdrop' : (m.look looked).frames.drop r.above = base :: rest := hdrop
  have hskip := Nat.le_of_lt (searchFrames_lt hends hplan)
  have heq := resynchronize_eq (s := s) (m := m.look looked) hdrop' hskip
  have hinput : ((m.look looked).resynchronize s r).input = m.input.drop r.skip :=
    input_resynchronize hdrop'
  have herrors : ((m.look looked).resynchronize s r).errors =
      m.errors ++ (unreadables (m.input.take r.skip)).toArray := by
    rw [heq]
    rfl
  rcases Nat.eq_zero_or_pos r.skip with hzero | hpos
  · -- the search has found that the next token can follow
    rw [hzero, List.drop_zero] at hinput
    rw [hzero, List.take_zero, unreadables, List.filterMap_nil, Array.append_empty] at herrors
    obtain ⟨l, ls, hcons⟩ := List.exists_cons_of_ne_nil hends.ne_nil
    have hprogress := searchFrames_progress m.frames 0 none 0 (show m.frames.drop 0 = _ from rfl)
      r (by rw [← hcons]; exact hplan)
    have hfollow := hprogress.resolve_left (by omega)
    refine ⟨h.congr hinput herrors, Or.inr ?_⟩
    rw [next_congr hinput, next_of_input hcons, states_resynchronize hdrop', ← hdrop]
    exact ⟨_, hfollow⟩
  · -- what is left is behind the tokens that are skipped
    have hskips := searchFrames_skips hends m.frames 0 none 0 (fun r hr => by cases hr) r hplan
    refine h.skip hts hpos ?_ herrors hinput
    rw [hinput]
    exact hends.drop hskips

theorem Orderly.abandon (hts : Token.Ascending ts) (h : Orderly ts s m) :
    InOrder ts (m.abandon s).errors := by
  have hlen := (List.takeWhile_prefix (l := m.input) fun l => l.token.kind != .eof).length_le
  have herrors : (m.abandon s).errors = m.errors.toList ++ unreadables
      (m.input.take (m.input.takeWhile fun l => l.token.kind != .eof).length) := by
    show (skipTokens s _ m _).1.errors.toList = _
    rw [skipTokens_eq hlen, Array.toList_append]
  rw [herrors]
  exact h.inOrder_skip hts _

theorem Orderly.shift (hts : Token.Ascending ts) (h : Orderly ts s m) (hends : Ends m.input)
    (hne : (m.next s).kind ≠ .eof) (target : Nat) :
    Orderly ts s (m.shift s target) ∧ (m.shift s target).Clear s := by
  obtain ⟨l, ls, hinput⟩ := List.exists_cons_of_ne_nil hends.ne_nil
  have hshift := shift_eq (s := s) hinput target
  refine h.skip hts Nat.zero_lt_one ?_ (by rw [hshift, hinput]; rfl) (by rw [hshift, hinput]; rfl)
  rw [hshift]
  rw [next_of_input hinput] at hne
  exact (hinput ▸ hends).tail hne

/-! ## Steps and runs -/

def Outcome.Orderly (ts : List Token) (s : Setup) : Outcome → Prop
  | .running m => Machine.Orderly ts s m ∧ m.Clear s
  | .done out => InOrder ts out.errors

theorem orderly_markLine (hs : s.splice = none) (h : Orderly ts s m ∧ m.Clear s) :
    (m.markLine s).Orderly ts s := by
  rw [markLine_of_splice hs]
  obtain ⟨checkpoints, hm⟩ := mark_eq s m
  rw [hm]
  exact ⟨h.1.congr rfl rfl, h.2⟩

/-- **A step keeps the reports in order.** -/
theorem Orderly.step (ht : g.HasTable s.table) (hs : s.splice = none) (he : s.table.EofOnly)
    (hts : Token.Ascending ts) (hlive : Live g m read) (h : Orderly ts s m) (hclear : m.Clear s) :
    (m.step s).Orderly ts s := by
  have hends : Ends m.input := hlive.ends
  have hends' : Ends ((m.look 1).report s).input := by
    rw [report_input]
    exact hends
  have hreport (hd : s.table.default? m.top.state = none)
      (hm : (s.table.explicitAction m.top.state (m.next s).kind).move = .error) :
      Orderly ts s ((m.look 1).report s) :=
    Orderly.report (m := m.look 1) hts (h.congr rfl rfl) hends (hclear.lt hd hm)
  have heffect := step_effect s m
  generalize m.step s = o at heffect
  cases heffect with
  | @reduce p n m' hr _ hm =>
    obtain ⟨hinput, herrors⟩ : m'.input = m.input ∧ m'.errors = m.errors := by
      obtain ⟨base, rest, state, -, -, rfl⟩ := reduce?_eq_some.1 hm
      exact ⟨rfl, rfl⟩
    exact orderly_markLine hs ⟨h.congr hinput herrors, hclear.reduce ht hr hm⟩
  | @stuck p n hr hm =>
    obtain ⟨base, rest, target, -, -, -, -, hreduce⟩ := reduce?_of_path ht hlive.path hr
    rw [hreduce n] at hm
    cases hm
  | @shift target _ hm =>
    have hne : (m.next s).kind ≠ .eof := fun heof => he.shift _ _ (heof ▸ hm)
    exact orderly_markLine hs (Orderly.shift (m := m.look 1) hts (h.congr rfl rfl) hends hne target)
  | accept _ _ => exact h.inOrder
  | recover hd hm hr => exact orderly_markLine hs ((hreport hd hm).recover hts hends' hr)
  | abandon hd hm _ => exact (hreport hd hm).abandon hts

/-- **What a finished run has reported is in order**, and every report is at a token. -/
theorem Orderly.run (ht : g.HasTable s.table) (hs : s.splice = none) (he : s.table.EofOnly)
    (hts : Token.Ascending ts) (hlive : Live g m read) (h : Orderly ts s m) (hclear : m.Clear s)
    {fuel : Nat} {out : Output} (hrun : m.run s fuel = some out) : InOrder ts out.errors := by
  obtain ⟨m', hreach, hdone⟩ := reaches_of_run hrun
  obtain ⟨⟨read', hlive'⟩, h', hclear'⟩ := hreach.keeps
    (P := fun m => (∃ read, Live g m read) ∧ Orderly ts s m ∧ m.Clear s) ⟨⟨read, hlive⟩, h, hclear⟩
    fun m₁ m₂ ⟨⟨read₁, hlive₁⟩, h₁, hclear₁⟩ hstep => by
      have hkept := h₁.step ht hs he hts hlive₁ hclear₁
      obtain ⟨read₂, hpath⟩ := path_of_effect ht hs hlive₁.path (hstep ▸ step_effect s m₁)
      rw [hstep] at hkept
      exact ⟨⟨read₂, hpath, ends_step he hs hlive₁.ends hstep⟩, hkept⟩
  have hlast := h'.step ht hs he hts hlive' hclear'
  rw [hdone] at hlast
  exact hlast

end Machine

end AsmTree
