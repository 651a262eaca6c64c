import AsmTree.Proofs.Machine.Horizon
import AsmTree.Proofs.Machine.Takes

/-!
# Where recovery goes on

A recovered region may stand on several frames, and behind it several tokens of the line may be
taken. Of the frames above the bottom the innermost one wins on which a token is taken, and for it
the first such token. If there is none, the outermost frame above the bottom that can take a region
takes all that may be skipped. The bottom frame goes on only if there is no such frame or nothing to
skip.

**Main statement (`chosen_of_recover`):** this is what recovery chooses.
-/

namespace AsmTree

open Lookahead

namespace Lookahead

def endsLine (l : Lookahead) : Bool := l.token.kind = .newline || l.token.kind = .eof

/-- The tokens up to the end of the line, that end included. -/
def line : List Lookahead → List Lookahead
  | [] => []
  | l :: ls => if l.endsLine then [l] else l :: line ls

theorem line_isPrefix (ls : List Lookahead) : line ls <+: ls := by
  induction ls with
  | nil => exact List.prefix_rfl
  | cons l ls ih =>
    rw [line]
    split
    · exact List.cons_prefix_cons.2 ⟨rfl, List.nil_prefix⟩
    · exact List.cons_prefix_cons.2 ⟨rfl, ih⟩

end Lookahead

namespace Machine

variable {s : Setup} {m m' : Machine} {g : Grammar} {read : List Symbol} {r : Resync}

/-! ## Ways to go on -/

/-- The tokens that recovery looks at for one frame: those of the line, up to the limit. -/
def scanned (s : Setup) (m : Machine) : List Lookahead :=
  line (m.input.take (max s.options.recoveryLimit 1))

def skippable (s : Setup) (m : Machine) : List Lookahead :=
  (m.scanned s).filter fun l => !l.endsLine

/-- The frame below those that are given up can take a recovered region. -/
def Stands (s : Setup) (m : Machine) (r : Resync) : Prop :=
  ∃ base rest, m.frames.drop r.above = base :: rest ∧
    (s.table.explicitAction base.state .error).move = .shift r.state

/-- The machine can go on in a way: a recovered region can stand there, and the machine takes the
token behind those that are skipped, which is one of those looked at. -/
def GoesOn (s : Setup) (m : Machine) (r : Resync) : Prop :=
  m.Stands s r ∧ r.skip < (m.scanned s).length ∧
    ((m.look (r.skip + 1)).resynchronize s r).Takes s

/-- It is the innermost frame that can go on, at the first token at which it can. -/
def First (s : Setup) (m : Machine) (r : Resync) : Prop :=
  m.GoesOn s r ∧ ∀ q, m.GoesOn s q → r.above ≤ q.above ∧ (q.above = r.above → r.skip ≤ q.skip)

/-- No frame above the bottom can take a region of skipped tokens. -/
def BottomAlone (s : Setup) (m : Machine) : Prop :=
  m.skippable s = [] ∨ ∀ q, m.Stands s q → q.above = m.below.length

/-- How recovery goes on. -/
inductive Chosen (s : Setup) (m : Machine) : Resync → Prop where
  /-- The innermost frame above the bottom that can go on does so. -/
  | inner {r : Resync} : m.First s r → r.above < m.below.length → Chosen s m r
  /-- There is none. The outermost frame above the bottom takes all that may be skipped. -/
  | outer {r : Resync} : (∀ q, m.GoesOn s q → q.above = m.below.length) → m.Stands s r →
    r.above < m.below.length →
    (∀ q, m.Stands s q → q.above < m.below.length → q.above ≤ r.above) →
    r.skip = (m.skippable s).length → 0 < r.skip → Chosen s m r
  /-- No other frame can. The bottom frame goes on. -/
  | bottom {r : Resync} : m.BottomAlone s → m.First s r → r.above = m.below.length → Chosen s m r
  /-- Nor can the bottom frame. It takes all that may be skipped. -/
  | rest {r : Resync} : m.BottomAlone s → (∀ q, ¬ m.GoesOn s q) → m.Stands s r →
    r.above = m.below.length → r.skip = (m.skippable s).length → 0 < r.skip → Chosen s m r

/-- Recovery gives up frames above the bottom as long as another one can take a region of skipped
tokens. -/
theorem Chosen.lt_below (h : m.Chosen s r) (hnot : ¬ m.BottomAlone s) :
    r.above < m.below.length := by
  cases h with
  | inner _ hlt => exact hlt
  | outer _ _ hlt _ _ _ => exact hlt
  | bottom halone _ _ => exact absurd halone hnot
  | rest halone _ _ _ _ _ => exact absurd halone hnot

theorem Stands.le (h : m.Stands s r) : r.above ≤ m.below.length := by
  obtain ⟨base, rest, hdrop, -⟩ := h
  have hlen := congrArg List.length hdrop
  rw [List.length_drop, frames, List.length_cons, List.length_cons] at hlen
  omega

theorem stands_iff : m.Stands s r ↔ ∃ state below, m.states.drop r.above = state :: below ∧
    (s.table.explicitAction state .error).move = .shift r.state := by
  rw [states, ← List.map_drop]
  constructor
  · rintro ⟨base, rest, hdrop, hmove⟩
    exact ⟨base.state, rest.map Frame.state, by rw [hdrop, List.map_cons], hmove⟩
  · rintro ⟨state, below, hdrop, hmove⟩
    obtain ⟨base, rest, hframes, rfl, -⟩ := List.map_eq_cons_iff.1 hdrop
    exact ⟨base, rest, hframes, hmove⟩

theorem scanned_isPrefix (s : Setup) (m : Machine) : m.scanned s <+: m.input :=
  (line_isPrefix _).trans (List.take_prefix _ _)

theorem Stands.state_eq {f : Frame} {rest : List Frame} {landed : Nat} (h : m.Stands s r)
    (hdrop : m.frames.drop r.above = f :: rest)
    (hmove : (s.table.explicitAction f.state .error).move = .shift landed) : r.state = landed := by
  obtain ⟨base, rest', hdrop', hmove'⟩ := h
  rw [hdrop] at hdrop'
  cases hdrop'
  rw [hmove] at hmove'
  cases hmove'
  rfl

/-! ## What the search knows -/

/-- Whether a way to go on looks so to the search. -/
def Looks (s : Setup) (m : Machine) (r : Resync) : Prop :=
  m.Stands s r ∧ ∃ l, (m.scanned s)[r.skip]? = some l ∧
    viable s.table (r.state :: (m.frames.drop r.above).map Frame.state) l.token.kind = true

/-- **The search knows whether the machine can go on.** -/
theorem goesOn_iff {lines line : Nat} {w : Nat → Nat} (hn : s.table.Numbered)
    (ht : g.HasTable s.table) (hl : g.HasLines lines line) (hw : g.Weighted w)
    (h : g.Path m.states read) : m.GoesOn s r ↔ m.Looks s r := by
  refine and_congr_right fun hstands => ?_
  obtain ⟨base, rest, hdrop, hmove⟩ := hstands
  have hdrop' : (m.look (r.skip + 1)).frames.drop r.above = base :: rest := hdrop
  have hstates : m.states.drop r.above = base.state :: rest.map Frame.state := by
    rw [states, ← List.map_drop, hdrop, List.map_cons]
  have hpath : g.Path (r.state :: (m.frames.drop r.above).map Frame.state)
      (.terminal .error :: read.drop r.above) := by
    rw [hdrop]
    exact .move (h.drop r.above hstates)
      (ht.next?_of_shift hmove)
  have hseen : ((m.look (r.skip + 1)).resynchronize s r).seen ≠ 0 := by
    rw [seen_resynchronize hdrop']
    exact Nat.sub_ne_zero_of_lt (Nat.lt_of_lt_of_le (Nat.lt_succ_self _) (Nat.le_max_right _ _))
  have hstates' := states_resynchronize (s := s) hdrop'
  rw [← hdrop] at hstates'
  -- the token behind those that are skipped
  have hnext {l : Lookahead} (hl : (m.scanned s)[r.skip]? = some l) :
      ((m.look (r.skip + 1)).resynchronize s r).next s = l.token := by
    have hinput : m.input[r.skip]? = some l := by
      obtain ⟨behind, hbehind⟩ := m.scanned_isPrefix s
      rw [← hbehind, List.getElem?_append_left (List.getElem?_eq_some_iff.1 hl).1, hl]
    rw [next, ahead, input_resynchronize hdrop', look_input, List.getD_eq_getElem?_getD,
      List.getElem?_drop, Nat.add_zero, hinput]
    rfl
  have htakes {l : Lookahead} (hlook : (m.scanned s)[r.skip]? = some l) :
      ((m.look (r.skip + 1)).resynchronize s r).Takes s ↔
      viable s.table (r.state :: (m.frames.drop r.above).map Frame.state) l.token.kind = true := by
    obtain ⟨n, -, hreduces⟩ := Grammar.exists_reduces (k := l.token.kind) ht hl hw hpath
    rw [Grammar.viable_iff ht hl hw hpath]
    rw [takes_iff (n := n) hn hseen (by rw [hnext hlook, hstates']; exact hreduces),
      hnext hlook, hstates']
  constructor
  · rintro ⟨hlt, ht⟩
    have hlook := List.getElem?_eq_getElem hlt
    exact ⟨_, hlook, (htakes hlook).1 ht⟩
  · rintro ⟨l, hlook, hviable⟩
    exact ⟨(List.getElem?_eq_some_iff.1 hlook).1, (htakes hlook).2 hviable⟩

/-! ## The search along the line -/

/-- What a search looks at and may skip. -/
theorem search_eq (viable : Kind → Bool) {input : List Lookahead} (hends : Ends input)
    (limit skip : Nat) : ∃ looked, search viable limit input skip =
      match (line (input.take limit)).findIdx? fun l => viable l.token.kind with
      | some i => .found (skip + i)
      | none => .none (skip + ((line (input.take limit)).filter fun l => !l.endsLine).length)
        looked := by
  induction limit generalizing input skip with
  | zero => exact ⟨skip, rfl⟩
  | succ limit ih =>
    obtain ⟨l, ls, rfl⟩ := List.exists_cons_of_ne_nil hends.ne_nil
    rw [search, List.take_succ_cons, line]
    by_cases hv : viable l.token.kind = true
    · refine ⟨0, ?_⟩
      rw [if_pos hv]
      split_ifs <;> simp [List.findIdx?_cons, hv]
    rw [if_neg hv]
    by_cases hend : l.endsLine = true
    · refine ⟨skip + 1, ?_⟩
      have hcond : (decide (l.token.kind = .newline) || decide (l.token.kind = .eof)) = true := hend
      rw [if_pos hcond, if_pos hend]
      simp [List.findIdx?_cons, hv, hend]
    · have hcond : ¬ (decide (l.token.kind = .newline) || decide (l.token.kind = .eof)) = true :=
        hend
      have hne : l.token.kind ≠ .eof := fun heof => hcond (by simp [heof])
      obtain ⟨looked, hsearch⟩ := ih (hends.tail hne) (skip + 1)
      refine ⟨looked, ?_⟩
      rw [if_neg hcond, if_neg hend, hsearch, List.findIdx?_cons]
      have hkeep : ((l :: line (ls.take limit)).filter fun l => !l.endsLine).length =
          ((line (ls.take limit)).filter fun l => !l.endsLine).length + 1 := by
        rw [List.filter_cons_of_pos (by simpa using hend), List.length_cons]
      rw [hkeep, if_neg hv]
      cases (line (ls.take limit)).findIdx? fun l => viable l.token.kind with
      | some i => simp [Nat.add_assoc, Nat.add_comm 1 i]
      | none => simp [Nat.add_assoc, Nat.add_comm 1]

/-! ## The search through the stack -/

/-- What is known when the search has come to a frame: none above it can go on, and the fallback is
the last of them that can take a region. -/
structure Searched (s : Setup) (m : Machine) (above : Nat) (fallback : Option Resync) : Prop where
  looks : ∀ q, m.Looks s q → above ≤ q.above
  none : fallback = .none → ∀ q, m.Stands s q → above ≤ q.above
  some : ∀ r ∈ fallback, m.Stands s r ∧ r.above < above ∧ r.skip = (m.skippable s).length ∧
    ∀ q, m.Stands s q → q.above < above → q.above ≤ r.above
  bottom : ∀ r ∈ fallback, r.above = m.below.length → m.BottomAlone s

theorem Searched.start : Searched s m 0 .none where
  looks _ _ := Nat.zero_le _
  none _ _ _ := Nat.zero_le _
  some r hr := by cases hr
  bottom r hr := by cases hr

theorem Searched.pass {above : Nat} {fallback : Option Resync} (h : Searched s m above fallback)
    (hnot : ∀ q, m.Stands s q → q.above ≠ above) : Searched s m (above + 1) fallback where
  looks q hq := Nat.lt_of_le_of_ne (h.looks q hq) (hnot q hq.1).symm
  none hf q hq := Nat.lt_of_le_of_ne (h.none hf q hq) (hnot q hq).symm
  some r hr := by
    obtain ⟨hstands, hlt, hskip, hlast⟩ := h.some r hr
    refine ⟨hstands, Nat.lt_succ_of_lt hlt, hskip, fun q hq hle => hlast q hq ?_⟩
    exact Nat.lt_of_le_of_ne (Nat.le_of_lt_succ hle) (hnot q hq)
  bottom := h.bottom

/-- The bottom frame is searched only if no other can take a region of skipped tokens. -/
theorem Searched.bottomAlone {fallback : Option Resync}
    (h : Searched s m m.below.length fallback)
    (huseful : (Resync.useful? fallback).isSome = false) : m.BottomAlone s := by
  cases hf : fallback with
  | none => exact Or.inr fun q hq => Nat.le_antisymm hq.le (h.none hf q hq)
  | some r =>
    obtain ⟨-, -, hskip, -⟩ := h.some r hf
    rw [hf, Resync.useful?] at huseful
    refine Or.inl (List.eq_nil_of_length_eq_zero ?_)
    rw [← hskip]
    simpa [Option.filter] using huseful

/-- A frame that can take a region but cannot go on is the next fallback. -/
theorem Searched.fall {above landed : Nat} {fallback : Option Resync}
    (h : Searched s m above fallback)
    (hstands : m.Stands s ⟨above, landed, (m.skippable s).length⟩)
    (hnot : ∀ q, m.Looks s q → q.above ≠ above)
    (hbottom : above = m.below.length → m.BottomAlone s) :
    Searched s m (above + 1) (.some ⟨above, landed, (m.skippable s).length⟩) where
  looks q hq := Nat.lt_of_le_of_ne (h.looks q hq) (hnot q hq).symm
  none hf := by cases hf
  some r hr := by
    cases hr
    exact ⟨hstands, Nat.lt_succ_self above, rfl, fun q _ hle => Nat.le_of_lt_succ hle⟩
  bottom r hr hbelow := by
    cases hr
    exact hbottom hbelow

theorem Searched.chosen {above : Nat} {fallback : Option Resync} (h : Searched s m above fallback)
    (hgo : ∀ q, m.GoesOn s q ↔ m.Looks s q) (hr : r ∈ fallback) (hpos : 0 < r.skip)
    (habove : m.below.length ≤ above) : m.Chosen s r := by
  obtain ⟨hstands, hlt, hskip, hlast⟩ := h.some r hr
  rcases Nat.lt_or_eq_of_le hstands.le with hinner | hbottom
  · refine .outer (fun q hq => ?_) hstands hinner (fun q hq hlt => hlast q hq (by omega)) hskip hpos
    exact Nat.le_antisymm hq.1.le (Nat.le_trans habove (h.looks q ((hgo q).1 hq)))
  · refine .rest (h.bottom r hr hbottom) (fun q hq => ?_) hstands hbottom hskip hpos
    have hle := h.looks q ((hgo q).1 hq)
    have hle' := hq.1.le
    omega

section Frame

variable {f : Frame} {rest : List Frame} {above landed : Nat} {fallback : Option Resync}

/-- What looks like a way to go on at a frame that can take a region. -/
theorem looks_iff (hdrop : m.frames.drop above = f :: rest)
    (hmove : (s.table.explicitAction f.state .error).move = .shift landed)
    (habove : r.above = above) : m.Looks s r ↔ r.state = landed ∧
      ∃ l, (m.scanned s)[r.skip]? = some l ∧
        viable s.table (landed :: (f :: rest).map Frame.state) l.token.kind = true := by
  subst habove
  constructor
  · rintro ⟨hstands, hl⟩
    obtain rfl := hstands.state_eq hdrop hmove
    rw [hdrop] at hl
    exact ⟨rfl, hl⟩
  · rintro ⟨rfl, hl⟩
    rw [← hdrop] at hl
    exact ⟨⟨f, rest, hdrop, hmove⟩, hl⟩

/-- The first token that can follow on a frame, if none above it can go on. -/
theorem Searched.first (h : Searched s m above fallback)
    (hgo : ∀ q, m.GoesOn s q ↔ m.Looks s q) (hdrop : m.frames.drop above = f :: rest)
    (hmove : (s.table.explicitAction f.state .error).move = .shift landed) {i : Nat}
    (hfind : (m.scanned s).findIdx? (fun l =>
      viable s.table (landed :: (f :: rest).map Frame.state) l.token.kind) = .some i) :
    m.First s ⟨above, landed, i⟩ := by
  obtain ⟨hi, hv, hmin⟩ := List.findIdx?_eq_some_iff_getElem.1 hfind
  constructor
  · exact (hgo _).2 ((looks_iff hdrop hmove rfl).2 ⟨rfl, _, List.getElem?_eq_getElem hi, hv⟩)
  · intro q hq
    refine ⟨h.looks q ((hgo q).1 hq), fun he => ?_⟩
    obtain ⟨-, l, hl, hv'⟩ := (looks_iff hdrop hmove he).1 ((hgo q).1 hq)
    obtain ⟨hlt, rfl⟩ := List.getElem?_eq_some_iff.1 hl
    by_contra hle
    exact hmin q.skip (Nat.lt_of_not_le hle) hv'

theorem not_looks_of_findIdx? (hdrop : m.frames.drop above = f :: rest)
    (hmove : (s.table.explicitAction f.state .error).move = .shift landed)
    (hfind : (m.scanned s).findIdx? (fun l =>
      viable s.table (landed :: (f :: rest).map Frame.state) l.token.kind) = .none) :
    ∀ q, m.Looks s q → q.above ≠ above := by
  intro q hq he
  obtain ⟨-, l, hl, hv⟩ := (looks_iff hdrop hmove he).1 hq
  have hnone := List.findIdx?_eq_none_iff.1 hfind l (List.mem_of_getElem? hl)
  rw [hv] at hnone
  cases hnone

end Frame

/-- **What the search through the stack finds.** -/
theorem chosen_of_searchFrames (hends : Ends m.input) (hgo : ∀ q, m.GoesOn s q ↔ m.Looks s q)
    (frames : List Frame) (above : Nat) (fallback : Option Resync) (looked : Nat)
    (hdrop : m.frames.drop above = frames) (h : Searched s m above fallback) :
    ∀ r ∈ (searchFrames s m.input frames above fallback looked).resync, m.Chosen s r := by
  have hlength : m.frames.length = m.below.length + 1 := rfl
  induction frames generalizing above fallback looked with
  | nil =>
    intro r hr
    have hle := List.drop_eq_nil_iff.1 hdrop
    obtain ⟨hr, hpos⟩ := Option.mem_filter_iff.1 hr
    exact h.chosen hgo hr (by simpa using hpos) (by omega)
  | cons f rest ih =>
    have hrest : m.frames.drop (above + 1) = rest := by
      rw [← List.drop_drop, hdrop]
      rfl
    have hbelow : above + rest.length = m.below.length := by
      have hlen := congrArg List.length hdrop
      rw [List.length_drop, List.length_cons] at hlen
      omega
    rw [searchFrames_cons]
    split
    · -- the search does not come to the bottom frame
      next hguard =>
      intro r hr
      obtain ⟨hempty, huseful⟩ := Bool.and_eq_true_iff.1 hguard
      rw [List.isEmpty_iff] at hempty
      rw [hempty, List.length_nil] at hbelow
      obtain ⟨q, hq⟩ := Option.isSome_iff_exists.1 huseful
      obtain ⟨hmem, hpos⟩ := Option.mem_filter_iff.1 hq
      obtain rfl : r = q := Option.some.inj (hr.symm.trans hmem)
      exact h.chosen hgo hr (by simpa using hpos) (by omega)
    · next hguard =>
      have halone : above = m.below.length → m.BottomAlone s := by
        rintro rfl
        refine h.bottomAlone ?_
        rw [List.eq_nil_of_length_eq_zero (l := rest) (by omega)] at hguard
        simpa using hguard
      split
      · next landed hmove =>
        obtain ⟨looked', hsearch⟩ := search_eq (viable s.table
          (landed :: (f :: rest).map Frame.state)) hends (max s.options.recoveryLimit 1) 0
        rw [hsearch, Nat.zero_add]
        cases hfind : (line (m.input.take (max s.options.recoveryLimit 1))).findIdx? fun l =>
          viable s.table (landed :: (f :: rest).map Frame.state) l.token.kind with
        | some i =>
          have hfirst := h.first hgo hdrop hmove hfind
          intro r hr
          dsimp only at hr
          rw [Nat.zero_add] at hr
          cases hr
          rcases Nat.lt_or_eq_of_le hfirst.1.1.le with hinner | hbottom
          · exact .inner hfirst hinner
          · exact .bottom (halone hbottom) hfirst hbottom
        | none =>
          exact ih _ _ _ hrest
            (h.fall ⟨f, rest, hdrop, hmove⟩ (not_looks_of_findIdx? hdrop hmove hfind) halone)
      · next hmove =>
        refine ih _ _ _ hrest (h.pass fun q hq he => ?_)
        obtain ⟨base, rest', hdrop', hshift⟩ := hq
        rw [he, hdrop] at hdrop'
        cases hdrop'
        exact hmove _ hshift

/-! ## What recovery leaves -/

/-- The machine goes on in a way: the frames below stay, and an error node takes the trees of the
frames that are given up and the tokens that are skipped, without the extras in front. -/
structure Resumed (s : Setup) (m : Machine) (r : Resync) (m' : Machine) : Prop where
  state : m'.top.state = r.state
  below : m'.below = m.frames.drop r.above
  input : m'.input = m.input.drop r.skip
  node : ∃ leading inside, m'.top.backward.reverse = leading ++ [.node .error inside] ∧
    leading ++ inside = (Frame.joined (m.frames.take r.above)).reverse ++
      (m.input.take r.skip).flatMap Lookahead.trees ∧
    (∀ tree ∈ leading, isExtraTree s.table tree = true) ∧
    ∀ tree ∈ inside.head?, isExtraTree s.table tree = false

/-- **What recovery chooses, and what it leaves.** -/
theorem chosen_of_recover (hends : Ends m.input) (hgo : ∀ q, m.GoesOn s q ↔ m.Looks s q)
    (h : m.recover? s = some m') : ∃ r, m.Chosen s r ∧ m.Resumed s r m' := by
  obtain ⟨r, base, rest, looked, hplan, hdrop, -, rfl⟩ := recover?_eq_some h
  refine ⟨r, chosen_of_searchFrames hends hgo m.frames 0 none 0 rfl .start r hplan, ?_⟩
  rw [resynchronize_eq (m := m.look looked) hdrop (Nat.le_of_lt (searchFrames_lt hends hplan))]
  refine ⟨rfl, hdrop.symm, rfl, _, _, reverse_wrap _ _ _, ?_, fun tree htree => ?_,
    fun tree htree => ?_⟩
  · rw [List.takeWhile_append_dropWhile, recovered, List.reverse_append, List.reverse_reverse]
    rfl
  · exact List.all_eq_true.1 List.all_takeWhile tree htree
  · have hnot := List.head?_dropWhile_not (isExtraTree s.table)
      (recovered (m.look looked) r).reverse
    rw [Option.mem_def.1 htree] at hnot
    simpa using hnot

end Machine

end AsmTree
