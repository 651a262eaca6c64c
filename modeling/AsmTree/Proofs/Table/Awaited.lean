import AsmTree.Proofs.Table.Paths

/-!
# What can follow on a path

`Follows` says what can follow an item of a state on any path to the state. `ValidAt` says it for
one path. **Main statement (`validAt_of_reduced`):** if a token can come next behind the nonterminal
of a complete production, then it may follow the production on the path that was reduced. So a
reduction that leads to the shift of a token was right before that token, whether or not the token
was looked at.

Conversely, a token that may follow a complete production on a path can come next behind its
nonterminal (`ValidAt.awaits`), and a token that can come next is one that some item of the state
reads, or that may follow a complete one (`Awaits.exists_acts`). Whatever may follow an item of a
state may follow it on some path to the state (`Follows.exists_validAt`).
-/

namespace AsmTree

namespace Grammar

variable {g : Grammar} {state target base : Nat} {below rest : List Nat} {read : List Symbol}
  {item : Item} {n p : Nat} {k : Kind} {s : Symbol}

/-- A token may follow an item of the last state of a path, given by that state and those before
it. -/
inductive ValidAt (g : Grammar) : Nat → List Nat → Item → Nat → Prop where
  | eof : ValidAt g 0 [] ⟨g.productions.size, 0⟩ Kind.eof.index
  | first {state p n : Nat} {below : List Nat} {item : Item} {rest : List Symbol} :
    g.InState state item → p < g.augmented.productions.size →
    g.analysis.remaining item = .nonterminal (g.augmented.lhs p) :: rest →
    (g.analysis.firstOf rest).1.contains n = true → ValidAt g state below ⟨p, 0⟩ n
  | rest {state p n : Nat} {below : List Nat} {item : Item} {rest : List Symbol} :
    p < g.augmented.productions.size →
    g.analysis.remaining item = .nonterminal (g.augmented.lhs p) :: rest →
    (g.analysis.firstOf rest).2 = true → ValidAt g state below item n →
    ValidAt g state below ⟨p, 0⟩ n
  | advance {state target n : Nat} {below : List Nat} {s : Symbol} {item : Item} :
    g.automaton.next? state s = some target → item.advance ∈ g.automaton.kernel target →
    ValidAt g state below item n → ValidAt g target (state :: below) item.advance n

theorem ValidAt.follows (hg : g.WellFormed) (h : g.ValidAt state below item n) :
    g.Follows state item n := by
  induction h with
  | eof => exact .eof
  | first hin hp hr hn => exact .first hin hp hr hn
  | rest hp hr hempty _ ih => exact .rest (ih.inState hg) hp hr hempty ih
  | advance hm hmem _ ih => exact .advance hm hmem ih

theorem ValidAt.back (h : g.ValidAt target (state :: below) item n) (hdot : 0 < item.dot) :
    ∃ i : Item, item = i.advance ∧ g.ValidAt state below i n := by
  cases h with
  | first _ _ _ _ => exact absurd hdot (Nat.lt_irrefl 0)
  | rest _ _ _ _ => exact absurd hdot (Nat.lt_irrefl 0)
  | advance _ _ h => exact ⟨_, rfl, h⟩

/-! ## Items that await a token -/

/-- A token can come next by an item of the last state of a path: among what the item has still to
read, or behind it. -/
def Awaits (g : Grammar) (state : Nat) (below : List Nat) (item : Item) (k : Kind) : Prop :=
  g.Begins (g.analysis.remaining item) k ∨
    (g.Vanishes (g.analysis.remaining item) ∧ g.ValidAt state below item k.index)

theorem derives_rhs (hp : p < g.augmented.productions.size) (after : List Symbol) :
    g.Derives (.nonterminal (g.augmented.lhs p) :: after) (g.augmented.rhs p ++ after) := by
  have hget := Array.getElem?_eq_getElem hp
  rw [Augmented.lhs_eq hget, Augmented.rhs_eq hget]
  exact derives_of_mem (Array.getElem_mem hp) after

theorem remaining_zero (g : Grammar) (p : Nat) :
    g.analysis.remaining ⟨p, 0⟩ = g.augmented.rhs p := by
  rw [remaining_eq_drop, List.drop_zero]

theorem exists_begins_kernel (hg : g.WellFormed) {kernel : Kernel}
    (hi : item ∈ g.analysis.closure kernel) (hb : g.Begins (g.analysis.remaining item) k) :
    ∃ i ∈ kernel, g.Begins (g.analysis.remaining i) k := by
  refine closure_induction (P := fun i => g.Begins (g.analysis.remaining i) k →
    ∃ j ∈ kernel, g.Begins (g.analysis.remaining j) k) ?_ ?_ hg hi hb
  · exact fun i hi hb => ⟨i, hi, hb⟩
  · rintro i ih p hp rest hr ⟨after, hb⟩
    refine ih ?_
    rw [remaining_zero] at hb
    rw [hr]
    exact ⟨after ++ rest, (derives_rhs hp rest).trans (hb.append_right rest)⟩

/-- What may follow an item without more to read is awaited by an item of the kernel. -/
theorem ValidAt.exists_kernel (hg : g.WellFormed) (h : g.ValidAt state below item k.index)
    (hv : g.Vanishes (g.analysis.remaining item)) :
    ∃ i ∈ g.automaton.kernel state, g.Awaits state below i k := by
  generalize hn : k.index = n at h
  induction h with
  | eof => exact ⟨_, by simp, Or.inr ⟨hv, hn ▸ .eof⟩⟩
  | @first state p n below i rest hin hp hr hfirst =>
    obtain ⟨k', hk', hbegins⟩ := (contains_firstOf hg).1 hfirst
    obtain rfl := Kind.index_inj.1 (hk'.trans hn.symm)
    rw [remaining_zero] at hv
    have hi : g.Begins (g.analysis.remaining i) k' := by
      obtain ⟨after, hbegins⟩ := hbegins
      rw [hr]
      exact ⟨after, ((derives_rhs hp rest).trans (hv.append_right rest)).trans hbegins⟩
    obtain ⟨j, hj, hb⟩ := exists_begins_kernel hg hin.2 hi
    exact ⟨j, hj, Or.inl hb⟩
  | @rest state p n below i rest hp hr hempty _ ih =>
    refine ih ?_ hn
    rw [remaining_zero] at hv
    rw [hr]
    exact ((derives_rhs hp rest).trans (hv.append_right rest)).trans
      ((firstOf_vanishes hg).1 hempty)
  | advance hm hmem h => exact ⟨_, hmem, Or.inr ⟨hv, hn ▸ .advance hm hmem h⟩⟩

theorem Awaits.exists_kernel (hg : g.WellFormed) (h : g.Awaits state below item k)
    (hi : item ∈ g.analysis.closure (g.automaton.kernel state)) :
    ∃ i ∈ g.automaton.kernel state, g.Awaits state below i k := by
  rcases h with hb | ⟨hv, hvalid⟩
  · obtain ⟨i, hi, hb⟩ := exists_begins_kernel hg hi hb
    exact ⟨i, hi, Or.inl hb⟩
  · exact hvalid.exists_kernel hg hv

/-! ## Reductions -/

/-- A token that is awaited behind a nonterminal may follow the productions of the nonterminal. -/
theorem Awaits.validAt_initial (hg : g.WellFormed) (h : g.Awaits target (base :: below) item k)
    (hi : item ∈ g.analysis.closure (g.automaton.kernel target))
    (hm : g.automaton.next? base (.nonterminal (g.augmented.lhs p)) = some target)
    (hp : p < g.augmented.productions.size) : g.ValidAt base below ⟨p, 0⟩ k.index := by
  obtain ⟨_, hmem, haw⟩ := h.exists_kernel hg hi
  obtain ⟨i, hin, hs, rfl⟩ := exists_of_next? hg hm hmem
  obtain ⟨rest, hr⟩ := List.head?_eq_some_iff.1 hs
  rw [Awaits, remaining_advance hr] at haw
  rcases haw with hb | ⟨hv, hvalid⟩
  · exact .first ⟨(lt_of_next? hg hm).1, hin⟩ hp hr ((contains_firstOf hg).2 ⟨k, rfl, hb⟩)
  · obtain ⟨j, hj, hvalid⟩ := hvalid.back (Nat.succ_pos _)
    have heq : j = i := by
      cases i
      cases j
      simpa [Item.advance] using hj.symm
    exact .rest hp hr ((firstOf_vanishes hg).2 hv) (heq ▸ hvalid)

/-- What may follow a production where it begins may follow it wherever the path has read some of
it. -/
theorem ValidAt.climb (hg : g.WellFormed) {dot : Nat} (hpath : g.Path (state :: rest) read)
    (hi : (⟨p, dot⟩ : Item) ∈ g.analysis.closure (g.automaton.kernel state))
    (hdrop : (state :: rest).drop dot = base :: below) (h : g.ValidAt base below ⟨p, 0⟩ n) :
    g.ValidAt state rest ⟨p, dot⟩ n := by
  induction dot generalizing state rest read with
  | zero =>
    cases hdrop
    exact h
  | succ dot ih =>
    have hk : (⟨p, dot + 1⟩ : Item) ∈ g.automaton.kernel state := by
      rcases (mem_closure hg).1 hi with hk | ⟨hdot, -⟩
      · exact hk
      · cases hdot
    cases hpath with
    | start =>
      rw [kernel_zero, List.mem_singleton] at hk
      cases hk
    | @move before _ rest s read hpath hm =>
      have hadvance : Item.advance ⟨p, dot⟩ ∈ g.automaton.kernel state := hk
      have hbefore := (inState_of_advance hg hm hadvance).1
      exact .advance hm hadvance (ih hpath hbefore.2 hdrop)

/-- **A token that can come next behind a nonterminal may follow the production that was reduced to
it.** -/
theorem validAt_of_reduced (hg : g.WellFormed) (hpath : g.Path (state :: rest) read)
    (hin : g.InState state item) (hr : g.analysis.remaining item = [])
    (hdrop : (state :: rest).drop (g.augmented.rhs item.production).length = base :: below)
    (hm : g.automaton.next? base (.nonterminal (g.augmented.lhs item.production)) = some target)
    {i : Item} (hi : i ∈ g.analysis.closure (g.automaton.kernel target))
    (haw : g.Awaits target (base :: below) i k) : g.ValidAt state rest item k.index := by
  have hmem := mem_items_of_mem_closure_kernel hg hin.2
  have hdot := dot_of_complete hmem hr
  obtain ⟨production, dot⟩ := item
  dsimp only at hdot hdrop hm ⊢
  rw [← hdot] at hdrop
  exact (haw.validAt_initial hg hi hm (mem_items.1 hmem).1).climb hg hpath hin.2 hdrop

theorem validAt_accept (hg : g.WellFormed) (hpath : g.Path (state :: rest) read)
    (hin : g.InState state item) (hr : g.analysis.remaining item = [])
    (hp : item.production = g.productions.size) :
    g.ValidAt state rest item Kind.eof.index := by
  have hdot := dot_of_complete (mem_items_of_mem_closure_kernel hg hin.2) hr
  obtain ⟨-, rfl⟩ := hpath.accept hg hin hr hp
  obtain ⟨production, dot⟩ := item
  obtain rfl : production = g.productions.size := hp
  rw [rhs_accept] at hdot
  obtain rfl : dot = 1 := hdot
  exact ValidAt.eof.climb hg hpath hin.2 rfl

/-- What may follow a production on a path may follow it where it begins. -/
theorem ValidAt.descend {dot : Nat} (h : g.ValidAt state rest ⟨p, dot⟩ n)
    (hdrop : (state :: rest).drop dot = base :: below) : g.ValidAt base below ⟨p, 0⟩ n := by
  induction dot generalizing state rest with
  | zero =>
    cases hdrop
    exact h
  | succ dot ih =>
    rw [List.drop_succ_cons] at hdrop
    cases rest with
    | nil =>
      rw [List.drop_nil] at hdrop
      cases hdrop
    | cons before rest =>
      obtain ⟨⟨p', dot'⟩, he, hvalid⟩ := h.back (Nat.succ_pos _)
      obtain ⟨rfl, hdot⟩ := Item.mk.inj he
      obtain rfl := Nat.succ.inj hdot
      exact ih hvalid hdrop

/-- **What may follow a complete production on a path can come next behind its nonterminal.** -/
theorem ValidAt.awaits (hg : g.WellFormed) (h : g.ValidAt state rest item k.index)
    (hin : g.InState state item) (hr : g.analysis.remaining item = [])
    (hne : item.production ≠ g.productions.size)
    (hdrop : (state :: rest).drop (g.augmented.rhs item.production).length = base :: below)
    (hm : g.automaton.next? base (.nonterminal (g.augmented.lhs item.production)) = some target) :
    ∃ i, g.InState target i ∧ g.Awaits target (base :: below) i k := by
  have hdot := dot_of_complete (mem_items_of_mem_closure_kernel hg hin.2) hr
  obtain ⟨p, dot⟩ := item
  dsimp only at hdot hdrop hm hne
  rw [← hdot] at hdrop
  have hbase := h.descend hdrop
  have htarget := (lt_of_next? hg hm).2
  -- the item that reads the nonterminal has read it in the state behind it
  have hadvance {i : Item} {after : List Symbol} (hi : g.InState base i)
      (hr : g.analysis.remaining i = .nonterminal (g.augmented.lhs p) :: after) :
      i.advance ∈ g.automaton.kernel target := by
    obtain ⟨target', hm', hmem⟩ := next?_of_mem hg hi.1 hi.2
      (s := .nonterminal (g.augmented.lhs p)) (by rw [hr]; rfl)
    rw [hm] at hm'
    cases hm'
    exact hmem
  generalize hi : (⟨p, 0⟩ : Item) = initial at hbase
  generalize hk : k.index = n at hbase
  cases hbase with
  | eof => exact absurd (Item.mk.inj hi).1 hne
  | @first _ _ _ _ i after hin _ hr hfirst =>
    obtain ⟨rfl, -⟩ := Item.mk.inj hi
    obtain ⟨k', hk', hbegins⟩ := (contains_firstOf hg).1 hfirst
    obtain rfl := Kind.index_inj.1 (hk'.trans hk.symm)
    refine ⟨i.advance, ⟨htarget, mem_closure_of_mem (hadvance hin hr)⟩, Or.inl ?_⟩
    rw [remaining_advance hr]
    exact hbegins
  | @rest _ _ _ _ i after _ hr hempty hvalid =>
    obtain ⟨rfl, -⟩ := Item.mk.inj hi
    subst hk
    have hmem := hadvance ((hvalid.follows hg).inState hg) hr
    refine ⟨i.advance, ⟨htarget, mem_closure_of_mem hmem⟩, Or.inr ⟨?_, .advance hm hmem hvalid⟩⟩
    rw [remaining_advance hr]
    exact (firstOf_vanishes hg).1 hempty
  | advance _ _ _ =>
    rw [Item.advance] at hi
    cases hi

/-! ## Items that act -/

/-- The token is read by an item of the last state of a path, or may follow it there if it is
complete. -/
def Acts (g : Grammar) (state : Nat) (below : List Nat) (item : Item) (k : Kind) : Prop :=
  (∃ after, g.analysis.remaining item = .terminal k :: after) ∨
    (g.analysis.remaining item = [] ∧ g.ValidAt state below item k.index)

/-- A token can come next behind a nonterminal that an item of the last state of a path reads. -/
def Behind (g : Grammar) (state : Nat) (below : List Nat) (id n : Nat) : Prop :=
  ∃ item rest, g.InState state item ∧ g.analysis.remaining item = .nonterminal id :: rest ∧
    ((g.analysis.firstOf rest).1.contains n = true ∨
      (g.analysis.firstOf rest).2 = true ∧ g.ValidAt state below item n)

theorem Behind.validAt (hg : g.WellFormed) (h : g.Behind state below (g.augmented.lhs p) n)
    (hp : p < g.augmented.productions.size) :
    g.InState state ⟨p, 0⟩ ∧ g.ValidAt state below ⟨p, 0⟩ n := by
  obtain ⟨item, rest, hin, hr, hn⟩ := h
  refine ⟨⟨hin.1, closure_expand hg hin.2 hp hr⟩, ?_⟩
  rcases hn with hfirst | ⟨hempty, hvalid⟩
  · exact .first hin hp hr hfirst
  · exact .rest hp hr hempty hvalid

/-- If the nonterminal can be empty, the token may follow a complete item of the state. -/
theorem Behind.exists_complete (hg : g.WellFormed) {id : Nat} (h : g.Behind state below id n)
    (hid : g.analysis.nullable.contains id = true) : ∃ item, g.InState state item ∧
      g.analysis.remaining item = [] ∧ g.ValidAt state below item n := by
  refine nullable_induction (P := fun id => g.analysis.nullable.contains id = true ∧
    (g.Behind state below id n → ∃ item, g.InState state item ∧
      g.analysis.remaining item = [] ∧ g.ValidAt state below item n)) ?_ hid |>.2 h
  intro q hq hsymbols
  have hnull : q.rhs.all g.symbolNullable = true := by
    refine List.all_eq_true.2 fun s hs => ?_
    obtain ⟨id, rfl, hid, -⟩ := hsymbols s hs
    exact hid
  refine ⟨nullable_of_mem hg hq hnull, fun h => ?_⟩
  obtain ⟨p, hp⟩ := Array.getElem?_of_mem hq
  rw [← Augmented.lhs_eq hp] at h
  obtain ⟨hin, hvalid⟩ := h.validAt hg (Array.getElem?_eq_some_iff.1 hp).1
  have hr : g.analysis.remaining ⟨p, 0⟩ = q.rhs := by rw [remaining_zero, Augmented.rhs_eq hp]
  cases hrhs : q.rhs with
  | nil => exact ⟨_, hin, hr.trans hrhs, hvalid⟩
  | cons s rest =>
    obtain ⟨id, rfl, -, hcomplete⟩ := hsymbols s (by rw [hrhs]; exact List.mem_cons_self)
    rw [hrhs, List.all_cons, Bool.and_eq_true] at hnull
    exact hcomplete ⟨_, rest, hin, hr.trans hrhs, Or.inr ⟨by rw [firstOf_snd, hnull.2], hvalid⟩⟩

/-- What a symbol begins with comes next where an item reads the symbol behind some that can be
empty, if it does where an item reads the symbol at once. -/
theorem InState.exists_acts (hg : g.WellFormed) (hin : g.InState state item)
    {before after : List Symbol} (hr : g.analysis.remaining item = before ++ s :: after)
    (hbefore : before.all g.symbolNullable = true) (hs : g.Opens k.index s)
    (hreads : ∀ i after, g.InState state i → g.analysis.remaining i = s :: after →
      ∃ j, g.InState state j ∧ g.Acts state below j k) :
    ∃ j, g.InState state j ∧ g.Acts state below j k := by
  cases before with
  | nil => exact hreads item after hin hr
  | cons x before =>
    rw [List.all_cons, Bool.and_eq_true] at hbefore
    cases x with
    | terminal k' => cases hbefore.1
    | nonterminal id =>
      have hfirst : (g.analysis.firstOf (before ++ s :: after)).1.contains k.index = true :=
        contains_firstOf_iff.2 ⟨s, mem_leading.2 ⟨before, after, rfl, hbefore.2⟩, hs⟩
      obtain ⟨j, hj, hjr, hvalid⟩ :=
        Behind.exists_complete hg ⟨item, _, hin, hr, Or.inl hfirst⟩ hbefore.1
      exact ⟨j, hj, Or.inr ⟨hjr, hvalid⟩⟩

/-- A token that a symbol begins with comes next where an item reads the symbol. -/
theorem exists_acts_of_opens (hg : g.WellFormed) (hs : g.Opens k.index s) {after : List Symbol}
    (hin : g.InState state item) (hr : g.analysis.remaining item = s :: after) :
    ∃ j, g.InState state j ∧ g.Acts state below j k := by
  cases s with
  | terminal k' =>
    obtain rfl := Kind.index_inj.1 hs
    exact ⟨item, hin, Or.inl ⟨after, hr⟩⟩
  | nonterminal id =>
    have hinitial {q : Production} (hq : q ∈ g.augmented.productions) {i : Item}
        {after : List Symbol} (hi : g.InState state i)
        (hr : g.analysis.remaining i = .nonterminal q.lhs :: after) :
        ∃ i, g.InState state i ∧ g.analysis.remaining i = q.rhs := by
      obtain ⟨p, hp⟩ := Array.getElem?_of_mem hq
      rw [← Augmented.lhs_eq hp] at hr
      refine ⟨⟨p, 0⟩, ⟨hi.1, closure_expand hg hi.2 (Array.getElem?_eq_some_iff.1 hp).1 hr⟩, ?_⟩
      rw [remaining_zero, Augmented.rhs_eq hp]
    -- the induction also keeps that the nonterminal begins with the token
    refine (first_induction (P := fun id n => Inclusions.Member g.analysis.first id n ∧
      ∀ k : Kind, k.index = n → ∀ i after, g.InState state i →
        g.analysis.remaining i = .nonterminal id :: after →
        ∃ j, g.InState state j ∧ g.Acts state below j k) ?_ ?_ hs).2 k rfl item after hin hr
    · intro q hq before k' after hrhs hbefore
      have hmem := mem_leading.2 ⟨before, after, hrhs, hbefore⟩
      refine ⟨member_first_of_mem hg hq hmem rfl, fun k hk i after' hi hr => ?_⟩
      obtain rfl := Kind.index_inj.1 hk
      obtain ⟨i', hi', hr'⟩ := hinitial hq hi hr
      exact hi'.exists_acts hg (hr'.trans hrhs) hbefore rfl
        fun j after hj hjr => ⟨j, hj, Or.inl ⟨after, hjr⟩⟩
    · rintro q hq before id after hrhs hbefore n ⟨hn, ih⟩
      have hmem := mem_leading.2 ⟨before, after, hrhs, hbefore⟩
      refine ⟨member_first_of_mem hg hq hmem hn, ?_⟩
      rintro k rfl i after' hi hr
      obtain ⟨i', hi', hr'⟩ := hinitial hq hi hr
      exact hi'.exists_acts hg (hr'.trans hrhs) hbefore hn (ih k rfl)

/-- **A token that can come next comes next by some item of the state.** -/
theorem Awaits.exists_acts (hg : g.WellFormed) (hin : g.InState state item)
    (h : g.Awaits state below item k) : ∃ j, g.InState state j ∧ g.Acts state below j k := by
  rcases h with hbegins | ⟨hvanishes, hvalid⟩
  · obtain ⟨s, hs, hopens⟩ :=
      contains_firstOf_iff.1 ((contains_firstOf hg).2 ⟨k, rfl, hbegins⟩)
    obtain ⟨before, after, hr, hbefore⟩ := mem_leading.1 hs
    exact hin.exists_acts hg hr hbefore hopens fun i after hi hr =>
      exists_acts_of_opens hg hopens hi hr
  · rw [vanishes_iff hg] at hvanishes
    cases hr : g.analysis.remaining item with
    | nil => exact ⟨item, hin, Or.inr ⟨hr, hvalid⟩⟩
    | cons s rest =>
      rw [hr, List.all_cons, Bool.and_eq_true] at hvanishes
      cases s with
      | terminal k' => cases hvanishes.1
      | nonterminal id =>
        have hempty : (g.analysis.firstOf rest).2 = true := by rw [firstOf_snd, hvanishes.2]
        obtain ⟨j, hj, hjr, hjvalid⟩ :=
          Behind.exists_complete hg ⟨item, rest, hin, hr, Or.inr ⟨hempty, hvalid⟩⟩ hvanishes.1
        exact ⟨j, hj, Or.inr ⟨hjr, hjvalid⟩⟩

/-! ## Paths to what follows -/

theorem exists_path (hg : g.WellFormed) (hs : state < g.automaton.size) :
    ∃ below read, g.Path (state :: below) read := by
  refine state_induction hg (P := fun state => ∃ below read, g.Path (state :: below) read) ?_ ?_ hs
  · exact ⟨[], [], .start⟩
  · rintro state s target ⟨below, read, hpath⟩ hm
    exact ⟨_, _, .move hpath hm⟩

/-- **What may follow an item of a state may follow it on some path to the state.** -/
theorem Follows.exists_validAt (hg : g.WellFormed) (h : g.Follows state item n) :
    ∃ below read, g.Path (state :: below) read ∧ g.ValidAt state below item n := by
  induction h with
  | eof => exact ⟨[], [], .start, .eof⟩
  | first hin hp hr hn =>
    obtain ⟨below, read, hpath⟩ := exists_path hg hin.1
    exact ⟨below, read, hpath, .first hin hp hr hn⟩
  | rest _ hp hr hempty _ ih =>
    obtain ⟨below, read, hpath, hvalid⟩ := ih
    exact ⟨below, read, hpath, .rest hp hr hempty hvalid⟩
  | advance hm hmem _ ih =>
    obtain ⟨below, read, hpath, hvalid⟩ := ih
    exact ⟨_, _, .move hpath hm, .advance hm hmem hvalid⟩

end Grammar

end AsmTree
