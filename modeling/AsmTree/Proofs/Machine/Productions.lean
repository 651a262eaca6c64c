import AsmTree.Proofs.Grammar.Lines
import AsmTree.Proofs.Machine.Invariants
import AsmTree.Proofs.Machine.Nodes
import AsmTree.Proofs.Machine.Skeletons

/-!
# Nodes show productions

A node is made by a reduction, of frames that show derivations, so it shows a production of its
kind, wherever it ends up: within a recovered region too. A parse that is taken up again has lines
of an earlier tree in its lowest frames, of which no derivation is known. That does not matter,
because only files and lines begin with lines, and neither makes a node.

**Main statement (`produced_invariant`):** every node that a run makes shows a production of its
kind or is a recovered region.
-/

namespace AsmTree

open AsmTree.Tree

/-- The trees of a node show what a production of its kind derives. A recovered region holds
anything. -/
def Produced (g : Grammar) (isExtra : Kind → Bool) (k : Kind) (cs : List Tree) : Prop :=
  k = .error ∨ ∃ p ∈ g.productions, g.kindOf? p.lhs = some k ∧
    ∃ ds : Derivations g p.rhs, shapeAll isExtra cs = ds.skeleton

namespace Machine

variable {g : Grammar} {isExtra : Kind → Bool} {lines line : Nat} {s : Setup} {m m' : Machine}
  {frames : List Frame} {read : List Symbol}

/-! ## Frames -/

/-- The frames above the bottom show derivations, except that the lowest of them may hold lines of
an earlier tree, or a file that begins with such lines. -/
inductive Shows (g : Grammar) (isExtra : Kind → Bool) (lines : Nat) :
    List Frame → List Symbol → Prop where
  | bottom (f : Frame) : Shows g isExtra lines [f] []
  | file {f below : Frame} {id : Nat} : id = lines ∨ id = g.start →
    Shows g isExtra lines [f, below] [.nonterminal id]
  | push {f : Frame} {fs : List Frame} {symbol : Symbol} {read : List Symbol}
    (d : Derivation g symbol) : shapeAll isExtra f.backward.reverse = d.skeleton →
    Shows g isExtra lines fs read → Shows g isExtra lines (f :: fs) (symbol :: read)

theorem Shows.drop (h : Shows g isExtra lines frames read) (n : Nat) {base : Frame}
    {rest : List Frame} (hd : frames.drop n = base :: rest) :
    Shows g isExtra lines (base :: rest) (read.drop n) := by
  induction n generalizing frames read with
  | zero => exact hd ▸ h
  | succ n ih =>
    cases h with
    | bottom f => simp at hd
    | @file f below id _ =>
      have hbottom : Shows g isExtra lines [below] [] := .bottom below
      exact ih hbottom hd
    | push _ _ h => exact ih h hd

/-- The frames on top show derivations of what was read last, or they are all frames above the
bottom, and the lowest holds lines. -/
theorem Shows.take (h : Shows g isExtra lines frames read) {ss : List Symbol}
    (hss : read.take ss.length = ss.reverse) :
    (∃ ds : Derivations g ss,
      shapeAll isExtra (Frame.joined (frames.take ss.length)).reverse = ds.skeleton) ∨
    ∃ id, (id = lines ∨ id = g.start) ∧ ss.head? = some (.nonterminal id) ∧
      frames.length = ss.length + 1 := by
  induction ss using List.reverseRecOn generalizing frames read with
  | nil => exact Or.inl ⟨.nil, rfl⟩
  | append_singleton ss symbol ih =>
    rw [List.length_append, List.length_singleton, List.reverse_append] at hss
    cases h with
    | bottom f => cases hss
    | @file f below id hid =>
      obtain ⟨rfl, hrest⟩ := List.cons.inj hss
      obtain rfl : ss = [] := by simpa using hrest.symm
      exact Or.inr ⟨id, hid, rfl, rfl⟩
    | push d hd h =>
      obtain ⟨rfl, hrest⟩ := List.cons.inj hss
      rw [List.length_append, List.length_singleton]
      rcases ih h hrest with ⟨ds, hds⟩ | ⟨id, hid, hhead, hlength⟩
      · refine Or.inl ⟨ds.snoc d, ?_⟩
        rw [List.take_succ_cons, Frame.joined_cons, List.reverse_append, shapeAll_append, hds, hd,
          Derivations.skeleton_snoc]
      · refine Or.inr ⟨id, hid, ?_, by simpa using hlength⟩
        rw [List.head?_append, hhead]
        rfl

/-! ## Moves -/

/-- The stack is a path whose frames show derivations, and so do all nodes that have been made. -/
structure Producing (g : Grammar) (lines : Nat) (s : Setup) (m : Machine) (read : List Symbol) :
    Prop where
  path : g.Path m.states read
  shows : Shows g s.table.isExtra lines m.frames read
  produced : ∀ t ∈ Frame.joined m.frames, t.Everywhere (Produced g s.table.isExtra)
  input : ∀ l ∈ m.input, Sorted s.table.isExtra l

theorem Producing.congr (h : Producing g lines s m read) (hf : m'.frames = m.frames)
    (hi : m'.input = m.input) : Producing g lines s m' read :=
  ⟨by rw [states, hf]; exact h.path, by rw [hf]; exact h.shows, by rw [hf]; exact h.produced,
    by rw [hi]; exact h.input⟩

variable (ht : g.HasTable s.table) (hl : g.HasLines lines line)

include ht in
theorem Producing.shift (hstop : s.table.isExtra s.stop.kind = false)
    (h : Producing g lines s m read) {target : Nat}
    (hm : (s.table.explicitAction m.top.state (m.next s).kind).move = .shift target) :
    Producing g lines s (m.shift s target) (.terminal (m.next s).kind :: read) where
  path := path_shift ht h.path hm
  shows := by
    refine .push (.leaf _) ?_ h.shows
    show shapeAll s.table.isExtra (m.ahead s 0).trees.reverse.reverse = _
    rw [List.reverse_reverse, (sorted_ahead h.input hstop 0).shape_trees]
    rfl
  produced := by
    rw [show (m.shift s target).frames =
      ⟨target, (m.ahead s 0).trees.reverse, (m.next s).stop⟩ :: m.frames from rfl,
      Frame.joined_cons, List.forall_mem_append]
    exact ⟨fun t ht => everywhere_trees _ t (List.mem_reverse.1 ht), h.produced⟩
  input := fun l hl => h.input l (List.mem_of_mem_tail hl)

theorem Shows.of_singleton {f : Frame} (h : Shows g isExtra lines [f] read) : read = [] := by
  cases h with
  | bottom f => rfl
  | push _ _ h => cases h

include hl in
theorem outer_of_head? {p : Production} (hp : p ∈ g.productions) {id : Nat}
    (hid : id = lines ∨ id = g.start) (hhead : p.rhs.head? = some (.nonterminal id)) :
    (p.lhs = lines ∨ p.lhs = g.start) ∧ g.kindOf? p.lhs = none := by
  obtain rfl : id = lines :=
    hid.resolve_right fun hstart => hl.start p hp (hstart ▸ List.mem_of_head? hhead)
  have houter := hl.first p hp hhead
  refine ⟨houter, ?_⟩
  rcases houter with h | h <;> rw [h]
  · exact hl.hidden.2
  · exact hl.hidden.1

include ht hl in
/-- What a reduction makes of the frames on top shows a derivation, or it is lines again, or a
file. -/
theorem Producing.reduce (h : Producing g lines s m read) {p : Nat}
    (hr : m.reduction? s = some p) (he : m.reduce? s p = some m') :
    ∃ read', Producing g lines s m' read' := by
  obtain ⟨item, hc, rfl, hne⟩ := complete_of_reduction ht hr
  obtain ⟨base, rest, target, hdrop, hread, -, -, heq⟩ := reduce?_of_path ht h.path hr
  rw [← look_zero m] at he
  have hpath := path_reduced ht h.path hr 0 he
  rw [heq 0] at he
  cases he
  have hlt := Nat.lt_of_le_of_ne (hc.production_le ht.wellFormed) hne
  have hq := Grammar.getElem?_augmented (Array.getElem?_eq_getElem hlt)
  have hprod := ht.production_of_complete hc
  unfold reduced at hpath ⊢
  rw [Augmented.rhs_eq hq] at hread hdrop hpath hprod ⊢
  rw [Augmented.lhs_eq hq] at hpath hprod
  rw [hprod] at hpath ⊢
  have hmem : g.productions[item.production] ∈ g.productions := Array.getElem_mem hlt
  generalize g.productions[item.production] = p at *
  have hall := h.produced
  rw [← List.take_append_drop p.rhs.length m.frames, hdrop, Frame.joined_append,
    List.forall_mem_append] at hall
  have hbelow := h.shows.drop _ hdrop
  refine ⟨_, hpath, ?_, ?_, h.input⟩
  · rcases h.shows.take hread with ⟨ds, hds⟩ | ⟨id, hid, hhead, hlength⟩
    · refine .push (.node p hmem ds) ?_ hbelow
      rw [Derivation.skeleton, ← hds]
      cases hk : g.kindOf? p.lhs with
      | none => rfl
      | some k =>
        have hne : k ≠ .error := fun he => hl.visible _ (he ▸ hk)
        simp [reducedFrame, shapeAll_wrap, hne]
    · obtain ⟨houter, -⟩ := outer_of_head? hl hmem hid hhead
      have hlen := congrArg List.length hdrop
      rw [List.length_drop, hlength, List.length_cons] at hlen
      obtain rfl : rest = [] := List.eq_nil_of_length_eq_zero (by omega)
      rw [hbelow.of_singleton]
      exact .file houter
  · rw [Machine.frames, Frame.joined_cons, List.forall_mem_append, everywhere_reducedFrame]
    refine ⟨⟨fun k hk => ?_, hall.1⟩, hall.2⟩
    rcases h.shows.take hread with ⟨ds, hds⟩ | ⟨id, hid, hhead, -⟩
    · refine Or.inr ⟨p, hmem, hk, ds, ?_⟩
      rw [shapeAll_dropWhile]
      exact hds
    · obtain ⟨-, hhidden⟩ := outer_of_head? hl hmem hid hhead
      rw [hhidden] at hk
      cases hk

include ht in
/-- A recovered region is a terminal of its own, whatever it takes. -/
theorem Producing.recover (h : Producing g lines s m read) (hr : m.recover? s = some m') :
    ∃ read', Producing g lines s m' read' := by
  obtain ⟨r, base, rest, n, -, hdrop, hmove, rfl⟩ := recover?_eq_some hr
  have hdrop' : (m.look n).frames.drop r.above = base :: rest := hdrop
  refine ⟨_, path_resynchronize (m := m.look n) ht h.path hdrop' hmove, ?_, ?_, ?_⟩
  · rw [frames_resynchronize hdrop']
    refine .push (.leaf .error) ?_ (h.shows.drop _ hdrop)
    rw [shapeAll_wrap, if_pos rfl]
    rfl
  · have hall := h.produced
    rw [← List.take_append_drop r.above m.frames, hdrop, Frame.joined_append,
      List.forall_mem_append] at hall
    rw [frames_resynchronize hdrop', Frame.joined_cons, List.forall_mem_append, everywhere_wrap,
      everywhere_skipTokens]
    exact ⟨⟨Or.inl rfl, hall.1⟩, hall.2⟩
  · rw [input_resynchronize hdrop']
    exact fun l hl => h.input l (List.mem_of_mem_drop hl)

/-! ## Runs -/

include ht hl in
/-- **Every node that is made shows a production of its kind**, if those taken over do. -/
theorem produced_invariant (hstop : s.table.isExtra s.stop.kind = false)
    (htakes : Brings s (Produced g s.table.isExtra)) :
    Invariant s (fun m => ∃ read, Producing g lines s m read) fun ts =>
      ∀ t ∈ ts, t.Everywhere (Produced g s.table.isExtra) where
  congr := fun ⟨read, h⟩ hf hi => ⟨read, h.congr hf hi⟩
  shift := fun ⟨_, h⟩ hm => ⟨_, h.shift ht hstop hm⟩
  reduce := fun ⟨_, h⟩ hr he => h.reduce ht hl hr he
  recover := fun ⟨_, h⟩ hr => h.recover ht hr
  accept := fun ⟨_, h⟩ => everywhere_accept h.produced
  abandon := fun ⟨_, h⟩ => everywhere_abandon h.produced fun _ => Or.inl rfl
  takes := fun ⟨_, h⟩ => htakes.everywhere h.produced

end Machine

end AsmTree
