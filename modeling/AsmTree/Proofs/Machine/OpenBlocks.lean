import AsmTree.Proofs.Grammar.Blocks
import AsmTree.Proofs.Machine.Order
import AsmTree.Proofs.Machine.Places
import AsmTree.Proofs.Machine.Records
import AsmTree.Proofs.Machine.Skeletons
import AsmTree.Proofs.Machine.Takes

/-!
# Blocks that are not closed

The machine takes a frame that ends with an opening word for an open block. It is right: such a
frame stands for the word itself (`terminal_of_opener`), and a reduction takes the word away only if
a closing word stands on top. So behind a recovered region above the word the end of the text cannot
follow (`Opened.not_canFollow_eof`), and the recovery behind a report of an open block takes the
word into its error node (`unclosed_of_recover`).

**Main statement (`OpenBlocks.step`):** every step keeps it so that the blocks that have been
reported as open have their opening words directly below error nodes.
-/

namespace AsmTree

open AsmTree.Tree Located Lookahead Machine

namespace Grammar

variable {g : Grammar} {t : ParseTable} {raw : Nat → Bool} {k : Kind} {states rest : List Nat}
  {read : List Symbol} {state : Nat}

/-! ## Symbols of blocks -/

/-- A state within a node moves there by a symbol of a production of the node. -/
theorem exists_production_of_context (hg : g.WellFormed) (hbuild : ParseTable.build g = .ok t)
    {below target : Nat} {sym : Symbol} (hm : g.automaton.next? below sym = some target)
    {node : Kind} (hcontext : t.context? target = some node) :
    ∃ p ∈ g.productions, g.kindOf? p.lhs = some node ∧ sym ∈ p.rhs := by
  rw [context?_eq hbuild (lt_of_next? hg hm).2] at hcontext
  obtain ⟨item, hitem, hkind⟩ := List.exists_of_findSome?_eq_some hcontext
  split at hkind
  · obtain ⟨i, hi, hhead, rfl⟩ := exists_of_next? hg hm hitem
    obtain ⟨after, hr⟩ := List.head?_eq_some_iff.1 hhead
    have hmem := mem_rhs_of_remaining hr
    have hlt : i.production < g.productions.size := by
      have hle := (mem_items.1 (mem_items_of_mem_closure_kernel hg hi)).1
      rw [size_productions] at hle
      refine Nat.lt_of_le_of_ne (Nat.le_of_lt_succ hle) fun hp => ?_
      -- the whole input has no node
      have hlhs : g.kindOf? (g.augmented.lhs i.production) = some node := hkind
      rw [hp, lhs_accept hg, kindOf?, Array.getElem?_eq_none (Nat.le_refl _)] at hlhs
      cases hlhs
    have hq := getElem?_augmented (Array.getElem?_eq_getElem hlt)
    rw [Augmented.rhs_eq hq] at hmem
    have hlhs : g.kindOf? (g.augmented.lhs i.production) = some node := hkind
    rw [Augmented.lhs_eq hq] at hlhs
    exact ⟨_, Array.getElem_mem hlt, hlhs, hmem⟩
  · cases hkind

/-- **A symbol within a block that shows an opening word is the word.** -/
theorem eq_terminal_of_block (hg : g.WellFormed) (hbuild : ParseTable.build g = .ok t)
    (hb : g.HasBlocks raw) {below target : Nat} {sym : Symbol}
    (hm : g.automaton.next? below sym = some target) {node : Kind}
    (hcontext : t.context? target = some node) (hblock : node.isBlock = true)
    (hk : k.isOpener = true) (d : Derivation g sym) (hleaf : .leaf k ∈ d.skeleton) :
    sym = .terminal k := by
  obtain ⟨p, hp, hkind, hmem⟩ := exists_production_of_context hg hbuild hm hcontext
  cases sym with
  | terminal k' => rw [d.eq_of_leaf hleaf]
  | nonterminal id =>
    have hshows := d.shows hb hk hleaf
    rw [hb.block p hp node hkind hblock id hmem] at hshows
    cases hshows

/-! ## The end of the text behind an open block -/

/-- A stack with an opening word below a recovered region or a nonterminal. -/
def Opened (g : Grammar) (k : Kind) (states : List Nat) : Prop :=
  ∃ top read, g.Path states (top :: read) ∧ .terminal k ∈ read ∧
    ∀ k', top = .terminal k' → k' = .error

/-- **A reduction leaves an opening word where it is**, unless a closing word stands on top. -/
theorem Opened.reduced (ht : g.HasTable t) (hb : g.HasBlocks raw) (hk : k.isOpener = true)
    {before : Kind} {states' : List Nat} (h : g.Opened k states)
    (hr : t.reduced? before states = some states') : g.Opened k states' := by
  obtain ⟨top, read, hpath, hopen, htop⟩ := h
  obtain ⟨state, rest, p, base, below, next, rfl, hm, hdrop, hgoto, rfl⟩ :=
    ParseTable.reduced?_eq_some.1 hr
  obtain ⟨item, hc, rfl, hne⟩ := ht.complete_of_action hm
  obtain ⟨base', below', target, hdrop', hread, hbase, hmove, hgoto'⟩ := ht.reduction hpath hc hne
  rw [ht.production_of_complete hc] at hdrop hgoto
  dsimp only at hdrop hgoto
  rw [hdrop'] at hdrop
  cases hdrop
  rw [hgoto'] at hgoto
  cases hgoto
  refine ⟨_, _, .move hbase hmove, ?_, fun k' he => by cases he⟩
  have hlt := Nat.lt_of_le_of_ne (hc.production_le ht.wellFormed) hne
  rw [Augmented.rhs_eq (getElem?_augmented (Array.getElem?_eq_getElem hlt))] at hread ⊢
  have hclosed := hb.closed g.productions[item.production] (Array.getElem_mem hlt) k hk
  generalize g.productions[item.production].rhs = rhs at hread hclosed
  cases hlen : rhs.length with
  | zero => exact List.mem_cons_of_mem _ hopen
  | succ n =>
    rw [hlen, List.take_succ_cons] at hread
    rw [List.drop_succ_cons]
    have hrhs : rhs = (read.take n).reverse ++ [top] := by
      rw [← List.reverse_cons, hread, List.reverse_reverse]
    rw [← List.take_append_drop n read, List.mem_append] at hopen
    refine hopen.resolve_left fun hmem => ?_
    rw [hrhs, List.dropLast_concat, List.getLast?_concat] at hclosed
    obtain ⟨close, hclose, hne⟩ := hclosed (List.mem_reverse.2 hmem)
    exact hne (htop close (Option.some.inj hclose))

/-- **The end of the text cannot follow as long as a block is open.** -/
theorem Opened.not_canFollow_eof (ht : g.HasTable t) (hb : g.HasBlocks raw) (he : t.EofOnly)
    (hk : k.isOpener = true) (h : g.Opened k states) : ¬ CanFollow t states .eof := by
  refine not_canFollow_of_keeps (fun _ _ h hr => Opened.reduced ht hb hk h hr)
    (fun state rest h => ⟨he.shift state, fun hm => ?_⟩) h
  obtain ⟨top, read, hpath, hopen, -⟩ := h
  obtain ⟨item, hc, hp⟩ := complete_of_accept ht.wellFormed ht.build ht.indexed.actions hm
  obtain ⟨hread, -⟩ := hpath.accept ht.wellFormed hc.inState hc.remaining hp
  rw [(List.cons.inj hread).2] at hopen
  cases hopen

end Grammar

/-- What a frame must have for the machine to take it for an open block. -/
theorem Frame.exists_of_opener? {t : ParseTable} {f : Frame} {k : Kind} {range : TextRange}
    (h : f.opener? t = some (k, range)) : ∃ text below node,
      f.backward = .token k text :: below ∧ k.isOpener = true ∧
      t.context? f.state = some node ∧ node.isBlock = true ∧
      range = ⟨f.stop - text.utf8ByteSize, f.stop⟩ := by
  unfold opener? at h
  split at h
  · next k' text below hbackward =>
    split at h
    · next hcond =>
      cases h
      rw [Bool.and_eq_true] at hcond
      cases hcontext : t.context? f.state with
      | none =>
        rw [hcontext] at hcond
        cases hcond.2
      | some node =>
        rw [hcontext] at hcond
        exact ⟨text, below, node, hbackward, hcond.1, rfl, hcond.2, rfl⟩
    · cases h
  · cases h

namespace Machine

open Grammar

variable {g : Grammar} {s : Setup} {m m' : Machine} {raw : Nat → Bool} {k : Kind}
  {range : TextRange} {read read' : List Symbol} {source : Lexer} {before : Option Kind}
  {frames rest : List Frame} {f base : Frame} {stop n : Nat}

/-! ## Opening words on the stack -/

/-- **A frame that the machine takes for an open block stands for the opening word.** -/
theorem terminal_of_opener (ht : g.HasTable s.table) (hb : g.HasBlocks raw)
    (hextra : ∀ k, k.isOpener = true → s.table.isExtra k = false)
    (h : Sound g s m read) (hdrop : m.frames.drop n = f :: rest)
    (hopener : f.opener? s.table = some (k, range)) :
    ∃ below, read.drop n = .terminal k :: below := by
  obtain ⟨text, below, node, hbackward, hk, hcontext, hblock, -⟩ := Frame.exists_of_opener? hopener
  have hstates : m.states.drop n = f.state :: rest.map Frame.state := by
    rw [states, ← List.map_drop, hdrop, List.map_cons]
  have hpath := h.path.drop n hstates
  have hcovers := h.covers.drop n hdrop
  generalize read.drop n = read' at hpath hcovers
  cases hcovers with
  | bottom hempty =>
    rw [hbackward] at hempty
    cases hempty
  | @push _ _ sym read' d hshape hrest =>
    obtain ⟨base, rest, rfl⟩ : ∃ base rest', rest = base :: rest' := by
      cases hrest with
      | bottom _ => exact ⟨_, _, rfl⟩
      | push _ _ _ => exact ⟨_, _, rfl⟩
    have hleaf : .leaf k ∈ d.skeleton := by
      rw [← hshape, hbackward, List.reverse_cons, shapeAll_append]
      refine List.mem_append_right _ ?_
      rw [shapeAll_cons, shapeAll_nil, List.append_nil, shape, hextra k hk]
      exact List.mem_singleton_self _
    rw [eq_terminal_of_block ht.wellFormed ht.build hb hpath.of_cons.1 hcontext hblock hk d hleaf]
    exact ⟨read', rfl⟩

/-- Trees between leading extras and the end of a node stand below it. -/
theorem exists_region_of_row {t : ParseTable} {start : Nat} {trees : List Tree} {e : Located}
    (he : e ∈ row start trees.reverse) (hextra : isExtraTree t e.tree = false) :
    ∃ region ∈ Located.parts start (wrap t k trees).reverse, ∃ cs,
      region.tree = .node k cs ∧ e ∈ region.children := by
  have hmem : ⟨start + lengthAll (trees.reverse.takeWhile (isExtraTree t)),
      .node k (trees.reverse.dropWhile (isExtraTree t))⟩ ∈
      Located.parts start (wrap t k trees).reverse := by
    rw [reverse_wrap, mem_parts_append, mem_parts_node]
    exact Or.inr (Or.inl rfl)
  refine ⟨_, hmem, _, rfl, ?_⟩
  rw [← List.takeWhile_append_dropWhile (p := isExtraTree t) (l := trees.reverse),
    row_append] at he
  refine (List.mem_append.1 he).resolve_left fun hleading => ?_
  have htree : e.tree ∈ trees.reverse.takeWhile (isExtraTree t) := by
    rw [← map_tree_row start (trees.reverse.takeWhile (isExtraTree t))]
    exact List.mem_map_of_mem hleading
  have hall := List.all_eq_true.1 List.all_takeWhile _ htree
  rw [hextra] at hall
  cases hall

/-- The last tree of a frame in its place among those above a lower frame. -/
theorem mem_row_of_stacked (upper : List Frame) {tree : Tree} {below : List Tree} {mid : List Frame}
    (h : g.Stacked (f :: frames) read) (hdrop : (f :: frames).drop n = base :: rest)
    (htake : (f :: frames).take n = f :: mid) (hbackward : f.backward = tree :: below) :
    ⟨f.stop - tree.length, tree⟩ ∈
      row base.stop (Frame.joined (upper ++ (f :: frames).take n)).reverse := by
  obtain ⟨-, hstop⟩ := h.drop n hdrop
  rw [htake] at hstop ⊢
  rw [Frame.joined_append, Frame.joined_cons, hbackward, List.cons_append, List.reverse_append,
    List.reverse_cons, List.append_assoc, row_append]
  rw [Frame.joined_cons, hbackward, List.cons_append, lengthAll_cons] at hstop
  refine List.mem_append_right _ ?_
  rw [lengthAll_reverse, show f.stop - tree.length =
    base.stop + lengthAll (below ++ Frame.joined mid) by omega]
  exact List.mem_cons_self

/-! ## What is reported of open blocks -/

/-- A report of an open block, with its opening word directly below an error node. -/
def Unclosed (parts : List Located) (stop : Nat) (d : Diagnostic) : Prop :=
  ∃ k start text, d = .openBlock k ⟨start, start + text.utf8ByteSize⟩ stop ∧ k.isOpener = true ∧
    ∃ region ∈ parts, ∃ cs, region.tree = .node .error cs ∧
      ⟨start, .token k text⟩ ∈ region.children

theorem Unclosed.mono {parts parts' : List Located} {d : Diagnostic} (h : Unclosed parts stop d)
    (hsub : ∀ e ∈ parts, e ∈ parts') : Unclosed parts' stop d := by
  obtain ⟨k, start, text, hd, hk, region, hmem, cs, htree, hchild⟩ := h
  exact ⟨k, start, text, hd, hk, region, hsub region hmem, cs, htree, hchild⟩

theorem canFollow_of_eof {r : Resync} (hends : Ends m.input) (heof : (m.next s).kind = .eof)
    (hplan : (searchFrames s m.input m.frames 0 none 0).resync = some r) : r.skip = 0 ∧
      CanFollow s.table (r.state :: (m.frames.drop r.above).map Frame.state) .eof := by
  obtain ⟨l, ls, hinput⟩ := List.exists_cons_of_ne_nil hends.ne_nil
  rw [next_of_input hinput] at heof
  obtain rfl := (hinput ▸ hends).eq_last heof
  have hskip := searchFrames_lt hends hplan
  rw [hinput, List.length_singleton, Nat.lt_one_iff] at hskip
  have hprogress := searchFrames_progress m.frames 0 none 0 (show m.frames.drop 0 = _ from rfl)
    r (by rw [← hinput]; exact hplan)
  rw [hskip, heof] at hprogress
  exact ⟨hskip, _, hprogress.resolve_left (Nat.lt_irrefl 0)⟩

variable (ht : g.HasTable s.table) (hb : g.HasBlocks raw) (he : s.table.EofOnly)
  (hextra : ∀ k, k.isOpener = true → s.table.isExtra k = false)

include ht hb

include he in
/-- Before the end of the text recovery gives up the frame of an opening word. -/
theorem lt_above_of_eof {r : Resync} (hpath : g.Path m.states read) (hends : Ends m.input)
    (heof : (m.next s).kind = .eof)
    (hplan : (searchFrames s m.input m.frames 0 none 0).resync = some r)
    (hdrop : m.frames.drop r.above = base :: rest)
    (hmove : (s.table.explicitAction base.state .error).move = .shift r.state)
    (hk : k.isOpener = true) (hword : .terminal k ∈ read.drop n) : n < r.above := by
  by_contra hle
  obtain ⟨-, hfollow⟩ := canFollow_of_eof hends heof hplan
  have hstates : m.states.drop r.above = base.state :: rest.map Frame.state := by
    rw [states, ← List.map_drop, hdrop, List.map_cons]
  refine Opened.not_canFollow_eof ht hb he hk ⟨.terminal .error, read.drop r.above, ?_, ?_, ?_⟩
    hfollow
  · rw [hdrop]
    exact .move (hpath.drop r.above hstates) (ht.next?_of_shift hmove)
  · rw [← Nat.add_sub_cancel' (Nat.le_of_not_lt hle), ← List.drop_drop] at hword
    exact List.mem_of_mem_drop hword
  · intro k' hk'
    exact (Symbol.terminal.inj hk').symm

include he hextra

/-- **Recovery at the end of the text takes the opening word of the block into its error node.** -/
theorem unclosed_of_recover (h : Sound g s m read) (hstand : Standing g s source before m read')
    (heof : (m.next s).kind = .eof) (hopen : m.openBlock? s = some (k, range))
    (hr : m.recover? s = some m') : Unclosed m'.parts stop (.openBlock k range stop) := by
  obtain ⟨f, hf, hopener⟩ := List.exists_of_findSome?_eq_some hopen
  obtain ⟨upper, lower, hframes⟩ := List.append_of_mem hf
  have hdropf : m.frames.drop upper.length = f :: lower := by rw [hframes, List.drop_left]
  obtain ⟨below, hread⟩ := terminal_of_opener ht hb hextra h hdropf hopener
  obtain ⟨text, trees, node, hbackward, hk, -, -, rfl⟩ := Frame.exists_of_opener? hopener
  obtain ⟨r, base, rest, looked, hplan, hdrop, hmove, rfl⟩ := recover?_eq_some hr
  obtain ⟨hskip, -⟩ := canFollow_of_eof hstand.ends heof hplan
  have hlt := lt_above_of_eof ht hb he h.path hstand.ends heof hplan hdrop hmove hk
    (by rw [hread]; exact List.mem_cons_self)
  -- the frames that are given up are some above the word, the word, and some below it
  obtain ⟨n, hn⟩ := Nat.exists_eq_add_of_lt hlt
  have hstacked := (hstand.stacked.drop (f := m.top) upper.length hdropf).1
  have hdrop' : (f :: lower).drop (n + 1) = base :: rest := by
    rw [← hdropf, List.drop_drop, ← hdrop, hn, Nat.add_assoc]
  have htake : m.frames.take r.above = upper ++ (f :: lower).take (n + 1) := by
    rw [hframes, hn, Nat.add_assoc, List.take_length_add_append]
  have hword := mem_row_of_stacked upper hstacked hdrop' List.take_succ_cons hbackward
  rw [← htake] at hword
  obtain ⟨region, hregion, cs, htree, hchild⟩ := exists_region_of_row (t := s.table) (k := .error)
    hword (by simpa [isExtraTree, Tree.kind] using fun _ => hextra k hk)
  have hlen : text.utf8ByteSize ≤ f.stop := by
    have hle := hstacked.length_le (f := f) List.mem_cons_self
    rw [hbackward, lengthAll_cons] at hle
    exact Nat.le_trans (Nat.le_add_right _ _) hle
  refine ⟨k, f.stop - text.utf8ByteSize, text, ?_, hk, region, ?_, cs, htree, hchild⟩
  · rw [Nat.sub_add_cancel hlen]
  · refine mem_parts_resynchronize (m := m.look looked) hdrop
      (by rw [hskip]; exact Nat.zero_le _) ?_
    rw [(hstacked.drop (n + 1) hdrop').1.lengthAll_joined, recovered, hskip]
    exact hregion

/-! ## Steps and runs -/

/-- Every block that has been reported as open has its opening word below an error node. -/
def OpenBlocks (stop : Nat) (m : Machine) : Prop :=
  ∀ d ∈ m.errors.toList, d.code = .unterminatedBlock → Unclosed m.parts stop d

omit ht hb he hextra in
/-- What a report says of an open block. -/
theorem mem_errors_report {d : Diagnostic} (hd : d ∈ (m.report s).errors.toList)
    (hcode : d.code = .unterminatedBlock) : d ∈ m.errors.toList ∨ (m.next s).kind = .eof ∧
      ∃ k range, m.openBlock? s = some (k, range) ∧
        d = .openBlock k range (m.next s).offset := by
  unfold report at hd
  dsimp only at hd
  have hunexpected (found : Kind) (c : Context) (expected : List Kind) (range : TextRange) :
      d ≠ .unexpected found c expected range := by
    rintro rfl
    exact c.code_ne_unterminatedBlock found hcode
  split at hd
  · exact Or.inl hd
  · next heof =>
    split at hd
    · next k range hopen =>
      rw [Array.toList_push] at hd
      refine (List.mem_append.1 hd).imp_right fun hd => ⟨heof, k, range, hopen, ?_⟩
      exact List.mem_singleton.1 hd
    · rw [Array.toList_push] at hd
      exact Or.inl ((List.mem_append.1 hd).resolve_right fun hd =>
        hunexpected _ _ _ _ (List.mem_singleton.1 hd))
  · rw [Array.toList_push] at hd
    exact Or.inl ((List.mem_append.1 hd).resolve_right fun hd =>
      hunexpected _ _ _ _ (List.mem_singleton.1 hd))

omit ht hb he hextra in
theorem mem_of_unreadables {ls : List Lookahead} {ds : List Diagnostic} {d : Diagnostic}
    (hd : d ∈ ds ++ unreadables ls) (hcode : d.code = .unterminatedBlock) : d ∈ ds := by
  refine (List.mem_append.1 hd).resolve_right fun hd => ?_
  obtain ⟨l, -, rfl⟩ := exists_of_mem_unreadables hd
  have hlexical := Diagnostic.isLexical_unreadable l.token
  rw [hcode] at hlexical
  cases hlexical

/-- **A step keeps the reports of open blocks right.** -/
theorem OpenBlocks.step (hs : s.splice = none) (h : Sound g s m read)
    (hstand : Standing g s source before m read')
    (hblocks : OpenBlocks (Parser.stopToken source).offset m) (hstep : m.step s = .running m') :
    OpenBlocks (Parser.stopToken source).offset m' := by
  intro d hd hcode
  -- what was reported before stays right, since the trees stay in their places
  suffices hnew : d ∈ m.errors.toList ∨ Unclosed m'.parts (Parser.stopToken source).offset d from
    hnew.elim (fun hold => (hblocks d hold hcode).mono fun _ => parts_step hs hstep) id
  have hmark {m₁ : Machine} (he : m₁.markLine s = .running m') :
      m'.errors = m₁.errors ∧ m'.parts = m₁.parts := by
    rw [markLine_of_splice hs] at he
    cases he
    refine ⟨?_, parts_congr (mark_frames s m₁)⟩
    obtain ⟨checkpoints, hm⟩ := mark_eq s m₁
    rw [hm]
  have heffect := step_effect s m
  rw [hstep] at heffect
  generalize ho : Outcome.running m' = o at heffect
  cases heffect with
  | reduce _ _ hm =>
    obtain ⟨base, rest, state, -, -, rfl⟩ := reduce?_eq_some.1 hm
    rw [(hmark ho.symm).1] at hd
    exact Or.inl hd
  | @shift target _ _ =>
    obtain ⟨l, ls, hinput⟩ := List.exists_cons_of_ne_nil hstand.ends.ne_nil
    rw [(hmark ho.symm).1, shift_eq (m := m.look 1) hinput, Array.toList_append] at hd
    exact Or.inl (mem_of_unreadables hd hcode)
  | @recover m₁ _ _ hr =>
    obtain ⟨herrors, hparts⟩ := hmark ho.symm
    have hsound : Sound g s ((m.look 1).report s) read := h.congr (by simp) (by simp)
    have hstand' : Standing g s source before ((m.look 1).report s) read' :=
      hstand.congr (by simp) (by simp) (by simp)
    obtain ⟨r, base, rest, looked, hplan, hdrop, -, hm⟩ := recover?_eq_some hr
    have hskip := Nat.le_of_lt (searchFrames_lt hstand'.ends hplan)
    rw [herrors, hm, resynchronize_eq (m := ((m.look 1).report s).look looked) hdrop hskip,
      Array.toList_append] at hd
    rcases mem_errors_report (mem_of_unreadables hd hcode) hcode with
      hd | ⟨heof, k, range, hopen, rfl⟩
    · exact Or.inl hd
    · right
      rw [hparts, ← hstand.next_of_eof heof]
      have hopen' : ((m.look 1).report s).openBlock? s = some (k, range) := by
        rw [openBlock?, report_frames]
        exact hopen
      exact unclosed_of_recover ht hb he hextra hsound hstand' (by simpa using heof) hopen' hr
  | stuck _ _ => cases ho
  | accept _ _ => cases ho
  | abandon _ _ _ => cases ho

end Machine

end AsmTree
