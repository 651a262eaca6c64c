import AsmTree.Proofs.Grammar.WellFormed
import AsmTree.Proofs.Table.Inclusions
import AsmTree.Table.Automaton

/-!
# Items of a state

The grammar with its last production, what stands at the left edge of a nonterminal, and the items
of a state. **Main statements:**

* `closure_expand`: a state has the initial items of every nonterminal that one of its items reads
  next;
* `closure_initial`: an initial item stands in a state only because some item of the state reads
  its nonterminal next, or because it belongs to the kernel.
-/

namespace AsmTree

theorem Augmented.lhs_eq {a : Augmented} {p : Nat} {q : Production}
    (h : a.productions[p]? = some q) : a.lhs p = q.lhs := by
  rw [lhs, h]
  rfl

theorem Augmented.rhs_eq {a : Augmented} {p : Nat} {q : Production}
    (h : a.productions[p]? = some q) : a.rhs p = q.rhs := by
  rw [rhs, h]
  rfl

namespace Grammar

variable {g : Grammar}

abbrev augmented (g : Grammar) : Augmented := .ofGrammar g

abbrev analysis (g : Grammar) : Analysis := .ofGrammar g

/-! ## Productions -/

@[simp] theorem size_productions (g : Grammar) :
    g.augmented.productions.size = g.productions.size + 1 := by
  simp [augmented, Augmented.ofGrammar]

theorem getElem?_productions (g : Grammar) (p : Nat) :
    g.augmented.productions[p]? =
      if p = g.productions.size then
        some ⟨Nonterminal.numberAt g.nonterminals.size, [.nonterminal g.start], none⟩
      else g.productions[p]? :=
  Array.getElem?_push

theorem getElem?_productions_of_ne {p : Nat} (h : p ≠ g.productions.size) :
    g.augmented.productions[p]? = g.productions[p]? := by
  rw [getElem?_productions, if_neg h]

theorem lhs_accept (hg : g.WellFormed) :
    g.augmented.lhs g.productions.size = g.nonterminals.size := by
  rw [Augmented.lhs_eq ((getElem?_productions g _).trans (if_pos rfl)), hg.numberAt_size]

theorem nonterminalCount_augmented (hg : g.WellFormed) :
    g.augmented.nonterminalCount = g.nonterminals.size + 1 :=
  congrArg (· + 1) hg.numberAt_size

@[simp] theorem rhs_accept (g : Grammar) :
    g.augmented.rhs g.productions.size = [.nonterminal g.start] :=
  Augmented.rhs_eq ((getElem?_productions g _).trans (if_pos rfl))

theorem getElem?_augmented {p : Nat} {q : Production} (h : g.productions[p]? = some q) :
    g.augmented.productions[p]? = some q := by
  rw [getElem?_productions_of_ne (Nat.ne_of_lt (Array.getElem?_eq_some_iff.1 h).1), h]

theorem rhs_of_size_le {p : Nat} (h : g.augmented.productions.size ≤ p) :
    g.augmented.rhs p = [] := by
  rw [Augmented.rhs, Array.getElem?_eq_none h]
  rfl

theorem lhs_lt_of_ne (hg : g.WellFormed) {p : Nat} (h : p < g.augmented.productions.size)
    (hp : p ≠ g.productions.size) : g.augmented.lhs p < g.nonterminals.size := by
  have hlt : p < g.productions.size := by
    rw [size_productions] at h
    omega
  rw [Augmented.lhs_eq (getElem?_augmented (Array.getElem?_eq_getElem hlt))]
  exact (hg.productions _ (Array.getElem_mem hlt)).lhs

theorem lhs_lt (hg : g.WellFormed) {p : Nat} (h : p < g.augmented.productions.size) :
    g.augmented.lhs p < g.augmented.nonterminalCount := by
  rw [nonterminalCount_augmented hg]
  by_cases hp : p = g.productions.size
  · rw [hp, lhs_accept hg]
    exact Nat.lt_succ_self _
  · exact Nat.lt_succ_of_lt (lhs_lt_of_ne hg h hp)

theorem lhs_lt_of_mem (hg : g.WellFormed) {p : Production} (hp : p ∈ g.augmented.productions) :
    p.lhs < g.augmented.nonterminalCount := by
  obtain ⟨i, hi⟩ := Array.getElem?_of_mem hp
  rw [← Augmented.lhs_eq hi]
  exact lhs_lt hg (Array.getElem?_eq_some_iff.1 hi).1

theorem lt_of_mem_rhs (hg : g.WellFormed) {p id : Nat}
    (h : .nonterminal id ∈ g.augmented.rhs p) : id < g.nonterminals.size := by
  by_cases hp : p = g.productions.size
  · rw [hp, rhs_accept, List.mem_singleton] at h
    cases h
    exact hg.start
  · by_cases hlt : p < g.productions.size
    · rw [Augmented.rhs_eq (getElem?_augmented (Array.getElem?_eq_getElem hlt))] at h
      exact (hg.productions _ (Array.getElem_mem hlt)).rhs _ h
    · rw [rhs_of_size_le (by rw [size_productions]; omega)] at h
      cases h

/-! ## Productions by nonterminal -/

theorem getD_foldr_modify {n : Nat} (ps : List (Production × Nat)) (id : Nat)
    (h : ∀ p ∈ ps, p.1.lhs < n) :
    (ps.foldr (fun (p, i) rows => rows.modify p.lhs (i :: ·)) (Array.replicate n [])).getD id [] =
      (ps.filter fun p => p.1.lhs = id).map Prod.snd := by
  have hsize : ∀ ps : List (Production × Nat),
      (ps.foldr (fun (p, i) rows => rows.modify p.lhs (i :: ·))
        (Array.replicate n [])).size = n := by
    intro ps
    induction ps with
    | nil => exact Array.size_replicate
    | cons p ps ih => rw [List.foldr_cons, Array.size_modify, ih]
  induction ps with
  | nil =>
    rw [List.foldr_nil, Array.getD_eq_getD_getElem?, Array.getElem?_replicate]
    split <;> rfl
  | cons p ps ih =>
    have htail := ih fun q hq => h q (List.mem_cons_of_mem _ hq)
    rw [List.foldr_cons, Array.getD_eq_getD_getElem?, Array.getElem?_modify]
    by_cases hid : p.1.lhs = id
    · have hlt : id < n := hid ▸ h p List.mem_cons_self
      rw [if_pos hid, List.filter_cons_of_pos (by simpa using hid), List.map_cons, ← htail,
        Array.getElem?_eq_getElem (by rw [hsize]; exact hlt), Array.getD_eq_getD_getElem?,
        Array.getElem?_eq_getElem (by rw [hsize]; exact hlt)]
      rfl
    · rw [if_neg hid, List.filter_cons_of_neg (by simpa using hid), ← htail,
        Array.getD_eq_getD_getElem?]

theorem mem_zipIdx_productions {p : Nat} {q : Production} :
    (q, p) ∈ g.augmented.productions.toList.zipIdx ↔ g.augmented.productions[p]? = some q := by
  rw [List.mem_zipIdx_iff_getElem?, Array.getElem?_toList]

theorem mem_productionsOf (hg : g.WellFormed) {p id : Nat} :
    p ∈ g.augmented.productionsOf id ↔
      p < g.augmented.productions.size ∧ g.augmented.lhs p = id := by
  have hlhs : ∀ q ∈ g.augmented.productions.toList.zipIdx,
      q.1.lhs < g.augmented.nonterminalCount := by
    rintro ⟨q, i⟩ hq
    exact lhs_lt_of_mem hg (Array.mem_of_getElem? (mem_zipIdx_productions.1 hq))
  have hrow := getD_foldr_modify g.augmented.productions.toList.zipIdx id hlhs
  rw [show g.augmented.productionsOf id = _ from hrow, List.mem_map]
  constructor
  · rintro ⟨⟨q, i⟩, hq, rfl⟩
    obtain ⟨hmem, hid⟩ := List.mem_filter.1 hq
    have hi := mem_zipIdx_productions.1 hmem
    exact ⟨(Array.getElem?_eq_some_iff.1 hi).1, by rw [Augmented.lhs_eq hi]; simpa using hid⟩
  · rintro ⟨hlt, rfl⟩
    have hp := Array.getElem?_eq_getElem hlt
    refine ⟨(g.augmented.productions[p], p), List.mem_filter.2 ⟨?_, ?_⟩, rfl⟩
    · exact mem_zipIdx_productions.2 hp
    · simp [Augmented.lhs_eq hp]

/-! ## Left edges -/

/-- Nonterminal `x` can stand at the left edge of nonterminal `b`. -/
abbrev AtLeftEdge (g : Grammar) (x b : Nat) : Prop := Inclusions.Member g.analysis.leftEdge b x

section

open Inclusions

/-- A step of the system of left edges: one inclusion, if the production begins with a
nonterminal. -/
theorem adds_edge (n : Nat) (p : Production) :
    Adds n (fun sys => match p.rhs with
      | .nonterminal id :: _ => sys.link id p.lhs
      | _ => sys) fun d => ∃ id rest, p.rhs = .nonterminal id :: rest ∧ d = .link id p.lhs := by
  split
  · next id rest h =>
    refine ⟨(Adds.link id p.lhs).size, fun sys hs d => ?_⟩
    rw [(Adds.link id p.lhs).demands sys hs d]
    refine or_congr_right ⟨fun hd => ⟨id, rest, h, hd⟩, ?_⟩
    rintro ⟨id', rest', h', hd⟩
    rw [h] at h'
    cases h'
    exact hd
  · next h =>
    refine ⟨Adds.nothing.size, fun sys hs d => ?_⟩
    constructor
    · exact Or.inl
    · rintro (hd | ⟨id, rest, hr, -⟩)
      · exact hd
      · exact absurd hr (h id rest)

theorem adds_edgeInclusions (g : Grammar) :
    ∃ f, g.augmented.edgeInclusions = f (ofSize g.augmented.nonterminalCount) ∧
      Adds g.augmented.nonterminalCount f fun d =>
        (∃ id ∈ List.range g.augmented.nonterminalCount, ∃ i, d = .member id i ∧
          id < g.augmented.nonterminalCount ∧ (BitSet.singleton id).contains i = true) ∨
        ∃ p ∈ g.augmented.productions.toList, ∃ id rest,
          p.rhs = .nonterminal id :: rest ∧ d = .link id p.lhs := by
  refine ⟨_, ?_, (Adds.foldl _ fun id _ => Adds.bound id (.singleton id)).comp
    (Adds.foldl g.augmented.productions.toList fun p _ => adds_edge _ p)⟩
  rw [Array.foldl_toList]
  rfl

/-- What the system of left edges asks for: each nonterminal itself, and one inclusion for each
production that begins with a nonterminal. -/
theorem demands_edgeInclusions (g : Grammar) (d : Demand) :
    g.augmented.edgeInclusions.Demands d ↔
      (∃ id < g.augmented.nonterminalCount, d = .member id id) ∨
        ∃ p < g.augmented.productions.size, ∃ id rest,
          g.augmented.rhs p = .nonterminal id :: rest ∧ d = .link id (g.augmented.lhs p) := by
  obtain ⟨f, hf, hadds⟩ := adds_edgeInclusions g
  rw [hf, hadds.demands_ofSize]
  refine or_congr ?_ ?_
  · constructor
    · rintro ⟨id, -, i, rfl, hid, hi⟩
      have : id = i := by simpa using hi
      exact ⟨id, hid, by rw [this]⟩
    · rintro ⟨id, hid, rfl⟩
      exact ⟨id, List.mem_range.2 hid, id, rfl, hid, by simp⟩
  · constructor
    · rintro ⟨q, hq, id, rest, hr, rfl⟩
      obtain ⟨p, hp⟩ := List.getElem?_of_mem hq
      rw [Array.getElem?_toList] at hp
      refine ⟨p, (Array.getElem?_eq_some_iff.1 hp).1, id, rest, ?_, ?_⟩
      · rw [Augmented.rhs_eq hp, hr]
      · rw [Augmented.lhs_eq hp]
    · rintro ⟨p, hp, id, rest, hr, rfl⟩
      have hq := Array.getElem?_eq_getElem hp
      refine ⟨_, Array.mem_toList_iff.2 (Array.getElem_mem hp), id, rest, ?_, ?_⟩
      · rw [← Augmented.rhs_eq hq, hr]
      · rw [← Augmented.lhs_eq hq]

theorem size_edgeInclusions (g : Grammar) :
    g.augmented.edgeInclusions.bounds.size = g.augmented.nonterminalCount := by
  obtain ⟨f, hf, hadds⟩ := adds_edgeInclusions g
  rw [hf, hadds.size_ofSize]

theorem atLeftEdge_self {id : Nat} (h : id < g.augmented.nonterminalCount) :
    g.AtLeftEdge id id :=
  solve_bound ((demands_edgeInclusions g (.member id id)).2 (Or.inl ⟨id, h, rfl⟩))

theorem AtLeftEdge.link (hg : g.WellFormed) {p x id : Nat} {rest : List Symbol}
    (hp : p < g.augmented.productions.size) (hr : g.augmented.rhs p = .nonterminal id :: rest)
    (h : g.AtLeftEdge x id) : g.AtLeftEdge x (g.augmented.lhs p) := by
  refine solve_link ((demands_edgeInclusions g (.link id (g.augmented.lhs p))).2 ?_) ?_ h
  · exact Or.inr ⟨p, hp, id, rest, hr, rfl⟩
  · rw [size_edgeInclusions]
    exact lhs_lt hg hp

/-- Left edges found by a relation that holds of each nonterminal and itself, and passes from the
first symbol of a production to what the production forms. -/
theorem AtLeftEdge.induction {P : Nat → Nat → Prop}
    (self : ∀ id < g.augmented.nonterminalCount, P id id)
    (link : ∀ p < g.augmented.productions.size, ∀ id rest,
      g.augmented.rhs p = .nonterminal id :: rest → ∀ x, P id x → P (g.augmented.lhs p) x)
    {x b : Nat} (h : g.AtLeftEdge x b) : P b x := by
  refine solve_least (P := P) ?_ ?_ b x h
  · intro v i hm
    rcases (demands_edgeInclusions g (.member v i)).1 hm with ⟨id, hid, he⟩ | ⟨_, _, _, _, _, he⟩
    · cases he
      exact self v hid
    · cases he
  · intro a c hac _ i hi
    rcases (demands_edgeInclusions g (.link a c)).1 hac with ⟨_, _, he⟩ | ⟨p, hp, id, rest, hr, he⟩
    · cases he
    · cases he
      exact link p hp a rest hr i hi

end

theorem AtLeftEdge.descend (hg : g.WellFormed) {p id b : Nat} {rest : List Symbol}
    (h : g.AtLeftEdge (g.augmented.lhs p) b) (hp : p < g.augmented.productions.size)
    (hr : g.augmented.rhs p = .nonterminal id :: rest) : g.AtLeftEdge id b := by
  have hid : id < g.augmented.nonterminalCount := by
    rw [nonterminalCount_augmented hg]
    exact Nat.lt_succ_of_lt (lt_of_mem_rhs hg (p := p) (by rw [hr]; exact List.mem_cons_self))
  refine AtLeftEdge.induction
    (P := fun b x => x = g.augmented.lhs p → g.AtLeftEdge id b) ?_ ?_ h rfl
  · rintro _ - rfl
    exact AtLeftEdge.link hg hp hr (atLeftEdge_self hid)
  · intro q hq x rest' hr' y hy hyp
    exact AtLeftEdge.link hg hq hr' (hy hyp)

/-- What stands at a left edge is the nonterminal itself, or the first symbol of a production of
something that stands there. -/
theorem AtLeftEdge.cases (hg : g.WellFormed) {x b : Nat} (h : g.AtLeftEdge x b) :
    x = b ∨ ∃ p < g.augmented.productions.size, ∃ rest,
      g.augmented.rhs p = .nonterminal x :: rest ∧ g.AtLeftEdge (g.augmented.lhs p) b := by
  refine AtLeftEdge.induction (P := fun b x => x = b ∨ ∃ p < g.augmented.productions.size,
    ∃ rest, g.augmented.rhs p = .nonterminal x :: rest ∧
      g.AtLeftEdge (g.augmented.lhs p) b) ?_ ?_ h
  · intro id _
    exact Or.inl rfl
  · rintro q hq id rest hr y (rfl | ⟨p, hp, rest', hr', hedge⟩)
    · exact Or.inr ⟨q, hq, rest, hr, atLeftEdge_self (lhs_lt hg hq)⟩
    · exact Or.inr ⟨p, hp, rest', hr', AtLeftEdge.link hg hq hr hedge⟩

/-! ## Closures -/

variable {kernel : Kernel} {item : Item}

theorem getElem?_suffixes {α : Type} (l : List α) (i : Nat) :
    (suffixes l)[i]? = if i ≤ l.length then some (l.drop i) else none := by
  induction l generalizing i with
  | nil => cases i <;> simp [suffixes]
  | cons x l ih =>
    cases i with
    | zero => rfl
    | succ i => simpa [suffixes] using ih i

theorem remaining_eq_drop (g : Grammar) (item : Item) :
    g.analysis.remaining item = (g.augmented.rhs item.production).drop item.dot := by
  have hget : g.analysis.augmented.endings[item.production]? =
      g.augmented.productions[item.production]?.map fun p => (suffixes p.rhs).toArray :=
    Array.getElem?_map
  rw [Analysis.remaining, hget, Augmented.rhs]
  cases g.augmented.productions[item.production]? with
  | none => simp
  | some p =>
    rw [Option.map_some, Option.bind_some, List.getElem?_toArray, getElem?_suffixes]
    by_cases hdot : item.dot ≤ p.rhs.length
    · rw [if_pos hdot]
      rfl
    · rw [if_neg hdot]
      exact (List.drop_eq_nil_of_le (Nat.le_of_not_le hdot)).symm

theorem remaining_cons {s : Symbol} {rest : List Symbol}
    (h : g.analysis.remaining item = s :: rest) :
    (g.augmented.rhs item.production)[item.dot]? = some s := by
  have hget : ((g.augmented.rhs item.production).drop item.dot)[0]? = some s := by
    rw [← remaining_eq_drop, h]
    rfl
  rwa [List.getElem?_drop, Nat.add_zero] at hget

theorem remaining_advance {s : Symbol} {rest : List Symbol}
    (h : g.analysis.remaining item = s :: rest) : g.analysis.remaining item.advance = rest := by
  rw [remaining_eq_drop, Item.advance, ← List.drop_drop, ← remaining_eq_drop, h]
  rfl

theorem mem_rhs_of_remaining {s : Symbol} {rest : List Symbol}
    (h : g.analysis.remaining item = s :: rest) : s ∈ g.augmented.rhs item.production :=
  List.mem_of_getElem? (remaining_cons h)

theorem contains_foldl_edges (kernel : Kernel) (set : BitSet) (x : Nat) :
    (kernel.foldl (fun set item =>
      match g.analysis.remaining item with
      | .nonterminal id :: _ => set ∪ g.analysis.leftEdge.getD id ∅
      | _ => set) set).contains x = true ↔
    set.contains x = true ∨ ∃ item ∈ kernel, ∃ id rest,
      g.analysis.remaining item = .nonterminal id :: rest ∧ g.AtLeftEdge x id := by
  induction kernel generalizing set with
  | nil => simp
  | cons item kernel ih =>
    rw [List.foldl_cons, ih, List.exists_mem_cons_iff, ← or_assoc]
    refine or_congr_left ?_
    split
    · next id rest h =>
      rw [BitSet.contains_union, Bool.or_eq_true]
      refine or_congr_right ⟨fun hx => ⟨id, rest, h, hx⟩, ?_⟩
      rintro ⟨id', rest', h', hx⟩
      rw [h] at h'
      cases h'
      exact hx
    · next h =>
      refine ⟨Or.inl, ?_⟩
      rintro (hx | ⟨id, rest, h', -⟩)
      · exact hx
      · exact absurd h' (h id rest)

theorem AtLeftEdge.lt {x b : Nat} (h : g.AtLeftEdge x b) :
    x < g.augmented.nonterminalCount := by
  refine AtLeftEdge.induction (P := fun _ x => x < g.augmented.nonterminalCount) ?_ ?_ h
  · exact fun _ hid => hid
  · exact fun _ _ _ _ _ _ hx => hx

/-- The nonterminals that may begin in a state are those at the left edge of one that an item of
the kernel reads next. -/
theorem mem_openNonterminals {x : Nat} :
    x ∈ g.analysis.openNonterminals kernel ↔ ∃ item ∈ kernel, ∃ id rest,
      g.analysis.remaining item = .nonterminal id :: rest ∧ g.AtLeftEdge x id := by
  have hset := contains_foldl_edges (g := g) kernel ∅ x
  rw [BitSet.contains_empty] at hset
  refine BitSet.mem_members.trans ⟨fun h => ?_, fun h => ?_⟩
  · rcases hset.1 h.2 with hx | hx
    · cases hx
    · exact hx
  · refine ⟨?_, hset.2 (Or.inr h)⟩
    obtain ⟨item, -, id, rest, -, hx⟩ := h
    exact hx.lt

theorem mem_closure (hg : g.WellFormed) :
    item ∈ g.analysis.closure kernel ↔ item ∈ kernel ∨
      (item.dot = 0 ∧ item.production < g.augmented.productions.size ∧
        g.augmented.lhs item.production ∈ g.analysis.openNonterminals kernel) := by
  unfold Analysis.closure Analysis.initialItems
  rw [List.mem_append, List.mem_flatMap]
  refine or_congr_right ?_
  constructor
  · rintro ⟨id, hid, hmem⟩
    obtain ⟨p, hp, rfl⟩ := List.mem_map.1 hmem
    obtain ⟨hlt, rfl⟩ := (mem_productionsOf hg).1 hp
    exact ⟨rfl, hlt, hid⟩
  · rintro ⟨hdot, hlt, hid⟩
    refine ⟨_, hid, List.mem_map.2 ⟨item.production, (mem_productionsOf hg).2 ⟨hlt, rfl⟩, ?_⟩⟩
    rw [← hdot]

theorem mem_closure_of_mem (h : item ∈ kernel) : item ∈ g.analysis.closure kernel :=
  List.mem_append_left _ h

/-- **A state has the initial items of every nonterminal that one of its items reads next.** -/
theorem closure_expand (hg : g.WellFormed) {rest : List Symbol} {p : Nat}
    (h : item ∈ g.analysis.closure kernel) (hp : p < g.augmented.productions.size)
    (hr : g.analysis.remaining item = .nonterminal (g.augmented.lhs p) :: rest) :
    ⟨p, 0⟩ ∈ g.analysis.closure kernel := by
  refine (mem_closure hg).2 (Or.inr ⟨rfl, hp, ?_⟩)
  rcases (mem_closure hg).1 h with hk | ⟨hdot, hlt, hopen⟩
  · exact mem_openNonterminals.2 ⟨item, hk, _, rest, hr, atLeftEdge_self (lhs_lt hg hp)⟩
  · obtain ⟨k, hk, id, rest', hr', hedge⟩ := mem_openNonterminals.1 hopen
    have hrhs : g.augmented.rhs item.production = .nonterminal (g.augmented.lhs p) :: rest := by
      rw [remaining_eq_drop, hdot] at hr
      exact hr
    exact mem_openNonterminals.2 ⟨k, hk, id, rest', hr', hedge.descend hg hlt hrhs⟩

/-- **An initial item stands in a state because some item of the state reads its nonterminal next,
or because it belongs to the kernel.** -/
theorem closure_initial (hg : g.WellFormed) (h : item ∈ g.analysis.closure kernel)
    (hk : item ∉ kernel) : item.dot = 0 ∧ ∃ i ∈ g.analysis.closure kernel, ∃ rest,
      g.analysis.remaining i = .nonterminal (g.augmented.lhs item.production) :: rest := by
  rcases (mem_closure hg).1 h with hmem | ⟨hdot, -, hopen⟩
  · exact absurd hmem hk
  refine ⟨hdot, ?_⟩
  obtain ⟨k, hmem, id, rest, hr, hedge⟩ := mem_openNonterminals.1 hopen
  rcases hedge.cases hg with heq | ⟨p, hp, rest', hr', hedge'⟩
  · exact ⟨k, mem_closure_of_mem hmem, rest, by rw [heq]; exact hr⟩
  · refine ⟨⟨p, 0⟩, (mem_closure hg).2 (Or.inr ⟨rfl, hp, ?_⟩), rest', ?_⟩
    · exact mem_openNonterminals.2 ⟨k, hmem, id, rest, hr, hedge'⟩
    · rw [remaining_eq_drop]
      exact hr'

/-- **Nothing else stands in a state**, for a property that holds of its kernel and passes from an
item to those that begin what it reads next. -/
theorem closure_induction {P : Item → Prop} (core : ∀ i ∈ kernel, P i)
    (expand : ∀ i, P i → ∀ p < g.augmented.productions.size, ∀ rest,
      g.analysis.remaining i = .nonterminal (g.augmented.lhs p) :: rest → P ⟨p, 0⟩)
    (hg : g.WellFormed) (h : item ∈ g.analysis.closure kernel) : P item := by
  rcases (mem_closure hg).1 h with hk | ⟨hdot, hlt, hopen⟩
  · exact core item hk
  obtain ⟨i, hi, id, rest, hr, hedge⟩ := mem_openNonterminals.1 hopen
  have hbegin : ∀ p < g.augmented.productions.size,
      g.augmented.lhs p = g.augmented.lhs item.production → P ⟨p, 0⟩ := by
    refine AtLeftEdge.induction (P := fun b x =>
      (∀ p < g.augmented.productions.size, g.augmented.lhs p = b → P ⟨p, 0⟩) →
        ∀ p < g.augmented.productions.size, g.augmented.lhs p = x → P ⟨p, 0⟩) ?_ ?_ hedge ?_
    · exact fun _ _ hall => hall
    · intro q hq id rest hr x hx hall
      refine hx fun p hp hlhs => ?_
      subst hlhs
      refine expand ⟨q, 0⟩ (hall q hq rfl) p hp rest ?_
      rw [remaining_eq_drop]
      exact hr
    · rintro p hp rfl
      exact expand i (core i hi) p hp rest hr
  obtain ⟨production, dot⟩ := item
  obtain rfl : dot = 0 := hdot
  exact hbegin production hlt rfl

end Grammar

end AsmTree
