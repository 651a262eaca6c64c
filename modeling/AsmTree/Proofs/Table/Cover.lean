import AsmTree.Proofs.Table.Bounds

/-!
# Covers

A search for the kernels of a grammar that a proof can compute. **Main statement
(`Chart.explore_covers`):** every kernel that can be reached is among those that the search finds.

A state moves on with a symbol that some item of its kernel reads, or with one that only items of
its nonterminals read. Moves of the second sort depend on the set of these nonterminals alone, so
the search follows them once for each such set.
-/

namespace AsmTree

/-! ## Search trees -/

/-- Lists of values by number. -/
inductive Buckets (α : Type) where
  | leaf
  | node (left : Buckets α) (key : Nat) (bucket : List α) (right : Buckets α)

namespace Buckets

variable {α : Type}

/-- The values of a number. -/
def get (k : Nat) : Buckets α → List α
  | leaf => []
  | node l x b r => bif Nat.beq k x then b else bif Nat.ble k x then get k l else get k r

/-- Adds a value in front of those of a number. -/
def add (k : Nat) (a : α) : Buckets α → Buckets α
  | leaf => node leaf k [a] leaf
  | node l x b r =>
    bif Nat.beq k x then node l x (a :: b) r
    else bif Nat.ble k x then node (add k a l) x b r else node l x b (add k a r)

/-- All numbers with their values. -/
def entries : Buckets α → List (Nat × List α)
  | leaf => []
  | node l x b r => entries l ++ (x, b) :: entries r

theorem get_node (k : Nat) (l : Buckets α) (x : Nat) (b : List α) (r : Buckets α) :
    (node l x b r).get k = if k = x then b else if k ≤ x then l.get k else r.get k := by
  rw [get, cond_eq_ite, cond_eq_ite]
  simp only [Nat.beq_eq, Nat.ble_eq]

theorem add_node (k : Nat) (a : α) (l : Buckets α) (x : Nat) (b : List α) (r : Buckets α) :
    (node l x b r).add k a = if k = x then node l x (a :: b) r
      else if k ≤ x then node (l.add k a) x b r else node l x b (r.add k a) := by
  rw [add, cond_eq_ite, cond_eq_ite]
  simp only [Nat.beq_eq, Nat.ble_eq]

theorem get_add (k m : Nat) (a : α) (t : Buckets α) :
    (t.add k a).get m = if m = k then a :: t.get m else t.get m := by
  induction t with
  | leaf =>
    rw [add, get_node]
    simp [get]
  | node l x b r ihl ihr =>
    rw [add_node, get_node]
    split
    · next hk =>
      subst hk
      rw [get_node]
      split <;> simp_all
    · next hk =>
      split
      · next hle =>
        rw [get_node, ihl]
        split
        · next hm =>
          rw [if_neg (by omega)]
        · split
          · rfl
          · rw [if_neg (by omega)]
      · next hle =>
        rw [get_node, ihr]
        split
        · rw [if_neg (by omega)]
        · split
          · rw [if_neg (by omega)]
          · rfl

theorem mem_entries_of_mem_get {k : Nat} {a : α} {t : Buckets α} (h : a ∈ t.get k) :
    (k, t.get k) ∈ t.entries := by
  induction t with
  | leaf => cases h
  | node l x b r ihl ihr =>
    rw [get_node] at h ⊢
    rw [entries, List.mem_append, List.mem_cons]
    split at h
    · next hk =>
      rw [if_pos hk, hk]
      exact Or.inr (Or.inl rfl)
    · next hk =>
      rw [if_neg hk]
      split at h
      · next hle =>
        rw [if_pos hle]
        exact Or.inl (ihl h)
      · next hle =>
        rw [if_neg hle]
        exact Or.inr (Or.inr (ihr h))

theorem forall_entries_add {P : Nat → α → Prop} {k : Nat} {a : α} {t : Buckets α}
    (h : ∀ e ∈ t.entries, ∀ x ∈ e.2, P e.1 x) (ha : P k a) :
    ∀ e ∈ (t.add k a).entries, ∀ x ∈ e.2, P e.1 x := by
  induction t with
  | leaf => simpa [add, entries] using ha
  | node l x b r ihl ihr =>
    simp only [entries, List.forall_mem_append, List.forall_mem_cons] at h
    rw [add_node]
    split
    · next hk =>
      simp only [entries, List.forall_mem_append, List.forall_mem_cons]
      exact ⟨h.1, ⟨hk ▸ ha, h.2.1⟩, h.2.2⟩
    · split
      · simp only [entries, List.forall_mem_append, List.forall_mem_cons]
        exact ⟨ihl h.1, h.2.1, h.2.2⟩
      · simp only [entries, List.forall_mem_append, List.forall_mem_cons]
        exact ⟨h.1, h.2.1, ihr h.2.2⟩

end Buckets

/-! ## Items with what they read -/

/-- An item with the nonterminal of its production and the numbers of the symbols that are left. -/
structure Dotted where
  production : Nat
  dot : Nat
  lhs : Nat
  rest : List Nat

namespace Dotted

/-- The item itself. -/
def item (d : Dotted) : Item := ⟨d.production, d.dot⟩

/-- The item with one more symbol read. -/
def advance (d : Dotted) : Dotted := ⟨d.production, d.dot + 1, d.lhs, d.rest.tail⟩

/-- Whether the symbol with a number is read next. -/
def reads (x : Nat) (d : Dotted) : Bool :=
  match d.rest with
  | [] => false
  | y :: _ => Nat.beq y x

/-- Whether nothing is left to read. -/
def complete (d : Dotted) : Bool :=
  match d.rest with
  | [] => true
  | _ :: _ => false

/-- Whether an item comes before another. -/
def before (d e : Dotted) : Bool :=
  Nat.blt d.production e.production ||
    (Nat.beq d.production e.production && Nat.blt d.dot e.dot)

/-- Adds an item to a list in order, if it is not there. -/
def insert (d : Dotted) : List Dotted → List Dotted
  | [] => [d]
  | e :: es =>
    bif before d e then d :: e :: es
    else bif before e d then e :: insert d es else e :: es

/-- Whether two lists have the same items. -/
def same : List Dotted → List Dotted → Bool
  | [], [] => true
  | d :: ds, e :: es =>
    Nat.beq d.production e.production && Nat.beq d.dot e.dot && same ds es
  | _, _ => false

/-- A number for a list of items, to find it by. -/
def hash (n : Nat) : List Dotted → Nat
  | [] => Nat.mod (Nat.mul n 2654435761987651) 18446744073709551557
  | d :: ds =>
    strictly (Nat.add (Nat.mul n 32768) (Nat.add (Nat.mul d.production 32) d.dot)) fun n =>
      hash n ds

theorem before_iff {d e : Dotted} : before d e = true ↔ d.item.Before e.item := by
  unfold before Item.Before
  rw [Item.ble_iff]
  simp only [Nat.blt_eq, Nat.beq_eq, Bool.or_eq_true, Bool.and_eq_true, item, ne_eq, Item.mk.injEq]
  omega

theorem item_eq_of_not_before {d e : Dotted} (h : before d e = false) (h' : before e d = false) :
    d.item = e.item := by
  simp only [before, Bool.or_eq_false_iff, Bool.and_eq_false_iff] at h h'
  simp only [item, Item.mk.injEq]
  simp only [← Bool.not_eq_true, Nat.blt_eq, Nat.beq_eq] at h h'
  omega

theorem mem_of_mem_insert {d x : Dotted} {ds : List Dotted} (h : x ∈ insert d ds) :
    x = d ∨ x ∈ ds := by
  induction ds with
  | nil => exact Or.inl (List.mem_singleton.1 h)
  | cons e es ih =>
    rw [insert, cond_eq_ite, cond_eq_ite] at h
    split at h
    · exact List.mem_cons.1 h
    · split at h
      · rcases List.mem_cons.1 h with rfl | h
        · exact Or.inr List.mem_cons_self
        · exact (ih h).imp_right (List.mem_cons_of_mem e)
      · exact Or.inr h

theorem mem_insert_of_mem {d x : Dotted} {ds : List Dotted} (h : x ∈ ds) : x ∈ insert d ds := by
  induction ds with
  | nil => cases h
  | cons e es ih =>
    rw [insert, cond_eq_ite, cond_eq_ite]
    split
    · exact List.mem_cons_of_mem _ h
    · split
      · rcases List.mem_cons.1 h with rfl | h
        · exact List.mem_cons_self
        · exact List.mem_cons_of_mem _ (ih h)
      · exact h

theorem item_mem_insert (d : Dotted) (ds : List Dotted) : d.item ∈ (insert d ds).map item := by
  induction ds with
  | nil => simp [insert]
  | cons e es ih =>
    rw [insert, cond_eq_ite, cond_eq_ite]
    split
    · simp
    · next hde =>
      split
      · exact List.mem_cons_of_mem _ ih
      · next hed =>
        rw [item_eq_of_not_before (by simpa using hde) (by simpa using hed)]
        simp

theorem strict_insert {d : Dotted} {ds : List Dotted} (h : Kernel.Strict (ds.map item)) :
    Kernel.Strict ((insert d ds).map item) := by
  induction ds with
  | nil => exact List.pairwise_singleton _ _
  | cons e es ih =>
    obtain ⟨hhead, htail⟩ := List.pairwise_cons.1 h
    rw [insert, cond_eq_ite, cond_eq_ite]
    split
    · next hde =>
      refine List.Pairwise.cons ?_ h
      intro j hj
      rcases List.mem_cons.1 hj with rfl | hj
      · exact before_iff.1 hde
      · exact (before_iff.1 hde).trans (hhead j hj)
    · split
      · next hed =>
        refine List.Pairwise.cons ?_ (ih htail)
        intro j hj
        obtain ⟨x, hx, rfl⟩ := List.mem_map.1 hj
        rcases mem_of_mem_insert hx with rfl | hx
        · exact before_iff.1 hed
        · exact hhead _ (List.mem_map.2 ⟨x, hx, rfl⟩)
      · exact h

theorem mem_of_mem_foldr_insert {x : Dotted} {l base : List Dotted}
    (h : x ∈ l.foldr insert base) : x ∈ l ∨ x ∈ base := by
  induction l with
  | nil => exact Or.inr h
  | cons d l ih =>
    rcases mem_of_mem_insert h with rfl | h
    · exact Or.inl List.mem_cons_self
    · exact (ih h).imp_left (List.mem_cons_of_mem d)

theorem mem_foldr_insert {x : Dotted} {base : List Dotted} (l : List Dotted) (h : x ∈ base) :
    x ∈ l.foldr insert base := by
  induction l with
  | nil => exact h
  | cons d l ih => exact mem_insert_of_mem ih

theorem item_mem_foldr_insert {d : Dotted} {l : List Dotted} (base : List Dotted) (h : d ∈ l) :
    d.item ∈ (l.foldr insert base).map item := by
  induction l with
  | nil => cases h
  | cons e l ih =>
    rcases List.mem_cons.1 h with rfl | h
    · exact item_mem_insert _ _
    · obtain ⟨x, hx, hxd⟩ := List.mem_map.1 (ih h)
      exact List.mem_map.2 ⟨x, mem_insert_of_mem hx, hxd⟩

theorem strict_foldr_insert {base : List Dotted} (l : List Dotted)
    (h : Kernel.Strict (base.map item)) : Kernel.Strict ((l.foldr insert base).map item) := by
  induction l with
  | nil => exact h
  | cons d l ih => exact strict_insert ih

theorem items_eq_of_same {ds es : List Dotted} (h : same ds es = true) :
    ds.map item = es.map item := by
  induction ds generalizing es with
  | nil =>
    cases es with
    | nil => rfl
    | cons e es => cases h
  | cons d ds ih =>
    cases es with
    | nil => cases h
    | cons e es =>
      simp only [same, Bool.and_eq_true, Nat.beq_eq] at h
      rw [List.map_cons, List.map_cons, ih h.2, item, item, h.1.1, h.1.2]

end Dotted

/-! ## Charts -/

/-- What the search needs to know of a grammar. -/
structure Chart where
  /-- The initial items of all productions, in order. -/
  initial : List Dotted
  /-- Initial items by the first symbol that they read. -/
  byHead : Buckets Dotted
  /-- For each nonterminal those at its left edge. -/
  edges : Nat
  /-- For each nonterminal the tokens that may follow it. -/
  follow : Nat
  /-- Tokens without precedence, recovered regions aside. -/
  unsettled : Nat
  /-- Whether a production has a precedence level. -/
  leveled : Nat → Bool

namespace Chart

variable (c : Chart)

/-- The items of some nonterminals. -/
def within (o : Nat) (ds : List Dotted) : List Dotted := ds.filter fun d => hasBit o d.lhs

/-- The nonterminals that may begin where items stand, and those of `o`. -/
def opens (o : Nat) : List Dotted → Nat
  | [] => o
  | d :: ds =>
    match d.rest with
    | [] => opens o ds
    | x :: _ =>
      bif isNonterminal x then strictly (Nat.lor o (setAt c.edges (half x))) fun o => opens o ds
      else opens o ds

/-- The items behind a symbol: of some items, and of initial items of the nonterminals `o`. -/
def behind (o : Nat) (ds : List Dotted) (x : Nat) : List Dotted :=
  ((ds.filter (Dotted.reads x)).map Dotted.advance).foldr Dotted.insert
    ((within o (c.byHead.get x)).map Dotted.advance)

/-- What follows behind each symbol that some items read. -/
def targets (o : Nat) (ds : List Dotted) : List (List Dotted) :=
  ds.filterMap fun d => d.rest.head?.map (c.behind o ds)

/-- What follows behind each symbol that initial items of some nonterminals read. -/
def openTargets (o : Nat) : List (List Dotted) :=
  c.byHead.entries.filterMap fun (_, ds) =>
    match within o ds with
    | [] => none
    | d :: ds => some ((d :: ds).map Dotted.advance)

/-- Tokens that items read, and those of `acc`. -/
def heads (acc : Nat) : List Dotted → Nat
  | [] => acc
  | d :: ds =>
    match d.rest with
    | [] => heads acc ds
    | x :: _ =>
      bif isNonterminal x then heads acc ds
      else strictly (Nat.lor acc (Nat.shiftLeft 1 (half x))) fun acc => heads acc ds

/-- Whether no token may follow two of the items. -/
def apart : List Dotted → Bool
  | [] => true
  | d :: ds =>
    ds.all (fun e => Nat.beq (Nat.land (setAt c.follow d.lhs) (setAt c.follow e.lhs)) 0) &&
      apart ds

/-- Whether precedence decides between a complete item and the tokens that may be read. -/
def settles (shifts : Nat) (d : Dotted) : Bool :=
  strictly (Nat.land (setAt c.follow d.lhs) shifts) fun both =>
    Nat.beq both 0 || (c.leveled d.production && Nat.beq (Nat.land both c.unsettled) 0)

/-- The complete items of a state. -/
def completed (o : Nat) (ds : List Dotted) : List Dotted :=
  ds.filter Dotted.complete ++ within o (c.initial.filter Dotted.complete)

/-- The tokens that a state reads. -/
def shifts (o : Nat) (ds : List Dotted) : Nat :=
  heads (bif Nat.beq o 0 then 0 else heads 0 (within o c.initial)) ds

/-- Whether a state has no conflict. -/
def settled (o : Nat) (ds : List Dotted) : Bool :=
  match c.completed o ds with
  | [] => true
  | d :: rest =>
    c.apart (d :: rest) && strictly (c.shifts o ds) fun shifts =>
      (d :: rest).all (c.settles shifts)

/-- Searches for kernels, `todo` first. `done` have been found and followed, `seen` has them by
number, and the symbols of `opened` have been followed. The search fails at a conflict. -/
def explore : Nat → List (List Dotted) → List (List Dotted) → Buckets (List Dotted) → List Nat →
    Option (List (List Dotted))
  | _, [], done, _, _ => some done
  | 0, _ :: _, _, _, _ => none
  | fuel + 1, ds :: todo, done, seen, opened =>
    strictly (Dotted.hash 1 ds) fun k =>
      bif (seen.get k).any (Dotted.same ds) then explore fuel todo done seen opened
      else strictly (c.opens 0 ds) fun o =>
        bif c.settled o ds then
          bif opened.any (Nat.beq o) then
            explore fuel (c.targets o ds ++ todo) (ds :: done) (seen.add k ds) opened
          else
            explore fuel (c.targets o ds ++ (c.openTargets o ++ todo)) (ds :: done)
              (seen.add k ds) (o :: opened)
        else none

end Chart

/-! ## Charts of grammars -/

/-- The initial items of coded productions, the first of them production `n`. -/
def initialItems : Nat → List (Nat × List Nat) → List Dotted
  | _, [] => []
  | n, (lhs, rhs) :: ps => ⟨n, 0, lhs, rhs⟩ :: initialItems (n + 1) ps

/-- Adds an item to those that read the same symbol. -/
def addByHead (d : Dotted) (b : Buckets Dotted) : Buckets Dotted :=
  match d.rest with
  | [] => b
  | x :: _ => b.add x d

/-- Adds what stands at the left edge of the first symbol of each production. -/
def widenEdges : List (Nat × List Nat) → Nat → Nat
  | [], e => e
  | (_, []) :: ps, e => widenEdges ps e
  | (lhs, x :: _) :: ps, e =>
    bif isNonterminal x then strictly (widen e lhs (setAt e (half x))) (widenEdges ps)
    else widenEdges ps e

/-- Each of `n` nonterminals stands at its own left edge. -/
def ownEdges : Nat → Nat
  | 0 => 0
  | n + 1 => strictly (ownEdges n) fun e => widen e n (Nat.shiftLeft 1 n)

/-- Whether nothing is missing at the left edges of `n` nonterminals. -/
def edgesClosed (ps : List (Nat × List Nat)) (n e : Nat) : Bool :=
  (List.range n).all (fun id => hasBit (setAt e id) id) &&
    ps.all fun p => match p.2 with
      | [] => true
      | x :: _ => !isNonterminal x || subset (setAt e (half x)) (setAt e p.1)

namespace Grammar

/-- Tokens without precedence, recovered regions aside. -/
def unsettled (g : Grammar) : Nat :=
  Kind.tokens.foldl (fun n k =>
    if k ≠ .error ∧ g.tokenPrecedence? k = none then Nat.lor n (Nat.shiftLeft 1 k.index) else n) 0

/-- The chart of a grammar, with left edges after some rounds. -/
def chart (g : Grammar) (b : Bounds) (n : Nat) : Chart where
  initial := initialItems 0 g.coded
  byHead := (initialItems 0 g.coded).foldr addByHead .leaf
  edges := rounds (widenEdges g.coded) n (ownEdges g.augmented.nonterminalCount)
  follow := b.follow
  unsettled := g.unsettled
  leveled p := (g.productions[p]?.bind g.productionLevel?).isSome

/-- An item with what it reads. -/
def dotted (g : Grammar) (i : Item) : Dotted :=
  ⟨i.production, i.dot, g.augmented.lhs i.production, (g.analysis.remaining i).map Symbol.code⟩

variable {g : Grammar}

@[simp] theorem item_dotted (i : Item) : (g.dotted i).item = i := rfl

theorem map_item_dotted (kernel : Kernel) : (kernel.map g.dotted).map Dotted.item = kernel := by
  rw [List.map_map]
  exact List.map_id _

theorem dotted_advance {i : Item} {s : Symbol} (h : (g.analysis.remaining i).head? = some s) :
    (g.dotted i).advance = g.dotted i.advance := by
  obtain ⟨rest, hr⟩ := List.head?_eq_some_iff.1 h
  simp only [dotted, Dotted.advance, remaining_advance hr, hr, List.map_cons, List.tail_cons]
  rfl

theorem reads_dotted {i : Item} {s : Symbol} :
    (g.dotted i).reads s.code = true ↔ (g.analysis.remaining i).head? = some s := by
  unfold Dotted.reads dotted
  cases hr : g.analysis.remaining i with
  | nil => simp
  | cons s' rest =>
    rw [List.map_cons, List.head?_cons, Option.some.injEq]
    show Nat.beq s'.code s.code = true ↔ _
    rw [Nat.beq_eq]
    exact ⟨Symbol.code_inj, fun h => h ▸ rfl⟩

theorem complete_dotted {i : Item} :
    (g.dotted i).complete = true ↔ g.analysis.remaining i = [] := by
  unfold Dotted.complete dotted
  cases g.analysis.remaining i <;> simp

/-! ### Initial items -/

theorem getElem?_initialItems (ps : List (Nat × List Nat)) (n p : Nat) :
    (initialItems n ps)[p]? = ps[p]?.map fun q => ⟨n + p, 0, q.1, q.2⟩ := by
  induction ps generalizing n p with
  | nil => rfl
  | cons q ps ih =>
    cases p with
    | zero => rfl
    | succ p =>
      rw [initialItems, List.getElem?_cons_succ, List.getElem?_cons_succ, ih, Nat.add_right_comm,
        Nat.add_assoc]

theorem initialItems_coded (g : Grammar) : initialItems 0 g.coded =
    (List.range g.augmented.productions.size).map fun p => g.dotted ⟨p, 0⟩ := by
  refine List.ext_getElem? fun p => ?_
  rw [getElem?_initialItems, List.getElem?_map]
  by_cases hp : p < g.augmented.productions.size
  · rw [getElem?_coded hp, List.getElem?_range hp]
    simp [dotted, remaining_eq_drop]
  · have hlen : g.coded.length = g.augmented.productions.size := by simp [coded]
    rw [List.getElem?_eq_none (by omega), List.getElem?_eq_none (by simpa using hp)]
    rfl

theorem mem_initialItems {d : Dotted} : d ∈ initialItems 0 g.coded ↔
    ∃ p < g.augmented.productions.size, d = g.dotted ⟨p, 0⟩ := by
  rw [initialItems_coded, List.mem_map]
  simp only [List.mem_range, eq_comm]

theorem strict_initialItems (g : Grammar) :
    Kernel.Strict ((initialItems 0 g.coded).map Dotted.item) := by
  rw [initialItems_coded, List.map_map, Kernel.Strict, List.pairwise_map]
  refine List.pairwise_lt_range.imp fun {a b} hab => ?_
  refine ⟨Item.ble_iff.2 (Or.inl hab), fun he => ?_⟩
  exact absurd (congrArg Item.production he) (Nat.ne_of_lt hab)

theorem get_foldr_addByHead (x : Nat) (ds : List Dotted) :
    (ds.foldr addByHead .leaf).get x = ds.filter (Dotted.reads x) := by
  induction ds with
  | nil => rfl
  | cons d ds ih =>
    rw [List.foldr_cons, addByHead, List.filter_cons, Dotted.reads]
    split
    · simpa using ih
    · next y rest hr =>
      rw [Buckets.get_add, ih]
      by_cases hxy : x = y
      · subst hxy
        simp
      · rw [if_neg hxy, if_neg]
        simpa using Ne.symm hxy

/-! ### Left edges -/

theorem mem_coded_iff {q : Nat × List Nat} : q ∈ g.coded ↔
    ∃ p < g.augmented.productions.size,
      q = (g.augmented.lhs p, (g.augmented.rhs p).map Symbol.code) := by
  constructor
  · intro h
    obtain ⟨p, hp⟩ := List.getElem?_of_mem h
    have hlt : p < g.augmented.productions.size := by
      have hlen := (List.getElem?_eq_some_iff.1 hp).1
      simpa [coded] using hlen
    rw [getElem?_coded hlt] at hp
    exact ⟨p, hlt, (Option.some.inj hp).symm⟩
  · rintro ⟨p, hp, rfl⟩
    exact mem_coded hp

/-- Whatever the sets say of left edges is so. -/
def EdgesSound (g : Grammar) (e : Nat) : Prop :=
  ∀ b x, (setAt e b).testBit x = true → g.AtLeftEdge x b

theorem edgesSound_own (g : Grammar) : g.EdgesSound (ownEdges g.augmented.nonterminalCount) := by
  have hown : ∀ n b x, (setAt (ownEdges n) b).testBit x = true → b < n ∧ x = b := by
    intro n b x h
    induction n with
    | zero => simp [ownEdges, testBit_setAt] at h
    | succ n ih =>
      rw [ownEdges, strictly_eq] at h
      rcases testBit_widen h with h | ⟨rfl, h⟩
      · exact ⟨Nat.lt_succ_of_lt (ih h).1, (ih h).2⟩
      · have heq : (1 <<< b).testBit x = true := h
        rw [Nat.shiftLeft_eq, Nat.one_mul, Nat.testBit_two_pow] at heq
        exact ⟨Nat.lt_succ_self b, (of_decide_eq_true heq).symm⟩
  intro b x h
  obtain ⟨hlt, rfl⟩ := hown _ b x h
  exact atLeftEdge_self hlt

theorem edgesSound_widen (hg : g.WellFormed) {ps : List (Nat × List Nat)}
    (hps : ∀ q ∈ ps, q ∈ g.coded) {e : Nat} (he : g.EdgesSound e) :
    g.EdgesSound (widenEdges ps e) := by
  induction ps generalizing e with
  | nil => exact he
  | cons q ps ih =>
    have htail := fun q hq => hps q (List.mem_cons_of_mem _ hq)
    obtain ⟨p, hp, rfl⟩ := mem_coded_iff.1 (hps q List.mem_cons_self)
    cases hr : g.augmented.rhs p with
    | nil => exact ih htail he
    | cons s rest =>
      rw [List.map_cons, widenEdges, strictly_eq]
      cases s with
      | terminal k =>
        rw [isNonterminal_terminal]
        exact ih htail he
      | nonterminal id =>
        rw [isNonterminal_nonterminal, half_nonterminal]
        refine ih htail fun b x hbx => ?_
        rcases testBit_widen hbx with hold | ⟨rfl, hnew⟩
        · exact he b x hold
        · exact AtLeftEdge.link hg hp hr (he id x hnew)

theorem edgesSound_chart (hg : g.WellFormed) (b : Bounds) (n : Nat) :
    g.EdgesSound (g.chart b n).edges := by
  have hrounds : ∀ n e, g.EdgesSound e → g.EdgesSound (rounds (widenEdges g.coded) n e) := by
    intro n
    induction n with
    | zero => exact fun e he => he
    | succ n ih => exact fun e he => ih _ (edgesSound_widen hg (fun q hq => hq) he)
  exact hrounds n _ (edgesSound_own g)

/-- Sets from which nothing is missing have everything that stands at a left edge. -/
theorem testBit_of_atLeftEdge {e : Nat}
    (h : edgesClosed g.coded g.augmented.nonterminalCount e = true) {x b : Nat}
    (hx : g.AtLeftEdge x b) : (setAt e b).testBit x = true := by
  rw [edgesClosed, Bool.and_eq_true, List.all_eq_true, List.all_eq_true] at h
  refine AtLeftEdge.induction (P := fun b x => (setAt e b).testBit x = true) ?_ ?_ hx
  · intro id hid
    rw [← hasBit_eq]
    exact h.1 id (List.mem_range.2 hid)
  · intro p hp id rest hr x hx
    have hsub := h.2 _ (mem_coded hp)
    rw [hr, List.map_cons] at hsub
    dsimp only at hsub
    rw [isNonterminal_nonterminal, half_nonterminal, Bool.not_true, Bool.false_or] at hsub
    exact testBit_of_subset hsub hx

/-! ### Moves -/

/-- Items with what the grammar says that they read. -/
def Faithful (g : Grammar) (ds : List Dotted) : Prop := ∀ d ∈ ds, d = g.dotted d.item

theorem faithful_map (kernel : Kernel) : g.Faithful (kernel.map g.dotted) := by
  intro d hd
  obtain ⟨i, -, rfl⟩ := List.mem_map.1 hd
  rfl

theorem Faithful.eq_map {ds : List Dotted} (h : g.Faithful ds) :
    ds = (ds.map Dotted.item).map g.dotted := by
  rw [List.map_map]
  conv_lhs => rw [← List.map_id ds]
  exact List.map_congr_left h

theorem Faithful.eq_of_same {ds es : List Dotted} (hd : g.Faithful ds) (he : g.Faithful es)
    (h : Dotted.same ds es = true) : ds = es := by
  rw [hd.eq_map, he.eq_map, Dotted.items_eq_of_same h]

variable {b : Bounds} {n : Nat} {kernel : Kernel}

theorem hasBit_opens (hg : g.WellFormed)
    (he : edgesClosed g.coded g.augmented.nonterminalCount (g.chart b n).edges = true) (x : Nat) :
    hasBit ((g.chart b n).opens 0 (kernel.map g.dotted)) x = true ↔
      x ∈ g.analysis.openNonterminals kernel := by
  have hopens : ∀ o, ((g.chart b n).opens o (kernel.map g.dotted)).testBit x = true ↔
      o.testBit x = true ∨ ∃ item ∈ kernel, ∃ id rest,
        g.analysis.remaining item = .nonterminal id :: rest ∧ g.AtLeftEdge x id := by
    induction kernel with
    | nil => intro o; simp [Chart.opens]
    | cons i kernel ih =>
      intro o
      rw [List.map_cons, Chart.opens, List.exists_mem_cons_iff]
      cases hr : g.analysis.remaining i with
      | nil => simp [dotted, hr, ih]
      | cons s rest =>
        simp only [dotted, hr, List.map_cons, strictly_eq]
        cases s with
        | terminal k =>
          rw [isNonterminal_terminal]
          simp [ih]
        | nonterminal id =>
          rw [isNonterminal_nonterminal, half_nonterminal, cond_true, ih]
          have hor : (Nat.lor o (setAt (g.chart b n).edges id)).testBit x =
              (o.testBit x || (setAt (g.chart b n).edges id).testBit x) := Nat.testBit_or ..
          rw [hor, Bool.or_eq_true, or_assoc]
          refine or_congr_right (or_congr_left ?_)
          constructor
          · exact fun hx => ⟨id, rest, rfl, edgesSound_chart hg b n id x hx⟩
          · rintro ⟨id', rest', heq, hx⟩
            cases heq
            exact testBit_of_atLeftEdge he hx
  rw [hasBit_eq, hopens, mem_openNonterminals]
  simp

/-- The nonterminals that may begin in the state of a kernel. -/
abbrev opens (g : Grammar) (b : Bounds) (n : Nat) (kernel : Kernel) : Nat :=
  (g.chart b n).opens 0 (kernel.map g.dotted)

variable (hg : g.WellFormed)
  (he : edgesClosed g.coded g.augmented.nonterminalCount (g.chart b n).edges = true)

include hg he

theorem mem_closure_iff_opens {i : Item} : i ∈ g.analysis.closure kernel ↔ i ∈ kernel ∨
    (i.dot = 0 ∧ i.production < g.augmented.productions.size ∧
      hasBit (g.opens b n kernel) (g.augmented.lhs i.production) = true) := by
  rw [mem_closure hg, hasBit_opens hg he]

omit hg he in
theorem mem_within_get {o : Nat} {s : Symbol} {d : Dotted} :
    d ∈ Chart.within o ((g.chart b n).byHead.get s.code) ↔
      ∃ p < g.augmented.productions.size, d = g.dotted ⟨p, 0⟩ ∧
        (g.analysis.remaining ⟨p, 0⟩).head? = some s ∧
        hasBit o (g.augmented.lhs p) = true := by
  have hget : (g.chart b n).byHead.get s.code =
      (initialItems 0 g.coded).filter (Dotted.reads s.code) := get_foldr_addByHead _ _
  rw [Chart.within, hget, List.mem_filter, List.mem_filter, mem_initialItems]
  constructor
  · rintro ⟨⟨⟨p, hp, rfl⟩, hreads⟩, ho⟩
    exact ⟨p, hp, rfl, reads_dotted.1 hreads, ho⟩
  · rintro ⟨p, hp, rfl, hreads, ho⟩
    exact ⟨⟨⟨p, hp, rfl⟩, reads_dotted.2 hreads⟩, ho⟩

omit hg he in
theorem strict_within_get (o : Nat) (x : Nat) : Kernel.Strict
    (((Chart.within o ((g.chart b n).byHead.get x)).map Dotted.advance).map Dotted.item) := by
  have hget : (g.chart b n).byHead.get x = (initialItems 0 g.coded).filter (Dotted.reads x) :=
    get_foldr_addByHead _ _
  have hsub : ((Chart.within o ((g.chart b n).byHead.get x)).map Dotted.item).Sublist
      ((initialItems 0 g.coded).map Dotted.item) := by
    rw [Chart.within, hget]
    exact (List.filter_sublist.trans List.filter_sublist).map _
  have hstrict := (strict_initialItems g).sublist hsub
  rw [List.map_map, Kernel.Strict, List.pairwise_map]
  rw [List.pairwise_map] at hstrict
  refine hstrict.imp fun {d e} hde => ?_
  have hble := Item.ble_iff.1 hde.1
  refine ⟨Item.ble_iff.2 ?_, fun heq => hde.2 ?_⟩
  · exact hble.imp id fun h => ⟨h.1, Nat.succ_le_succ h.2⟩
  · have hprod := congrArg Item.production heq
    have hdot := congrArg Item.dot heq
    simp only [Function.comp_apply, Dotted.item, Dotted.advance, Item.mk.injEq] at hprod hdot ⊢
    omega

omit hg he in
theorem mem_advanced {s : Symbol} {d : Dotted} :
    d ∈ ((kernel.map g.dotted).filter (Dotted.reads s.code)).map Dotted.advance ↔
      ∃ i ∈ kernel, (g.analysis.remaining i).head? = some s ∧ d = g.dotted i.advance := by
  rw [List.mem_map]
  constructor
  · rintro ⟨x, hx, rfl⟩
    obtain ⟨hmem, hreads⟩ := List.mem_filter.1 hx
    obtain ⟨i, hi, rfl⟩ := List.mem_map.1 hmem
    exact ⟨i, hi, reads_dotted.1 hreads, dotted_advance (reads_dotted.1 hreads)⟩
  · rintro ⟨i, hi, hs, rfl⟩
    refine ⟨g.dotted i, List.mem_filter.2 ⟨List.mem_map.2 ⟨i, hi, rfl⟩, reads_dotted.2 hs⟩, ?_⟩
    exact dotted_advance hs

omit hg he in
theorem mem_advanced_within {o : Nat} {s : Symbol} {d : Dotted} :
    d ∈ (Chart.within o ((g.chart b n).byHead.get s.code)).map Dotted.advance ↔
      ∃ p < g.augmented.productions.size, (g.analysis.remaining ⟨p, 0⟩).head? = some s ∧
        hasBit o (g.augmented.lhs p) = true ∧ d = g.dotted (Item.advance ⟨p, 0⟩) := by
  rw [List.mem_map]
  constructor
  · rintro ⟨x, hx, rfl⟩
    obtain ⟨p, hp, rfl, hs, ho⟩ := mem_within_get.1 hx
    exact ⟨p, hp, hs, ho, dotted_advance hs⟩
  · rintro ⟨p, hp, hs, ho, rfl⟩
    exact ⟨g.dotted ⟨p, 0⟩, mem_within_get.2 ⟨p, hp, rfl, hs, ho⟩, dotted_advance hs⟩

/-- **What the chart says to be behind a symbol is the kernel behind that symbol.** -/
theorem behind_spec (kernel : Kernel) (s : Symbol) : ∃ target : Kernel,
    (g.chart b n).behind (g.opens b n kernel) (kernel.map g.dotted) s.code =
      target.map g.dotted ∧ target.Strict ∧
    ∀ j, j ∈ target ↔ ∃ i ∈ g.analysis.closure kernel,
      (g.analysis.remaining i).head? = some s ∧ j = i.advance := by
  have hmem : ∀ d ∈ (g.chart b n).behind (g.opens b n kernel) (kernel.map g.dotted) s.code,
      ∃ i ∈ g.analysis.closure kernel, (g.analysis.remaining i).head? = some s ∧
        d = g.dotted i.advance := by
    intro d hd
    rcases Dotted.mem_of_mem_foldr_insert hd with hd | hd
    · obtain ⟨i, hi, hs, rfl⟩ := mem_advanced.1 hd
      exact ⟨i, mem_closure_of_mem hi, hs, rfl⟩
    · obtain ⟨p, hp, hs, ho, rfl⟩ := mem_advanced_within.1 hd
      exact ⟨⟨p, 0⟩, (mem_closure_iff_opens hg he).2 (Or.inr ⟨rfl, hp, ho⟩), hs, rfl⟩
  refine ⟨_, Faithful.eq_map fun d hd => ?_,
    Dotted.strict_foldr_insert _ (strict_within_get _ _), fun j => ⟨fun hj => ?_, ?_⟩⟩
  · obtain ⟨i, -, -, rfl⟩ := hmem d hd
    rfl
  · obtain ⟨d, hd, rfl⟩ := List.mem_map.1 hj
    obtain ⟨i, hi, hs, rfl⟩ := hmem d hd
    exact ⟨i, hi, hs, rfl⟩
  · rintro ⟨i, hi, hs, rfl⟩
    rcases (mem_closure_iff_opens hg he).1 hi with hk | ⟨hdot, hp, ho⟩
    · exact Dotted.item_mem_foldr_insert (d := g.dotted i.advance) _
        (mem_advanced.2 ⟨i, hk, hs, rfl⟩)
    · obtain ⟨p, dot⟩ := i
      obtain rfl : dot = 0 := hdot
      exact List.mem_map.2 ⟨_, Dotted.mem_foldr_insert _
        (mem_advanced_within.2 ⟨p, hp, hs, ho, rfl⟩), rfl⟩

/-- A symbol that a state reads is followed, from its items or from those of its nonterminals. -/
theorem behind_mem {s : Symbol} {i : Item} (hi : i ∈ g.analysis.closure kernel)
    (hs : (g.analysis.remaining i).head? = some s) :
    (g.chart b n).behind (g.opens b n kernel) (kernel.map g.dotted) s.code ∈
        (g.chart b n).targets (g.opens b n kernel) (kernel.map g.dotted) ∨
      (g.chart b n).behind (g.opens b n kernel) (kernel.map g.dotted) s.code ∈
        (g.chart b n).openTargets (g.opens b n kernel) := by
  by_cases hread : ∃ k ∈ kernel, (g.analysis.remaining k).head? = some s
  · obtain ⟨k, hk, hks⟩ := hread
    refine Or.inl (List.mem_filterMap.2 ⟨g.dotted k, List.mem_map.2 ⟨k, hk, rfl⟩, ?_⟩)
    obtain ⟨rest, hr⟩ := List.head?_eq_some_iff.1 hks
    simp [dotted, hr]
  · right
    have hnone : (kernel.map g.dotted).filter (Dotted.reads s.code) = [] := by
      rw [List.filter_eq_nil_iff]
      intro d hd hreads
      obtain ⟨k, hk, rfl⟩ := List.mem_map.1 hd
      exact hread ⟨k, hk, reads_dotted.1 hreads⟩
    rw [Chart.behind, hnone, List.map_nil, List.foldr_nil]
    rcases (mem_closure_iff_opens hg he).1 hi with hk | ⟨hdot, hp, ho⟩
    · exact absurd ⟨i, hk, hs⟩ hread
    · obtain ⟨p, dot⟩ := i
      obtain rfl : dot = 0 := hdot
      have hin : g.dotted ⟨p, 0⟩ ∈ Chart.within (g.opens b n kernel)
          ((g.chart b n).byHead.get s.code) := mem_within_get.2 ⟨p, hp, rfl, hs, ho⟩
      refine List.mem_filterMap.2
        ⟨_, Buckets.mem_entries_of_mem_get (List.mem_filter.1 hin).1, ?_⟩
      dsimp only
      split
      · next hnil =>
        rw [hnil] at hin
        cases hin
      · next d ds hcons => rw [hcons]

/-! ### The search -/

omit hg he in
theorem mem_entries_byHead : ∀ e ∈ (g.chart b n).byHead.entries, ∀ d ∈ e.2,
    d ∈ initialItems 0 g.coded ∧ d.reads e.1 = true := by
  have hfold : ∀ ds : List Dotted, (∀ d ∈ ds, d ∈ initialItems 0 g.coded) →
      ∀ e ∈ (ds.foldr addByHead .leaf).entries, ∀ d ∈ e.2,
        d ∈ initialItems 0 g.coded ∧ d.reads e.1 = true := by
    intro ds
    induction ds with
    | nil => intro _ e he; cases he
    | cons d ds ih =>
      intro hds
      have htail := ih fun x hx => hds x (List.mem_cons_of_mem _ hx)
      rw [List.foldr_cons, addByHead]
      split
      · exact htail
      · next x rest hr =>
        refine Buckets.forall_entries_add
          (P := fun x d => d ∈ initialItems 0 g.coded ∧ d.reads x = true) htail
          ⟨hds d List.mem_cons_self, ?_⟩
        simp [Dotted.reads, hr]
  exact hfold _ fun d hd => hd

omit hg he in
theorem faithful_openTargets {o : Nat} {t : List Dotted}
    (h : t ∈ (g.chart b n).openTargets o) : g.Faithful t := by
  obtain ⟨⟨x, ds⟩, hentry, ht⟩ := List.mem_filterMap.1 h
  have hwithin : t = (Chart.within o ds).map Dotted.advance := by
    dsimp only at ht
    split at ht
    · cases ht
    · next d ds' hcons =>
      rw [hcons]
      exact (Option.some.inj ht).symm
  subst hwithin
  intro d hd
  obtain ⟨e, he, rfl⟩ := List.mem_map.1 hd
  obtain ⟨hinitial, hreads⟩ := mem_entries_byHead _ hentry e (List.mem_filter.1 he).1
  obtain ⟨p, -, rfl⟩ := mem_initialItems.1 hinitial
  cases hr : g.analysis.remaining ⟨p, 0⟩ with
  | nil => simp [Dotted.reads, dotted, hr] at hreads
  | cons s rest =>
    rw [dotted_advance (s := s) (by rw [hr]; rfl)]
    rfl

theorem faithful_targets {t : List Dotted}
    (h : t ∈ (g.chart b n).targets (g.opens b n kernel) (kernel.map g.dotted)) :
    g.Faithful t := by
  obtain ⟨d, hd, ht⟩ := List.mem_filterMap.1 h
  obtain ⟨i, -, rfl⟩ := List.mem_map.1 hd
  cases hr : g.analysis.remaining i with
  | nil => simp [dotted, hr] at ht
  | cons s rest =>
    simp only [dotted, hr, List.map_cons, List.head?_cons, Option.map_some,
      Option.some.injEq] at ht
    obtain ⟨target, htarget, -⟩ := behind_spec hg he kernel s
    rw [← ht, htarget]
    exact faithful_map target

omit hg he

/-- Kernels that have been followed lead to others that have been found. -/
structure Followed (g : Grammar) (b : Bounds) (n : Nat) (done todo : List (List Dotted))
    (passed : List Nat) : Prop where
  faithful : ∀ ds ∈ done ++ todo, g.Faithful ds
  settled : ∀ ds ∈ done, (g.chart b n).settled ((g.chart b n).opens 0 ds) ds = true
  opened : ∀ ds ∈ done, (g.chart b n).opens 0 ds ∈ passed
  targets : ∀ ds ∈ done, ∀ t ∈ (g.chart b n).targets ((g.chart b n).opens 0 ds) ds,
    t ∈ done ++ todo
  openTargets : ∀ o ∈ passed, ∀ t ∈ (g.chart b n).openTargets o, t ∈ done ++ todo

variable {done todo found : List (List Dotted)} {opened : List Nat} {ds : List Dotted}

/-- A kernel that has been found before is dropped. -/
theorem Followed.drop (h : g.Followed b n done (ds :: todo) opened) (hds : ds ∈ done) :
    g.Followed b n done todo opened := by
  have hmem : ∀ t ∈ done ++ ds :: todo, t ∈ done ++ todo := by
    intro t ht
    rw [List.mem_append, List.mem_cons] at ht
    rcases ht with ht | rfl | ht
    · exact List.mem_append_left _ ht
    · exact List.mem_append_left _ hds
    · exact List.mem_append_right _ ht
  refine ⟨fun t ht => h.faithful t ?_, h.settled, h.opened,
    fun x hx t ht => hmem t (h.targets x hx t ht),
    fun o ho t ht => hmem t (h.openTargets o ho t ht)⟩
  rw [List.mem_append, List.mem_cons]
  exact (List.mem_append.1 ht).imp_right Or.inr

include hg he in
/-- A kernel is followed: its moves are added, and those of its nonterminals if they are new. -/
theorem Followed.follow (h : g.Followed b n done (ds :: todo) opened)
    (hsettled : (g.chart b n).settled ((g.chart b n).opens 0 ds) ds = true)
    (more : List (List Dotted)) (opened' : List Nat)
    (hopened : ∀ o, o ∈ opened' ↔ o = (g.chart b n).opens 0 ds ∨ o ∈ opened)
    (hmore : ∀ t ∈ more, g.Faithful t)
    (hopen : (g.chart b n).opens 0 ds ∈ opened ∨
      ∀ t ∈ (g.chart b n).openTargets ((g.chart b n).opens 0 ds), t ∈ more) :
    g.Followed b n (ds :: done)
      ((g.chart b n).targets ((g.chart b n).opens 0 ds) ds ++ (more ++ todo)) opened' := by
  have hfaith : g.Faithful ds := h.faithful ds (by simp)
  have hold : ∀ t ∈ done ++ ds :: todo, t ∈ ds :: done ++
      ((g.chart b n).targets ((g.chart b n).opens 0 ds) ds ++ (more ++ todo)) := by
    intro t ht
    simp only [List.mem_append, List.mem_cons] at ht ⊢
    tauto
  constructor
  · intro t ht
    simp only [List.mem_append, List.mem_cons] at ht
    rcases ht with (rfl | ht) | ht | ht | ht
    · exact hfaith
    · exact h.faithful t (by simp [ht])
    · rw [hfaith.eq_map] at ht
      exact faithful_targets hg he ht
    · exact hmore t ht
    · exact h.faithful t (by simp [ht])
  · intro x hx
    rcases List.mem_cons.1 hx with rfl | hx
    · exact hsettled
    · exact h.settled x hx
  · intro x hx
    rcases List.mem_cons.1 hx with rfl | hx
    · exact (hopened _).2 (Or.inl rfl)
    · exact (hopened _).2 (Or.inr (h.opened x hx))
  · intro x hx t ht
    rcases List.mem_cons.1 hx with rfl | hx
    · exact List.mem_append_right _ (List.mem_append_left _ ht)
    · exact hold t (h.targets x hx t ht)
  · intro o ho t ht
    rcases (hopened o).1 ho with rfl | ho
    · rcases hopen with hin | hall
      · exact hold t (h.openTargets _ hin t ht)
      · exact List.mem_append_right _ (List.mem_append_right _ (List.mem_append_left _ (hall t ht)))
    · exact hold t (h.openTargets o ho t ht)

/-- A kernel that is noted as seen has been followed. -/
theorem mem_of_get_add {seen : Buckets (List Dotted)} (ds : List Dotted)
    (hseen : ∀ k, ∀ x ∈ seen.get k, x ∈ done) :
    ∀ k, ∀ x ∈ (seen.add (Dotted.hash 1 ds) ds).get k, x ∈ ds :: done := by
  intro k x hx
  rw [Buckets.get_add] at hx
  split at hx
  · rcases List.mem_cons.1 hx with rfl | hx
    · exact List.mem_cons_self
    · exact List.mem_cons_of_mem _ (hseen k x hx)
  · exact List.mem_cons_of_mem _ (hseen k x hx)

theorem mem_found {rest : List (List Dotted)} (hfound : ∀ t ∈ ds :: done ++ rest, t ∈ found)
    (hrest : ∀ t ∈ todo, t ∈ rest) : ∀ t ∈ done ++ ds :: todo, t ∈ found := by
  intro t ht
  refine hfound t ?_
  simp only [List.mem_append, List.mem_cons] at ht ⊢
  rcases ht with ht | rfl | ht
  · exact Or.inl (Or.inr ht)
  · exact Or.inl (Or.inl rfl)
  · exact Or.inr (hrest t ht)

include hg he in
/-- Kernels that have been followed stay so to the end of the search, and none is lost. -/
theorem explore_followed {fuel : Nat} {seen : Buckets (List Dotted)}
    (hexplore : (g.chart b n).explore fuel todo done seen opened = some found)
    (h : g.Followed b n done todo opened) (hseen : ∀ k, ∀ x ∈ seen.get k, x ∈ done) :
    (∃ opened', g.Followed b n found [] opened') ∧ ∀ t ∈ done ++ todo, t ∈ found := by
  induction fuel generalizing done todo seen opened with
  | zero =>
    cases todo with
    | cons ds todo => cases hexplore
    | nil =>
      cases hexplore
      exact ⟨⟨opened, h⟩, by simp⟩
  | succ fuel ih =>
    cases todo with
    | nil =>
      cases hexplore
      exact ⟨⟨opened, h⟩, by simp⟩
    | cons ds todo =>
      rw [Chart.explore, strictly_eq, strictly_eq, cond_eq_ite] at hexplore
      split at hexplore
      · next hany =>
        obtain ⟨x, hx, hsame⟩ := List.any_eq_true.1 hany
        have hdone : ds ∈ done := by
          rw [(h.faithful ds (by simp)).eq_of_same
            (h.faithful x (List.mem_append_left _ (hseen _ x hx))) hsame]
          exact hseen _ x hx
        obtain ⟨hfound, hmem⟩ := ih hexplore (h.drop hdone) hseen
        refine ⟨hfound, fun t ht => hmem t ?_⟩
        simp only [List.mem_append, List.mem_cons] at ht ⊢
        rcases ht with ht | rfl | ht
        · exact Or.inl ht
        · exact Or.inl hdone
        · exact Or.inr ht
      · rw [cond_eq_ite] at hexplore
        have hseen' := mem_of_get_add ds hseen
        split at hexplore
        · next hsettled =>
          rw [cond_eq_ite] at hexplore
          split at hexplore
          · next hany =>
            obtain ⟨o, ho, heq⟩ := List.any_eq_true.1 hany
            have hin : (g.chart b n).opens 0 ds ∈ opened := by
              rw [Nat.eq_of_beq_eq_true heq]
              exact ho
            have hnext := h.follow hg he hsettled [] opened
              (fun o => ⟨Or.inr, fun ho => ho.elim (fun he => he ▸ hin) id⟩) (by simp)
              (Or.inl hin)
            obtain ⟨hfound, hmem⟩ := ih hexplore hnext hseen'
            exact ⟨hfound, mem_found hmem fun t ht => List.mem_append_right _ ht⟩
          · have hnext := h.follow hg he hsettled
              ((g.chart b n).openTargets ((g.chart b n).opens 0 ds)) _
              (fun o => List.mem_cons) (fun t ht => faithful_openTargets ht)
              (Or.inr fun t ht => ht)
            obtain ⟨hfound, hmem⟩ := ih hexplore hnext hseen'
            exact ⟨hfound, mem_found hmem fun t ht =>
              List.mem_append_right _ (List.mem_append_right _ ht)⟩
        · cases hexplore

/-- What the search begins with: the kernel of the whole input. -/
def searchStart (g : Grammar) : List (List Dotted) :=
  [[⟨g.augmented.acceptProduction, 0, g.nonterminals.size, [(Symbol.nonterminal g.start).code]⟩]]

/-- The kernels that a search finds, all without conflicts. -/
def search (g : Grammar) (b : Bounds) (n fuel : Nat) : Option (List (List Dotted)) :=
  (g.chart b n).explore fuel g.searchStart [] .leaf []

theorem searchStart_eq (hg : g.WellFormed) :
    g.searchStart = [[(⟨g.augmented.acceptProduction, 0⟩ : Item)].map g.dotted] := by
  have hrest : g.analysis.remaining ⟨g.productions.size, 0⟩ = [.nonterminal g.start] := by
    rw [remaining_eq_drop, rhs_accept]
    rfl
  have hdotted : g.dotted ⟨g.productions.size, 0⟩ = ⟨g.productions.size, 0, g.nonterminals.size,
      [(Symbol.nonterminal g.start).code]⟩ := by
    rw [dotted, hrest, lhs_accept hg]
    rfl
  rw [searchStart, List.map_singleton, show g.augmented.acceptProduction = g.productions.size from
    rfl, hdotted]

include hg he in
/-- **The search finds every kernel that can be reached, and none of those has a conflict.** -/
theorem search_covers {fuel : Nat} (hsearch : g.search b n fuel = some found) :
    ∀ kernel, Automaton.Reached g.analysis kernel → kernel.map g.dotted ∈ found ∧
      (g.chart b n).settled (g.opens b n kernel) (kernel.map g.dotted) = true := by
  have hstart : g.Followed b n [] g.searchStart [] := by
    refine ⟨fun ds hds => ?_, by simp, by simp, by simp, by simp⟩
    rw [List.nil_append, searchStart_eq hg, List.mem_singleton] at hds
    rw [hds]
    exact faithful_map _
  obtain ⟨⟨opened, hfound⟩, hmem⟩ := explore_followed hg he hsearch hstart
    (fun k x hx => by cases hx)
  have hcovered : ∀ kernel, Automaton.Reached g.analysis kernel →
      kernel.map g.dotted ∈ found := by
    intro kernel hreached
    induction hreached with
    | start => exact hmem _ (by rw [List.nil_append, searchStart_eq hg]; exact List.mem_cons_self)
    | @move kernel target s _ hmove ih =>
      obtain ⟨hne, hback⟩ := Analysis.mem_of_mem_successors hmove
      obtain ⟨j, hj⟩ := List.exists_mem_of_ne_nil _ hne
      obtain ⟨i, hi, hs, rfl⟩ := hback j hj
      obtain ⟨behind, hbehind, hstrict, hiff⟩ := behind_spec hg he kernel s
      have heq : behind = target := by
        refine hstrict.ext (Analysis.strict_of_mem_successors hmove) fun j => ?_
        rw [hiff]
        constructor
        · rintro ⟨i, hi, hs, rfl⟩
          obtain ⟨target', hmove', hadv⟩ := Analysis.exists_mem_successors hi hs
          rw [Analysis.eq_of_mem_successors hmove hmove']
          exact hadv
        · exact hback j
      rw [← heq, ← hbehind]
      have hall := behind_mem hg he hi hs
      rcases hall with hin | hin
      · exact (List.append_nil found) ▸ hfound.targets _ ih _ hin
      · exact (List.append_nil found) ▸ hfound.openTargets _ (hfound.opened _ ih) _ hin
  exact fun kernel hreached => ⟨hcovered kernel hreached,
    hfound.settled _ (hcovered kernel hreached)⟩

end Grammar

end AsmTree
