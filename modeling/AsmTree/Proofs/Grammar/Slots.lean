import AsmTree.Proofs.Grammar.Readers
import AsmTree.Proofs.Tree.Slots

/-!
# Grammars that fill slots

A reader goes along the children of a node and watches the slots between its commas. A `Turn` says
whose turn it is: that of an argument, of a comma behind it, or of lines, among which there are no
more slots. `HasSlots` says that the productions of a kind let the reader pass, so each fills its
slots from the left. It can be computed.

**Main statement (`HasSlots.slotted`):** then every node of the kind has its slots filled so.
-/

namespace AsmTree

open AsmTree.Tree Located View

/-- What a child is to the slots of a node. -/
inductive Part where
  | comma
  | newline
  /-- An expression. -/
  | value
  /-- A recovered region. -/
  | broken
  /-- What makes the first slot one without an argument. -/
  | lead
  /-- A node behind all arguments. -/
  | clause
  /-- Any other token. -/
  | word
deriving DecidableEq, Repr

namespace Kind

/-- Whether a child makes the first slot of a node one without an argument. -/
def leads (node : Kind) (isToken : Bool) (k : Kind) : Bool :=
  match node with
  | .assertDirective => isToken && (AssertSeverity.ofKind? k).isSome
  | .dsDirective => !isToken && k == .alignSpec
  | _ => false

/-- What a child is to the slots of a node. Trivia are nothing to them. -/
def part? (node : Kind) (isToken : Bool) (k : Kind) : Option Part :=
  if k.isTrivia then none
  else if k = .comma then some .comma
  else if k = .newline then some .newline
  else if k = .error then some .broken
  else if node.leads isToken k then some .lead
  else if isToken then some .word
  else if k.isExpr then some .value
  else some .clause

end Kind

/-- How far along the slots of a node one is. -/
inductive Turn where
  /-- In the first slot. -/
  | first
  /-- In the first slot, if that has no argument. -/
  | lead
  /-- In another slot, in front of its argument. -/
  | awaiting
  /-- Behind the argument of a slot. -/
  | filled
  /-- Behind the last argument. -/
  | past
  /-- Behind the first line. -/
  | body
deriving DecidableEq, Repr

namespace Turn

/-- The turn at the beginning of a node. -/
def start (node : Kind) : Turn := if node = .forBlock then .lead else .first

/-- The turn behind a part, if the part may stand there. -/
def part? : Turn → Part → Option Turn
  | .body, .value | .body, .lead => none
  | .body, _ => some .body
  | _, .newline => some .body
  | turn, .word => some turn
  | .first, .comma | .past, .comma | .awaiting, .comma => some .past
  | .lead, .comma | .filled, .comma => some .awaiting
  | .first, .value | .first, .broken | .awaiting, .value | .awaiting, .broken | .lead, .broken =>
    some .filled
  | .first, .lead => some .lead
  | .first, .clause | .awaiting, .clause | .past, .clause => some .past
  | _, _ => none

def child? (node : Kind) (turn : Turn) (isToken : Bool) (k : Kind) : Option Turn :=
  (node.part? isToken k).bind turn.part?

def shape? (node : Kind) (turn : Turn) : Shape → Option Turn
  | .leaf k => turn.child? node true k
  | .node k _ => turn.child? node false k

def located? (node : Kind) (turn : Turn) (x : Located) : Option Turn :=
  turn.child? node x.isToken x.kind

/-- What is known of the slots that are still to come, the one at hand first. What makes the first
slot one without an argument may come, too. -/
def Fits : Turn → Bool → List Located → List (List Located) → Prop
  | .first, true, slot, slots | .lead, _, slot, slots => slot.filter isValue = [] ∧ Packed slots
  | .first, false, slot, slots | .awaiting, _, slot, slots => Packed (slot :: slots)
  | .filled, _, slot, slots => slot.filter isArg = [] ∧ Packed slots
  | .past, _, slot, slots => ∀ s ∈ slot :: slots, s.filter isArg = []
  | .body, _, _, _ => True

end Turn

/-! ## Parts -/

section Parts

variable {node k : Kind} {isToken : Bool} {p : Part} {x : Located} {xs : List Located}
  {turn turn' : Turn} {slot : List Located} {slots : List (List Located)} {lead : Bool}

namespace Kind

theorem leads_cases (h : node.leads isToken k = true) :
    isToken = true ∧ (k = .warnKw ∨ k = .failKw ∨ k = .fatalKw) ∨
      isToken = false ∧ k = .alignSpec := by
  unfold leads at h
  split at h
  · obtain ⟨rfl, hk⟩ := Bool.and_eq_true_iff.1 h
    unfold AssertSeverity.ofKind? at hk
    split at hk
    · simp
    · simp
    · simp
    · cases hk
  · obtain ⟨htoken, hk⟩ := Bool.and_eq_true_iff.1 h
    exact Or.inr ⟨by simpa using htoken, eq_of_beq hk⟩
  · cases h

/-- A child plays a part. -/
structure Plays (node : Kind) (isToken : Bool) (k : Kind) (p : Part) : Prop where
  trivia : k.isTrivia = false
  comma : k = .comma ↔ p = .comma
  newline : k = .newline ↔ p = .newline
  broken : k = .error ↔ p = .broken
  value : (!isToken && k.isExpr) = true ↔ p = .value
  lead : node.leads isToken k = true ↔ p = .lead

theorem plays_lead (h : node.leads isToken k = true) : node.Plays isToken k .lead := by
  rcases leads_cases h with ⟨rfl, rfl | rfl | rfl⟩ | ⟨rfl, rfl⟩
  all_goals exact ⟨rfl, by decide, by decide, by decide, by decide, iff_of_true h rfl⟩

theorem part?_of_leads (h : node.leads isToken k = true) :
    node.part? isToken k = some .lead := by
  have hplays := plays_lead h
  have hcomma : k ≠ .comma := fun hk => by cases hplays.comma.1 hk
  have hnewline : k ≠ .newline := fun hk => by cases hplays.newline.1 hk
  have herror : k ≠ .error := fun hk => by cases hplays.broken.1 hk
  simp [part?, hplays.trivia, hcomma, hnewline, herror, h]

theorem plays_of_part? (h : node.part? isToken k = some p) : node.Plays isToken k p := by
  by_cases hlead : node.leads isToken k = true
  · obtain rfl := Option.some.inj (h.symm.trans (part?_of_leads hlead))
    exact plays_lead hlead
  · rw [part?, if_neg hlead] at h
    have hexpr : ∀ k ∈ [Kind.comma, .newline, .error], k.isExpr = false := by decide
    repeat' split at h
    all_goals cases h
    all_goals constructor <;> simp_all

end Kind

/-! ## Slots of a row -/

theorem slotsOf_newline (h : x.kind = .newline) : slotsOf (x :: xs) = [[]] := by
  simp [slotsOf, h, segments]

theorem slotsOf_comma (h : x.kind = .comma) : slotsOf (x :: xs) = [] :: slotsOf xs := by
  simp [slotsOf, h, segments]

theorem slotsOf_cons (hcomma : x.kind ≠ .comma) (hnewline : x.kind ≠ .newline)
    (h : slotsOf xs = slot :: slots) : slotsOf (x :: xs) = (x :: slot) :: slots := by
  rw [slotsOf, List.takeWhile_cons_of_pos (by simpa using hnewline), segments, if_neg hcomma,
    show segments _ = _ from h]

namespace Turn

theorem Fits.cons (h : turn.Fits lead slot slots) (hx : x.isArg = false) :
    turn.Fits lead (x :: slot) slots :=
  match turn, lead, h with
  | .first, true, h | .lead, _, h => ⟨(filter_isValue_cons hx).trans h.1, h.2⟩
  | .first, false, h | .awaiting, _, h => Packed.cons_head h hx
  | .filled, _, h => ⟨(filter_isArg_cons hx).trans h.1, h.2⟩
  | .past, _, h =>
    have h := List.forall_mem_cons.1 h
    List.forall_mem_cons.2 ⟨(filter_isArg_cons hx).trans h.1, h.2⟩
  | .body, _, _ => trivial

theorem fits_nil (turn : Turn) : turn.Fits lead [] [] :=
  match turn, lead with
  | .first, true | .lead, _ | .filled, _ => ⟨rfl, .rest (by simp)⟩
  | .first, false | .awaiting, _ => Packed.rest (by simp)
  | .past, _ => by simp [Fits]
  | .body, _ => trivial

theorem Fits.comma (h : turn'.Fits lead slot slots) (hturn : turn.part? .comma = some turn')
    (hlead : turn' ≠ .first → lead = false) : turn.Fits lead [] (slot :: slots) := by
  cases turn <;> cases hturn
  case first =>
    obtain rfl := hlead (by decide)
    exact Packed.rest (List.forall_mem_cons.2 ⟨rfl, h⟩)
  case lead => exact ⟨rfl, h⟩
  case awaiting => exact Packed.rest (List.forall_mem_cons.2 ⟨rfl, h⟩)
  case filled => exact ⟨rfl, h⟩
  case past => exact List.forall_mem_cons.2 ⟨rfl, h⟩
  case body => trivial

theorem Fits.fill (h : Turn.filled.Fits lead slot slots) (hx : x.isArg = true) :
    Packed ((x :: slot) :: slots) :=
  .fill (by rw [List.filter_cons_of_pos hx, h.1]) h.2

theorem Fits.value (h : turn'.Fits lead slot slots) (hx : x.isValue = true)
    (hturn : turn.part? .value = some turn') (hlead : turn' ≠ .first → lead = false) :
    turn.Fits lead (x :: slot) slots := by
  have harg := isArg_of_isValue hx
  cases turn <;> cases hturn
  case first =>
    obtain rfl := hlead (by decide)
    exact h.fill harg
  case awaiting => exact h.fill harg

/-- A recovered region fills a slot like an argument. It may also stand for all that makes the first
slot one without an argument. -/
theorem Fits.broken (h : turn'.Fits lead slot slots) (hx : x.kind = .error)
    (hturn : turn.part? .broken = some turn') (hlead : turn' ≠ .first → lead = false) :
    turn.Fits lead (x :: slot) slots := by
  have harg : x.isArg = true := by rw [isArg, hx]; rfl
  cases turn <;> cases hturn
  case first =>
    obtain rfl := hlead (by decide)
    exact h.fill harg
  case awaiting => exact h.fill harg
  case lead =>
    refine ⟨?_, h.2⟩
    rw [List.filter_cons_of_neg (by simp [isValue_of_error hx]), filter_isValue, h.1]
    rfl
  case body => trivial

theorem Fits.clause (h : turn'.Fits lead slot slots) (hturn : turn.part? .clause = some turn')
    (hlead : turn' ≠ .first → lead = false) : turn.Fits lead slot slots := by
  cases turn <;> cases hturn
  case first =>
    obtain rfl := hlead (by decide)
    exact Packed.rest h
  case awaiting => exact Packed.rest h
  case past => exact h
  case body => trivial

/-- **A tree that a turn allows fits in front of the slots of the next turn.** -/
theorem fits_cons (hp : node.part? x.isToken x.kind = some p) (hturn : turn.part? p = some turn')
    (hslots : slotsOf xs = slot :: slots) (hfits : turn'.Fits lead slot slots)
    (hlead : turn' ≠ .first → lead = false) : ∃ slot' slots',
      slotsOf (x :: xs) = slot' :: slots' ∧ turn.Fits (p == .lead || lead) slot' slots' := by
  obtain ⟨-, hcomma, hnewline, hbroken, hvalue, -⟩ := Kind.plays_of_part? hp
  have hrow := fun hc hn => slotsOf_cons (mt hcomma.1 hc) (mt hnewline.1 hn) hslots
  have hno : p ≠ .value → p ≠ .broken → x.isArg = false := fun hv hb => by
    rw [isArg, beq_eq_false_iff_ne.2 (mt hbroken.1 hb), Bool.false_or]
    exact Bool.eq_false_iff.2 (mt hvalue.1 hv)
  cases p with
  | comma =>
    exact ⟨[], slot :: slots, (slotsOf_comma (hcomma.2 rfl)).trans (by rw [hslots]),
      hfits.comma hturn hlead⟩
  | newline => exact ⟨[], [], slotsOf_newline (hnewline.2 rfl), fits_nil turn⟩
  | value => exact ⟨_, _, hrow (by decide) (by decide), hfits.value (hvalue.2 rfl) hturn hlead⟩
  | broken => exact ⟨_, _, hrow (by decide) (by decide), hfits.broken (hbroken.2 rfl) hturn hlead⟩
  | lead =>
    refine ⟨_, _, hrow (by decide) (by decide), ?_⟩
    have hcons := hfits.cons (hno (by decide) (by decide))
    cases turn <;> cases hturn
    exact hcons
  | clause =>
    exact ⟨_, _, hrow (by decide) (by decide),
      (hfits.clause hturn hlead).cons (hno (by decide) (by decide))⟩
  | word =>
    obtain rfl : turn = turn' := by cases turn <;> cases hturn <;> rfl
    exact ⟨_, _, hrow (by decide) (by decide), hfits.cons (hno (by decide) (by decide))⟩

/-! ## Runs along a row -/

/-- Whether a tree makes the first slot of a node one without an argument. -/
abbrev isLead (node : Kind) (x : Located) : Bool := node.leads x.isToken x.kind

theorem exists_part_of_run (h : (x :: xs).foldlM (located? node) turn = some turn') :
    ∃ p turn₁, node.part? x.isToken x.kind = some p ∧ turn.part? p = some turn₁ ∧
      xs.foldlM (located? node) turn₁ = some turn' := by
  rw [List.foldlM_cons] at h
  obtain ⟨turn₁, hx, h⟩ := Option.bind_eq_some_iff.1 h
  obtain ⟨p, hp, hpart⟩ := Option.bind_eq_some_iff.1 hx
  exact ⟨p, turn₁, hp, hpart, h⟩

theorem isLead_iff (hp : node.part? x.isToken x.kind = some p) :
    isLead node x = (p == .lead) :=
  Bool.eq_iff_iff.2 ((Kind.plays_of_part? hp).lead.trans beq_iff_eq.symm)

/-- Behind the beginning nothing can make the first slot one without an argument. -/
theorem any_isLead_eq_false (h : xs.foldlM (located? node) turn = some turn')
    (hturn : turn ≠ .first) : xs.any (isLead node) = false := by
  induction xs generalizing turn with
  | nil => rfl
  | cons x xs ih =>
    obtain ⟨p, turn₁, hp, hpart, h⟩ := exists_part_of_run h
    -- no turn leads back to the beginning
    have hne : p ≠ .lead ∧ turn₁ ≠ .first := by
      revert hturn hpart
      cases turn <;> cases p <;> cases turn₁ <;> decide
    rw [List.any_cons, isLead_iff hp, ih h hne.2, beq_eq_false_iff_ne.2 hne.1]
    rfl

theorem filter_isValue_eq_nil (h : xs.foldlM (located? node) .body = some turn') :
    xs.filter isValue = [] := by
  induction xs with
  | nil => rfl
  | cons x xs ih =>
    obtain ⟨p, turn₁, hp, hpart, h⟩ := exists_part_of_run h
    have hne : p ≠ .value ∧ turn₁ = .body := by
      revert hpart
      cases p <;> cases turn₁ <;> decide
    have hvalue : ¬ x.isValue = true := mt (Kind.plays_of_part? hp).value.1 hne.1
    rw [List.filter_cons_of_neg hvalue]
    exact ih (hne.2 ▸ h)

/-- **A row that is read to its end has its slots filled**, and all its expressions in them. -/
theorem fits_of_run (h : xs.foldlM (located? node) turn = some turn') : ∃ slot slots,
    slotsOf xs = slot :: slots ∧ turn.Fits (xs.any (isLead node)) slot slots ∧
      xs.filter isValue = (slotsOf xs).flatMap (·.filter isValue) := by
  induction xs generalizing turn with
  | nil => exact ⟨[], [], rfl, fits_nil turn, rfl⟩
  | cons x xs ih =>
    obtain ⟨p, turn₁, hp, hpart, h⟩ := exists_part_of_run h
    obtain ⟨slot, slots, hslots, hfits, hvalues⟩ := ih h
    obtain ⟨slot', slots', hslots', hfits'⟩ :=
      fits_cons hp hpart hslots hfits (any_isLead_eq_false h)
    refine ⟨slot', slots', hslots', by rwa [List.any_cons, isLead_iff hp], ?_⟩
    obtain ⟨-, hcomma, hnewline, -, hvalue, -⟩ := Kind.plays_of_part? hp
    have hno : p ≠ .value → ¬ x.isValue = true := mt hvalue.1
    -- slots take in all that is read, up to the end of the line
    by_cases hn : p = .newline
    · subst hn
      have hbody : turn₁ = .body := by
        revert hpart
        cases turn <;> cases turn₁ <;> decide
      rw [slotsOf_newline (hnewline.2 rfl), List.filter_cons_of_neg (hno (by decide)),
        filter_isValue_eq_nil (hbody ▸ h)]
      rfl
    by_cases hc : p = .comma
    · subst hc
      rw [slotsOf_comma (hcomma.2 rfl), List.filter_cons_of_neg (hno (by decide)), hvalues]
      rfl
    · rw [hslots, List.flatMap_cons] at hvalues
      rw [slotsOf_cons (mt hcomma.1 hc) (mt hnewline.1 hn) hslots, List.flatMap_cons,
        List.filter_cons, List.filter_cons, hvalues]
      split <;> rfl

/-! ## Rows of trees -/

/-- A tree that counts is read as its shape. -/
theorem foldlM_shape {isExtra : Kind → Bool} (hextra : ∀ k, isExtra k = k.isTrivia) {t : Tree}
    (h : (t.shape isExtra).foldlM (shape? node) turn = some turn') (start : Nat) :
    ([⟨start, t⟩].filter fun x : Located => !x.kind.isTrivia).foldlM (located? node) turn =
      some turn' := by
  have hcounts : t.kind.isTrivia = false →
      ([⟨start, t⟩].filter fun x : Located => !x.kind.isTrivia) = [⟨start, t⟩] :=
    fun hk => List.filter_cons_of_pos (congrArg (!·) hk)
  cases t with
  | token k text =>
    rw [Tree.shape, hextra] at h
    split at h
    · next hk =>
      rw [List.filter_cons_of_neg (Bool.not_eq_true _ ▸ congrArg (!·) hk)]
      exact h
    · next hk =>
      rw [hcounts (Bool.eq_false_iff.2 hk)]
      exact h
  | node k cs =>
    rw [Tree.shape] at h
    split at h
    · next hk =>
      subst hk
      exact h
    · obtain ⟨_, hstep, -⟩ := Option.bind_eq_some_iff.1 h
      obtain ⟨p, hp, -⟩ := Option.bind_eq_some_iff.1 hstep
      rw [hcounts (Kind.plays_of_part? hp).trivia]
      exact h

/-- **A reader gets along trees as along their shapes**, if extras are trivia. -/
theorem foldlM_significant {isExtra : Kind → Bool} (hextra : ∀ k, isExtra k = k.isTrivia)
    {ts : List Tree} (h : (shapeAll isExtra ts).foldlM (shape? node) turn = some turn')
    (start : Nat) :
    ((Located.row start ts).filter fun x => !x.kind.isTrivia).foldlM (located? node) turn =
      some turn' := by
  induction ts generalizing start turn with
  | nil => exact h
  | cons t ts ih =>
    rw [shapeAll_cons, List.foldlM_append] at h
    obtain ⟨turn₁, ht, h⟩ := Option.bind_eq_some_iff.1 h
    rw [Located.row_cons, ← List.singleton_append, List.filter_append, List.foldlM_append,
      foldlM_shape hextra ht]
    exact ih h _

end Turn

end Parts

/-! ## Grammars of slots -/

namespace Grammar

variable {g : Grammar} {within : Nat → Turn → Option Turn} {node : Kind}

/-- The turn behind a symbol. What a hidden nonterminal does is given by `within`. -/
def turn? (g : Grammar) (within : Nat → Turn → Option Turn) (node : Kind) (turn : Turn) :
    Symbol → Option Turn
  | .terminal k => turn.child? node true k
  | .nonterminal id =>
    match g.kindOf? id with
    | some k => turn.child? node false k
    | none => within id turn

/-- Every production of a kind fills its slots from the left. -/
structure HasSlots (g : Grammar) (within : Nat → Turn → Option Turn) (node : Kind) : Prop where
  visible : ∀ p ∈ g.productions, g.kindOf? p.lhs = some node →
    ∃ turn, p.rhs.foldlM (g.turn? within node) (.start node) = some turn
  hidden : ∀ p ∈ g.productions, g.kindOf? p.lhs = none → ∀ turn turn',
    within p.lhs turn = some turn' → p.rhs.foldlM (g.turn? within node) turn = some turn'

/-- Whether every production of a kind does. -/
def hasSlots (g : Grammar) (within : Nat → Turn → Option Turn) (node : Kind) : Bool :=
  g.productions.toList.all fun p =>
    match g.kindOf? p.lhs with
    | some k => k != node || (p.rhs.foldlM (g.turn? within node) (.start node)).isSome
    | none => [Turn.first, .lead, .awaiting, .filled, .past, .body].all fun turn =>
      (within p.lhs turn).all fun turn' =>
        p.rhs.foldlM (g.turn? within node) turn == some turn'

theorem hasSlots_of_check (h : g.hasSlots within node = true) : g.HasSlots within node := by
  simp only [hasSlots, List.all_eq_true, Array.mem_toList_iff] at h
  constructor
  case visible =>
    intro p hp hk
    have hcase := h p hp
    rw [hk] at hcase
    simpa [Option.isSome_iff_exists] using hcase
  case hidden =>
    intro p hp hk turn turn' hwithin
    have hcase := h p hp
    rw [hk] at hcase
    have hturn := List.all_eq_true.1 hcase turn (by cases turn <;> simp)
    rw [hwithin] at hturn
    exact eq_of_beq hturn

namespace HasSlots

variable (h : g.HasSlots within node)

include h

theorem reads : g.Reads (g.turn? within node) (Turn.shape? node) where
  leaf := fun hturn => hturn
  visible := fun _ hk hturn => by
    rw [turn?, hk] at hturn
    exact hturn
  hidden := fun hp hk hturn => by
    rw [turn?, hk] at hturn
    exact h.hidden _ hp hk _ _ hturn

theorem exists_turn {isExtra : Kind → Bool} (hextra : ∀ k, isExtra k = k.isTrivia)
    {p : Production} (hp : p ∈ g.productions) (hk : g.kindOf? p.lhs = some node)
    {ds : Derivations g p.rhs} {l : Located}
    (hds : shapeAll isExtra l.tree.children = ds.skeleton) :
    ∃ turn, l.significant.foldlM (Turn.located? node) (.start node) = some turn := by
  obtain ⟨turn, hturn⟩ := h.visible p hp hk
  have hshapes := h.reads.derivations ds hturn
  rw [← hds] at hshapes
  exact ⟨turn, Turn.foldlM_significant hextra hshapes l.start⟩

end HasSlots

end Grammar

/-! ## Nodes with slots -/

namespace Located

variable {l : Located} {turn : Turn}

/-- What makes the first slot one without an argument stands among the children. -/
theorem hasLead_eq (h : l.kind ≠ .forBlock) :
    l.hasLead = l.significant.any (Turn.isLead l.kind) := by
  have hany : l.significant.any (Turn.isLead l.kind) = true ↔
      ∃ x ∈ l.children, Turn.isLead l.kind x = true := by
    rw [List.any_eq_true]
    refine exists_congr fun x => and_congr_left fun hx => ?_
    rw [significant, List.mem_filter, (Kind.plays_lead hx).trivia]
    exact and_iff_left rfl
  rw [Bool.eq_iff_iff, hany]
  unfold hasLead Turn.isLead Kind.leads
  generalize hk : l.kind = k at h
  split
  · contradiction
  · simp [Assertion.of, meaning?, tokens, List.findSome?_isSome_iff, and_assoc]
  · have halign : (Space.of l).align = (l.nodesOf .alignSpec).head? := by
      unfold Space.of
      split
      · next hhead => exact hhead.symm
      · next hhead => exact hhead.symm
    simp [halign, nodesOf, nodes, and_comm]
  · simp

/-- **A node that is read to its end has its slots filled.** -/
theorem slotted_of_run
    (h : l.significant.foldlM (Turn.located? l.kind) (.start l.kind) = some turn) : l.Slotted := by
  obtain ⟨slot, slots, hslots, hfits, hvalues⟩ := Turn.fits_of_run h
  rw [← exprs_eq_filter, hslots, List.flatMap_cons] at hvalues
  have hparts : (l.hasLead = true → slot.filter isValue = [] ∧ Packed slots) ∧
      (l.hasLead = false → Packed (slot :: slots)) := by
    unfold Turn.start at hfits
    split at hfits
    · next hk => exact ⟨fun _ => hfits, fun hlead => by simp [hasLead, hk] at hlead⟩
    · next hk =>
      rw [← hasLead_eq hk] at hfits
      exact ⟨fun hlead => by rwa [hlead] at hfits, fun hlead => by rwa [hlead] at hfits⟩
  cases hlead : l.hasLead with
  | true =>
    obtain ⟨hslot, hpacked⟩ := hparts.1 hlead
    have hslots : l.argSlots = slots := by rw [argSlots, if_pos hlead, hslots, List.tail_cons]
    exact ⟨hslots ▸ hpacked, by rw [hslots, hvalues, hslot, List.nil_append]⟩
  | false =>
    have hslots : l.argSlots = slot :: slots := by rw [argSlots, hlead, hslots]; rfl
    exact ⟨hslots ▸ hparts.2 hlead, by rw [hslots, hvalues, List.flatMap_cons]⟩

end Located

end AsmTree
