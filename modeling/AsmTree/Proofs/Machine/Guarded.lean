import AsmTree.Proofs.Blob.RoundTrip
import AsmTree.Proofs.Machine.Runs
import AsmTree.Proofs.Machine.Stacks
import AsmTree.Proofs.Table.Guarded

/-!
# A machine with guarded lookups

The guarded machine is the machine with every lookup guarded: it gives nothing when it looks up what
its table does not have. With a table without fault it makes the moves of the machine (`stepAt?_eq`),
since the states on the stack exist and every move keeps that (`hasStates_of_effect`). **Main
statement (`lookups_in_range`):** for a table that is read from a blob, no parse of a text comes to
a lookup out of range.
-/

namespace AsmTree

/-- Each of some states exists. -/
def ParseTable.HasStates (t : ParseTable) (states : List Nat) : Prop :=
  ∀ state ∈ states, state < t.stateCount

/-! ## The guarded machine -/

namespace Frame

/-- The opening word of a block at the end of a frame, with a guarded lookup. -/
def openerAt? (t : ParseTable) (f : Frame) : Option (Option (Kind × TextRange)) :=
  match f.backward with
  | .token k text :: _ =>
    if k.blockTerminator?.isSome then do
      let context ← t.contextAt? f.state
      return if (context.map Kind.isBlock).getD false then
        some (k, ⟨f.stop - text.utf8ByteSize, f.stop⟩) else none
    else some none
  | _ => some none

def contextAt? (t : ParseTable) (onTop : Bool) (f : Frame) : Option (Option Context) := do
  match ← t.contextAt? f.state with
  | none => return none
  | some k =>
    if !k.isOperand then return some (.ofNodeKind k)
    else if onTop then
      return if (← t.explicitActionAt? f.state .decNumber).isError then none else some .expression
    else return none

end Frame

namespace Machine

/-- A dry run from a stack of states, with guarded lookups. -/
def viableFromAt? (t : ParseTable) (k : Kind) : Nat → List Nat → Option Bool
  | 0, _ => some false
  | _ + 1, [] => some false
  | fuel + 1, state :: rest => do
    match (← t.actionAt? state k).move with
    | .shift _ | .accept => return true
    | .error => return false
    | .reduce production =>
      let r ← t.productionAt? production
      match (state :: rest).drop r.length with
      | [] => return false
      | base :: below =>
        match ← t.gotoAt? base r.lhs with
        | none => return false
        | some next => viableFromAt? t k fuel (next :: base :: below)

def viableAt? (t : ParseTable) (states : List Nat) (k : Kind) : Option Bool :=
  viableFromAt? t k (t.moveLimit states.length) states

/-- The search along the line for a token that can follow, where asking for one may fail. -/
def searchAt? (viable : Kind → Option Bool) : Nat → List Lookahead → Nat → Option Search
  | 0, _, skip => some (.none skip skip)
  | _ + 1, [], skip => do return if ← viable .eof then .found skip else .none skip (skip + 1)
  | limit + 1, l :: rest, skip => do
    let k := l.token.kind
    if ← viable k then return .found skip
    else if k = .newline || k = .eof then return .none skip (skip + 1)
    else searchAt? viable limit rest (skip + 1)

/-- The search for a frame that can take a recovered region, with guarded lookups. -/
def searchFramesAt? (s : Setup) (input : List Lookahead) (frames : List Frame) (above : Nat)
    (fallback : Option Resync) (looked : Nat) : Option Plan :=
  match frames with
  | [] => some ⟨Resync.useful? fallback, looked⟩
  | f :: rest =>
    if rest.isEmpty && (Resync.useful? fallback).isSome then some ⟨fallback, looked⟩
    else do
      match (← s.table.explicitActionAt? f.state .error).move with
      | .shift state =>
        let states := state :: (f :: rest).map Frame.state
        match ← searchAt? (viableAt? s.table states) (max s.options.recoveryLimit 1) input 0 with
        | .found skip => return ⟨some ⟨above, state, skip⟩, max looked (skip + 1)⟩
        | .none skip n =>
          searchFramesAt? s input rest (above + 1) (some ⟨above, state, skip⟩) (max looked n)
      | _ => searchFramesAt? s input rest (above + 1) fallback looked

def recoverAt? (s : Setup) (m : Machine) : Option (Option Machine) := do
  let plan ← searchFramesAt? s m.input m.frames 0 none 0
  return plan.resync.map ((m.look plan.looked).resynchronize s)

def openBlockAt? (s : Setup) (m : Machine) : Option (Option (Kind × TextRange)) :=
  m.frames.findSomeM? (Frame.openerAt? s.table)

def contextAt? (s : Setup) (m : Machine) : Option Context :=
  match m.lastConsumed with
  | none | some .newline => do
    return if (← m.openBlockAt? s).isSome then .blockBody else .topLevel
  | some _ => do
    match ← Frame.contextAt? s.table true m.top with
    | some c => return c
    | none =>
      match ← m.below.findSomeM? (Frame.contextAt? s.table false) with
      | some c => return c
      | none =>
        match m.top.backward with
        | .node k _ :: _ => return .ofNodeKind k
        | _ => return .topLevel

def reportAt? (s : Setup) (m : Machine) : Option Machine :=
  let found := (m.ahead s 0).token
  let add (d : Diagnostic) : Machine := { m with errors := m.errors.push d }
  let unexpected : Unit → Option Machine := fun _ => do
    let expected ← s.table.expectedAt? m.top.state
    let context ← m.contextAt? s
    return add (.unexpected found.kind context expected found.range)
  match found.kind with
  | .unknown => some m
  | .eof => do
    match ← m.openBlockAt? s with
    | some (opener, range) => return add (.openBlock opener range found.offset)
    | none => unexpected ()
  | _ => unexpected ()

/-- A reduction of the stack with guarded lookups. -/
def reduceAt? (s : Setup) (m : Machine) (production : Nat) : Option (Option Machine) := do
  let r ← s.table.productionAt? production
  match m.frames.drop r.length with
  | [] => return none
  | base :: rest =>
    match ← s.table.gotoAt? base.state r.lhs with
    | none => return none
    | some state => return some { m with
        top := reducedFrame s.table r (m.frames.take r.length) base state
        below := base :: rest }

/-- A reduction with guarded lookups. -/
def stepReduceAt? (s : Setup) (m : Machine) (production : Nat) : Option Outcome := do
  match ← m.reduceAt? s production with
  | some m => return m.markLine s
  | none => return .done ({ m with
      errors := m.errors.push (.internalError m.top.stop) }.abandon s)

def stepAt? (s : Setup) (m : Machine) : Option Outcome := do
  match ← s.table.defaultAt? m.top.state with
  | some production => m.stepReduceAt? s production
  | none =>
    let m := m.look 1
    match (← s.table.explicitActionAt? m.top.state (m.ahead s 0).token.kind).move with
    | .shift state => return (m.shift s state).markLine s
    | .reduce production => m.stepReduceAt? s production
    | .accept => return .done (m.accept s)
    | .error =>
      let m ← m.reportAt? s
      match ← m.recoverAt? s with
      | some m => return m.markLine s
      | none => return .done (m.abandon s)

end Machine

/-! ## Guarded lookups find what lookups find -/

theorem ParseTable.HasStates.drop {t : ParseTable} {states rest : List Nat}
    (h : t.HasStates states) {n : Nat} (hdrop : states.drop n = rest) : t.HasStates rest := by
  subst hdrop
  exact fun state hstate => h state (List.mem_of_mem_drop hstate)

theorem ParseTable.HasStates.cons {t : ParseTable} {states : List Nat} {state : Nat}
    (h : t.HasStates states) (hs : state < t.stateCount) : t.HasStates (state :: states) :=
  List.forall_mem_cons.2 ⟨hs, h⟩

theorem findSomeM?_eq {α β : Type} {f : α → Option (Option β)} {f' : α → Option β} {l : List α}
    (h : ∀ a ∈ l, f a = some (f' a)) : l.findSomeM? f = some (l.findSome? f') := by
  induction l with
  | nil => rfl
  | cons a l ih =>
    obtain ⟨ha, hl⟩ := List.forall_mem_cons.1 h
    rw [List.findSomeM?_cons, ha, List.findSome?_cons]
    cases f' a with
    | none => exact ih hl
    | some b => rfl

namespace Frame

variable {t : ParseTable} {f : Frame}

theorem openerAt?_eq (ht : t.Addressable) (hf : f.state < t.stateCount) :
    f.openerAt? t = some (f.opener? t) := by
  unfold openerAt? opener?
  rw [ht.contextAt?_eq hf]
  cases f.backward with
  | nil => rfl
  | cons tree rest =>
    cases tree with
    | node => rfl
    | token k text =>
      dsimp only
      cases k.blockTerminator?.isSome <;> rfl

theorem contextAt?_eq (ht : t.Addressable) (hf : f.state < t.stateCount) (onTop : Bool) :
    f.contextAt? t onTop = some (f.context? t onTop) := by
  unfold contextAt? context?
  rw [ht.contextAt?_eq hf, ht.explicitActionAt?_eq hf]
  cases t.context? f.state with
  | none => rfl
  | some k =>
    simp only [Option.bind_eq_bind, Option.bind_some]
    cases k.isOperand
    · rfl
    · cases onTop
      · rfl
      · cases (t.explicitAction f.state .decNumber).isError <;> rfl

end Frame

namespace Machine

variable {s : Setup} {m m' : Machine} {k : Kind} {p : Nat}

theorem hasStates_drop (hm : s.table.HasStates m.states) {n : Nat} {base : Frame}
    {rest : List Frame} (h : m.frames.drop n = base :: rest) :
    s.table.HasStates ((base :: rest).map Frame.state) := by
  refine hm.drop (n := n) ?_
  rw [states, ← List.map_drop, h]

theorem viableFromAt?_eq {t : ParseTable} (ht : t.Addressable) (fuel : Nat) {states : List Nat}
    (h : t.HasStates states) :
    viableFromAt? t k fuel states = some (viableFrom t k fuel states) := by
  -- what carries the induction is that every state of the run exists: a pop keeps some of them, and
  -- the state that is pushed is a target of the table
  induction fuel generalizing states with
  | zero => rfl
  | succ fuel ih =>
    cases states with
    | nil => rfl
    | cons state rest =>
      rw [viableFromAt?, viableFrom, ht.actionAt?_eq (h state List.mem_cons_self)]
      simp only [Option.bind_eq_bind, Option.bind_some]
      cases hmove : (t.action state k).move with
      | error | accept | shift => rfl
      | reduce p =>
        have hp := ht.closed.action hmove
        dsimp only
        rw [ParseTable.Addressable.productionAt?_eq hp, Option.bind_some]
        cases hdrop : (state :: rest).drop (t.production p).length with
        | nil => rfl
        | cons base below =>
          have hbelow := h.drop hdrop
          dsimp only
          rw [ht.gotoAt?_eq (hbelow base List.mem_cons_self) (ht.closed.lhs hp), Option.bind_some]
          cases hgoto : t.goto? base (t.production p).lhs with
          | none => rfl
          | some next => exact ih (hbelow.cons (ht.closed.goto hgoto))

theorem viableAt?_eq {t : ParseTable} (ht : t.Addressable) {states : List Nat}
    (h : t.HasStates states) : viableAt? t states k = some (viable t states k) :=
  viableFromAt?_eq ht _ h

theorem searchAt?_eq {viable : Kind → Option Bool} {viable' : Kind → Bool}
    (h : ∀ k, viable k = some (viable' k)) (limit : Nat) (input : List Lookahead) (skip : Nat) :
    searchAt? viable limit input skip = some (search viable' limit input skip) := by
  induction limit generalizing input skip with
  | zero => rfl
  | succ limit ih =>
    cases input with
    | nil =>
      rw [searchAt?, search, h]
      rfl
    | cons l rest =>
      rw [searchAt?, search, h]
      simp only [Option.bind_eq_bind, Option.bind_some]
      split
      · rfl
      · split
        · rfl
        · exact ih rest (skip + 1)

theorem searchFramesAt?_eq (ht : s.table.Addressable) (input : List Lookahead)
    (frames : List Frame) (h : s.table.HasStates (frames.map Frame.state)) (above : Nat)
    (fallback : Option Resync) (looked : Nat) :
    searchFramesAt? s input frames above fallback looked =
      some (searchFrames s input frames above fallback looked) := by
  induction frames generalizing above fallback looked with
  | nil => rfl
  | cons f rest ih =>
    obtain ⟨hf, hrest⟩ := List.forall_mem_cons.1 h
    rw [searchFramesAt?, searchFrames, ht.explicitActionAt?_eq hf]
    split
    · rfl
    · simp only [Option.bind_eq_bind, Option.bind_some]
      -- only a shift of the recovered region leads to dry runs
      cases hmove : (s.table.explicitAction f.state .error).move with
      | error | accept | reduce => exact ih hrest _ _ _
      | shift state =>
        have hstates := h.cons (ht.closed.shift hmove)
        dsimp only
        rw [searchAt?_eq fun k => viableAt?_eq ht hstates, Option.bind_some]
        cases search (viable s.table (state :: (f :: rest).map Frame.state))
            (max s.options.recoveryLimit 1) input 0 with
        | found skip => rfl
        | none skip n => exact ih hrest _ _ _

/-- The context of a token behind others on its line. -/
theorem context_of_ne_newline (hlast : m.lastConsumed = some k) (hk : k ≠ .newline) :
    m.context s = match (Frame.context? s.table true m.top).or
        (m.below.findSome? (Frame.context? s.table false)) with
      | some c => c
      | none => match m.top.backward with
        | .node k _ :: _ => .ofNodeKind k
        | _ => .topLevel := by
  unfold context
  rw [hlast]
  split
  · next h => cases h
  · next h => exact absurd (Option.some.inj h) hk
  · rfl

theorem report_of_ne (hunknown : (m.ahead s 0).token.kind ≠ .unknown)
    (heof : (m.ahead s 0).token.kind ≠ .eof) : m.report s = { m with
      errors := m.errors.push (.unexpected (m.ahead s 0).token.kind (m.context s)
        (s.table.expected m.top.state) (m.ahead s 0).token.range) } := by
  unfold report
  dsimp only
  split
  · next h => exact absurd h hunknown
  · next h => exact absurd h heof
  · rfl

section Step

variable (ht : s.table.Addressable) (hm : s.table.HasStates m.states)

include ht hm

theorem recoverAt?_eq : m.recoverAt? s = some (m.recover? s) := by
  rw [recoverAt?, searchFramesAt?_eq ht m.input m.frames hm]
  rfl

theorem openBlockAt?_eq : m.openBlockAt? s = some (m.openBlock? s) :=
  findSomeM?_eq fun f hf => f.openerAt?_eq ht (hm f.state (List.mem_map_of_mem hf))

theorem contextAt?_eq : m.contextAt? s = some (m.context s) := by
  obtain ⟨htop, hbelow⟩ := List.forall_mem_cons.1 hm
  unfold contextAt?
  rw [openBlockAt?_eq ht hm, Frame.contextAt?_eq ht htop,
    findSomeM?_eq fun f hf => f.contextAt?_eq ht (hbelow f.state (List.mem_map_of_mem hf)) false]
  split
  · next hlast =>
    rw [context, hlast]
    rfl
  · next hlast =>
    rw [context, hlast]
    rfl
  · next k hk hlast =>
    rw [context_of_ne_newline hlast hk]
    cases m.top.context? s.table true with
    | some c => rfl
    | none =>
      cases m.below.findSome? (Frame.context? s.table false) with
      | some c => rfl
      | none =>
        simp only [Option.bind_eq_bind, Option.bind_some, Option.or_none]
        split <;> rfl

theorem reportAt?_eq : m.reportAt? s = some (m.report s) := by
  unfold reportAt?
  rw [openBlockAt?_eq ht hm, contextAt?_eq ht hm, ht.expectedAt?_eq (hm _ List.mem_cons_self)]
  dsimp only
  split
  · next hkind => rw [report, hkind]
  · next hkind =>
    rw [report, hkind]
    cases m.openBlock? s <;> rfl
  · next hunknown heof =>
    rw [report_of_ne hunknown heof]
    rfl

theorem reduceAt?_eq (hp : p < s.table.productionCount) :
    m.reduceAt? s p = some (m.reduce? s p) := by
  unfold reduceAt? reduce?
  rw [ParseTable.Addressable.productionAt?_eq hp]
  simp only [Option.bind_eq_bind, Option.bind_some]
  cases hdrop : m.frames.drop (s.table.production p).length with
  | nil => rfl
  | cons base rest =>
    have hbase : base.state < s.table.stateCount := hasStates_drop hm hdrop _ List.mem_cons_self
    dsimp only
    rw [ht.gotoAt?_eq hbase (ht.closed.lhs hp), Option.bind_some]
    cases s.table.goto? base.state (s.table.production p).lhs <;> rfl

theorem stepReduceAt?_eq (hp : p < s.table.productionCount) :
    m.stepReduceAt? s p = some (m.stepReduce s p) := by
  rw [stepReduceAt?, stepReduce, reduceAt?_eq ht hm hp]
  cases m.reduce? s p <;> rfl

/-- **The guarded machine makes the moves of the machine.** -/
theorem stepAt?_eq : m.stepAt? s = some (m.step s) := by
  have htop := hm _ List.mem_cons_self
  unfold stepAt? step
  rw [ParseTable.Addressable.defaultAt?_eq htop]
  simp only [Option.bind_eq_bind, Option.bind_some]
  cases hd : s.table.default? m.top.state with
  | some p => exact stepReduceAt?_eq ht hm (ht.closed.default hd)
  | none =>
    dsimp only
    rw [look_top, ht.explicitActionAt?_eq htop, Option.bind_some]
    cases hmove : (s.table.explicitAction m.top.state ((m.look 1).ahead s 0).token.kind).move with
    | shift | accept => rfl
    | reduce p => exact stepReduceAt?_eq (m := m.look 1) ht hm (ht.closed.reduce hmove)
    | error =>
      -- the report leaves the stack alone, so recovery searches the same states
      have hreport : s.table.HasStates ((m.look 1).report s).states := by
        rw [states, report_frames]
        exact hm
      dsimp only
      rw [reportAt?_eq (m := m.look 1) ht hm, Option.bind_some, recoverAt?_eq ht hreport,
        Option.bind_some]
      cases ((m.look 1).report s).recover? s <;> rfl

end Step

/-! ## States stay in range -/

/-- **Every move leads from states that exist to states that exist.** -/
theorem hasStates_of_effect (ht : s.table.Closed) (hs : s.splice = none)
    (hm : s.table.HasStates m.states) (he : Effect s m (.running m')) :
    s.table.HasStates m'.states := by
  generalize ho : Outcome.running m' = o at he
  cases he with
  | @reduce p n m₁ _ _ hreduce =>
    rw [markLine_of_splice hs] at ho
    cases ho
    obtain ⟨base, rest, target, hframes, hgoto, rfl⟩ := reduce?_eq_some.1 hreduce
    rw [states_mark]
    exact (hasStates_drop hm hframes).cons (ht.goto hgoto)
  | @shift target _ hmove =>
    rw [markLine_of_splice hs] at ho
    cases ho
    rw [states_mark]
    exact hm.cons (ht.shift hmove)
  | @recover m₁ _ _ hrecover =>
    rw [markLine_of_splice hs] at ho
    cases ho
    obtain ⟨r, base, rest, n, -, hframes, hmove, rfl⟩ := recover?_eq_some hrecover
    rw [states_mark, states_resynchronize (m := ((m.look 1).report s).look n) hframes]
    rw [report_frames] at hframes
    exact (hasStates_drop hm hframes).cons (ht.shift hmove)
  | stuck _ _ => cases ho
  | accept _ _ => cases ho
  | abandon _ _ _ => cases ho

/-- The stacks of states that the dry runs of recovery pass before a token. Each begins with a frame
that can take a recovered region. -/
inductive DryRun (s : Setup) (m : Machine) (k : Kind) : List Nat → Prop where
  | start {above state : Nat} {f : Frame} {rest : List Frame} :
    m.frames.drop above = f :: rest → (s.table.explicitAction f.state .error).move = .shift state →
    DryRun s m k (state :: (f :: rest).map Frame.state)
  | reduce {state p base next : Nat} {rest below : List Nat} :
    DryRun s m k (state :: rest) → (s.table.action state k).move = .reduce p →
    (state :: rest).drop (s.table.production p).length = base :: below →
    s.table.goto? base (s.table.production p).lhs = some next →
    DryRun s m k (next :: base :: below)

theorem DryRun.hasStates (ht : s.table.Closed) (hm : s.table.HasStates m.states)
    {states : List Nat} (h : DryRun s m k states) : s.table.HasStates states := by
  induction h with
  | start hframes hmove => exact (hasStates_drop hm hframes).cons (ht.shift hmove)
  | reduce _ _ hdrop hgoto ih => exact (ih.drop hdrop).cons (ht.goto hgoto)

/-! ## Stacks that are too short -/

theorem reduce?_of_length_le (h : m.frames.length ≤ (s.table.production p).length) :
    m.reduce? s p = none := by
  rw [reduce?, List.drop_eq_nil_of_le h]

/-- A reduction that takes more frames than there are ends the parse. -/
theorem step_of_length_le (hr : m.reduction? s = some p)
    (h : m.frames.length ≤ (s.table.production p).length) : ∃ n, m.step s =
      .done ({ m.look n with errors := m.errors.push (.internalError m.top.stop) }.abandon s) := by
  unfold reduction? at hr
  unfold step
  cases hd : s.table.default? m.top.state with
  | some q =>
    rw [hd] at hr
    cases hr
    refine ⟨0, ?_⟩
    dsimp only
    rw [stepReduce, reduce?_of_length_le h, look_zero]
  | none =>
    rw [hd] at hr
    dsimp only at hr ⊢
    split at hr
    · next q hmove =>
      cases hr
      refine ⟨1, ?_⟩
      rw [show (s.table.explicitAction (m.look 1).top.state
        ((m.look 1).ahead s 0).token.kind).move = .reduce p from hmove]
      dsimp only
      rw [stepReduce, reduce?_of_length_le (m := m.look 1) h]
      rfl
    · cases hr

theorem viableFrom_of_length_le {t : ParseTable} {state : Nat} {rest : List Nat}
    (hmove : (t.action state k).move = .reduce p)
    (h : (state :: rest).length ≤ (t.production p).length) (fuel : Nat) :
    viableFrom t k fuel (state :: rest) = false := by
  cases fuel with
  | zero => rfl
  | succ fuel =>
    rw [viableFrom, hmove]
    dsimp only
    rw [List.drop_eq_nil_of_le h]

/-! ## Whole parses -/

/-- Nothing that a machine looks up in its table is out of range. -/
structure Guarded (s : Setup) (m : Machine) : Prop where
  /-- The states of the stack exist. -/
  stack : s.table.HasStates m.states
  /-- So do those that dry runs pass. -/
  dry : ∀ k states, DryRun s m k states → s.table.HasStates states
  /-- So does what the table leads to. -/
  closed : s.table.Closed
  /-- The next move has no lookup out of range. -/
  step : m.stepAt? s = some (m.step s)
  /-- Nor has a dry run, however long it goes on. -/
  viable : ∀ k states, DryRun s m k states → ∀ fuel,
    viableFromAt? s.table k fuel states = some (viableFrom s.table k fuel states)
  /-- A reduction of more frames than there are ends the parse. -/
  popped : ∀ p, m.reduction? s = some p → m.frames.length ≤ (s.table.production p).length →
    ∃ n, m.step s =
      .done ({ m.look n with errors := m.errors.push (.internalError m.top.stop) }.abandon s)
  /-- A dry run that takes more states than there are fails. -/
  dryPopped : ∀ k state rest p, DryRun s m k (state :: rest) →
    (s.table.action state k).move = .reduce p →
    (state :: rest).length ≤ (s.table.production p).length → ∀ fuel,
      viableFrom s.table k fuel (state :: rest) = false

theorem guarded_of_hasStates (ht : s.table.Addressable) (hm : s.table.HasStates m.states) :
    m.Guarded s where
  stack := hm
  dry _ _ h := h.hasStates ht.closed hm
  closed := ht.closed
  step := stepAt?_eq ht hm
  viable _ _ h fuel := viableFromAt?_eq ht fuel (h.hasStates ht.closed hm)
  popped _ := step_of_length_le
  dryPopped _ _ _ _ _ := viableFrom_of_length_le

/-- States that exist stay so along a run. -/
theorem Reaches.hasStates (ht : s.table.Closed) (hs : s.splice = none)
    (hm : s.table.HasStates m.states) (h : Reaches s m m') : s.table.HasStates m'.states :=
  h.keeps (P := fun m => s.table.HasStates m.states) hm fun m _ hm hstep =>
    hasStates_of_effect ht hs hm (hstep ▸ step_effect s m)

end Machine

namespace ParseTable

/-- A table that is read from a blob has no fault. -/
theorem faultless_of_ofBlob {bytes : Wire.Bytes} {t : ParseTable} (h : ofBlob bytes = .ok t) :
    t.Faultless := by
  have haccept {t' : ParseTable} (h : t'.accept = .ok t) : t.Faultless := by
    unfold accept at h
    split at h
    · cases h
    · split at h
      · cases h
      · next hfault =>
        cases h
        exact check_eq_true_iff.1 (by rw [check, hfault]; rfl)
  unfold ofBlob at h
  split at h
  · cases h
  · split at h
    · dsimp only at h
      split at h
      · cases h
      · split at h
        · cases h
        · split at h
          · exact haccept h
          · cases h
    · cases h

end ParseTable

namespace Parser

/-- **A parse with a table that is read from a blob has no lookup out of range.** -/
theorem lookups_in_range {bytes : Wire.Bytes} {t : ParseTable}
    (h : ParseTable.ofBlob bytes = .ok t) (hactions : t.actions.size < 2 ^ 32)
    (hgotos : t.gotos.size < 2 ^ 32) (options : ParseOptions) (text : String) {m : Machine}
    (hm : Machine.Reaches (fresh ⟨t, options⟩ text).setup (fresh ⟨t, options⟩ text).machine m) :
    m.Guarded (fresh ⟨t, options⟩ text).setup := by
  have ht : t.Addressable := ⟨ParseTable.faultless_of_ofBlob h, hactions, hgotos⟩
  have hstart : t.HasStates (fresh ⟨t, options⟩ text).machine.states := by
    intro state hstate
    rw [List.mem_singleton.1 hstate]
    exact Nat.pos_of_ne_zero ht.states
  exact Machine.guarded_of_hasStates ht (hm.hasStates ht.closed rfl hstart)

/-- A table that no grammar has: the first move takes more frames than there are, and ends the
parse. -/
theorem lookups_in_range_overdrawn :
    let start := fresh ⟨ParseTable.overdrawn, {}⟩ "nop"
    ParseTable.ofBlob ParseTable.overdrawn.toBlob = .ok ParseTable.overdrawn ∧
      ParseTable.overdrawn.actions.size < 2 ^ 32 ∧ ParseTable.overdrawn.gotos.size < 2 ^ 32 ∧
      start.machine.Guarded start.setup ∧
      start.machine.reduction? start.setup = some 0 ∧
      start.machine.frames.length ≤ (ParseTable.overdrawn.production 0).length := by
  have hread : ParseTable.ofBlob ParseTable.overdrawn.toBlob = .ok ParseTable.overdrawn := by
    have h := ParseTable.ofBlob_toBlob_append ParseTable.sized_overdrawn []
    rw [List.append_nil] at h
    exact h.trans (ParseTable.accept_eq_ok rfl ParseTable.check_overdrawn)
  have hactions : ParseTable.overdrawn.actions.size < 2 ^ 32 := by
    rw [ParseTable.overdrawn, Array.size_replicate]
    decide
  have hgotos : ParseTable.overdrawn.gotos.size < 2 ^ 32 := by decide
  exact ⟨hread, hactions, hgotos, lookups_in_range hread hactions hgotos {} "nop" .refl, rfl,
    by decide⟩

end Parser

end AsmTree
