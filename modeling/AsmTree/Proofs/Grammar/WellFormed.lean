import AsmTree.Grammar.Rule

/-!
# Well-formed grammars

In a well-formed grammar every nonterminal that is named is one of the grammar's own, and there are
few enough for the nonterminal of the whole input to have a number of its own. **Main statement
(`RuleSet.toGrammar_wellFormed`):** what flattening a set of rules yields is well formed, if it has
no more nonterminals than that.

Flattening only ever adds nonterminals, so a symbol that is in range stays in range.
-/

namespace AsmTree

def Symbol.InRange (n : Nat) : Symbol → Prop
  | .terminal _ => True
  | .nonterminal id => id < n

theorem Symbol.InRange.mono {m n : Nat} (h : m ≤ n) {s : Symbol} (hs : s.InRange m) :
    s.InRange n := by
  cases s with
  | terminal k => trivial
  | nonterminal id => exact Nat.lt_of_lt_of_le hs h

/-- The production forms one of `n` nonterminals from terminals and such nonterminals. -/
structure Production.InRange (n : Nat) (p : Production) : Prop where
  lhs : p.lhs < n
  rhs : ∀ s ∈ p.rhs, s.InRange n

theorem Production.InRange.mono {m n : Nat} (h : m ≤ n) {p : Production} (hp : p.InRange m) :
    p.InRange n :=
  ⟨Nat.lt_of_lt_of_le hp.lhs h, fun s hs => (hp.rhs s hs).mono h⟩

/-- Every nonterminal that the grammar names is one of its own, and the number behind theirs has not
started over. -/
structure Grammar.WellFormed (g : Grammar) : Prop where
  productions : ∀ p ∈ g.productions, p.InRange g.nonterminals.size
  start : g.start < g.nonterminals.size
  nonterminals : g.nonterminals.size < 65536

theorem Grammar.WellFormed.numberAt_size {g : Grammar} (hg : g.WellFormed) :
    Nonterminal.numberAt g.nonterminals.size = g.nonterminals.size :=
  Nat.mod_eq_of_lt hg.nonterminals

theorem Nonterminal.numberAt_lt {place n : Nat} (h : place < n) : numberAt place < n :=
  Nat.lt_of_le_of_lt (Nat.mod_le place 65536) h

namespace RuleSet

variable {definitions : List Definition} {owner : Nat}

/-! ## Runs of flattening steps -/

theorem run_bind_ok {α β : Type} {x : FlattenM α} {f : α → FlattenM β} {flat flat' : Flat}
    {b : β} :
    (x >>= f).run flat = .ok (b, flat') ↔
      ∃ a mid, x.run flat = .ok (a, mid) ∧ (f a).run mid = .ok (b, flat') := by
  rw [StateT.run_bind]
  cases hx : x.run flat with
  | error e =>
    constructor
    · intro h; cases h
    · rintro ⟨a, mid, h, -⟩; cases h
  | ok r =>
    constructor
    · intro h; exact ⟨r.1, r.2, rfl, h⟩
    · rintro ⟨a, mid, h, hf⟩
      cases h
      exact hf

theorem run_pure_ok {α : Type} {a b : α} {flat flat' : Flat} :
    (pure a : FlattenM α).run flat = .ok (b, flat') ↔ a = b ∧ flat = flat' := by
  constructor
  · intro h
    cases h
    exact ⟨rfl, rfl⟩
  · rintro ⟨rfl, rfl⟩
    rfl

/-- What has been made so far is in range, the named rules are among the nonterminals, and only they
are visible. -/
structure Flat.InRange (definitions : List Definition) (flat : Flat) : Prop where
  visible : ∀ n ∈ flat.nonterminals, ∀ k ∈ n.kind, ∃ d ∈ definitions, d.kind = some k
  definitions : definitions.length ≤ flat.nonterminals.size
  productions : ∀ p ∈ flat.productions, p.InRange flat.nonterminals.size

/-- The alternatives name only nonterminals that have been made. -/
def Alternatives (flat : Flat) (as : List Alternative) : Prop :=
  ∀ a ∈ as, ∀ s ∈ a.symbols, s.InRange flat.nonterminals.size

/-- A step keeps everything in range, adds nonterminals at most, and answers with alternatives in
range. -/
def Keeps (definitions : List Definition) (x : FlattenM (List Alternative)) : Prop :=
  ∀ flat as flat', flat.InRange definitions → x.run flat = .ok (as, flat') →
    flat'.InRange definitions ∧ flat.nonterminals.size ≤ flat'.nonterminals.size ∧
      Alternatives flat' as

theorem Alternatives.mono {flat flat' : Flat} {as : List Alternative}
    (h : flat.nonterminals.size ≤ flat'.nonterminals.size) (ha : Alternatives flat as) :
    Alternatives flat' as :=
  fun a hm s hs => (ha a hm s hs).mono h

theorem lookup_lt {name : String} {id : Nat} (h : lookup definitions name = .ok id) :
    id < definitions.length := by
  unfold lookup at h
  split at h
  · next place hp =>
    cases h
    exact Nonterminal.numberAt_lt (List.findIdx?_eq_some_iff_getElem.1 hp).1
  · cases h

theorem run_lift_ok {α : Type} {x : Except GrammarError α} {flat flat' : Flat} {a : α} :
    (liftM x : FlattenM α).run flat = .ok (a, flat') ↔ x = .ok a ∧ flat = flat' := by
  cases x with
  | error e =>
    constructor
    · intro h; cases h
    · rintro ⟨h, -⟩; cases h
  | ok b =>
    constructor
    · intro h; cases h; exact ⟨rfl, rfl⟩
    · rintro ⟨h, rfl⟩; cases h; rfl

theorem keeps_pure {as : List Alternative} (h : ∀ a ∈ as, ∀ s ∈ a.symbols, s.InRange 0) :
    Keeps definitions (pure as) := by
  intro flat as' flat' hflat hrun
  obtain ⟨rfl, rfl⟩ := run_pure_ok.1 hrun
  exact ⟨hflat, Nat.le_refl _, fun a ha s hs => (h a ha s hs).mono (Nat.zero_le _)⟩

theorem keeps_lookup (name : String) :
    Keeps definitions (do return [.ofSymbol (.nonterminal (← lookup definitions name))]) := by
  intro flat as flat' hflat h
  obtain ⟨id, mid, hl, hp⟩ := run_bind_ok.1 h
  obtain ⟨hid, rfl⟩ := run_lift_ok.1 hl
  obtain ⟨rfl, rfl⟩ := run_pure_ok.1 hp
  refine ⟨hflat, Nat.le_refl _, fun a ha s hs => ?_⟩
  rw [List.mem_singleton.1 ha, Alternative.ofSymbol] at hs
  rw [List.mem_singleton.1 hs]
  exact Nat.lt_of_lt_of_le (lookup_lt hid) hflat.definitions

theorem Keeps.map {x : FlattenM (List Alternative)} (h : Keeps definitions x)
    (f : List Alternative → List Alternative)
    (hf : ∀ as, ∀ a ∈ f as, ∀ s ∈ a.symbols, ∃ b ∈ as, s ∈ b.symbols) :
    Keeps definitions (do return f (← x)) := by
  intro flat as flat' hflat hrun
  obtain ⟨bs, mid, hx, hp⟩ := run_bind_ok.1 hrun
  obtain ⟨rfl, rfl⟩ := run_pure_ok.1 hp
  obtain ⟨hmid, hle, hbs⟩ := h _ _ _ hflat hx
  refine ⟨hmid, hle, fun a ha s hs => ?_⟩
  obtain ⟨b, hb, hsb⟩ := hf bs a ha s hs
  exact hbs b hb s hsb

/-! ## Flattening -/

theorem production_inRange {flat : Flat} {as : List Alternative} {a : Alternative} {id : Nat}
    (prefixed : List Symbol) (hid : id < flat.nonterminals.size) (has : Alternatives flat as)
    (ha : a ∈ as) (hp : ∀ s ∈ prefixed, s.InRange flat.nonterminals.size) :
    (⟨id, prefixed ++ a.symbols, a.level⟩ : Production).InRange flat.nonterminals.size := by
  refine ⟨hid, fun s hs => ?_⟩
  rcases List.mem_append.1 hs with hs | hs
  · exact hp s hs
  · exact has a ha s hs

theorem addRepetition_ok {flat flat' : Flat} {id : Nat} (hflat : flat.InRange definitions)
    (h : (addRepetition owner).run flat = .ok (id, flat')) :
    flat'.InRange definitions ∧ flat.nonterminals.size ≤ flat'.nonterminals.size ∧
      id < flat'.nonterminals.size := by
  cases h
  have hsize : flat.nonterminals.size ≤ (flat.nonterminals.size + 1) := Nat.le_succ _
  refine ⟨⟨?_, ?_, ?_⟩, ?_, ?_⟩
  · intro n hn k hk
    rcases Array.mem_push.1 hn with hn | rfl
    · exact hflat.visible n hn k hk
    · cases hk
  · simpa using Nat.le_trans hflat.definitions hsize
  · intro p hp
    simpa using (hflat.productions p hp).mono hsize
  · simp
  · simpa using Nonterminal.numberAt_lt (Nat.lt_succ_self flat.nonterminals.size)

/-- The productions of a repetition are in range. -/
theorem addRepeated_ok {flat flat' : Flat} {id : Nat} {as : List Alternative}
    (hflat : flat.InRange definitions) (hid : id < flat.nonterminals.size)
    (has : Alternatives flat as) (h : (addRepeated id as).run flat = .ok ((), flat')) :
    flat'.InRange definitions ∧ flat'.nonterminals = flat.nonterminals := by
  cases h
  refine ⟨⟨hflat.visible, hflat.definitions, ?_⟩, rfl⟩
  refine List.foldlRecOn
    (motive := fun (ps : List Production) => ∀ p ∈ ps, p.InRange flat.nonterminals.size)
    as _ hflat.productions ?_
  intro ps hps a ha p hp
  rcases List.mem_cons.1 hp with rfl | hp
  · exact production_inRange [.nonterminal id] hid has ha
      (by simpa [Symbol.InRange] using hid)
  rcases List.mem_cons.1 hp with rfl | hp
  · exact production_inRange [] hid has ha (by simp)
  · exact hps p hp

/-- A repetition: its nonterminal is made first, its productions last. -/
theorem keeps_repetition {x : FlattenM (List Alternative)} (h : Keeps definitions x)
    (answer : Nat → List Alternative)
    (hanswer : ∀ id, ∀ a ∈ answer id, ∀ s ∈ a.symbols, s = .nonterminal id) :
    Keeps definitions (do
      let id ← addRepetition owner
      addRepeated id (← x)
      return answer id) := by
  intro flat as flat' hflat hrun
  obtain ⟨id, flat₁, hid, hrun⟩ := run_bind_ok.1 hrun
  obtain ⟨bs, flat₂, hx, hrun⟩ := run_bind_ok.1 hrun
  obtain ⟨⟨⟩, flat₃, hadd, hrun⟩ := run_bind_ok.1 hrun
  obtain ⟨rfl, rfl⟩ := run_pure_ok.1 hrun
  obtain ⟨h₁, hle₁, hlt⟩ := addRepetition_ok hflat hid
  obtain ⟨h₂, hle₂, hbs⟩ := h _ _ _ h₁ hx
  obtain ⟨h₃, heq⟩ := addRepeated_ok h₂ (Nat.lt_of_lt_of_le hlt hle₂) hbs hadd
  refine ⟨h₃, ?_, fun a ha s hs => ?_⟩
  · rw [heq]
    exact Nat.le_trans hle₁ hle₂
  · rw [hanswer id a ha s hs, heq]
    exact Nat.lt_of_lt_of_le hlt hle₂

mutual

theorem keeps_flatten : ∀ r : Rule, Keeps definitions (flatten definitions owner r)
  | .blank => by
    rw [flatten]
    exact keeps_pure (by simp)
  | .token k => by
    rw [flatten]
    split
    · exact keeps_pure (by simp [Alternative.ofSymbol, Symbol.InRange])
    · intro flat as flat' hflat hrun
      cases hrun
  | .node k => by
    rw [flatten]
    exact keeps_lookup k.name
  | .rule name => by
    rw [flatten]
    exact keeps_lookup name
  | .seq parts => by
    rw [flatten]
    intro flat as flat' hflat hrun
    exact keeps_flattenSeq parts [{}] flat as flat' hflat (by simp [Alternatives]) hrun
  | .choice options => by
    rw [flatten]
    exact keeps_flattenChoice options
  | .opt body => by
    rw [flatten]
    refine (keeps_flatten body).map (fun as => as ++ [({} : Alternative)]) fun as a ha s hs => ?_
    rcases List.mem_append.1 ha with ha | ha
    · exact ⟨a, ha, hs⟩
    · rw [List.mem_singleton.1 ha] at hs
      cases hs
  | .many body => by
    rw [flatten]
    exact keeps_repetition (keeps_flatten body) (fun id => [.ofSymbol (.nonterminal id), {}])
      (by simp [Alternative.ofSymbol])
  | .many1 body => by
    rw [flatten]
    exact keeps_repetition (keeps_flatten body) (fun id => [.ofSymbol (.nonterminal id)])
      (by simp [Alternative.ofSymbol])
  | .prec level body => by
    rw [flatten]
    refine (keeps_flatten body).map (List.map fun a => { a with level := some level })
      fun as a ha s hs => ?_
    obtain ⟨b, hb, rfl⟩ := List.mem_map.1 ha
    exact ⟨b, hb, hs⟩

theorem keeps_flattenSeq : ∀ (parts : List Rule) (before : List Alternative) (flat : Flat)
    (as : List Alternative) (flat' : Flat), flat.InRange definitions →
    Alternatives flat before →
    (flattenSeq definitions owner before parts).run flat = .ok (as, flat') →
    flat'.InRange definitions ∧ flat.nonterminals.size ≤ flat'.nonterminals.size ∧
      Alternatives flat' as
  | [], before, flat, as, flat', hflat, hbefore, hrun => by
    rw [flattenSeq] at hrun
    obtain ⟨rfl, rfl⟩ := run_pure_ok.1 hrun
    exact ⟨hflat, Nat.le_refl _, hbefore⟩
  | part :: parts, before, flat, as, flat', hflat, hbefore, hrun => by
    rw [flattenSeq] at hrun
    obtain ⟨next, mid, hpart, hrest⟩ := run_bind_ok.1 hrun
    obtain ⟨hmid, hle, hnext⟩ := keeps_flatten part _ _ _ hflat hpart
    have hjoined : Alternatives mid (before.flatMap fun a => next.map a.append) := by
      intro c hc s hs
      obtain ⟨a, ha, hc⟩ := List.mem_flatMap.1 hc
      obtain ⟨b, hb, rfl⟩ := List.mem_map.1 hc
      rcases List.mem_append.1 hs with hs | hs
      · exact (hbefore a ha s hs).mono hle
      · exact hnext b hb s hs
    obtain ⟨h, hle', has⟩ := keeps_flattenSeq parts _ _ _ _ hmid hjoined hrest
    exact ⟨h, Nat.le_trans hle hle', has⟩

theorem keeps_flattenChoice : ∀ options : List Rule,
    Keeps definitions (flattenChoice definitions owner options)
  | [] => by
    rw [flattenChoice]
    exact keeps_pure (by simp)
  | option :: options => by
    rw [flattenChoice]
    intro flat as flat' hflat hrun
    obtain ⟨first, mid, hfirst, hrun⟩ := run_bind_ok.1 hrun
    obtain ⟨others, mid', hothers, hrun⟩ := run_bind_ok.1 hrun
    obtain ⟨rfl, rfl⟩ := run_pure_ok.1 hrun
    obtain ⟨hmid, hle, has⟩ := keeps_flatten option _ _ _ hflat hfirst
    obtain ⟨hmid', hle', hbs⟩ := keeps_flattenChoice options _ _ _ hmid hothers
    refine ⟨hmid', Nat.le_trans hle hle', fun a ha s hs => ?_⟩
    rcases List.mem_append.1 ha with ha | ha
    · exact (has.mono hle') a ha s hs
    · exact hbs a ha s hs

end

/-! ## Definitions -/

theorem flattenDefinition_ok {d : Definition} {id : Nat} {flat flat' : Flat}
    (hflat : flat.InRange definitions) (hid : id < definitions.length)
    (h : (flattenDefinition definitions d id).run flat = .ok ((), flat')) :
    flat'.InRange definitions := by
  obtain ⟨as, mid, hflatten, hrun⟩ := run_bind_ok.1 h
  obtain ⟨hmid, -, has⟩ := keeps_flatten d.body _ _ _ hflat hflatten
  have hlt : id < mid.nonterminals.size := Nat.lt_of_lt_of_le hid hmid.definitions
  cases hrun
  refine ⟨hmid.visible, hmid.definitions, ?_⟩
  refine List.foldlRecOn
    (motive := fun (ps : List Production) => ∀ p ∈ ps, p.InRange mid.nonterminals.size)
    as _ hmid.productions ?_
  intro ps hps a ha p hp
  rcases List.mem_cons.1 hp with rfl | hp
  · exact production_inRange [] hlt has ha (by simp)
  · exact hps p hp

theorem forM_flattenDefinition_ok (ds : List (Definition × Nat)) {flat flat' : Flat}
    (hflat : flat.InRange definitions) (hds : ∀ d ∈ ds, d.2 < definitions.length)
    (h : (ds.forM fun (d, place) =>
      flattenDefinition definitions d (Nonterminal.numberAt place)).run flat = .ok ((), flat')) :
    flat'.InRange definitions := by
  induction ds generalizing flat with
  | nil =>
    obtain ⟨-, rfl⟩ := run_pure_ok.1 h
    exact hflat
  | cons d ds ih =>
    obtain ⟨⟨⟩, mid, hd, hrest⟩ := run_bind_ok.1 h
    have hid := Nonterminal.numberAt_lt (hds d List.mem_cons_self)
    exact ih (flattenDefinition_ok hflat hid hd) (fun x hx => hds x (List.mem_cons_of_mem _ hx))
      hrest

theorem bind_ok {α β : Type} {x : Except GrammarError α} {f : α → Except GrammarError β}
    {b : β} :
    x >>= f = .ok b ↔ ∃ a, x = .ok a ∧ f a = .ok b := by
  cases x with
  | error e =>
    constructor
    · intro h; cases h
    · rintro ⟨a, h, -⟩; cases h
  | ok a =>
    constructor
    · intro h; exact ⟨a, rfl, h⟩
    · rintro ⟨a', h, hf⟩
      cases h
      exact hf

/-- What a set of rules starts from: its named nonterminals. -/
def named (rules : RuleSet) : Flat :=
  { nonterminals := (rules.definitions.map fun d => ⟨d.name, d.kind⟩).toArray }

/-- What a set of rules is made into, if it is a grammar. -/
theorem toGrammar_eq_ok {rules : RuleSet} {g : Grammar} (h : rules.toGrammar = .ok g) :
    firstRepeated? [] (rules.definitions.map Definition.name) = none ∧
      ∃ (flat : Flat) (name : String) (start : Nat) (resumePoint : Option Nat),
        (rules.definitions.zipIdx.forM fun (d, place) =>
          flattenDefinition rules.definitions d (Nonterminal.numberAt place)).run rules.named =
            .ok ((), flat) ∧
        lookup rules.definitions name = .ok start ∧
        g = {
          name := rules.name
          nonterminals := flat.nonterminals
          productions := flat.productions.reverse.toArray
          start, resumePoint
          extras := rules.extras
          levels := rules.levels } := by
  unfold toGrammar at h
  split at h
  · next name hstart =>
    split at h
    · cases h
    · next hrepeated =>
      dsimp only at h
      obtain ⟨⟨⟨⟩, flat⟩, hrun, h⟩ := bind_ok.1 h
      obtain ⟨start, hlookup, h⟩ := bind_ok.1 h
      obtain ⟨resumePoint, -, h⟩ := bind_ok.1 h
      cases h
      exact ⟨Option.eq_none_iff_forall_ne_some.2 hrepeated, flat, name, start, resumePoint, hrun,
        hlookup, rfl⟩
  · split at h
    · cases h
    · dsimp only at h
      obtain ⟨_, -, h⟩ := bind_ok.1 h
      cases h

theorem inRange_named (rules : RuleSet) : rules.named.InRange rules.definitions where
  visible := by
    intro n hn k hk
    simp only [named, List.mem_toArray, List.mem_map] at hn
    obtain ⟨d, hd, rfl⟩ := hn
    exact ⟨d, hd, hk⟩
  definitions := by simp [named]
  productions := by simp [named]

theorem inRange_of_run {rules : RuleSet} {flat : Flat}
    (h : (rules.definitions.zipIdx.forM fun (d, place) =>
      flattenDefinition rules.definitions d (Nonterminal.numberAt place)).run rules.named =
        .ok ((), flat)) : flat.InRange rules.definitions := by
  refine forM_flattenDefinition_ok rules.definitions.zipIdx rules.inRange_named ?_ h
  rintro ⟨d, place⟩ hd
  simpa using (List.mem_zipIdx hd).2.1

/-- **Flattening yields well-formed grammars**, if they have fewer than 65536 nonterminals. -/
theorem toGrammar_wellFormed {rules : RuleSet} {g : Grammar} (h : rules.toGrammar = .ok g)
    (hsize : g.nonterminals.size < 65536) : g.WellFormed := by
  obtain ⟨-, flat, name, start, resumePoint, hrun, hlookup, rfl⟩ := toGrammar_eq_ok h
  have hflat := inRange_of_run hrun
  refine ⟨fun p hp => ?_, ?_, hsize⟩
  · exact hflat.productions p (by simpa using hp)
  · exact Nat.lt_of_lt_of_le (lookup_lt hlookup) hflat.definitions

theorem exists_toGrammar (rules : RuleSet)
    (h : rules.toGrammar.toOption.any (fun g => Nat.blt g.nonterminals.size 65536) = true) :
    ∃ g, rules.toGrammar = .ok g ∧ g.nonterminals.size < 65536 := by
  cases hg : rules.toGrammar with
  | error e =>
    rw [hg] at h
    cases h
  | ok g =>
    rw [hg] at h
    exact ⟨g, rfl, Nat.le_of_ble_eq_true h⟩

theorem declared_of_toGrammar {rules : RuleSet} {g : Grammar} (h : rules.toGrammar = .ok g) :
    g.levels = rules.levels ∧ g.extras = rules.extras := by
  obtain ⟨-, flat, name, start, resumePoint, -, -, rfl⟩ := toGrammar_eq_ok h
  exact ⟨rfl, rfl⟩

theorem exists_of_kindOf? {rules : RuleSet} {g : Grammar} (h : rules.toGrammar = .ok g) {id : Nat}
    {k : Kind} (hk : g.kindOf? id = some k) : ∃ d ∈ rules.definitions, d.kind = some k := by
  obtain ⟨-, flat, name, start, resumePoint, hrun, -, rfl⟩ := toGrammar_eq_ok h
  obtain ⟨n, hn, hkind⟩ := Option.bind_eq_some_iff.1 hk
  exact (inRange_of_run hrun).visible n (Array.mem_of_getElem? hn) k hkind

end RuleSet

end AsmTree
