import AsmTree.Proofs.Grammar.Language
import AsmTree.Proofs.Grammar.WellFormed

/-!
# Flattening keeps the meaning of rules

**Main statement (`language_eq_denote`):** every named rule of a set becomes a nonterminal whose
language is the meaning of the rule.

`Flattened` says of each step of the flattening what it means for valuations of the nonterminals.
One inclusion reads it for the valuation that gives the named rules their meaning and each
repetition that of its body; the other reads it for the language of the grammar.
-/

namespace AsmTree

open Computability

/-! ## Repetitions -/

namespace Rule

mutual

/-- The bodies of the repetitions in a rule, in the order of their nonterminals. -/
def repeats : Rule → List Rule
  | .blank | .token _ | .node _ | .rule _ => []
  | .seq parts => repeatsAll parts
  | .choice options => repeatsAll options
  | .opt body => repeats body
  | .many body => body :: repeats body
  | .many1 body => body :: repeats body
  | .prec _ body => repeats body

def repeatsAll : List Rule → List Rule
  | [] => []
  | r :: rs => repeats r ++ repeatsAll rs

end

end Rule

namespace RuleSet

variable {definitions : List Definition} {owner : Nat} {flat mid flat' : Flat}
  {bodies bodies' : List Rule} {v : Valuation} {ρ : String → Language Kind}

/-- The nonterminals from number `n` on are those of the repetitions of some bodies. -/
def Repeats (v : Valuation) (ρ : String → Language Kind) (n : Nat) (bodies : List Rule) : Prop :=
  ∀ i body, bodies[i]? = some body → v (n + i) = body.denote ρ * (body.denote ρ)∗

theorem Repeats.left {n : Nat} (h : Repeats v ρ n (bodies ++ bodies')) : Repeats v ρ n bodies :=
  fun i body hi => h i body (by
    rw [List.getElem?_append_left (List.getElem?_eq_some_iff.1 hi).1]
    exact hi)

theorem Repeats.right {n : Nat} (h : Repeats v ρ n (bodies ++ bodies')) :
    Repeats v ρ (n + bodies.length) bodies' := fun i body hi => by
  rw [Nat.add_assoc]
  refine h _ _ ?_
  rw [List.getElem?_append_right (Nat.le_add_right _ _), Nat.add_sub_cancel_left]
  exact hi

/-- What flattening adds: a nonterminal for each of some bodies, and productions. Where a valuation
has the meaning of the named rules and of the repetitions, the productions hold in it. -/
structure Grows (definitions : List Definition) (flat flat' : Flat) (bodies : List Rule) :
    Prop where
  size : flat'.nonterminals.size = flat.nonterminals.size + bodies.length
  named : ∀ i < flat.nonterminals.size, flat'.nonterminals[i]? = flat.nonterminals[i]?
  kept : ∀ v : Valuation, v.Closed flat'.productions → v.Closed flat.productions
  closed : flat'.nonterminals.size ≤ 65536 → ∀ (v : Valuation) (ρ : String → Language Kind),
    (∀ name id, lookup definitions name = .ok id → v id = ρ name) →
    Repeats v ρ flat.nonterminals.size bodies → v.Closed flat.productions →
    v.Closed flat'.productions

theorem Grows.refl (flat : Flat) : Grows definitions flat flat [] :=
  ⟨rfl, fun _ _ => rfl, fun _ hv => hv, fun _ _ _ _ _ hv => hv⟩

theorem Grows.trans (h : Grows definitions flat mid bodies)
    (h' : Grows definitions mid flat' bodies') :
    Grows definitions flat flat' (bodies ++ bodies') where
  size := by rw [h'.size, h.size, List.length_append, Nat.add_assoc]
  named i hi := by rw [h'.named i (by rw [h.size]; omega), h.named i hi]
  kept v hv := h.kept v (h'.kept v hv)
  closed hsize v ρ hnames hrepeats hv := by
    have hmid : mid.nonterminals.size ≤ 65536 := by
      have hgrow := h'.size
      omega
    refine h'.closed hsize v ρ hnames ?_ (h.closed hmid v ρ hnames hrepeats.left hv)
    rw [h.size]
    exact hrepeats.right

/-- The answer of a flattening step: alternatives with the words `words`. Where a valuation has the
meaning of the named rules and of the repetitions, there are no other words; where it is closed and
has the words of the named rules, there are no fewer. -/
structure Flattened (definitions : List Definition) (flat flat' : Flat) (bodies : List Rule)
    (as : List Alternative) (words : Valuation → (String → Language Kind) → Language Kind) : Prop
    extends Grows definitions flat flat' bodies where
  le : flat'.nonterminals.size ≤ 65536 → ∀ (v : Valuation) (ρ : String → Language Kind),
    (∀ name id, lookup definitions name = .ok id → v id = ρ name) →
    Repeats v ρ flat.nonterminals.size bodies → v.alternatives as ≤ words v ρ
  ge : ∀ (v : Valuation) (ρ : String → Language Kind),
    (∀ name id, lookup definitions name = .ok id → ρ name ≤ v id) →
    v.Closed flat'.productions → words v ρ ≤ v.alternatives as

theorem Grows.size_le (h : Grows definitions flat flat' bodies) {n : Nat}
    (hle : flat'.nonterminals.size ≤ n) : flat.nonterminals.size ≤ n := by
  have hsize := h.size
  omega

theorem Flattened.congr {as : List Alternative}
    {words words' : Valuation → (String → Language Kind) → Language Kind}
    (h : Flattened definitions flat flat' bodies as words)
    (hwords : ∀ v ρ, words v ρ = words' v ρ) :
    Flattened definitions flat flat' bodies as words' := by
  obtain rfl : words = words' := funext fun v => funext fun ρ => hwords v ρ
  exact h

theorem flattened_pure {as : List Alternative}
    {words : Valuation → (String → Language Kind) → Language Kind}
    (h : ∀ v ρ, v.alternatives as = words v ρ) : Flattened definitions flat flat [] as words where
  toGrows := .refl flat
  le _ v ρ _ _ := le_of_eq (h v ρ)
  ge v ρ _ _ := le_of_eq (h v ρ).symm

theorem flattened_lookup {name : String} {as : List Alternative}
    (h : (do return [.ofSymbol (.nonterminal (← lookup definitions name))] :
      FlattenM (List Alternative)).run flat = .ok (as, flat')) :
    Flattened definitions flat flat' [] as fun _ ρ => ρ name := by
  obtain ⟨id, mid, hl, hp⟩ := run_bind_ok.1 h
  obtain ⟨hid, rfl⟩ := run_lift_ok.1 hl
  obtain ⟨rfl, rfl⟩ := run_pure_ok.1 hp
  refine ⟨.refl _, fun _ v ρ hnames _ => ?_, fun v ρ hnames _ => ?_⟩
  · rw [Valuation.alternatives_ofSymbol]
    exact le_of_eq (hnames name id hid)
  · rw [Valuation.alternatives_ofSymbol]
    exact hnames name id hid

/-- An answer with other words, as many for every valuation. -/
theorem Flattened.map {as as' : List Alternative}
    {words words' : Valuation → (String → Language Kind) → Language Kind}
    (h : Flattened definitions flat flat' bodies as words) (f : Language Kind → Language Kind)
    (hf : Monotone f) (has : ∀ v, Valuation.alternatives v as' = f (v.alternatives as))
    (hwords : ∀ v ρ, words' v ρ = f (words v ρ)) :
    Flattened definitions flat flat' bodies as' words' where
  toGrows := h.toGrows
  le hsize v ρ hnames hrepeats := by
    rw [has, hwords]
    exact hf (h.le hsize v ρ hnames hrepeats)
  ge v ρ hnames hv := by
    rw [has, hwords]
    exact hf (h.ge v ρ hnames hv)

/-! ### Repetitions -/

/-- The productions of a repetition hold where its nonterminal has the words of the body and, behind
its own words, those again. -/
theorem closed_addRepeated {id : Nat} {as : List Alternative} {ps : List Production} :
    v.Closed (as.foldl (fun ps a =>
        ⟨id, .nonterminal id :: a.symbols, a.level⟩ :: ⟨id, a.symbols, a.level⟩ :: ps) ps) ↔
      v.Closed ps ∧ v.alternatives as ≤ v id ∧ v id * v.alternatives as ≤ v id := by
  induction as generalizing ps with
  | nil => simp
  | cons a as ih =>
    rw [List.foldl_cons, ih, Valuation.closed_cons, Valuation.closed_cons,
      Valuation.alternatives_cons, mul_add, add_le_iff, add_le_iff, Valuation.symbols_cons]
    constructor
    · rintro ⟨⟨hmore, hone, hps⟩, has, has'⟩
      exact ⟨hps, ⟨hone, has⟩, hmore, has'⟩
    · rintro ⟨hps, ⟨hone, has⟩, hmore, has'⟩
      exact ⟨⟨hmore, hone, hps⟩, has, has'⟩

/-- The nonterminal of a repetition has the words of the body, one or more behind each other. -/
theorem flattened_repetition {x : FlattenM (List Alternative)} {body : Rule}
    (hx : ∀ flat as flat', x.run flat = .ok (as, flat') →
      Flattened definitions flat flat' body.repeats as fun _ ρ => body.denote ρ)
    (answer : Nat → List Alternative) {as : List Alternative}
    (h : (do
      let id ← addRepetition owner
      addRepeated id (← x)
      return answer id : FlattenM (List Alternative)).run flat = .ok (as, flat')) :
    ∃ id, as = answer id ∧ Flattened definitions flat flat' (body :: body.repeats)
      [.ofSymbol (.nonterminal id)] fun _ ρ => body.denote ρ * (body.denote ρ)∗ := by
  obtain ⟨id, flat₁, hid, h⟩ := run_bind_ok.1 h
  obtain ⟨bs, flat₂, hbody, h⟩ := run_bind_ok.1 h
  obtain ⟨⟨⟩, flat₃, hadd, h⟩ := run_bind_ok.1 h
  obtain ⟨rfl, rfl⟩ := run_pure_ok.1 h
  refine ⟨id, rfl, ?_⟩
  have hflat := hx _ _ _ hbody
  cases hid
  cases hadd
  have hsize := hflat.size
  rw [Array.size_push] at hsize
  -- the nonterminal of the repetition is the first of the new ones
  have hrest {v : Valuation} {ρ : String → Language Kind}
      (hr : Repeats v ρ flat.nonterminals.size (body :: body.repeats)) :
      v flat.nonterminals.size = body.denote ρ * (body.denote ρ)∗ ∧
        Repeats v ρ (flat.nonterminals.size + 1) body.repeats :=
    ⟨hr 0 body rfl, (show Repeats v ρ _ ([body] ++ body.repeats) from hr).right⟩
  have hnumber (hle : flat₂.nonterminals.size ≤ 65536) :
      Nonterminal.numberAt flat.nonterminals.size = flat.nonterminals.size :=
    Nat.mod_eq_of_lt (by omega)
  refine ⟨⟨?_, fun i hi => ?_, fun v hv => ?_, fun hle v ρ hnames hr hv => ?_⟩,
    fun hle v ρ hnames hr => ?_, fun v ρ hnames hv => ?_⟩
  · show flat₂.nonterminals.size = _
    rw [hsize, List.length_cons]
    omega
  · show flat₂.nonterminals[i]? = _
    rw [hflat.named i (by rw [Array.size_push]; omega), Array.getElem?_push,
      if_neg (Nat.ne_of_lt hi)]
  · exact hflat.kept v (closed_addRepeated.1 hv).1
  · obtain ⟨hv₀, hr'⟩ := hrest hr
    rw [← Array.size_push] at hr'
    have has := hflat.le hle v ρ hnames hr'
    refine closed_addRepeated.2 ⟨hflat.closed hle v ρ hnames hr' hv, ?_⟩
    rw [hnumber hle, hv₀]
    constructor
    · exact le_trans has (le_mul_of_one_le_right' one_le_kstar)
    · rw [mul_assoc]
      refine mul_le_mul_right ?_ _
      exact le_trans (mul_le_mul_right has _) kstar_mul_le_kstar
  · rw [Valuation.alternatives_ofSymbol, hnumber hle]
    exact le_of_eq (hrest hr).1
  · obtain ⟨hv, hone, hmore⟩ := closed_addRepeated.1 hv
    have has := hflat.ge v ρ hnames hv
    rw [Valuation.alternatives_ofSymbol]
    exact mul_kstar_le (le_trans has hone) (le_trans (mul_le_mul_right has _) hmore)

/-! ### Rules -/

mutual

theorem flattened_flatten (r : Rule) (flat : Flat) (as : List Alternative) (flat' : Flat)
    (h : (flatten definitions owner r).run flat = .ok (as, flat')) :
    Flattened definitions flat flat' r.repeats as fun _ ρ => r.denote ρ := by
  cases r with
  | blank =>
    rw [flatten] at h
    obtain ⟨rfl, rfl⟩ := run_pure_ok.1 h
    exact flattened_pure fun v _ => v.alternatives_empty
  | token k =>
    rw [flatten] at h
    split at h
    · obtain ⟨rfl, rfl⟩ := run_pure_ok.1 h
      exact flattened_pure fun v _ => v.alternatives_ofSymbol _
    · cases h
  | node k =>
    rw [flatten] at h
    exact flattened_lookup h
  | rule name =>
    rw [flatten] at h
    exact flattened_lookup h
  | seq parts =>
    rw [flatten] at h
    have hseq := flattened_flattenSeq parts [{}] flat as flat' h
    exact hseq.congr fun v ρ => by rw [v.alternatives_empty, one_mul]; rfl
  | choice options =>
    rw [flatten] at h
    exact flattened_flattenChoice options flat as flat' h
  | opt body =>
    rw [flatten] at h
    obtain ⟨bs, mid, hbody, h⟩ := run_bind_ok.1 h
    obtain ⟨rfl, rfl⟩ := run_pure_ok.1 h
    refine (flattened_flatten body _ _ _ hbody).map (· + 1) (fun a b hab => add_le_add_left hab 1)
      (fun v => ?_) fun v ρ => rfl
    rw [v.alternatives_append, v.alternatives_empty]
  | many body =>
    rw [flatten] at h
    obtain ⟨id, rfl, hrepeat⟩ := flattened_repetition (flattened_flatten body)
      (fun id => [.ofSymbol (.nonterminal id), {}]) h
    refine hrepeat.map (· + 1) (fun a b hab => add_le_add_left hab 1) (fun v => ?_) fun v ρ => ?_
    · exact (v.alternatives_append [.ofSymbol (.nonterminal id)] [{}]).trans
        (congrArg _ v.alternatives_empty)
    · rw [add_comm, one_add_mul_kstar]
      rfl
  | many1 body =>
    rw [flatten] at h
    obtain ⟨id, rfl, hrepeat⟩ := flattened_repetition (flattened_flatten body)
      (fun id => [.ofSymbol (.nonterminal id)]) h
    exact hrepeat
  | prec level body =>
    rw [flatten] at h
    obtain ⟨bs, mid, hbody, h⟩ := run_bind_ok.1 h
    obtain ⟨rfl, rfl⟩ := run_pure_ok.1 h
    exact (flattened_flatten body _ _ _ hbody).map id monotone_id
      (fun v => v.alternatives_map_level _ _) fun v ρ => rfl

theorem flattened_flattenSeq (parts : List Rule) (before : List Alternative) (flat : Flat)
    (as : List Alternative) (flat' : Flat)
    (h : (flattenSeq definitions owner before parts).run flat = .ok (as, flat')) :
    Flattened definitions flat flat' (Rule.repeatsAll parts) as
      fun v ρ => v.alternatives before * Rule.denoteSeq ρ parts := by
  cases parts with
  | nil =>
    rw [flattenSeq] at h
    obtain ⟨rfl, rfl⟩ := run_pure_ok.1 h
    exact flattened_pure fun v _ => (mul_one _).symm
  | cons part parts =>
    rw [flattenSeq] at h
    obtain ⟨bs, mid, hpart, hrest⟩ := run_bind_ok.1 h
    have hfirst := flattened_flatten part _ _ _ hpart
    have hparts := flattened_flattenSeq parts _ _ _ _ hrest
    refine ⟨hfirst.trans hparts.toGrows, fun hle v ρ hnames hr => ?_, fun v ρ hnames hv => ?_⟩
    · have hbs := hfirst.le (hparts.size_le hle) v ρ hnames hr.left
      refine le_trans (hparts.le hle v ρ hnames (hfirst.size ▸ hr.right)) ?_
      rw [v.alternatives_flatMap_append, mul_assoc]
      exact mul_le_mul_right (mul_le_mul_left hbs _) _
    · have hbs := hfirst.ge v ρ hnames (hparts.kept v hv)
      refine le_trans ?_ (hparts.ge v ρ hnames hv)
      rw [v.alternatives_flatMap_append, mul_assoc]
      exact mul_le_mul_right (mul_le_mul_left hbs _) _

theorem flattened_flattenChoice (options : List Rule) (flat : Flat) (as : List Alternative)
    (flat' : Flat) (h : (flattenChoice definitions owner options).run flat = .ok (as, flat')) :
    Flattened definitions flat flat' (Rule.repeatsAll options) as
      fun _ ρ => Rule.denoteChoice ρ options := by
  cases options with
  | nil =>
    rw [flattenChoice] at h
    obtain ⟨rfl, rfl⟩ := run_pure_ok.1 h
    exact flattened_pure fun _ _ => rfl
  | cons option options =>
    rw [flattenChoice] at h
    obtain ⟨bs, mid, hoption, h⟩ := run_bind_ok.1 h
    obtain ⟨cs, mid', hrest, h⟩ := run_bind_ok.1 h
    obtain ⟨rfl, rfl⟩ := run_pure_ok.1 h
    have hfirst := flattened_flatten option _ _ _ hoption
    have hothers := flattened_flattenChoice options _ _ _ hrest
    refine ⟨hfirst.trans hothers.toGrows, fun hle v ρ hnames hr => ?_, fun v ρ hnames hv => ?_⟩
    · rw [v.alternatives_append]
      exact add_le_add (hfirst.le (hothers.size_le hle) v ρ hnames hr.left)
        (hothers.le hle v ρ hnames (hfirst.size ▸ hr.right))
    · rw [v.alternatives_append]
      exact add_le_add (hfirst.ge v ρ hnames (hothers.kept v hv)) (hothers.ge v ρ hnames hv)

end

/-! ### Definitions -/

theorem closed_definition {id : Nat} {as : List Alternative} {ps : List Production} :
    v.Closed (as.foldl (fun ps a => ⟨id, a.symbols, a.level⟩ :: ps) ps) ↔
      v.Closed ps ∧ v.alternatives as ≤ v id := by
  induction as generalizing ps with
  | nil => simp
  | cons a as ih =>
    rw [List.foldl_cons, ih, Valuation.closed_cons, Valuation.alternatives_cons, add_le_iff]
    tauto

/-- What the definitions `ds`, each with its place, add to the grammar. -/
structure Defined (definitions : List Definition) (ds : List (Definition × Nat))
    (flat flat' : Flat) : Prop where
  size : flat'.nonterminals.size =
    flat.nonterminals.size + (ds.flatMap (·.1.body.repeats)).length
  named : ∀ i < flat.nonterminals.size, flat'.nonterminals[i]? = flat.nonterminals[i]?
  kept : ∀ v : Valuation, v.Closed flat'.productions → v.Closed flat.productions
  closed : flat'.nonterminals.size ≤ 65536 → ∀ (v : Valuation) (ρ : String → Language Kind),
    (∀ name id, lookup definitions name = .ok id → v id = ρ name) →
    (∀ d ∈ ds, v (Nonterminal.numberAt d.2) = d.1.body.denote ρ) →
    Repeats v ρ flat.nonterminals.size (ds.flatMap (·.1.body.repeats)) →
    v.Closed flat.productions → v.Closed flat'.productions
  ge : ∀ (v : Valuation) (ρ : String → Language Kind),
    (∀ name id, lookup definitions name = .ok id → ρ name ≤ v id) →
    v.Closed flat'.productions →
    ∀ d ∈ ds, d.1.body.denote ρ ≤ v (Nonterminal.numberAt d.2)

theorem defined_flattenDefinition {d : Definition} {place : Nat}
    (h : (flattenDefinition definitions d (Nonterminal.numberAt place)).run flat =
      .ok ((), flat')) : Defined definitions [(d, place)] flat flat' := by
  obtain ⟨as, mid, hbody, hrun⟩ := run_bind_ok.1 h
  have hflat := flattened_flatten d.body _ _ _ hbody
  cases hrun
  refine ⟨?_, hflat.named, fun v hv => ?_, fun hle v ρ hnames hd hr hv => ?_,
    fun v ρ hnames hv x hx => ?_⟩
  · simpa using hflat.size
  · exact hflat.kept v (closed_definition.1 hv).1
  · have hr' : Repeats v ρ flat.nonterminals.size d.body.repeats := by simpa using hr
    refine closed_definition.2 ⟨hflat.closed hle v ρ hnames hr' hv, ?_⟩
    rw [hd _ List.mem_cons_self]
    exact hflat.le hle v ρ hnames hr'
  · obtain rfl := List.mem_singleton.1 hx
    obtain ⟨hv, has⟩ := closed_definition.1 hv
    exact le_trans (hflat.ge v ρ hnames hv) has

theorem defined_forM (ds : List (Definition × Nat)) {flat flat' : Flat}
    (h : (ds.forM fun (d, place) =>
      flattenDefinition definitions d (Nonterminal.numberAt place)).run flat = .ok ((), flat')) :
    Defined definitions ds flat flat' := by
  induction ds generalizing flat with
  | nil =>
    obtain ⟨-, rfl⟩ := run_pure_ok.1 h
    exact ⟨rfl, fun _ _ => rfl, fun _ hv => hv, fun _ _ _ _ _ _ hv => hv,
      fun _ _ _ _ _ hd => by cases hd⟩
  | cons d ds ih =>
    obtain ⟨⟨⟩, mid, hd, hrest⟩ := run_bind_ok.1 h
    have hfirst := defined_flattenDefinition hd
    have hothers := ih hrest
    have hsize : mid.nonterminals.size = flat.nonterminals.size + d.1.body.repeats.length := by
      simpa using hfirst.size
    refine ⟨?_, fun i hi => ?_, fun v hv => ?_, fun hle v ρ hnames hown hr hv => ?_,
      fun v ρ hnames hv x hx => ?_⟩
    · rw [hothers.size, hsize, List.flatMap_cons, List.length_append, Nat.add_assoc]
    · rw [hothers.named i (by omega), hfirst.named i hi]
    · exact hfirst.kept v (hothers.kept v hv)
    · rw [List.flatMap_cons] at hr
      have hmid : mid.nonterminals.size ≤ 65536 := by
        have hgrow := hothers.size
        omega
      refine hothers.closed hle v ρ hnames (fun x hx => hown x (List.mem_cons_of_mem _ hx))
        (by rw [hsize]; exact hr.right) ?_
      refine hfirst.closed hmid v ρ hnames (fun x hx => hown x ?_) (by simpa using hr.left) hv
      rw [List.mem_singleton.1 hx]
      exact List.mem_cons_self
    · rcases List.mem_cons.1 hx with rfl | hx
      · exact hfirst.ge v ρ hnames (hothers.kept v hv) x (List.mem_singleton_self x)
      · exact hothers.ge v ρ hnames hv x hx

/-! ### Sets of rules -/

/-- Names that are not repeated are different. -/
theorem nodup_of_firstRepeated? {before names : List String}
    (h : firstRepeated? before names = none) :
    names.Nodup ∧ ∀ name ∈ names, name ∉ before := by
  induction names generalizing before with
  | nil => exact ⟨.nil, by simp⟩
  | cons name names ih =>
    rw [firstRepeated?] at h
    split at h
    · cases h
    · next hrepeated =>
      obtain ⟨hnodup, hbefore⟩ := ih h
      have hname : name ∉ before := by
        intro hmem
        rw [repeatedName?, if_pos (by simpa using hmem)] at hrepeated
        cases hrepeated
      refine ⟨List.nodup_cons.2 ⟨fun hmem => hbefore name hmem List.mem_cons_self, hnodup⟩, ?_⟩
      intro x hx
      rcases List.mem_cons.1 hx with rfl | hx
      · exact hname
      · exact fun hmem => hbefore x hx (List.mem_cons_of_mem _ hmem)

section Names

variable {rules : RuleSet} (hnames : (rules.definitions.map Definition.name).Nodup)

include hnames

/-- The meaning of a named rule is that of its body. -/
theorem meaning_eq {d : Definition} (hd : d ∈ rules.definitions) :
    rules.meaning d.name = d.body.denote rules.meaning := by
  have hfind : rules.definitions.find? (·.name == d.name) = some d := by
    cases hf : rules.definitions.find? (·.name == d.name) with
    | none => exact absurd (List.find?_eq_none.1 hf d hd) (by simp)
    | some d' =>
      have hname : d'.name = d.name := by simpa using List.find?_some hf
      rw [List.inj_on_of_nodup_map hnames (List.mem_of_find?_eq_some hf) hd hname]
  have hfix := congrFun (OrderHom.map_lfp rules.equations) d.name
  rw [show rules.equations.lfp = rules.meaning from rfl] at hfix
  rw [← hfix]
  show rules.equations.toFun rules.meaning d.name = _
  unfold equations
  dsimp only
  rw [hfind]

/-- The first definition with a name is the only one. -/
theorem findIdx?_name {d : Definition} {place : Nat} (hd : rules.definitions[place]? = some d) :
    rules.definitions.findIdx? (·.name == d.name) = some place := by
  obtain ⟨hlt, rfl⟩ := List.getElem?_eq_some_iff.1 hd
  refine List.findIdx?_eq_some_iff_getElem.2 ⟨hlt, by simp, fun i hi => ?_⟩
  have hne := List.pairwise_iff_getElem.1 hnames i place (by simp; omega) (by simpa using hlt) hi
  simpa using hne

end Names

theorem defined_of_toGrammar {rules : RuleSet} {g : Grammar} (h : rules.toGrammar = .ok g) :
    (rules.definitions.map Definition.name).Nodup ∧ ∃ flat : Flat,
      flat.nonterminals = g.nonterminals ∧ flat.productions = g.productions.toList.reverse ∧
      Defined rules.definitions rules.definitions.zipIdx
        ⟨(rules.definitions.map fun d => ⟨d.name, d.kind⟩).toArray, []⟩ flat := by
  obtain ⟨hnone, flat, name, start, resumePoint, hrun, -, rfl⟩ := toGrammar_eq_ok h
  exact ⟨(nodup_of_firstRepeated? hnone).1, flat, rfl, by simp, defined_forM _ hrun⟩

/-- The meaning of a set of rules as a valuation: the named rules first, then the repetitions. -/
def valuation (rules : RuleSet) : Valuation := fun id =>
  match rules.definitions[id]? with
  | some d => rules.meaning d.name
  | none =>
    match (rules.definitions.flatMap (·.body.repeats))[id - rules.definitions.length]? with
    | some body => body.denote rules.meaning * (body.denote rules.meaning)∗
    | none => 0

/-- The words that a grammar derives from the named rules. -/
def derived (rules : RuleSet) (g : Grammar) (name : String) : Language Kind :=
  match rules.definitions.findIdx? (·.name == name) with
  | some place => g.language place
  | none => 0

section Flattening

variable {rules : RuleSet} {g : Grammar} (h : rules.toGrammar = .ok g)
  (hsize : g.nonterminals.size < 65536)

include h

theorem length_definitions_le : rules.definitions.length ≤ g.nonterminals.size := by
  obtain ⟨-, flat, hnonterminals, -, hdefined⟩ := defined_of_toGrammar h
  have hgrow := hdefined.size
  rw [hnonterminals] at hgrow
  simp only [List.size_toArray, List.length_map] at hgrow
  omega

/-- The named rules keep their places. -/
theorem nonterminal?_eq {d : Definition} {place : Nat} (hd : rules.definitions[place]? = some d) :
    g.nonterminal? d.name = some (Nonterminal.numberAt place) := by
  obtain ⟨hnames, flat, hnonterminals, -, hdefined⟩ := defined_of_toGrammar h
  have hle := length_definitions_le h
  obtain ⟨hlt, hget, hbefore⟩ := List.findIdx?_eq_some_iff_getElem.1 (findIdx?_name hnames hd)
  have hnamed (i : Nat) (hi : i < rules.definitions.length) (hi' : i < g.nonterminals.size) :
      g.nonterminals[i].name = rules.definitions[i].name := by
    have hkept := hdefined.named i (by simpa using hi)
    rw [hnonterminals, Array.getElem?_eq_getElem (by omega)] at hkept
    simp only [List.getElem?_toArray, List.getElem?_map, List.getElem?_eq_getElem hi,
      Option.map_some, Option.some.injEq] at hkept
    rw [hkept]
  have hplace : place < g.nonterminals.size := by omega
  rw [Grammar.nonterminal?, Array.findIdx?_eq_some_iff_getElem.2 ⟨hplace, ?_, ?_⟩]
  · rfl
  · rw [hnamed place hlt hplace]
    exact hget
  · intro i hi
    rw [hnamed i (by omega) (by omega)]
    exact hbefore i hi

include hsize

theorem numberAt_place {place : Nat} (hlt : place < rules.definitions.length) :
    Nonterminal.numberAt place = place :=
  Nat.mod_eq_of_lt (by have hle := length_definitions_le h; omega)

theorem lookup_eq_ok {name : String} {id : Nat} (hl : lookup rules.definitions name = .ok id) :
    rules.definitions.findIdx? (·.name == name) = some id ∧
      ∃ d, rules.definitions[id]? = some d ∧ d.name = name := by
  unfold lookup at hl
  split at hl
  · next place hfind =>
    obtain ⟨hlt, hname, -⟩ := List.findIdx?_eq_some_iff_getElem.1 hfind
    cases hl
    rw [numberAt_place h hsize hlt]
    exact ⟨hfind, _, List.getElem?_eq_getElem hlt, by simpa using hname⟩
  · cases hl

/-- **The grammar derives no other words than those of the rules.** -/
theorem closed_valuation : rules.valuation.Closed g.productions.toList := by
  obtain ⟨hnames, flat, hnonterminals, hproductions, hdefined⟩ := defined_of_toGrammar h
  have hclosed := hdefined.closed (by rw [hnonterminals]; omega) rules.valuation rules.meaning
    ?_ ?_ ?_ (fun p hp => by cases hp)
  · intro p hp
    exact hclosed p (by rw [hproductions]; exact List.mem_reverse.2 hp)
  · intro name id hl
    obtain ⟨-, d, hd, rfl⟩ := lookup_eq_ok h hsize hl
    rw [valuation, hd]
  · rintro ⟨d, place⟩ hd
    have hd := List.mem_zipIdx_iff_getElem?.1 hd
    obtain ⟨hlt, -⟩ := List.getElem?_eq_some_iff.1 hd
    rw [numberAt_place h hsize hlt, valuation, hd]
    exact meaning_eq hnames (List.mem_of_getElem? hd)
  · intro i body hi
    have hn : (rules.definitions.map fun d =>
        (⟨d.name, d.kind⟩ : Nonterminal)).toArray.size = rules.definitions.length := by simp
    have hbody : (rules.definitions.flatMap (·.body.repeats))[i]? = some body := by
      rw [← hi, ← List.flatMap_map Prod.fst fun d : Definition => d.body.repeats,
        List.zipIdx_map_fst]
    rw [hn, valuation, List.getElem?_eq_none (Nat.le_add_right _ _), Nat.add_sub_cancel_left]
    simp only [hbody]

/-- **The grammar derives all words of the rules.** -/
theorem meaning_le_derived : rules.meaning ≤ rules.derived g := by
  obtain ⟨hnames, flat, -, hproductions, hdefined⟩ := defined_of_toGrammar h
  refine OrderHom.lfp_le _ fun name => ?_
  show (match rules.definitions.find? (·.name == name) with
    | some d => d.body.denote (rules.derived g)
    | none => 0) ≤ _
  split
  · next d hfind =>
    obtain rfl : d.name = name := by simpa using List.find?_some hfind
    obtain ⟨place, hd⟩ := List.getElem?_of_mem (List.mem_of_find?_eq_some hfind)
    obtain ⟨hlt, -⟩ := List.getElem?_eq_some_iff.1 hd
    have hge := hdefined.ge g.language (rules.derived g) ?_ ?_ (d, place)
      (List.mem_zipIdx_iff_getElem?.2 hd)
    · rw [numberAt_place h hsize hlt] at hge
      rw [derived, findIdx?_name hnames hd]
      exact hge
    · intro name id hl
      rw [derived, (lookup_eq_ok h hsize hl).1]
    · intro p hp
      exact g.closed_language p (by rw [hproductions] at hp; exact List.mem_reverse.1 hp)
  · exact zero_le

/-- **Flattening keeps the meaning of rules:** with fewer than 65536 nonterminals, the words that
the nonterminal of a named rule derives are the words of the rule. -/
theorem language_eq_denote {d : Definition} (hd : d ∈ rules.definitions) :
    ∃ id, g.nonterminal? d.name = some id ∧ g.language id = d.body.denote rules.meaning := by
  obtain ⟨hnames, -⟩ := defined_of_toGrammar h
  obtain ⟨place, hplace⟩ := List.getElem?_of_mem hd
  obtain ⟨hlt, -⟩ := List.getElem?_eq_some_iff.1 hplace
  refine ⟨place, ?_, le_antisymm ?_ ?_⟩
  · rw [nonterminal?_eq h hplace, numberAt_place h hsize hlt]
  · have hle := Grammar.language_le (closed_valuation h hsize) place
    rw [valuation, hplace] at hle
    rwa [← meaning_eq hnames hd]
  · have hge := meaning_le_derived h hsize d.name
    rw [derived, findIdx?_name hnames hplace] at hge
    rwa [← meaning_eq hnames hd]

end Flattening

/-- Lists in parentheses. -/
def nested : RuleSet where
  name := "nested"
  start := "_list"
  definitions := [.hidden "_list" (.many (.opt (.many1 (.choice [.token .plus,
    .seq [.token .lParen, .rule "_list", .prec 1 (.token .rParen)]]))))]

/-- Repetitions of what may be empty, and a rule within itself. -/
theorem language_eq_denote_nested : ∃ g, nested.toGrammar = .ok g ∧
    g.nonterminals.size < 65536 ∧ ∀ d ∈ nested.definitions, ∃ id, g.nonterminal? d.name = some id ∧
      g.language id = d.body.denote nested.meaning := by
  have hok : (nested.toGrammar.toOption.any fun g => Nat.blt g.nonterminals.size 65536) = true := by
    decide +kernel
  cases h : nested.toGrammar with
  | error e =>
    rw [h] at hok
    cases hok
  | ok g =>
    rw [h] at hok
    have hsize : g.nonterminals.size < 65536 := by simpa [Except.toOption] using hok
    exact ⟨g, rfl, hsize, fun d hd => language_eq_denote h hsize hd⟩

end RuleSet

end AsmTree
