import AsmTree.Proofs.Grammar.Rows
import AsmTree.Proofs.Machine.Sentences
import AsmTree.Proofs.Tree.Subtrees
import AsmTree.View.Line

/-!
# Outlines

The outline of a file lists its items and, behind each block, the items in the block, those in the
clauses of a condition included. It is read off the views of nodes, from items to items.

**Main statements (`listed_eq_told`, `listed_file`):** where every node has a row below it, the
outline lists the labels and statements of the tree, each once and in the order of the text.
-/

namespace AsmTree

open AsmTree.Tree

/-! ## Rows below trees -/

def Stage.tree? (stage : Stage) : Tree → Option Stage
  | .token k _ => some (stage.token k)
  | .node k _ => stage.node? k

namespace Tree

/-- The trees below a node of a kind are a row. -/
def InRow (k : Kind) (cs : List Tree) : Prop :=
  ∃ stage, cs.foldlM Stage.tree? .header = some stage ∧ stage.closes k = true

variable {isExtra : Kind → Bool}

/-- Extras do not count in a row. -/
theorem foldlM_shape (hextra : isExtra .newline = false) {t : Tree} (h : t.lacks .error = true)
    (stage : Stage) : (t.shape isExtra).foldlM Stage.shape? stage = stage.tree? t := by
  cases t with
  | token k text =>
    rw [shape]
    split
    · next hk =>
      have hne : k ≠ .newline := by
        rintro rfl
        rw [hextra] at hk
        cases hk
      simp [Stage.tree?, Stage.token, hne]
    · simp [Stage.tree?, Stage.shape?]
  | node k cs =>
    rw [lacks, Bool.and_eq_true, bne_iff_ne] at h
    rw [shape, if_neg h.1]
    simp [Stage.tree?, Stage.shape?]

theorem foldlM_shapeAll (hextra : isExtra .newline = false) {ts : List Tree}
    (h : lacksAll .error ts = true) (stage : Stage) :
    (shapeAll isExtra ts).foldlM Stage.shape? stage = ts.foldlM Stage.tree? stage := by
  induction ts generalizing stage with
  | nil => rfl
  | cons t ts ih =>
    rw [lacksAll, Bool.and_eq_true] at h
    rw [shapeAll_cons, List.foldlM_append, foldlM_shape hextra h.1, List.foldlM_cons]
    exact congrArg _ (funext fun stage => ih h.2 stage)

mutual

/-- **A tree whose shape has rows has rows.** -/
theorem everywhere_inRow (hextra : isExtra .newline = false) (t : Tree)
    (h : t.lacks .error = true) (hrows : Shape.RowedAll (t.shape isExtra)) :
    t.Everywhere InRow := by
  cases t with
  | token k text => trivial
  | node k cs =>
    rw [lacks, Bool.and_eq_true, bne_iff_ne] at h
    rw [shape, if_neg h.1] at hrows
    obtain ⟨⟨⟨stage, hstage, hcloses⟩, hrows⟩, -⟩ := hrows
    rw [foldlM_shapeAll hextra h.2] at hstage
    exact ⟨⟨stage, hstage, hcloses⟩, everywhereAll_inRow hextra cs h.2 hrows⟩

theorem everywhereAll_inRow (hextra : isExtra .newline = false) (ts : List Tree)
    (h : lacksAll .error ts = true) (hrows : Shape.RowedAll (shapeAll isExtra ts)) :
    EverywhereAll InRow ts := by
  cases ts with
  | nil => trivial
  | cons t ts =>
    rw [lacksAll, Bool.and_eq_true] at h
    rw [shapeAll_cons, Shape.rowedAll_append] at hrows
    exact ⟨everywhere_inRow hextra t h.1 hrows.1, everywhereAll_inRow hextra ts h.2 hrows.2⟩

end

end Tree

namespace Located

variable {l x : Located} {i : LineItem} {xs : List Located} {stage stage' : Stage}

/-! ## From items to items -/

def clauses (l : Located) : List Located :=
  if l.kind = .ifBlock then
    (View.IfBlock.of l).elifClauses ++ (View.IfBlock.of l).elseClause.toList
  else []

/-- The items in a block, those in the clauses of a condition included. -/
def inner (l : Located) : List LineItem :=
  (View.Block.of l).items ++ l.clauses.flatMap bodyItems

theorem size_le_sizeAll {t : Tree} {ts : List Tree} (h : t ∈ ts) : t.size ≤ sizeAll ts := by
  induction ts with
  | nil => cases h
  | cons t' ts ih =>
    rw [sizeAll]
    rcases List.mem_cons.1 h with rfl | h
    · exact Nat.le_add_right _ _
    · exact Nat.le_trans (ih h) (Nat.le_add_left _ _)

theorem size_lt_of_mem_children (h : x ∈ l.children) : x.tree.size < l.tree.size := by
  have hmem : x.tree ∈ l.tree.children := by
    rw [← map_tree_children]
    exact List.mem_map_of_mem h
  cases ht : l.tree with
  | token k text =>
    rw [ht] at hmem
    cases hmem
  | node k cs =>
    rw [ht] at hmem
    rw [Tree.size]
    exact Nat.lt_one_add_iff.2 (size_le_sizeAll hmem)

theorem mem_of_mem_itemsAmong (h : i ∈ itemsAmong xs) : i.node ∈ xs := by
  obtain ⟨x, hx, hi⟩ := List.mem_filterMap.1 h
  split at hi
  · cases hi
  · obtain ⟨c, -, rfl⟩ := Option.map_eq_some_iff.1 hi
    exact hx

theorem mem_children_of_mem_nodesOf {k : Kind} (h : x ∈ l.nodesOf k) : x ∈ l.children :=
  List.mem_of_mem_filter (List.mem_of_mem_filter h)

theorem mem_children_of_mem_clauses (h : x ∈ l.clauses) : x ∈ l.children := by
  unfold clauses at h
  split at h
  · rcases List.mem_append.1 h with h | h
    · exact mem_children_of_mem_nodesOf h
    · exact mem_children_of_mem_nodesOf (List.mem_of_mem_head? (Option.mem_toList.1 h))
  · cases h

theorem size_lt_of_mem_bodyItems (h : i ∈ l.bodyItems) : i.node.tree.size < l.tree.size :=
  size_lt_of_mem_children ((List.dropWhile_sublist _).subset (mem_of_mem_itemsAmong h))

theorem size_lt_of_mem_inner (h : i ∈ l.inner) : i.node.tree.size < l.tree.size := by
  rcases List.mem_append.1 h with h | h
  · exact size_lt_of_mem_bodyItems h
  · obtain ⟨x, hx, hi⟩ := List.mem_flatMap.1 h
    exact (size_lt_of_mem_bodyItems hi).trans
      (size_lt_of_mem_children (mem_children_of_mem_clauses hx))

/-- An item, and behind it the outlines of the items in it. -/
def outline (l : Located) : List Located :=
  l :: if l.kind.isBlockItem then l.inner.attach.flatMap fun i => outline i.1.node else []
termination_by l.tree.size
decreasing_by exact size_lt_of_mem_inner i.2

def outlines (items : List LineItem) : List Located := items.flatMap (outline ·.node)

theorem outlines_cons (i : LineItem) (items : List LineItem) :
    outlines (i :: items) = i.node.outline ++ outlines items :=
  List.flatMap_cons

def fileOutline (l : Located) : List Located := outlines (View.SourceFile.of l).items

theorem outline_eq (l : Located) :
    l.outline = l :: if l.kind.isBlockItem then outlines l.inner else [] := by
  rw [outline, outlines]
  conv_rhs => rw [← List.attach_map_subtype_val l.inner, List.flatMap_map]

theorem outlines_inner (l : Located) :
    outlines l.inner = outlines l.bodyItems ++ l.clauses.flatMap (outlines ·.bodyItems) := by
  rw [outlines, inner, List.flatMap_append, List.flatMap_assoc]
  rfl

/-! ## Labels and statements in a tree -/

/-- The labels and statements here and below, in the order of the text. -/
def listed (l : Located) : List Located := l.allNodes.filter (·.kind.isListed)

theorem listed_node (start : Nat) (k : Kind) (cs : List Tree) :
    (⟨start, .node k cs⟩ : Located).listed =
      (if k.isListed then [⟨start, .node k cs⟩] else []) ++ (row start cs).flatMap listed := by
  have hsubtrees : (⟨start, .node k cs⟩ : Located).subtrees =
      ⟨start, .node k cs⟩ :: (row start cs).flatMap subtrees := by
    rw [subtrees, subtreesOnto, subtreesOntoAll_eq, List.append_nil]
  have hrest : (row start cs).flatMap listed =
      (((row start cs).flatMap subtrees).filter (!·.isToken)).filter (·.kind.isListed) := by
    rw [List.filter_flatMap, List.filter_flatMap]
    rfl
  rw [listed, allNodes, hsubtrees, List.filter_cons_of_pos rfl, List.filter_cons, hrest]
  by_cases hk : k.isListed = true
  · rw [if_pos hk, if_pos (show (⟨start, .node k cs⟩ : Located).kind.isListed = true from hk)]
    rfl
  · rw [if_neg hk, if_neg (show ¬(⟨start, .node k cs⟩ : Located).kind.isListed = true from hk)]
    rfl

/-! ## Outlines of rows -/

/-- What the outline tells of a child: a clause stands for the items in it. -/
def told (x : Located) : List Located :=
  if x.isToken then []
  else if x.kind.isClause then outlines x.bodyItems
  else if x.kind.isListed then x.outline
  else []

def ofKind (k : Kind) (xs : List Located) : List Located :=
  xs.filter fun x => !x.isToken && x.kind == k

theorem nodesOf_eq (l : Located) (k : Kind) : l.nodesOf k = ofKind k l.children := by
  rw [nodesOf, nodes, List.filter_filter, ofKind]
  exact List.filter_congr fun x _ => Bool.and_comm _ _

/-- The clauses in a row. Of several last ones the first counts. -/
def rowClauses (xs : List Located) : List Located :=
  ofKind .elifClause xs ++ (ofKind .elseClause xs).head?.toList

def stageBehind (stage : Stage) (xs : List Located) : Option Stage :=
  xs.foldlM (fun stage x => stage.tree? x.tree) stage

theorem stageBehind_row (stage : Stage) (start : Nat) (ts : List Tree) :
    stageBehind stage (row start ts) = ts.foldlM Stage.tree? stage := by
  rw [stageBehind]
  conv_rhs => rw [← map_tree_row start ts, List.foldlM_map]

theorem stageBehind_cons : stageBehind stage (x :: xs) = some stage' ↔
    ∃ next, stage.tree? x.tree = some next ∧ stageBehind next xs = some stage' := by
  rw [stageBehind, List.foldlM_cons]
  exact Option.bind_eq_some_iff

/-- A node that is listed is an item. -/
theorem itemsAmong_cons_of_isListed {k : Kind} (hk : k.isListed = true) (start : Nat)
    (cs : List Tree) (xs : List Located) : ∃ c, itemsAmong (⟨start, .node k cs⟩ :: xs) =
      ⟨c, ⟨start, .node k cs⟩⟩ :: itemsAmong xs := by
  have hitem : k.isItem = true := by
    rw [Kind.isListed, Bool.or_eq_true, beq_iff_eq, Kind.isStatement, Bool.and_eq_true,
      Bool.and_eq_true] at hk
    rcases hk with rfl | ⟨⟨hk, -⟩, -⟩
    · rfl
    · exact hk
  obtain ⟨c, hc⟩ := Option.isSome_iff_exists.1 hitem
  refine ⟨c, List.filterMap_cons_some ?_⟩
  rw [if_neg (by exact Bool.false_ne_true), show (⟨start, .node k cs⟩ : Located).kind = k from rfl,
    hc]
  rfl

theorem itemsAmong_cons_of_isClause {k : Kind} (hk : k.isClause = true) (start : Nat)
    (cs : List Tree) (xs : List Located) :
    itemsAmong (⟨start, .node k cs⟩ :: xs) = itemsAmong xs := by
  rw [Kind.isClause, Bool.or_eq_true, beq_iff_eq, beq_iff_eq] at hk
  rcases hk with rfl | rfl <;> rfl

theorem rowClauses_cons_of_not_isClause {k : Kind} (hk : k.isClause = false) (start : Nat)
    (cs : List Tree) (xs : List Located) :
    rowClauses (⟨start, .node k cs⟩ :: xs) = rowClauses xs := by
  rw [Kind.isClause, Bool.or_eq_false_iff] at hk
  have hskip {k' : Kind} (hne : (k == k') = false) :
      ofKind k' (⟨start, .node k cs⟩ :: xs) = ofKind k' xs := by
    refine List.filter_cons_of_neg ?_
    rw [show (⟨start, .node k cs⟩ : Located).kind = k from rfl, hne, Bool.and_false]
    exact Bool.false_ne_true
  rw [rowClauses, hskip hk.1, hskip hk.2, rowClauses]

/-- What lies behind a stage that is not that of the first line. -/
structure Behind (stage stage' : Stage) (xs : List Located) : Prop where
  told : xs.flatMap told =
    outlines (itemsAmong xs) ++ (rowClauses xs).flatMap (outlines ·.bodyItems)
  /-- Behind a clause there are no items. -/
  items : stage ≠ .lines → itemsAmong xs = []
  /-- Behind the last clause there are no clauses. -/
  clauses : stage = .last → rowClauses xs = []
  /-- Behind a clause there are only clauses. -/
  lines : stage' = .lines → stage = .lines ∧ rowClauses xs = []

theorem Behind.item (h : Behind .lines stage' xs) {k : Kind} (hk : k.isListed = true)
    (hclause : k.isClause = false) (start : Nat) (cs : List Tree) :
    Behind .lines stage' (⟨start, .node k cs⟩ :: xs) := by
  have hclauses := rowClauses_cons_of_not_isClause hclause start cs xs
  obtain ⟨c, hitems⟩ := itemsAmong_cons_of_isListed hk start cs xs
  have htold : Located.told ⟨start, .node k cs⟩ = (⟨start, .node k cs⟩ : Located).outline := by
    simp [Located.told, Located.isToken, Tree.isToken, Located.kind, Tree.kind, hk, hclause]
  refine ⟨?_, fun hne => absurd rfl hne, fun heq => Stage.noConfusion heq, fun hlines => ?_⟩
  · rw [List.flatMap_cons, htold, h.told, hitems, hclauses, outlines_cons, List.append_assoc]
  · rw [hclauses]
    exact h.lines hlines

/-- A clause stands in front of other clauses only. -/
theorem Behind.clause {next : Stage} (h : Behind next stage' xs) (hnext : next ≠ .lines)
    (hstage : stage ≠ .last) {k : Kind} (hk : k.isClause = true) {start : Nat} {cs : List Tree}
    (hclauses : rowClauses (⟨start, .node k cs⟩ :: xs) = ⟨start, .node k cs⟩ :: rowClauses xs) :
    Behind stage stage' (⟨start, .node k cs⟩ :: xs) := by
  have hitems := itemsAmong_cons_of_isClause hk start cs xs
  have htold : Located.told ⟨start, .node k cs⟩ =
      outlines (⟨start, .node k cs⟩ : Located).bodyItems := by
    simp [Located.told, Located.isToken, Tree.isToken, Located.kind, Tree.kind, hk]
  refine ⟨?_, fun _ => hitems.trans (h.items hnext), fun heq => absurd heq hstage, fun hlines => ?_⟩
  · rw [List.flatMap_cons, htold, h.told, hitems, h.items hnext, hclauses, List.flatMap_cons]
    rfl
  · exact absurd (h.lines hlines).1 hnext

/-- **Behind the first line there are items, then clauses**, and the outline tells all of them. -/
theorem behind_of_stageBehind (hstage : stage ≠ .header)
    (hrow : stageBehind stage xs = some stage') : Behind stage stage' xs := by
  induction xs generalizing stage with
  | nil =>
    cases hrow
    exact ⟨rfl, fun _ => rfl, fun _ => rfl, fun h => ⟨h, rfl⟩⟩
  | cons x xs ih =>
    obtain ⟨next, hnext, hrow⟩ := stageBehind_cons.1 hrow
    obtain ⟨start, t⟩ := x
    cases t with
    | token k text =>
      obtain rfl : stage = next := by
        rw [Stage.tree?, Stage.token, if_neg fun h => hstage h.1] at hnext
        exact Option.some.inj hnext
      have h := ih hstage hrow
      exact ⟨h.told, h.items, h.clauses, h.lines⟩
    | node k cs =>
      rw [Stage.tree?, Stage.node?] at hnext
      split_ifs at hnext with helif hplace helse hplace hlisted hlines hheader
      · -- a clause with a condition
        subst helif
        cases hnext
        refine (ih (by decide) hrow).clause (by decide) ?_ rfl rfl
        rcases hplace with rfl | rfl <;> decide
      · -- the last clause
        subst helse
        cases hnext
        have h := ih (by decide) hrow
        obtain ⟨helifs, -⟩ := List.append_eq_nil_iff.1 (h.clauses rfl)
        refine h.clause (by decide) ?_ rfl ?_
        · rcases hplace with rfl | rfl <;> decide
        · rw [h.clauses rfl]
          show ofKind .elifClause xs ++ [_] = [_]
          rw [helifs]
          rfl
      · -- an item
        subst hlines
        cases hnext
        refine (ih (by decide) hrow).item hlisted ?_ start cs
        rw [Kind.isClause, Bool.or_eq_false_iff]
        exact ⟨beq_false_of_ne helif, beq_false_of_ne helse⟩
      · exact absurd hheader.1 hstage

theorem stageBehind_ne_header (hstage : stage ≠ .header)
    (hrow : stageBehind stage xs = some stage') : stage' ≠ .header := by
  induction xs generalizing stage with
  | nil =>
    cases hrow
    exact hstage
  | cons x xs ih =>
    obtain ⟨next, hnext, hrow⟩ := stageBehind_cons.1 hrow
    refine ih ?_ hrow
    cases ht : x.tree with
    | token k text =>
      rw [ht, Stage.tree?, Stage.token, if_neg fun h => hstage h.1] at hnext
      exact fun he => hstage ((Option.some.inj hnext).trans he)
    | node k cs =>
      rw [ht, Stage.tree?, Stage.node?] at hnext
      split_ifs at hnext with h₁ h₂ h₃ h₄ h₅ h₆ h₇
      · cases hnext
        decide
      · cases hnext
        decide
      · cases hnext
        decide
      · exact absurd h₇.1 hstage

/-- The row behind its first line. -/
def behindHeader (xs : List Located) : List Located := xs.dropWhile (·.kind != .newline)

theorem behindHeader_cons_of_ne (hne : x.kind ≠ .newline) :
    behindHeader (x :: xs) = behindHeader xs :=
  List.dropWhile_cons_of_pos (by simpa using hne)

/-- **The first line tells nothing.** -/
theorem header_of_stageBehind (hrow : stageBehind .header xs = some stage') :
    xs.flatMap told = (behindHeader xs).flatMap told ∧
      rowClauses xs = rowClauses (behindHeader xs) ∧
      (stage' = .header ∧ behindHeader xs = [] ∨
        stage' ≠ .header ∧ Behind .lines stage' (behindHeader xs)) := by
  induction xs with
  | nil =>
    cases hrow
    exact ⟨rfl, rfl, Or.inl ⟨rfl, rfl⟩⟩
  | cons x xs ih =>
    obtain ⟨next, hnext, hbehind⟩ := stageBehind_cons.1 hrow
    obtain ⟨start, t⟩ := x
    cases t with
    | token k text =>
      by_cases hk : k = .newline
      · subst hk
        cases hnext
        have hlines : (Stage.lines : Stage) ≠ .header := by decide
        exact ⟨rfl, rfl, Or.inr ⟨stageBehind_ne_header hlines hbehind,
          behind_of_stageBehind hlines (stageBehind_cons.2 ⟨.lines, rfl, hbehind⟩)⟩⟩
      · obtain rfl : .header = next := by
          rw [Stage.tree?, Stage.token, if_neg fun h => hk h.2] at hnext
          exact Option.some.inj hnext
        rw [behindHeader_cons_of_ne (show (⟨start, .token k text⟩ : Located).kind ≠ _ from hk)]
        exact ih hbehind
    | node k cs =>
      rw [Stage.tree?, Stage.node?] at hnext
      split_ifs at hnext with helif hplace helse hplace hlisted hlines hheader
      · rcases hplace with h | h <;> cases h
      · rcases hplace with h | h <;> cases h
      · cases hlines
      · cases hnext
        have hclause : k.isClause = false := by
          rw [Kind.isClause, Bool.or_eq_false_iff]
          exact ⟨beq_false_of_ne helif, beq_false_of_ne helse⟩
        have htold : told ⟨start, .node k cs⟩ = [] := by
          simp [told, Located.isToken, Tree.isToken, Located.kind, Tree.kind, hlisted, hclause]
        rw [behindHeader_cons_of_ne (show (⟨start, .node k cs⟩ : Located).kind ≠ _ from hheader.2),
          List.flatMap_cons, htold, List.nil_append, rowClauses_cons_of_not_isClause hclause]
        exact ih hbehind

/-! ## Outlines of trees -/

theorem Kind.isListed_of_isBlockItem {k : Kind} (h : k.isBlockItem = true) :
    k.isListed = true ∧ k.isClause = false := by
  cases k <;> first | exact ⟨rfl, rfl⟩ | cases h

theorem Kind.isListed_of_isClause {k : Kind} (h : k.isClause = true) : k.isListed = false := by
  rw [Kind.isClause, Bool.or_eq_true, beq_iff_eq, beq_iff_eq] at h
  rcases h with rfl | rfl <;> rfl

theorem clauses_eq (start : Nat) (cs : List Tree) :
    (⟨start, .node .ifBlock cs⟩ : Located).clauses = rowClauses (row start cs) := by
  have hkind : (⟨start, .node .ifBlock cs⟩ : Located).kind = .ifBlock := rfl
  rw [clauses, if_pos hkind, View.IfBlock.of, nodesOf_eq, nodesOf_eq]
  rfl

/-- What the outline tells of a node whose row ends as it should. -/
theorem told_node {k : Kind} {start : Nat} {cs : List Tree}
    (hrow : stageBehind .header (row start cs) = some stage) (hcloses : stage.closes k = true) :
    (⟨start, .node k cs⟩ : Located).told =
      (if k.isListed then [⟨start, .node k cs⟩] else []) ++ (row start cs).flatMap told := by
  obtain ⟨htold, hclauses, hbehind⟩ := header_of_stageBehind hrow
  have hnode : (⟨start, .node k cs⟩ : Located).told =
      if k.isClause then outlines (⟨start, .node k cs⟩ : Located).bodyItems
      else if k.isListed then (⟨start, .node k cs⟩ : Located).outline else [] := rfl
  have hkind : (⟨start, .node k cs⟩ : Located).kind = k := rfl
  rw [hnode, htold]
  rw [Stage.closes] at hcloses
  split at hcloses
  · next hif =>
    -- a condition has items and clauses
    subst hif
    obtain ⟨-, hbehind⟩ := hbehind.resolve_left fun h => by simp [h.1] at hcloses
    rw [outline_eq, outlines_inner, clauses_eq, hclauses, hbehind.told]
    rfl
  · next hif =>
    split at hcloses
    · -- other blocks and clauses have items
      have hlines : stage = .lines := eq_of_beq hcloses
      obtain ⟨-, hbehind⟩ := hbehind.resolve_left fun h => by simp [h.1] at hlines
      next hblock =>
      rw [hbehind.told, (hbehind.lines hlines).2, List.flatMap_nil, List.append_nil]
      rcases Bool.or_eq_true_iff.1 hblock with hblock | hclause
      · obtain ⟨hlisted, hclause⟩ := Kind.isListed_of_isBlockItem hblock
        rw [hclause, hlisted, outline_eq, hkind, hblock, outlines_inner, clauses, hkind, if_neg hif,
          List.flatMap_nil, List.append_nil]
        rfl
      · rw [hclause, Kind.isListed_of_isClause hclause]
        rfl
    · -- all other nodes have a first line only
      next hblock =>
      rw [Bool.or_eq_true_iff, not_or, Bool.not_eq_true, Bool.not_eq_true] at hblock
      obtain ⟨-, hempty⟩ := hbehind.resolve_right fun h => h.1 (eq_of_beq hcloses)
      rw [hempty, hblock.2, outline_eq, hkind, hblock.1]
      cases k.isListed <;> rfl

/-- **The outline lists the labels and statements of a tree**, each once and in the order of the
text. -/
theorem listed_eq_told (h : l.tree.Everywhere InRow) : l.listed = l.told := by
  obtain ⟨start, t⟩ := l
  induction hsize : t.size using Nat.strong_induction_on generalizing start t with
  | _ n ih =>
    cases t with
    | token k text => rfl
    | node k cs =>
      obtain ⟨⟨stage, hstage, hcloses⟩, hchildren⟩ := everywhere_node.1 h
      rw [← stageBehind_row .header start] at hstage
      rw [listed_node, told_node hstage hcloses]
      refine congrArg _ (List.flatMap_congr fun x hx => ?_)
      have hmem : x.tree ∈ cs := by
        rw [← map_tree_row start cs]
        exact List.mem_map_of_mem hx
      have hx : x ∈ (⟨start, .node k cs⟩ : Located).children := hx
      exact ih _ (hsize ▸ size_lt_of_mem_children hx) x.start x.tree (hchildren _ hmem) rfl

/-- **The outline of a file lists its labels and statements**, each once and in the order of the
text. -/
theorem listed_file {start : Nat} {cs : List Tree} (h : ∀ t ∈ cs, t.Everywhere InRow)
    (hrow : cs.foldlM Stage.tree? .lines = some .lines) :
    (⟨start, .node .sourceFile cs⟩ : Located).listed =
      (⟨start, .node .sourceFile cs⟩ : Located).fileOutline := by
  rw [← stageBehind_row .lines start] at hrow
  have hbehind := behind_of_stageBehind (by decide) hrow
  have htold : (row start cs).flatMap listed = (row start cs).flatMap told := by
    refine List.flatMap_congr fun x hx => listed_eq_told (h _ ?_)
    rw [← map_tree_row start cs]
    exact List.mem_map_of_mem hx
  rw [listed_node, htold, hbehind.told, (hbehind.lines rfl).2]
  exact (List.nil_append _).trans (List.append_nil _)

end Located

end AsmTree
