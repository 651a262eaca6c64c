import AsmTree.Proofs.Parser.LineEnds
import AsmTree.Proofs.Text.Bytes

/-!
# Lines do not know of each other

**Main statements:** what a parse makes of the text before a place that it records is the same
whatever follows (`parse_before_checkpoint`), and what it makes of the text behind the place is the
same, moved, whatever comes before (`parse_behind_checkpoint`).
-/

namespace AsmTree

open Machine

namespace Parser

variable {g : Grammar} {w : Nat → Nat} {p : Parser} {state : Nat} {a b : List Char} {lead : Lead}

/-- **What a parse makes of the text before a place that it records is the same whatever
follows.** -/
theorem parse_before_checkpoint : ∃ t, Assembly.table = .ok t ∧
    ∀ (options : ParseOptions) (text : String), options.recordCheckpoints = true →
      ∃ tree, parse ⟨t, options⟩ text none = .ok tree ∧
        ∀ c ∈ tree.checkpoints, ∀ u : String,
          u.toByteArray.extract 0 c.offset = text.toByteArray.extract 0 c.offset →
          ∃ tree', parse ⟨t, options⟩ u none = .ok tree' ∧ c ∈ tree'.checkpoints ∧
            (Located.row 0 tree'.children).filter (·.start < c.offset) =
              (Located.row 0 tree.children).filter (·.start < c.offset) ∧
            tree'.errors.take c.errorCount = tree.errors.take c.errorCount := by
  obtain ⟨g, t, w, h⟩ := Assembly.exists_shipped
  refine ⟨t, h.table, fun options text hrecord => ?_⟩
  let p : Parser := ⟨t, options⟩
  obtain ⟨out, hrun⟩ := exists_run (p := p) h text
  refine ⟨_, parse_of_run hrun, fun c hc u hu => ?_⟩
  obtain ⟨state, a, b, lead, rest, later, hparts, rfl⟩ := exists_parts h (parse_of_run hrun) hc
  rw [Lead.offset_origin, hparts.leads.offset] at hu
  obtain ⟨b', hb'⟩ := exists_append_of_extract hparts.split hu
  -- the other parse comes to the same lead
  obtain ⟨rest', later', -, hlater', hwhole⟩ := hparts.leads.run h hparts.resume b'
  have hrun' := hwhole options hrecord rfl
  rw [← hb', String.ofList_toList] at hrun'
  refine ⟨_, parse_of_run hrun', ?_, ?_, ?_⟩
  · show lead.checkpoint ⟨0, {}, 0⟩ ∈ (lead.output rest').checkpoints
    rw [Lead.output, hlater', List.map_cons]
    exact List.mem_append_right _ List.mem_cons_self
  · rw [hparts.children, Lead.offset_origin, lead.filter_lt_output hparts.leads.length,
      lead.filter_lt_output hparts.leads.length]
  · rw [hparts.errors, Lead.errorCount_origin, lead.take_output, lead.take_output]

/-- **What a parse makes of the text behind a place that it records is the same whatever comes
before.** Diagnostics move by the distance of the places, and so do the places that follow. -/
theorem parse_behind_checkpoint : ∃ t, Assembly.table = .ok t ∧
    ∀ options₁ options₂ : ParseOptions, options₁.recordCheckpoints = true →
      options₂.recordCheckpoints = true → options₁.recoveryLimit = options₂.recoveryLimit →
      ∀ text₁ text₂ : String, ∃ tree₁ tree₂, parse ⟨t, options₁⟩ text₁ none = .ok tree₁ ∧
        parse ⟨t, options₂⟩ text₂ none = .ok tree₂ ∧
        ∀ c₁ ∈ tree₁.checkpoints, ∀ c₂ ∈ tree₂.checkpoints,
          text₁.toByteArray.extract c₁.offset text₁.utf8ByteSize =
            text₂.toByteArray.extract c₂.offset text₂.utf8ByteSize →
          ((Located.row 0 tree₁.children).filter (c₁.offset ≤ ·.start)).map Located.tree =
            ((Located.row 0 tree₂.children).filter (c₂.offset ≤ ·.start)).map Located.tree ∧
          (tree₁.errors.drop c₁.errorCount).map (Diagnostic.shift (c₂.offset - c₁.offset)) =
            tree₂.errors.drop c₂.errorCount ∧
          List.Forall₂ (fun d₁ d₂ : Checkpoint =>
              d₂.offset + c₁.offset = d₁.offset + c₂.offset ∧
              d₂.position.line + c₁.position.line = d₁.position.line + c₂.position.line ∧
              d₂.position.column = d₁.position.column ∧
              d₂.errorCount + c₁.errorCount = d₁.errorCount + c₂.errorCount)
            (tree₁.checkpoints.filter (c₁.offset < ·.offset))
            (tree₂.checkpoints.filter (c₂.offset < ·.offset)) := by
  obtain ⟨g, t, w, h⟩ := Assembly.exists_shipped
  refine ⟨t, h.table, fun options₁ options₂ hrecord₁ hrecord₂ hlimit text₁ text₂ => ?_⟩
  let p₁ : Parser := ⟨t, options₁⟩
  let p₂ : Parser := ⟨t, options₂⟩
  obtain ⟨out₁, hrun₁⟩ := exists_run (p := p₁) h text₁
  obtain ⟨out₂, hrun₂⟩ := exists_run (p := p₂) h text₂
  refine ⟨_, _, parse_of_run hrun₁, parse_of_run hrun₂, fun c₁ hc₁ c₂ hc₂ hrest => ?_⟩
  obtain ⟨state₁, a₁, b₁, lead₁, rest₁, later₁, hparts₁, rfl⟩ :=
    exists_parts h (parse_of_run hrun₁) hc₁
  obtain ⟨state₂, a₂, b₂, lead₂, rest₂, later₂, hparts₂, rfl⟩ :=
    exists_parts h (parse_of_run hrun₂) hc₂
  rw [Lead.offset_origin, Lead.offset_origin, hparts₁.leads.offset, hparts₂.leads.offset] at hrest
  obtain rfl := eq_of_extract hparts₁.split hparts₂.split hrest
  -- both parses go on as that of the lines behind the places
  obtain ⟨rfl, rfl⟩ := hparts₁.unique hparts₂ rfl hlimit
  rw [hparts₁.children, hparts₂.children, hparts₁.errors, hparts₂.errors, hparts₁.filter_later,
    hparts₂.filter_later, Lead.offset_origin, Lead.offset_origin, Lead.errorCount_origin,
    Lead.errorCount_origin]
  refine ⟨?_, ?_, ?_⟩
  · rw [lead₁.filter_ge_output hparts₁.leads.length, lead₂.filter_ge_output hparts₂.leads.length,
      Located.map_tree_row, Located.map_tree_row]
  · rw [lead₁.drop_output, lead₂.drop_output, List.map_map]
    exact List.map_congr_left fun d _ => d.shift_shift _ _
  · rw [List.forall₂_map_left_iff, List.forall₂_map_right_iff, List.forall₂_same]
    intro c _
    refine ⟨?_, ?_, rfl, ?_⟩ <;> dsimp only [Lead.checkpoint, Position.moved] <;> omega

end Parser

end AsmTree
