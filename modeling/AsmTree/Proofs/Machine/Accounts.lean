import AsmTree.Proofs.Machine.Horizon

/-!
# Unreadable tokens are reported once

What has been reported of single tokens, and what is still to be reported of those that are left, is
the same all the time: a token leaves the input once, whether it is shifted, skipped or given up,
and nothing else is reported with a lexical code. **Main statement (`Accounts.run`):** in the end
every unreadable token has been reported, in order, and nothing else.
-/

namespace AsmTree

open Lookahead

/-! ## Codes -/

theorem Context.isLexical_code (c : Context) (found : Kind) :
    (c.code found).isLexical = false := by
  cases c <;> simp only [code] <;> (repeat' split) <;> rfl

theorem Diagnostic.isLexical_unreadable (t : Token) : (unreadable t).code.isLexical = true := by
  unfold unreadable
  split
  · rfl
  · split <;> rfl

/-- The diagnostics that are about single tokens. -/
def lexicals (ds : List Diagnostic) : List Diagnostic := ds.filter (·.code.isLexical)

@[simp] theorem lexicals_append (a b : List Diagnostic) :
    lexicals (a ++ b) = lexicals a ++ lexicals b :=
  List.filter_append a b

theorem lexicals_singleton {d : Diagnostic} (h : d.code.isLexical = false) : lexicals [d] = [] := by
  simp [lexicals, h]

namespace Machine

variable {s : Setup} {m m' : Machine} {told : List Diagnostic} {word : List Leaf}

@[simp] theorem lexicals_unreadables (ls : List Lookahead) :
    lexicals (unreadables ls) = unreadables ls := by
  refine List.filter_eq_self.2 fun d hd => ?_
  obtain ⟨l, -, hsome⟩ := List.mem_filterMap.1 hd
  split at hsome
  · cases hsome
    exact Diagnostic.isLexical_unreadable l.token
  · cases hsome

theorem unreadables_append (a b : List Lookahead) :
    unreadables (a ++ b) = unreadables a ++ unreadables b :=
  List.filterMap_append

theorem unreadables_of_eof {l : Lookahead} (h : l.token.kind = .eof) : unreadables [l] = [] := by
  simp [unreadables, h]

/-! ## Accounts -/

/-- What has been reported of single tokens, and what those that are left will add to it. -/
def Accounts (told : List Diagnostic) (m : Machine) : Prop :=
  lexicals m.errors.toList ++ unreadables m.input = told

def Outcome.Accounts (told : List Diagnostic) : Outcome → Prop
  | .running m => Machine.Accounts told m
  | .done out => lexicals out.errors = told

theorem Accounts.congr (h : Accounts told m)
    (he : lexicals m'.errors.toList = lexicals m.errors.toList) (hi : m'.input = m.input) :
    Accounts told m' := by
  rw [Accounts, he, hi]
  exact h

theorem Accounts.push (h : Accounts told m) {d : Diagnostic} (hd : d.code.isLexical = false) :
    Accounts told { m with errors := m.errors.push d } :=
  h.congr (by simp [lexicals_singleton hd]) rfl

theorem Accounts.report (h : Accounts told m) : Accounts told (m.report s) := by
  have hunexpected : ∀ found context expected range, Accounts told
      { m with errors := m.errors.push (.unexpected found context expected range) } :=
    fun found context _ _ => h.push (context.isLexical_code found)
  unfold Machine.report
  dsimp only
  split
  · exact h
  · split
    · exact h.push rfl
    · exact hunexpected _ _ _ _
  · exact hunexpected _ _ _ _

theorem Accounts.skip (h : Accounts told m) (n : Nat)
    (he : m'.errors = m.errors ++ (unreadables (m.input.take n)).toArray)
    (hi : m'.input = m.input.drop n) : Accounts told m' := by
  rw [Accounts, he, hi, Array.toList_append, lexicals_append, lexicals_unreadables,
    List.append_assoc, ← unreadables_append, List.take_append_drop]
  exact h

theorem Accounts.shift (h : Accounts told m) (hends : Ends m.input) (target : Nat) :
    Accounts told (m.shift s target) := by
  obtain ⟨l, ls, hinput⟩ := List.exists_cons_of_ne_nil hends.ne_nil
  refine h.skip 1 ?_ ?_
  · rw [shift_eq hinput, hinput]
    rfl
  · rw [shift_eq hinput, hinput]
    rfl

theorem Accounts.reduce (h : Accounts told m) {p : Nat} (hr : m.reduce? s p = some m') :
    Accounts told m' := by
  obtain ⟨base, rest, state, -, -, rfl⟩ := reduce?_eq_some.1 hr
  exact h

theorem Accounts.recover (h : Accounts told m) (hends : Ends m.input)
    (hr : m.recover? s = some m') : Accounts told m' := by
  obtain ⟨r, base, rest, n, hplan, hdrop, -, rfl⟩ := recover?_eq_some hr
  have hskip := Nat.le_of_lt (searchFrames_lt hends hplan)
  refine h.skip r.skip ?_ ?_ <;>
  · rw [resynchronize_eq (m := m.look n) hdrop hskip]
    rfl

theorem Accounts.accept (h : Accounts told m) (hends : Ends m.input)
    (he : (m.next s).kind = .eof) : lexicals (m.accept s).errors = told := by
  obtain ⟨l, ls, hinput⟩ := List.exists_cons_of_ne_nil hends.ne_nil
  rw [next_of_input hinput] at he
  rw [hinput] at hends
  obtain rfl := hends.eq_last he
  rw [Accounts, hinput, unreadables_of_eof he, List.append_nil] at h
  exact h

/-- What is given up is reported, up to the end of the text. -/
theorem Accounts.abandon (h : Accounts told m) (hends : Ends m.input) :
    lexicals (m.abandon s).errors = told := by
  obtain ⟨last, hinput, he⟩ := Lookahead.Ends.takeWhile hends
  generalize hrest : m.input.takeWhile (fun l => l.token.kind != .eof) = rest at hinput
  have hlen : rest.length ≤ m.input.length := by
    rw [hinput, List.length_append]
    exact Nat.le_add_right _ _
  have hskip := skipTokens_eq (s := s) hlen (Frame.joined m.frames.dropLast)
  have hacc : Accounts told (skipTokens s rest.length m (Frame.joined m.frames.dropLast)).1 :=
    h.skip rest.length (by rw [hskip]) (by rw [hskip])
  rw [Accounts, skipTokens_input, hinput, List.drop_left, unreadables_of_eof he,
    List.append_nil] at hacc
  rw [← hacc, ← hrest]
  rfl

/-! ## Runs -/

theorem Accounts.markLine (hs : s.splice = none) (h : Accounts told m) :
    (m.markLine s).Accounts told := by
  rw [markLine_of_splice hs]
  obtain ⟨checkpoints, hm⟩ := mark_eq s m
  rw [hm]
  exact h

/-- **A step keeps the account.** -/
theorem Accounts.step (ht : s.table.EofOnly) (hs : s.splice = none) (hends : Ends m.input)
    (h : Accounts told m) : (m.step s).Accounts told := by
  have hreport : Accounts told ((m.look 1).report s) := Accounts.report (m := m.look 1) h
  have hends' : Ends ((m.look 1).report s).input := by
    rw [report_input]
    exact hends
  have heffect := step_effect s m
  generalize m.step s = o at heffect
  cases heffect with
  | @reduce p n m' _ _ hr => exact (Accounts.reduce (m := m.look n) h hr).markLine hs
  | @stuck p n _ _ => exact Accounts.abandon (Accounts.push (m := m.look n) h rfl) hends
  | @shift target _ _ => exact (Accounts.shift (m := m.look 1) h hends target).markLine hs
  | accept _ hmove => exact Accounts.accept (m := m.look 1) h hends (ht.accept _ _ hmove)
  | recover _ _ hr => exact (hreport.recover hends' hr).markLine hs
  | abandon _ _ _ => exact hreport.abandon hends'

/-- **A finished run has reported what was to be reported of single tokens**, in order. -/
theorem Accounts.run (ht : s.table.EofOnly) (hs : s.splice = none) (hends : Ends m.input)
    (h : Accounts told m) {fuel : Nat} {out : Output} (hrun : m.run s fuel = some out) :
    lexicals out.errors = told := by
  obtain ⟨m', hreach, hdone⟩ := reaches_of_run hrun
  obtain ⟨hacc, hends'⟩ := hreach.keeps (P := fun m => Accounts told m ∧ Ends m.input)
    ⟨h, hends⟩ fun m₁ m₂ hm₁ hstep => by
      have hacc := hm₁.1.step ht hs hm₁.2
      rw [hstep] at hacc
      exact ⟨hacc, ends_step ht hs hm₁.2 hstep⟩
  have hlast := hacc.step ht hs hends'
  rw [hdone] at hlast
  exact hlast

end Machine

end AsmTree
