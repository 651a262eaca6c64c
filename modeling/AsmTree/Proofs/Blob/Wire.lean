import AsmTree.Blob.Wire
import Mathlib.Algebra.Group.Nat.Defs

/-!
# Forms that delimit themselves

A form on the wire delimits itself if its reader knows where it ends: it takes the form back
whatever follows, and wants more of any beginning of it. **Main statements:** so do the forms of
numbers (`delimits_nat`), of optional values (`delimits_option`) and of lists (`delimits_array`), and
of values that are read one behind another (`Delimits.bind`).
-/

namespace AsmTree.Wire

/-- A reader takes a value from its form and leaves what follows; of a form that is cut short it
says that the input ends too early. -/
structure Delimits {α : Type} (get : Reader α) (form : Bytes) (a : α) : Prop where
  whole : ∀ rest, get (form ++ rest) = .ok (a, rest)
  cut : ∀ {front back}, form = front ++ back → back ≠ [] → get front = .error .endOfInput

namespace Delimits

variable {α β : Type} {get : Reader α} {next : α → Reader β} {form form' : Bytes} {a : α} {b : β}

theorem pure (a : α) : Delimits (Pure.pure a) [] a where
  whole _ := rfl
  cut h hne := absurd (List.append_eq_nil_iff.1 h.symm).2 hne

/-- **Values that are read one behind another.** The cut falls into the first form or behind it. -/
theorem bind (h : Delimits get form a) (hnext : Delimits (next a) form' b) :
    Delimits (get >>= next) (form ++ form') b where
  whole rest := by
    show (get (form ++ form' ++ rest)).bind (fun r => next r.1 r.2) = _
    rw [List.append_assoc, h.whole]
    exact hnext.whole rest
  cut := by
    intro front back heq hne
    show (get front).bind (fun r => next r.1 r.2) = _
    have hbehind : ∀ m, front = form ++ m → form' = m ++ back →
        (get front).bind (fun r => next r.1 r.2) = .error .endOfInput := by
      rintro m rfl hm
      rw [h.whole]
      exact hnext.cut hm hne
    rcases List.append_eq_append_iff.1 heq with ⟨m, hfront, hm⟩ | ⟨m, hform, hback⟩
    · exact hbehind m hfront hm
    · cases m with
      | nil =>
        rw [List.append_nil] at hform
        exact hbehind [] (by rw [hform, List.append_nil]) hback.symm
      | cons x m =>
        rw [h.cut hform (List.cons_ne_nil x m)]
        rfl

theorem map (h : Delimits get form a) (f : α → β) :
    Delimits (get >>= fun a => Pure.pure (f a)) form (f a) := by
  rw [← List.append_nil form]
  exact h.bind (pure (f a))

theorem take (h : Delimits get form a) {n : Nat} (hn : n < form.length) :
    get (form.take n) = .error .endOfInput := by
  refine h.cut (List.take_append_drop n form).symm ?_
  rw [Ne, List.drop_eq_nil_iff]
  exact Nat.not_le_of_lt hn

end Delimits

/-! ## Numbers -/

theorem delimits_byte (b : UInt8) : Delimits getByte [b] b where
  whole _ := rfl
  cut := by
    intro front back h hne
    rcases List.singleton_eq_append_iff.1 h with ⟨rfl, -⟩ | ⟨-, rfl⟩
    · rfl
    · exact absurd rfl hne

theorem toNat_toUInt8 {n : Nat} (h : n < 256) : n.toUInt8.toNat = n := by
  rw [Nat.toUInt8_eq, UInt8.toNat_ofNat']
  exact Nat.mod_eq_of_lt h

/-- The groups of a number from a bit on. The last of all the groups that there may be holds no more
than `top`. -/
theorem delimits_groups (top shift : Nat) {groups n : Nat} (htop : top < 128)
    (h : n < (top + 1) * 128 ^ groups) :
    Delimits (getGroups top (groups + 1) shift) (putNat n) (n <<< shift) := by
  induction groups generalizing n shift with
  | zero =>
    rw [Nat.pow_zero, Nat.mul_one] at h
    have hlt : n < 128 := by omega
    rw [putNat, if_pos hlt, getGroups]
    refine (delimits_byte n.toUInt8).bind ?_
    dsimp only
    rw [toNat_toUInt8 (by omega), Nat.mod_eq_of_lt hlt, if_pos hlt, if_neg (by simp; omega)]
    exact .pure _
  | succ groups ih =>
    rw [putNat, getGroups]
    by_cases hlt : n < 128
    · rw [if_pos hlt]
      refine (delimits_byte n.toUInt8).bind ?_
      dsimp only
      rw [toNat_toUInt8 (by omega), Nat.mod_eq_of_lt hlt, if_pos hlt, if_neg (by simp)]
      exact .pure _
    · rw [if_neg hlt]
      refine (delimits_byte (n % 128 + 128).toUInt8).bind ?_
      dsimp only
      have hrest : n / 128 < (top + 1) * 128 ^ groups := by
        rw [Nat.div_lt_iff_lt_mul (by decide), Nat.mul_assoc, ← Nat.pow_succ]
        exact h
      -- the lowest group and the others make up the number
      have hsum : n <<< shift = (n % 128) <<< shift + (n / 128) <<< (shift + 7) := by
        simp only [Nat.shiftLeft_eq, Nat.pow_add]
        rw [Nat.mul_comm (2 ^ shift) (2 ^ 7), ← Nat.mul_assoc, ← Nat.add_mul,
          show n % 128 + n / 128 * 2 ^ 7 = n by omega]
      rw [toNat_toUInt8 (by omega), if_neg (by omega), hsum, Nat.add_mod_right, Nat.mod_mod]
      exact (ih (shift + 7) hrest).map _

/-- **Numbers of a width.** The last group of a width holds what is left over by groups of seven
bits. -/
theorem delimits_nat {width n : Nat} (hwidth : width % 7 ≠ 0) (h : n < 2 ^ width) :
    Delimits (getNat width) (putNat n) n := by
  have htop : (2 ^ (width % 7) - 1) + 1 = 2 ^ (width % 7) := Nat.sub_add_cancel Nat.one_le_two_pow
  have hle : 2 ^ (width % 7) ≤ 2 ^ 6 := Nat.pow_le_pow_right (by decide) (by omega)
  rw [getNat, show (width + 6) / 7 = width / 7 + 1 by omega]
  refine delimits_groups (2 ^ (width % 7) - 1) 0 (by omega) ?_
  rw [htop, show 128 = 2 ^ 7 from rfl, ← Nat.pow_mul, ← Nat.pow_add, Nat.mod_add_div]
  exact h

/-! ## Options and lists -/

variable {α : Type} {get : Reader α} {put : α → Bytes}

theorem delimits_option {o : Option α} (h : ∀ a ∈ o, Delimits get (put a) a) :
    Delimits (getOption get) (putOption put o) o := by
  cases o with
  | none => exact (delimits_byte 0).bind (.pure none)
  | some a => exact (delimits_byte 1).bind ((h a rfl).map some)

theorem delimits_many (done as : List α) (h : ∀ a ∈ as, Delimits get (put a) a) :
    Delimits (getMany get as.length done.toArray) (as.flatMap put) (done ++ as).toArray := by
  induction as generalizing done with
  | nil =>
    rw [List.append_nil]
    exact .pure _
  | cons a as ih =>
    rw [List.flatMap_cons]
    refine (h a List.mem_cons_self).bind ?_
    rw [List.push_toArray, show done ++ a :: as = (done ++ [a]) ++ as by simp]
    exact ih _ fun x hx => h x (List.mem_cons_of_mem a hx)

/-- **Lists**, if their length fits into a number of 64 bits. -/
theorem delimits_array {as : Array α} (hsize : as.size < 2 ^ 64)
    (h : ∀ a ∈ as, Delimits get (put a) a) :
    Delimits (getArray get) (putList put as.toList) as := by
  refine (delimits_nat (by decide) ?_).bind
    (delimits_many [] as.toList fun a ha => h a (Array.mem_toList_iff.1 ha))
  rwa [Array.length_toList]

end AsmTree.Wire
