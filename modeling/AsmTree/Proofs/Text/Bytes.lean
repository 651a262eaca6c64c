import AsmTree.Text.Bytes

/-!
# Bytes and characters

Texts that agree on some of their bytes agree on characters, if the bytes are cut at the edge of a
character. **Main statements:** `exists_append_of_extract` for the bytes at the start of a text, and
`eq_of_extract` for those at its end.

`Between` says what characters stand from one offset of a text to another.
-/

namespace AsmTree

variable {text u : String} {a b : List Char}

theorem toByteArray_of_toList (h : text.toList = a ++ b) :
    text.toByteArray = a.utf8Encode ++ b.utf8Encode := by
  rw [← String.ofList_toList (s := text), h, String.toByteArray_ofList, List.utf8Encode_append]

theorem size_utf8Encode (a : List Char) : a.utf8Encode.size = byteLength a := by
  rw [← utf8ByteSize_ofList, ← String.size_toByteArray, String.toByteArray_ofList]

/-- A text that agrees with another on its first bytes agrees with it on its first characters. -/
theorem exists_append_of_extract (h : text.toList = a ++ b)
    (hu : u.toByteArray.extract 0 (byteLength a) = text.toByteArray.extract 0 (byteLength a)) :
    ∃ b', u.toList = a ++ b' := by
  rw [toByteArray_of_toList h, ByteArray.extract_append_eq_left (size_utf8Encode a).symm] at hu
  have hle : byteLength a ≤ u.toByteArray.size := by
    have hsize := congrArg ByteArray.size hu
    rw [ByteArray.size_extract, size_utf8Encode] at hsize
    omega
  have hsplit : a.utf8Encode ++ u.toByteArray.extract (byteLength a) u.toByteArray.size =
      u.toList.utf8Encode := by
    rw [← hu, ByteArray.extract_append_extract, Nat.min_eq_left (Nat.zero_le _),
      Nat.max_eq_right hle, ByteArray.extract_zero_size, ← String.toByteArray_ofList,
      String.ofList_toList]
  obtain ⟨b', hb'⟩ := List.isPrefix_of_utf8Encode_append_eq_utf8Encode _ hsplit
  exact ⟨b', hb'.symm⟩

theorem eq_of_extract {a' b' : List Char} (h : text.toList = a ++ b) (h' : u.toList = a' ++ b')
    (hu : text.toByteArray.extract (byteLength a) text.utf8ByteSize =
      u.toByteArray.extract (byteLength a') u.utf8ByteSize) : b = b' := by
  have hrest {text : String} {a b : List Char} (h : text.toList = a ++ b) :
      text.toByteArray.extract (byteLength a) text.utf8ByteSize = b.utf8Encode := by
    have hsize : text.utf8ByteSize = a.utf8Encode.size + b.utf8Encode.size := by
      rw [← String.size_toByteArray, toByteArray_of_toList h, ByteArray.size_append]
    rw [toByteArray_of_toList h,
      ByteArray.extract_append_eq_right (size_utf8Encode a).symm hsize]
  rw [hrest h, hrest h', ← String.toByteArray_ofList, ← String.toByteArray_ofList,
    String.toByteArray_inj, String.ofList_inj] at hu
  exact hu

/-! ## Parts of a text -/

/-- Some characters stand in a text from one offset to another. -/
def Between (text : String) (i j : Nat) (w : List Char) : Prop :=
  ∃ a b, text.toList = a ++ w ++ b ∧ byteLength a = i ∧ byteLength (a ++ w) = j

theorem between_origin (text : String) : Between text 0 0 [] := ⟨[], text.toList, rfl, rfl, rfl⟩

namespace Between

variable {i j k : Nat} {v w : List Char}

theorem append (h : Between text i j v) (h' : Between text j k w) : Between text i k (v ++ w) := by
  obtain ⟨a, b, hab, rfl, rfl⟩ := h
  obtain ⟨a', b', hab', hlength, rfl⟩ := h'
  have hsplit := splitBytes?_byteLength (a ++ v) b
  rw [← hab, hab', ← hlength, List.append_assoc, splitBytes?_byteLength] at hsplit
  obtain ⟨rfl, rfl⟩ := Prod.mk.inj (Option.some.inj hsplit)
  exact ⟨a, b', by rw [hab']; simp, rfl, by rw [List.append_assoc]⟩

theorem behind (h : Between text i j w) : Between text j j [] := by
  obtain ⟨a, b, hab, -, rfl⟩ := h
  exact ⟨a ++ w, b, by rw [hab, List.append_nil], rfl, by rw [List.append_nil]⟩

theorem le (h : Between text i j w) : i ≤ j := by
  obtain ⟨a, b, -, rfl, rfl⟩ := h
  rw [byteLength_append]
  exact Nat.le_add_right _ _

end Between

/-- What a range names stands between its ends. -/
theorem TextRange.between_of_slice? {range : TextRange} {part : String}
    (h : range.slice? text = some part) : Between text range.start range.stop part.toList := by
  unfold slice? at h
  obtain ⟨⟨a, rest⟩, ha, h⟩ := Option.bind_eq_some_iff.1 h
  dsimp only at h
  split at h
  · cases h
  · next hle =>
    obtain ⟨⟨w, b⟩, hw, hpart⟩ := Option.bind_eq_some_iff.1 h
    obtain rfl : String.ofList w = part := Option.some.inj hpart
    obtain ⟨htext, hstart⟩ := eq_append_of_splitBytes? ha
    obtain ⟨hrest, hlength⟩ := eq_append_of_splitBytes? hw
    refine ⟨a, b, ?_, hstart, ?_⟩
    · rw [htext, hrest, String.toList_ofList, List.append_assoc]
    · rw [byteLength_append, String.toList_ofList]
      omega

end AsmTree
