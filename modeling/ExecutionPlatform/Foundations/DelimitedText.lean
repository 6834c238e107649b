import Mathlib

/-! Lines of text fields joined by a separator, and decimal numerals as such fields. -/
namespace ExecutionPlatform.Foundations

/-- Fields that do not contain the separator can be told from their line. -/
theorem intercalate_injective (sep : Char) {fields fields' : List String} (hne : fields ≠ [])
    (hne' : fields' ≠ []) (h : ∀ f ∈ fields, sep ∉ f.toList) (h' : ∀ f ∈ fields', sep ∉ f.toList)
    (heq : (String.singleton sep).intercalate fields = (String.singleton sep).intercalate fields') :
    fields = fields' := by
  have hsplit : ∀ fs : List String, fs ≠ [] → (∀ f ∈ fs, sep ∉ f.toList) →
      ((String.singleton sep).intercalate fs).toList.splitOn sep = fs.map String.toList := by
    intro fs hfs hsep
    rw [String.toList_intercalate, String.toList_singleton]
    refine List.splitOn_intercalate sep (fun l hl => ?_) (by simpa using hfs)
    obtain ⟨f, hf, rfl⟩ := List.mem_map.mp hl
    exact hsep f hf
  have hmap : fields.map String.toList = fields'.map String.toList := by
    rw [← hsplit fields hne h, ← hsplit fields' hne' h', heq]
  exact List.map_injective_iff.mpr (fun _ _ => String.toList_injective) hmap

/-- Decimals of natural numbers consist of digits. -/
theorem not_mem_natRepr {c : Char} (hc : c.isDigit = false) (n : Nat) : c ∉ (toString n).toList := by
  rw [Nat.toString_eq_repr, Nat.toList_repr]
  intro hmem
  have hdigit := Nat.isDigit_of_mem_toDigits (by decide) (by decide) hmem
  rw [hc] at hdigit
  cases hdigit

/-- Decimals of integers consist of digits, after a sign. -/
theorem not_mem_intRepr {c : Char} (hc : c.isDigit = false) (hsign : c ≠ '-') (i : Int) :
    c ∉ (toString i).toList := by
  cases i with
  | ofNat n => exact not_mem_natRepr hc n
  | negSucc n =>
    change c ∉ ("-" ++ (n + 1).repr).toList
    rw [String.toList_append, List.mem_append]
    rintro (hmem | hmem)
    · exact hsign (by simpa using hmem)
    · exact not_mem_natRepr hc (n + 1) hmem

/-- An integer and a natural number with the same decimals are the same. -/
theorem intRepr_eq_natRepr_iff {i : Int} {n : Nat} : toString i = toString n ↔ i = n := by
  have hnat : toString n = toString (n : Int) := rfl
  rw [hnat, Int.toString_eq_repr, Int.toString_eq_repr, Int.repr_inj]

end ExecutionPlatform.Foundations
