import PathForms.Order

/-!
# Letter case

Two units differ in nothing but the case of a letter if they are the same or one is an ASCII capital
and the other its small letter, which is 32 further on. Folding the case of both makes the same unit
of them exactly then, and so a dialect that ignores letter case compares them as equal.
-/

set_option autoImplicit false

namespace PathForms

namespace CodeUnit

variable {α : Type} [CodeUnit α]

/-- The same unit, or an ASCII capital and its small letter. -/
def AlikeButCase (a b : α) : Prop :=
  code a = code b ∨ (65 ≤ code a ∧ code a ≤ 90 ∧ code b = code a + 32) ∨
    (65 ≤ code b ∧ code b ≤ 90 ∧ code a = code b + 32)

instance (a b : α) : Decidable (AlikeButCase a b) := inferInstanceAs (Decidable (_ ∨ _ ∨ _))

theorem foldCase_of_not_isUpper {a : α} (h : isUpper a = false) : foldCase a = a := by
  rw [foldCase, h, if_neg (by simp)]

theorem code_foldCase (a : α) :
    code (foldCase a) = if 65 ≤ code a ∧ code a ≤ 90 then code a + 32 else code a := by
  cases h : isUpper a with
  | false => rw [foldCase_of_not_isUpper h, if_neg (decide_eq_false_iff_not.1 h)]
  | true =>
    have hc : 65 ≤ code a ∧ code a ≤ 90 := decide_eq_true_iff.1 h
    rw [foldCase, if_pos h, if_pos hc, code_ofByte, UInt8.toNat_ofNat']
    omega

theorem isUpper_foldCase (a : α) : isUpper (foldCase a) = false := by
  rw [isUpper, decide_eq_false_iff_not, code_foldCase]
  split <;> omega

theorem foldCase_foldCase (a : α) : foldCase (foldCase a) = foldCase a :=
  foldCase_of_not_isUpper (isUpper_foldCase a)

theorem code_of_isDriveLetter {a : α} (h : isDriveLetter a = true) :
    65 ≤ code a ∧ code a ≤ 90 ∨ 97 ≤ code a ∧ code a ≤ 122 := by
  simpa [isDriveLetter, isUpper, isLower] using h

theorem isLower_foldCase_of_isUpper {a : α} (h : isUpper a = true) :
    isLower (foldCase a) = true := by
  have hc : 65 ≤ code a ∧ code a ≤ 90 := decide_eq_true_iff.1 h
  rw [isLower, decide_eq_true_iff, code_foldCase, if_pos hc]
  omega

theorem foldCase_cases (a : α) : foldCase a = a ∨
    isDriveLetter a = true ∧ isDriveLetter (foldCase a) = true := by
  cases h : isUpper a with
  | false => exact Or.inl (foldCase_of_not_isUpper h)
  | true => exact Or.inr (by simp [isDriveLetter, isLower_foldCase_of_isUpper h, h])

theorem foldCase_eq_iff {a b : α} : foldCase a = foldCase b ↔ AlikeButCase a b := by
  rw [eq_iff_code_eq, code_foldCase, code_foldCase, AlikeButCase]
  split <;> split <;> omega

end CodeUnit

namespace Dialect

open CodeUnit

variable {α : Type} [CodeUnit α] {d : Dialect} {a b : α}

/-- Two units that a comparison does not tell apart. -/
def CollateAlike (d : Dialect) (a b : α) : Prop :=
  if d.caseSensitive then a = b else AlikeButCase a b

theorem collate_eq_iff : d.collate a = d.collate b ↔ d.CollateAlike a b := by
  unfold collate CollateAlike
  rw [← eq_iff_code_eq]
  split
  · exact Iff.rfl
  · exact foldCase_eq_iff

end Dialect

end PathForms
