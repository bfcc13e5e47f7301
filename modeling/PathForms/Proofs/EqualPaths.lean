import PathForms.Proofs.LetterCase
import PathForms.Proofs.MatchedRuns

/-!
# Paths that differ in letter case

Two paths are equal under the Windows dialect if folding the case of ASCII letters makes them the
same. Folding never makes or removes a separator, a dot, a colon or any other unit that the grammar
looks for, since none of these is a letter, and the one rule about letters asks only whether a unit
is one. Equal paths therefore stay equal under every edit with equal arguments.
-/

set_option autoImplicit false

namespace PathForms

namespace Dialect

open CodeUnit

variable {α : Type} [CodeUnit α]

theorem collate_windows (a : α) : windows.collate a = code (foldCase a) := rfl

theorem collate_foldCase (a : α) : windows.collate (foldCase a) = windows.collate a := by
  rw [collate_windows, foldCase_foldCase, collate_windows]

theorem keepsRules_foldCase : windows.KeepsRules (foldCase : α → α) where
  isSep_eq := eq_of_moves_within foldCase_cases fun _ => not_isSep_of_isDriveLetter
  map_sep := by
    refine foldCase_of_not_isUpper ?_
    rw [isUpper, sep, code_ofByte]
    rfl
  isByte_eq b hb := by
    refine eq_of_moves_within foldCase_cases fun a ha => ?_
    have hc := code_of_isDriveLetter ha
    have hn : b.toNat < 65 ∨ b.toNat = 126 := by
      simp only [List.mem_cons, List.not_mem_nil, or_false] at hb
      rcases hb with rfl | rfl | rfl | rfl <;> decide
    rw [isByte, beq_eq_false_iff_ne]
    omega
  isDriveLetter_eq a := by
    rcases foldCase_cases a with h | ⟨h, h'⟩
    · rw [h]
    · rw [h, h']
  isReserved_eq := by
    refine eq_of_moves_within foldCase_cases fun a ha => ?_
    have hc := code_of_isDriveLetter ha
    rw [← Bool.not_eq_true]
    intro hr
    have := code_of_isReserved hr
    omega
  collate_eq a _ := collate_foldCase a

def Agree (d : Dialect) (xs ys : List α) : Prop := d.sameSpelling xs ys = true

theorem agree_windows_iff {xs ys : List α} :
    windows.Agree xs ys ↔ Matched foldCase foldCase xs ys := by
  have hc : (windows.collate : α → Nat) = code ∘ foldCase := rfl
  rw [Agree, sameSpelling, isEq_compareUnits, hc, ← List.map_map, ← List.map_map,
    List.map_inj_right code_injective, Matched]

end Dialect

namespace Path

open Dialect CodeUnit

variable {α : Type} [TextUnit α]

/-- Where letter case tells no two names apart, equal paths cannot be told apart by anything that is
done to them. Each step with equal arguments gives equal paths or the same error; the paths are
divided at the same places however lenient the reader is; they stand in the same order to equal
paths; and they are the same place as equal paths, seen from equal bases. The paths are terminated,
as all paths are that edits can make. -/
theorem sameOutcome_of_equal {p p' q q' : Path α .windows} (hp : p.buffer.WellFormed)
    (hp' : p'.buffer.WellFormed) (h : p.equal p'.units = true) (hq : q.equal q'.units = true) :
    (∀ op op', Op.Alike windows.Agree op op' →
      SameOutcome (BothRelated windows.Agree) (step op ⟨p, q⟩) (step op' ⟨p', q'⟩)) ∧
    (∀ l, SameShape (p.classify l) (p'.classify l)) ∧
    p.compare q = p'.compare q' ∧
    ∀ base base' : Path α .windows, base.equal base'.units = true →
      p.equivalentIn q.units base = p'.equivalentIn q'.units base' := by
  have hr : (windows.Agree : List α → List α → Prop) = Matched foldCase foldCase := by
    funext xs ys
    exact propext agree_windows_iff
  have hk : windows.KeepsRules (foldCase : α → α) := keepsRules_foldCase
  have h' : Related (Matched foldCase foldCase) p p' := agree_windows_iff.1 h
  have hq' : Related (Matched foldCase foldCase) q q' := agree_windows_iff.1 hq
  rw [hr]
  refine ⟨fun op op' ho => ?_, fun l => ?_, ?_, fun base base' hb => ?_⟩
  · exact sameOutcome_step hk hk hp hp' ⟨h', hq'⟩ ho
  · exact Matched.sameShape hk hk h' l
  · exact Matched.compareUnits_eq collate_foldCase collate_foldCase h' hq'
  · exact equivalentIn_eq hk hk h' collate_foldCase collate_foldCase hq'
      (agree_windows_iff.1 hb)

/-- `C:A` seen from `c:\W` and `c:a` seen from `C:\w`. -/
theorem sameOutcome_of_equal_drive : ∃ p p' base base' : Path UInt8 .windows,
    p.units = [67, 58, 65] ∧ p'.units = [99, 58, 97] ∧ base.units = [99, 58, 92, 87] ∧
      base'.units = [67, 58, 92, 119] ∧
      SameOutcome (BothRelated windows.Agree) (step (.resolve base.units true) ⟨p, base⟩)
        (step (.resolve base'.units true) ⟨p', base'⟩) ∧
      p.equivalentIn base.units base = p'.equivalentIn base'.units base' := by
  have hb : windows.Agree ([99, 58, 92, 87] : List UInt8) [67, 58, 92, 119] := rfl
  have h := @sameOutcome_of_equal UInt8 _ ⟨Buffer.exact [67, 58, 65]⟩ ⟨Buffer.exact [99, 58, 97]⟩
    ⟨Buffer.exact [99, 58, 92, 87]⟩ ⟨Buffer.exact [67, 58, 92, 119]⟩ (Buffer.wellFormed_exact _)
    (Buffer.wellFormed_exact _) rfl hb
  exact ⟨_, _, _, _, rfl, rfl, rfl, rfl, h.1 _ _ (.resolve hb true), h.2.2.2 _ _ hb⟩

end Path

end PathForms
