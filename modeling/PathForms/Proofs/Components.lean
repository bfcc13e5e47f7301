import PathForms.Proofs.RootGrammar
import PathForms.Walk

/-!
# The components of a path

A cursor stops at the root, if there is one, and then at each segment below it, so the components
that it reports are those that dividing the path gives.
-/

set_option autoImplicit false

namespace PathForms

variable {α : Type} [CodeUnit α] {d : Dialect}

theorem drop_length_takeWhile {β : Type} (p : β → Bool) (xs : List β) :
    xs.drop (xs.takeWhile p).length = xs.dropWhile p := by
  induction xs with
  | nil => rfl
  | cons a xs ih =>
    by_cases ha : p a = true
    · rw [List.takeWhile_cons_of_pos ha, List.dropWhile_cons_of_pos ha, List.length_cons,
        List.drop_succ_cons, ih]
    · rw [List.takeWhile_cons_of_neg ha, List.dropWhile_cons_of_neg ha, List.length_nil,
        List.drop_zero]

namespace Dialect

theorem parts_cons_sep {a : α} (ha : d.isSep a = true) (xs : List α) :
    d.parts (a :: xs) = d.parts xs :=
  parts_append_cons [] xs ha

theorem parts_dropWhile_isSep (xs : List α) : d.parts (xs.dropWhile d.isSep) = d.parts xs := by
  induction xs with
  | nil => rfl
  | cons a xs ih =>
    by_cases ha : d.isSep a = true
    · rw [List.dropWhile_cons_of_pos ha, ih, parts_cons_sep ha]
    · rw [List.dropWhile_cons_of_neg ha]

theorem parts_segment_append {s rest : List α} (hs : d.IsSegment s) (hr : d.NameEnds rest) :
    d.parts (s ++ rest) = s :: d.parts rest := by
  cases rest with
  | nil => rw [List.append_nil, parts_segment hs, parts_nil]
  | cons c rest =>
    have hc := nameEnds_cons_iff.1 hr
    rw [parts_append_cons s rest hc, parts_segment hs, parts_cons_sep hc]
    rfl

theorem nameEnds_dropWhile (xs : List α) : d.NameEnds (xs.dropWhile fun a => !d.isSep a) := by
  induction xs with
  | nil => exact .inl rfl
  | cons a xs ih =>
    by_cases ha : d.isSep a = true
    · rw [List.dropWhile_cons_of_neg (by simpa using ha)]
      exact .inr (by simpa [startsWithSep] using ha)
    · rwa [List.dropWhile_cons_of_pos (by simpa using ha)]

theorem isSegment_takeWhile {xs : List α} (h : xs.takeWhile (fun a => !d.isSep a) ≠ []) :
    d.IsSegment (xs.takeWhile fun a => !d.isSep a) := by
  refine ⟨h, fun a ha => ?_⟩
  have hall := List.all_takeWhile (p := fun a => !d.isSep a) (l := xs)
  rw [List.all_eq_true] at hall
  simpa using hall a ha

theorem parts_eq_cons_takeWhile {xs : List α}
    (h : xs.takeWhile (fun a => !d.isSep a) ≠ []) :
    d.parts xs = xs.takeWhile (fun a => !d.isSep a) ::
      d.parts (xs.dropWhile fun a => !d.isSep a) := by
  rw [← parts_segment_append (isSegment_takeWhile h) (nameEnds_dropWhile xs),
    List.takeWhile_append_dropWhile]

end Dialect

namespace Cursor

theorem stops_of_none {c : Cursor α} (h : (c.next d).1 = none) : c.stops d = [] := by
  rw [stops]
  split
  · rfl
  · next hn => simp [hn] at h

theorem stops_of_some {c onward : Cursor α} {part : List α}
    (h : c.next d = (some part, onward)) :
    c.stops d = (part, onward.passed) :: onward.stops d := by
  rw [stops]
  split
  · next hn => simp [hn] at h
  · next hn =>
    rw [h] at hn
    cases hn
    rfl

theorem dropWhile_eq_nil_of_nextPart {c : Cursor α} (h : (c.nextPart d).1 = none) :
    c.ahead.dropWhile d.isSep = [] := by
  cases hx : c.ahead.dropWhile d.isSep with
  | nil => rfl
  | cons a xs =>
    have ha : d.isSep a = false := by
      have := List.head?_dropWhile_not d.isSep c.ahead
      simpa [hx] using this
    simp [nextPart, hx, ha] at h

theorem parts_eq_nil_of_nextPart {c : Cursor α} (h : (c.nextPart d).1 = none) :
    d.parts c.ahead = [] := by
  rw [← Dialect.parts_dropWhile_isSep, dropWhile_eq_nil_of_nextPart h, Dialect.parts_nil]

theorem parts_eq_cons_of_nextPart {c onward : Cursor α} {part : List α}
    (h : c.nextPart d = (some part, onward)) :
    d.parts c.ahead = part :: d.parts onward.ahead ∧ 0 < onward.passed := by
  simp only [nextPart] at h
  split at h
  · cases h
  · next he =>
    cases h
    have hne := mt List.isEmpty_iff.2 he
    have hpos := List.length_pos_iff.2 hne
    refine ⟨?_, Nat.lt_of_lt_of_le hpos (Nat.le_add_left _ _)⟩
    rw [← Dialect.parts_dropWhile_isSep c.ahead, Dialect.parts_eq_cons_takeWhile hne,
      drop_length_takeWhile]

theorem map_fst_stops (c : Cursor α) (h : c.rootAhead d = 0) :
    (c.stops d).map Prod.fst = d.parts c.ahead := by
  induction hn : c.ahead.length using Nat.strong_induction_on generalizing c with
  | _ n ih =>
    have hnext : c.next d = c.nextPart d := by
      rw [next]
      exact if_neg (by omega)
    cases hp : c.nextPart d with
    | mk found onward =>
      cases found with
      | none =>
        rw [stops_of_none (by rw [hnext, hp]), parts_eq_nil_of_nextPart (by rw [hp])]
        rfl
      | some part =>
        obtain ⟨hparts, hpos⟩ := parts_eq_cons_of_nextPart hp
        have hlt := length_ahead_nextPart_lt (congrArg Prod.fst hp)
        rw [hp] at hlt
        dsimp only at hlt
        have hroot : onward.rootAhead d = 0 := if_neg (by omega)
        rw [stops_of_some (hnext.trans hp), List.map_cons, hparts,
          ih _ (by omega) onward hroot rfl]

theorem rootAhead_belowRoot (xs : List α) :
    (⟨(d.root xs).length, d.belowRoot xs⟩ : Cursor α).rootAhead d = 0 := by
  rw [rootAhead]
  split
  · next h0 =>
    dsimp only at h0
    rw [Dialect.belowRoot, h0, List.drop_zero, h0]
  · rfl

theorem stops_start (xs : List α) : (start xs).stops d =
    (if (d.rootUnits xs).isEmpty then [] else [(d.rootUnits xs, (d.root xs).length)]) ++
      (⟨(d.root xs).length, d.belowRoot xs⟩ : Cursor α).stops d := by
  by_cases hr : 0 < (d.root xs).length
  · have hne : (d.rootUnits xs).isEmpty = false := by
      cases xs with
      | nil => simp [Dialect.root] at hr
      | cons a xs =>
        rw [Dialect.rootUnits, List.isEmpty_eq_false_iff]
        simp
        omega
    have hnext : (start xs).next d =
        (some (d.rootUnits xs), ⟨(d.root xs).length, d.belowRoot xs⟩) := if_pos hr
    rw [stops_of_some hnext, hne]
    rfl
  · have h0 : (d.root xs).length = 0 := by omega
    rw [Dialect.rootUnits, Dialect.belowRoot, h0]
    rfl

end Cursor

namespace Dialect

theorem components_eq (xs : List α) : d.components xs =
    (if (d.rootUnits xs).isEmpty then [] else [d.rootUnits xs]) ++ d.parts (d.belowRoot xs) := by
  rw [components, Cursor.stops_start, List.map_append,
    Cursor.map_fst_stops _ (Cursor.rootAhead_belowRoot xs)]
  split <;> rfl

end Dialect

end PathForms
