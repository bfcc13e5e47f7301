import PathForms.Proofs.CanonicalRoot

/-!
# Canonical paths are no longer

Each segment of a run has a separator of its own in it, the last one perhaps excepted. What survives
of the segments is written with as many separators at most, so it needs no more units. A lone dot
takes the place of at least one unit.
-/

set_option autoImplicit false

namespace PathForms.Dialect

open CodeUnit

variable {α : Type} [CodeUnit α] {d : Dialect}

def extent {β : Type} : List (List β) → Nat
  | [] => 0
  | s :: names => s.length + 1 + extent names

theorem extent_cons {β : Type} (s : List β) (names : List (List β)) :
    extent (s :: names) = s.length + 1 + extent names := rfl

theorem extent_append {β : Type} (names more : List (List β)) :
    extent (names ++ more) = extent names + extent more := by
  induction names with
  | nil => exact (Nat.zero_add _).symm
  | cons s names ih =>
    rw [List.cons_append, extent_cons, extent_cons, ih]
    omega

theorem extent_le_of_sublist {β : Type} {names more : List (List β)} (h : names.Sublist more) :
    extent names ≤ extent more := by
  induction h with
  | slnil => exact Nat.le_refl _
  | cons s _ ih =>
    rw [extent_cons]
    omega
  | cons_cons s _ ih =>
    rw [extent_cons, extent_cons]
    omega

theorem extent_splitOnP {β : Type} (p : β → Bool) (xs : List β) :
    extent (xs.splitOnP p) = xs.length + 1 := by
  induction xs with
  | nil => rfl
  | cons a xs ih =>
    obtain ⟨piece, later, h⟩ := List.exists_cons_of_ne_nil (List.splitOnP_ne_nil p xs)
    rw [List.splitOnP_cons_eq_if_modifyHead]
    rw [h, extent_cons] at ih
    split
    · rw [h, extent_cons, extent_cons, List.length_nil, List.length_cons]
      omega
    · rw [h, List.modifyHead_cons, extent_cons, List.length_cons, List.length_cons]
      omega

theorem extent_parts_le (xs : List α) : extent (d.parts xs) ≤ xs.length + 1 := by
  rw [parts_eq_splitOnP, ← extent_splitOnP d.isSep xs]
  exact extent_le_of_sublist List.filter_sublist

theorem exists_eq_append_of_endsWithSep {xs : List α} (h : d.endsWithSep xs = true) :
    ∃ ys c, xs = ys ++ [c] ∧ d.isSep c = true := by
  rcases List.eq_nil_or_concat xs with rfl | ⟨ys, c, rfl⟩
  · simp [endsWithSep] at h
  · exact ⟨ys, c, by simp, by simpa [endsWithSep] using h⟩

theorem extent_parts_le_of_endsWithSep {xs : List α} (h : d.endsWithSep xs = true) :
    extent (d.parts xs) ≤ xs.length := by
  obtain ⟨ys, c, rfl, hc⟩ := exists_eq_append_of_endsWithSep h
  have hl := extent_parts_le (d := d) ys
  rw [parts_append_cons ys [] hc, parts_nil, List.append_nil, List.length_append]
  exact hl

theorem length_written {names : List (List α)} (t : Bool) (h : names ≠ []) :
    (d.written names t).length + 1 = extent names + (if t then 1 else 0) := by
  induction names with
  | nil => exact absurd rfl h
  | cons s names ih =>
    rw [extent_cons]
    by_cases hn : names = []
    · rw [hn, written_singleton]
      cases t <;> simp [extent]
    · have := ih hn
      rw [written_cons s t hn, List.length_append, List.length_cons]
      omega

theorem length_written_le {names : List (List α)} {xs : List α} (h : names.Sublist (d.parts xs))
    (trim : Bool) : (d.written names (d.endsWithSep xs && !trim)).length ≤ xs.length := by
  by_cases hn : names = []
  · simp [hn, written_nil]
  have hw := length_written (d := d) (d.endsWithSep xs && !trim) hn
  have hx := extent_le_of_sublist h
  by_cases he : d.endsWithSep xs = true
  · have := extent_parts_le_of_endsWithSep he
    split at hw <;> omega
  · have := extent_parts_le (d := d) xs
    simp only [he, Bool.false_and, Bool.false_eq_true, if_false] at hw ⊢
    omega

theorem two_le_length_of_endsWithSep {xs : List α} (hs : d.startsWithSep xs = false)
    (he : d.endsWithSep xs = true) : 2 ≤ xs.length := by
  match xs with
  | [] => simp [endsWithSep] at he
  | [a] =>
    have ha : d.isSep a = true := by simpa [endsWithSep] using he
    simp [startsWithSep, ha] at hs
  | _ :: _ :: _ => simp

theorem length_written_dot_le (trim : Bool) {xs : List α} (hx : xs ≠ [])
    (hs : d.startsWithSep xs = false) :
    (d.written [[(ofByte dot : α)]] (d.endsWithSep xs && !trim)).length ≤ xs.length := by
  have hpos := List.length_pos_iff.2 hx
  rw [written_singleton]
  by_cases he : d.endsWithSep xs = true
  · have := two_le_length_of_endsWithSep hs he
    split <;> simp <;> omega
  · simp only [he, Bool.false_and, Bool.false_eq_true, if_false, List.append_nil,
      List.length_singleton]
    exact hpos

theorem belowRoot_of_rootUnits_eq_nil {xs : List α} (h : d.rootUnits xs = []) :
    d.belowRoot xs = xs := by
  have hl := length_rootUnits (d := d) xs
  rw [h, List.length_nil] at hl
  rw [belowRoot, ← hl, List.drop_zero]

theorem length_written_lasting_le (trim : Bool) {xs : List α} (hx : xs ≠ []) :
    (d.written (d.lasting xs) (d.endsWithSep (d.belowRoot xs) && !trim)).length ≤
      (d.belowRoot xs).length := by
  have hsub : (d.survivors xs).Sublist (d.parts (d.belowRoot xs)) := settled_sublist _ _
  by_cases hl : d.lasting xs = d.survivors xs
  · rw [hl]
    exact length_written_le hsub trim
  · -- only a relative path of which nothing is left becomes a dot
    have hroot : d.rootUnits xs = [] := by
      by_contra hr
      exact hl (lasting_eq_survivors hr)
    have hdot : d.lasting xs = [[ofByte dot]] := by
      unfold lasting orDot at hl ⊢
      split at hl
      · next hn => rw [if_pos hn]
      · exact absurd rfl hl
    have hf : (d.root xs).form = .relative := by
      by_contra hf
      exact rootUnits_ne_nil hx hf hroot
    have hread := reading_root (d := d) xs
    rw [hf, hroot, belowRoot_of_rootUnits_eq_nil hroot] at hread
    rw [hdot, belowRoot_of_rootUnits_eq_nil hroot]
    exact length_written_dot_le trim hx hread.relative_inv.2.1

theorem length_canonical_le (trim : Bool) (xs : List α) :
    (d.canonical trim xs).length ≤ xs.length := by
  by_cases hx : xs = []
  · rw [hx, canonical_nil]
  by_cases h : d.Faultless xs
  · have hw := length_written_lasting_le (d := d) trim hx
    have hs : xs.length = (d.rootUnits xs).length + (d.belowRoot xs).length := by
      rw [← List.length_append, rootUnits_append_belowRoot]
    rw [canonical_eq_written trim hx h, List.length_append, respelled, List.length_map]
    omega
  · rw [canonical_of_not_faultless trim h]

end PathForms.Dialect
