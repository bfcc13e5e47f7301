import PathForms.Separator

/-!
# Segments and written paths

A segment is what can stand between two separators: at least one unit, and no separator among them.
Dividing a run finds its segments, and writing segments puts single preferred separators between
them. Division undoes writing, whether or not a separator is written at the end.
-/

set_option autoImplicit false

namespace PathForms.Dialect

open CodeUnit

variable {α : Type} [CodeUnit α] {d : Dialect}

def IsSegment (d : Dialect) (s : List α) : Prop := s ≠ [] ∧ ∀ a ∈ s, d.isSep a = false

/-- Segments with a preferred separator between any two, and one at the end if asked for. Without
segments nothing is written: a separator alone would be a root. -/
def written (d : Dialect) (names : List (List α)) (trailing : Bool) : List α :=
  [d.sep].intercalate names ++ (if trailing && !names.isEmpty then [d.sep] else [])

theorem piecesAt_eq_splitOnP {β : Type} (p : β → Bool) (xs : List β) :
    piecesAt p xs = xs.splitOnP p := by
  induction xs with
  | nil => simp [piecesAt]
  | cons a xs ih =>
    obtain ⟨piece, later, h⟩ := List.exists_cons_of_ne_nil (List.splitOnP_ne_nil p xs)
    rw [List.splitOnP_cons_eq_if_modifyHead, h, List.modifyHead_cons, piecesAt, List.foldr_cons,
      ← piecesAt, ih, h]

theorem parts_eq_splitOnP (xs : List α) :
    d.parts xs = (xs.splitOnP d.isSep).filter (fun piece => !piece.isEmpty) := by
  rw [parts, piecesAt_eq_splitOnP]

theorem parts_nil : d.parts ([] : List α) = [] := rfl

theorem parts_append_cons (xs ys : List α) {a : α} (ha : d.isSep a = true) :
    d.parts (xs ++ a :: ys) = d.parts xs ++ d.parts ys := by
  simp only [parts_eq_splitOnP, List.splitOnP_append_cons xs ys ha, List.filter_append]

theorem parts_segment {s : List α} (h : d.IsSegment s) : d.parts s = [s] := by
  rw [parts_eq_splitOnP, List.splitOnP_eq_singleton h.2]
  simp [h.1]

theorem mem_piece_of_mem_splitOnP {β : Type} {p : β → Bool} {xs piece : List β}
    (h : piece ∈ xs.splitOnP p) : ∀ a ∈ piece, a ∈ xs ∧ p a = false := by
  induction xs generalizing piece with
  | nil =>
    intro a ha
    simp only [List.splitOnP_nil, List.mem_singleton] at h
    simp [h] at ha
  | cons b xs ih =>
    obtain ⟨front, later, hs⟩ := List.exists_cons_of_ne_nil (List.splitOnP_ne_nil p xs)
    rw [List.splitOnP_cons_eq_if_modifyHead] at h
    intro a ha
    by_cases hb : p b = true
    · rw [if_pos hb, List.mem_cons] at h
      rcases h with rfl | h
      · simp at ha
      · exact ⟨List.mem_cons_of_mem b (ih h a ha).1, (ih h a ha).2⟩
    · rw [if_neg hb, hs, List.modifyHead_cons, List.mem_cons] at h
      rw [hs] at ih
      rcases h with rfl | h
      · rcases List.mem_cons.1 ha with rfl | ha
        · exact ⟨List.mem_cons_self, by simpa using hb⟩
        · have := ih List.mem_cons_self a ha
          exact ⟨List.mem_cons_of_mem b this.1, this.2⟩
      · have := ih (List.mem_cons_of_mem front h) a ha
        exact ⟨List.mem_cons_of_mem b this.1, this.2⟩

theorem isSegment_of_mem_parts {xs s : List α} (h : s ∈ d.parts xs) : d.IsSegment s := by
  rw [parts_eq_splitOnP, List.mem_filter] at h
  exact ⟨by simpa using h.2, fun a ha => (mem_piece_of_mem_splitOnP h.1 a ha).2⟩

theorem mem_of_mem_parts {xs s : List α} (h : s ∈ d.parts xs) {a : α} (ha : a ∈ s) : a ∈ xs := by
  rw [parts_eq_splitOnP, List.mem_filter] at h
  exact (mem_piece_of_mem_splitOnP h.1 a ha).1

theorem written_nil (t : Bool) : d.written ([] : List (List α)) t = [] := by
  simp [written]

theorem written_singleton (s : List α) (t : Bool) :
    d.written [s] t = s ++ (if t then [d.sep] else []) := by
  simp [written]

theorem written_cons (s : List α) (t : Bool) {names : List (List α)} (h : names ≠ []) :
    d.written (s :: names) t = s ++ d.sep :: d.written names t := by
  simp [written, List.intercalate_cons_of_ne_nil h, h]

theorem written_eq_nil_iff {names : List (List α)} {t : Bool}
    (h : ∀ s ∈ names, d.IsSegment s) : d.written names t = [] ↔ names = [] := by
  cases names with
  | nil => simp [written_nil]
  | cons s names =>
    have hs := (h s List.mem_cons_self).1
    cases names with
    | nil => simp [written_singleton, hs]
    | cons => simp [written_cons]

/-- Writing and then dividing gives the segments back. -/
theorem parts_written {names : List (List α)} (t : Bool) (h : ∀ s ∈ names, d.IsSegment s) :
    d.parts (d.written names t) = names := by
  induction names with
  | nil => rw [written_nil, parts_nil]
  | cons s names ih =>
    have hs := h s List.mem_cons_self
    by_cases hn : names = []
    · subst hn
      rw [written_singleton]
      cases t with
      | false => simpa using parts_segment hs
      | true =>
        rw [if_pos rfl, parts_append_cons s [] (isSep_sep d), parts_segment hs, parts_nil]
        rfl
    · rw [written_cons s t hn, parts_append_cons s _ (isSep_sep d), parts_segment hs,
        ih (fun s' h' => h s' (List.mem_cons_of_mem s h'))]
      rfl

theorem exists_cons_of_startsWithSep {xs : List α} (h : d.startsWithSep xs = true) :
    ∃ c tail, xs = c :: tail ∧ d.isSep c = true := by
  cases xs with
  | nil => cases h
  | cons c tail => exact ⟨c, tail, rfl, h⟩

theorem startsWithSep_append {xs : List α} (ys : List α) (h : xs ≠ []) :
    d.startsWithSep (xs ++ ys) = d.startsWithSep xs := by
  obtain ⟨a, xs, rfl⟩ := List.exists_cons_of_ne_nil h
  rfl

theorem startsWithSep_segment_append {s : List α} (h : d.IsSegment s) (xs : List α) :
    d.startsWithSep (s ++ xs) = false := by
  obtain ⟨a, s', rfl⟩ := List.exists_cons_of_ne_nil h.1
  simpa [startsWithSep] using h.2 a List.mem_cons_self

theorem startsWithSep_written {names : List (List α)} (t : Bool)
    (h : ∀ s ∈ names, d.IsSegment s) : d.startsWithSep (d.written names t) = false := by
  cases names with
  | nil => rw [written_nil]; rfl
  | cons s names =>
    have hs := h s List.mem_cons_self
    by_cases hn : names = []
    · rw [hn, written_singleton]
      exact startsWithSep_segment_append hs _
    · rw [written_cons s t hn]
      exact startsWithSep_segment_append hs _

theorem endsWithSep_append (xs : List α) {ys : List α} (h : ys ≠ []) :
    d.endsWithSep (xs ++ ys) = d.endsWithSep ys := by
  rw [endsWithSep, endsWithSep, List.getLast?_append, List.getLast?_eq_some_getLast h,
    Option.some_or]

theorem endsWithSep_segment {s : List α} (h : d.IsSegment s) : d.endsWithSep s = false := by
  rw [endsWithSep, List.getLast?_eq_some_getLast h.1]
  exact h.2 _ (List.getLast_mem h.1)

theorem endsWithSep_written {names : List (List α)} (t : Bool)
    (h : ∀ s ∈ names, d.IsSegment s) :
    d.endsWithSep (d.written names t) = (t && !names.isEmpty) := by
  induction names with
  | nil => simp [written_nil, endsWithSep]
  | cons s names ih =>
    by_cases hn : names = []
    · subst hn
      rw [written_singleton]
      cases t with
      | false => simpa using endsWithSep_segment (h s List.mem_cons_self)
      | true => simp [endsWithSep, isSep_sep]
    · have hs' : ∀ s' ∈ names, d.IsSegment s' := fun s' h' => h s' (List.mem_cons_of_mem s h')
      have hw : d.written names t ≠ [] := mt (written_eq_nil_iff hs').1 hn
      rw [written_cons s t hn, List.append_cons, endsWithSep_append _ hw, ih hs']
      simp [hn]

theorem respell_of_not_isSep {a : α} (h : d.isSep a = false) : d.respell a = a := by
  simp [respell, h]

@[simp]
theorem respell_sep : d.respell (d.sep : α) = d.sep := by
  simp [respell, isSep_sep]

theorem respelled_segment {s : List α} (h : d.IsSegment s) : d.respelled s = s := by
  calc s.map d.respell = s.map id :=
        List.map_congr_left (fun a ha => respell_of_not_isSep (h.2 a ha))
    _ = s := List.map_id s

theorem respelled_respelled (xs : List α) : d.respelled (d.respelled xs) = d.respelled xs := by
  rw [respelled, respelled, List.map_map]
  refine List.map_congr_left (fun a _ => ?_)
  by_cases h : d.isSep a = true
  · simp [respell, h, isSep_sep]
  · simp [respell, h]

end PathForms.Dialect
