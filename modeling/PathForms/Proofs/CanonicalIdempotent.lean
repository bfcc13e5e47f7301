import PathForms.Proofs.CanonicalRoot

/-!
# Canonical paths are canonical

A second pass reads the root of a canonical path anew. It may find a longer root than the first pass
did, since segments came up against it, but what lies below that root is written already: segments
that are settled, single preferred separators between them, and a separator at the end only if one
is to be kept. Such a path is its own canonical form.
-/

set_option autoImplicit false

namespace PathForms

namespace Dialect

open CodeUnit

variable {α : Type} [CodeUnit α] {d : Dialect}

theorem Reading.rootUnits_eq {root below : List α} {f : Form} (h : d.Reading root below f) :
    d.rootUnits (root ++ below) = root := by
  simp [rootUnits, h.root_eq]

theorem Reading.belowRoot_eq {root below : List α} {f : Form} (h : d.Reading root below f) :
    d.belowRoot (root ++ below) = below := by
  simp [belowRoot, h.root_eq]

theorem Reading.lasting_eq {root below : List α} {f : Form} (h : d.Reading root below f) :
    d.lasting (root ++ below) = orDot root.isEmpty (settled f.isRooted (d.parts below)) := by
  rw [lasting, survivors, h.rootUnits_eq, h.belowRoot_eq, isRooted, h.root_eq]

theorem written_and_not_trim {names : List (List α)} {t trim : Bool}
    (ht : names = [] ∨ (trim = true → t = false)) :
    d.written names ((t && !names.isEmpty) && !trim) = d.written names t := by
  cases names with
  | nil => rw [written_nil, written_nil]
  | cons =>
    have ht' : trim = true → t = false := by simpa using ht
    cases trim with
    | false => simp
    | true => simp [ht' rfl]

theorem Reading.canonical_eq {root : List α} {names : List (List α)} {t trim : Bool} {f : Form}
    (h : d.Reading root (d.written names t) f) (hroot : d.respelled root = root)
    (hs : ∀ s ∈ names, d.IsSegment s) (hn : orDot root.isEmpty (settled f.isRooted names) = names)
    (ht : names = [] ∨ (trim = true → t = false)) :
    d.canonical trim (root ++ d.written names t) = root ++ d.written names t := by
  by_cases hx : root ++ d.written names t = []
  · rw [hx, canonical_nil]
  by_cases hf : d.Faultless (root ++ d.written names t)
  · rw [canonical_eq_written trim hx hf, h.rootUnits_eq, h.belowRoot_eq, h.lasting_eq,
      parts_written t hs, hn, endsWithSep_written t hs, written_and_not_trim ht, hroot]
  · exact canonical_of_not_faultless trim hf

theorem settled_orDot_settled (b rooted : Bool) (parts : List (List α)) :
    orDot b (settled rooted (orDot b (settled rooted parts))) = orDot b (settled rooted parts) := by
  by_cases he : ((settled rooted parts).isEmpty && b) = true
  · have hd : orDot b (settled rooted parts) = [[ofByte dot]] := if_pos he
    have hself : isSelf [(ofByte dot : α)] = true := isByte_iff.2 rfl
    have hb : b = true := (Bool.and_eq_true_iff.1 he).2
    rw [hd]
    simp [settled, settle, hself, orDot, hb]
  · have hd : orDot b (settled rooted parts) = settled rooted parts := if_neg he
    rw [hd, settled_of_stable (stable_settled rooted parts), hd]

theorem Stable.rooted_of_append {rooted : Bool} {stack : List (List α)} {s : List α}
    (h : Stable rooted (stack ++ [s])) (hs : isParent s = false) : Stable true stack := by
  have hk := h.sublist (List.sublist_append_left stack [s])
  refine ⟨hk.noEmpty, hk.noSelf, fun _ u hu => ?_, hk.parentsBelow⟩
  have hp := (List.pairwise_append.1 h.parentsBelow).2.2 u hu s (by simp)
  rw [← Bool.not_eq_true]
  intro hu'
  simp [hp hu'] at hs

theorem Reading.canonical_eq_of_stable {root : List α} {names : List (List α)} {t trim : Bool}
    {f : Form} (h : d.Reading root (d.written names t) f) (hroot : d.respelled root = root)
    (hs : ∀ s ∈ names, d.IsSegment s) (hne : root ≠ []) (hn : Stable f.isRooted names.reverse)
    (ht : names = [] ∨ (trim = true → t = false)) :
    d.canonical trim (root ++ d.written names t) = root ++ d.written names t := by
  apply h.canonical_eq hroot hs _ ht
  rw [settled_of_stable hn]
  simp [orDot, hne]

theorem trailing_eq_false (below : List α) {trim : Bool} (h : trim = true) :
    (d.endsWithSep below && !trim) = false := by
  simp [h]

theorem canonical_canonical_of_relative (trim : Bool) {xs : List α} (hx : xs ≠ [])
    (h : d.Faultless xs) (hf : (d.root xs).form = .relative) :
    d.canonical trim (d.canonical trim xs) = d.canonical trim xs := by
  have hr := rootUnits_of_relative hf
  have hseg : ∀ s ∈ d.lasting xs, d.IsSegment s := fun _ => isSegment_of_mem_lasting
  rw [canonical_eq_written trim hx h, hr, show d.respelled ([] : List α) = [] from rfl]
  have ht : trim = true → (d.endsWithSep (d.belowRoot xs) && !trim) = false :=
    trailing_eq_false _
  generalize (d.endsWithSep (d.belowRoot xs) && !trim) = t at ht ⊢
  by_cases hh : d.homeRoot = true ∧ (d.lasting xs).head? = some [ofByte tilde]
  · -- the first segment is read as the root now, and only names lie below it
    rw [lasting, head?_orDot_eq_tilde_iff] at hh
    obtain ⟨names, hl⟩ := List.head?_eq_some_iff.1 hh.2
    obtain ⟨root, hw, hroot, he⟩ := exists_reading_home hh.1 names t
    have hl' : d.lasting xs = [ofByte tilde] :: names := by simp [lasting, orDot, hl]
    have hst := stable_settled (d.isRooted xs) (d.parts (d.belowRoot xs))
    rw [← survivors, hl, List.reverse_cons] at hst
    rw [List.nil_append, hl', ← he]
    apply hw.canonical_eq_of_stable hroot _ (hw.root_ne_nil (by simp) (by simp))
      (hst.rooted_of_append rfl) (Or.inr ht)
    intro s hs
    exact hseg s (by simp [hl', hs])
  · have hw := (reading_relative_written_iff t hseg (lasting_ne_nil hr)
      (startsWithDrive_written_lasting h hf t)).2 hh
    apply hw.canonical_eq rfl hseg _ (Or.inr ht)
    rw [lasting, hr, survivors, isRooted, hf]
    exact settled_orDot_settled true false (d.parts (d.belowRoot xs))

theorem canonical_canonical_of_closed (trim : Bool) {xs : List α} (hx : xs ≠ [])
    (h : d.Faultless xs) (hr : (d.root xs).form ≠ .relative)
    (hu : (d.root xs).form ≠ .uncIncomplete) :
    d.canonical trim (d.canonical trim xs) = d.canonical trim xs := by
  have hne := rootUnits_ne_nil hx hr
  have hw := (root_canonical_eq_iff_reading trim hx h).1 (root_canonical_of_closed trim hx h hr hu)
  rw [canonical_eq_written trim hx h]
  rw [lasting_eq_survivors hne] at hw ⊢
  exact hw.canonical_eq_of_stable (respelled_respelled _) (fun _ => isSegment_of_mem_survivors)
    (by simpa [respelled] using hne) (stable_settled _ _) (Or.inr (trailing_eq_false _))

theorem Reading.exists_written_share {root below : List α} {names : List (List α)} {t : Bool}
    (h : d.Reading root below .uncIncomplete) (hs : ∀ s ∈ names, d.IsSegment s)
    (hb : below = [] → names = []) : d.networkShares = true ∧
      ∃ ms t', d.respelled root ++ d.written names t = d.sep :: d.sep :: d.written ms t' ∧
        (∀ s ∈ ms, d.IsSegment s) ∧
        (ms.drop 2 = [] ∨ t' = t ∧ ∃ k, ms.drop 2 = names.drop k) := by
  have hsep : ∀ {c : α}, d.isSep c = true → d.respell c = d.sep := fun hc => if_pos hc
  cases h with
  | @unc a b rest _ _ hn ha hb' h =>
    refine ⟨hn, ?_⟩
    rw [respelled_cons, respelled_cons, hsep ha, hsep hb']
    cases h with
    | bare => exact ⟨names, t, rfl, hs, Or.inr ⟨rfl, 2, rfl⟩⟩
    | server h1 =>
      refine ⟨[rest], false, ?_, by simpa using h1, Or.inl rfl⟩
      rw [hb rfl, written_nil, respelled_segment h1, written_singleton]
      rfl
    | @serverSep s _ c h1 hc =>
      rw [respelled_append, respelled_cons, respelled_segment h1, hsep hc]
      by_cases hnil : names = []
      · refine ⟨[s], true, ?_, by simpa using h1, Or.inl rfl⟩
        rw [hnil, written_nil, written_singleton]
        simp [respelled]
      · refine ⟨s :: names, t, ?_, by simpa [h1] using hs, Or.inr ⟨rfl, 1, rfl⟩⟩
        rw [written_cons s t hnil]
        simp [respelled]
    | @share s n c h1 hc h2 =>
      refine ⟨[s, n], false, ?_, by simp [h1, h2], Or.inl rfl⟩
      rw [hb rfl, written_nil, respelled_append, respelled_cons, respelled_segment h1,
        respelled_segment h2, hsep hc, written_cons s false (by simp), written_singleton]
      simp

theorem canonical_canonical_of_uncIncomplete (trim : Bool) {xs : List α} (hx : xs ≠ [])
    (h : d.Faultless xs) (hf : (d.root xs).form = .uncIncomplete) :
    d.canonical trim (d.canonical trim xs) = d.canonical trim xs := by
  have hr := reading_root (d := d) xs
  have hst := stable_settled (d.isRooted xs) (d.parts (d.belowRoot xs))
  rw [hf] at hr
  rw [← survivors, isRooted, hf] at hst
  rw [canonical_eq_written trim hx h, lasting_eq_survivors (rootUnits_ne_nil hx (by simp [hf]))]
  obtain ⟨hn, ms, t, hw, hms, hd⟩ := hr.exists_written_share
    (t := d.endsWithSep (d.belowRoot xs) && !trim)
    (fun _ => isSegment_of_mem_survivors) survivors_of_below_eq_nil
  obtain ⟨rest, f, hsh, hroot, he⟩ := exists_shareReading_written t hms
  have hread : d.Reading (d.sep :: d.sep :: rest) (d.written (ms.drop 2) t) f :=
    .unc hn (isSep_sep d) (isSep_sep d) hsh
  have hstable : Stable f.isRooted (ms.drop 2).reverse := by
    rw [hsh.isRooted]
    rcases hd with hd | ⟨-, k, hd⟩
    · rw [hd]
      exact .nil
    · rw [hd]
      exact hst.sublist (List.drop_sublist k _).reverse
  have ht : ms.drop 2 = [] ∨ (trim = true → t = false) := by
    rcases hd with hd | ⟨rfl, -⟩
    · exact Or.inl hd
    · exact Or.inr (trailing_eq_false _)
  rw [hw, ← he]
  refine hread.canonical_eq_of_stable ?_ (fun s hs => hms s (List.mem_of_mem_drop hs)) (by simp)
    hstable ht
  rw [respelled_cons, respelled_cons, respell_sep, hroot]

theorem canonical_canonical (trim : Bool) (xs : List α) :
    d.canonical trim (d.canonical trim xs) = d.canonical trim xs := by
  by_cases hx : xs = []
  · rw [hx, canonical_nil, canonical_nil]
  by_cases h : d.Faultless xs
  · by_cases hr : (d.root xs).form = .relative
    · exact canonical_canonical_of_relative trim hx h hr
    by_cases hu : (d.root xs).form = .uncIncomplete
    · exact canonical_canonical_of_uncIncomplete trim hx h hu
    · exact canonical_canonical_of_closed trim hx h hr hu
  · rw [canonical_of_not_faultless trim h, canonical_of_not_faultless trim h]

end Dialect

/-- Making a path canonical twice is making it canonical once, whatever its units are. -/
theorem Path.units_canonical_canonical {α : Type} [CodeUnit α] {d : Dialect} (p : Path α d)
    (trim : Bool) : ((p.canonical trim).canonical trim).units = (p.canonical trim).units := by
  rw [units_canonical, units_canonical, Dialect.canonical_canonical]

end PathForms
