import PathForms.Proofs.Ancestors
import PathForms.Proofs.TrailingSeparator
import PathForms.Proofs.ValidRuns

/-!
# Rebuilding canonical paths

A canonical path is written with single preferred separators, and pushing its components one after
the other writes it again: the root is pushed onto nothing, the first name follows the root as it
is, and each later name follows a preferred separator. A component is read anew when it is pushed,
and of the names only a lone tilde is read as anything but a name: it replaces all that stands
before it.
-/

set_option autoImplicit false

namespace PathForms

namespace Dialect

open CodeUnit

variable {α : Type} [CodeUnit α] {d : Dialect} {xs ys s root below : List α}
variable {names : List (List α)} {f : Form}

/-- A root in preferred spelling with names below it that name no drive. -/
structure Built (d : Dialect) (root : List α) (names : List (List α)) (f : Form) : Prop where
  reading : d.Reading root (d.written names false) f
  spelled : ∀ a ∈ root, d.isSep a = true → a = d.sep
  isSegment : ∀ s ∈ names, d.IsSegment s
  noDrive : ∀ s ∈ names, d.startsWithDrive s = false

theorem startsWithDrive_of_allowed (h : ∀ a ∈ xs, d.Allowed a) : d.startsWithDrive xs = false := by
  rw [← Bool.not_eq_true]
  intro hd
  match xs, hd with
  | a :: b :: xs, hd =>
    simp only [startsWithDrive, Bool.and_eq_true] at hd
    have hb := (h b (by simp)).2 (validates_of_driveLetters hd.1.1)
    rw [isReserved_of_isByte_colon hd.2] at hb
    cases hb

theorem exists_built_canonical (hx : xs ≠ []) (h : d.Faultless xs) :
    ∃ root names f, d.canonical true xs = root ++ d.written names false ∧
      d.Built root names f := by
  have hc := canonical_ne_nil true hx h
  have hf := (valid_canonical true hx h).faultless
  have hfix := canonical_eq_written true hc hf
  have hsplit := rootUnits_append_belowRoot (d := d) (d.canonical true xs)
  rw [canonical_canonical, Bool.not_true, Bool.and_false] at hfix
  have hparts := List.append_inj (hsplit.trans hfix) (by simp [respelled])
  refine ⟨d.rootUnits (d.canonical true xs), d.lasting (d.canonical true xs),
    (d.root (d.canonical true xs)).form, ?_, ?_⟩
  · rw [← hparts.2, hsplit]
  · refine ⟨hparts.2 ▸ reading_root _, ?_, fun _ => isSegment_of_mem_lasting, ?_⟩
    · intro a ha
      exact eq_sep_of_mem_canonical h (List.mem_of_mem_take ha)
    · intro s hs
      exact startsWithDrive_of_allowed (hf.allowed_lasting hs)

namespace Built

theorem rootUnits_eq (h : d.Built root names f) :
    d.rootUnits (root ++ d.written names false) = root :=
  h.reading.rootUnits_eq

theorem belowRoot_eq (h : d.Built root names f) :
    d.belowRoot (root ++ d.written names false) = d.written names false :=
  h.reading.belowRoot_eq

theorem componentsBelow_eq (h : d.Built root names f) :
    d.componentsBelow (root ++ d.written names false) = names := by
  rw [Dialect.componentsBelow_eq, h.belowRoot_eq, parts_written false h.isSegment]

theorem components_eq (h : d.Built root names f) :
    d.components (root ++ d.written names false) =
      (if root.isEmpty then [] else [root]) ++ names := by
  rw [Dialect.components_eq, h.rootUnits_eq, h.belowRoot_eq, parts_written false h.isSegment]

end Built

theorem form_tilde (hh : d.homeRoot = true) : (d.root [(ofByte tilde : α)]).form = .homeRooted := by
  have hr : d.Reading [(ofByte tilde : α)] [] .homeRooted := .home hh (isByte_iff.2 rfl)
  exact congrArg Root.form hr.root_eq

theorem form_of_name (hs : d.IsSegment s) (hd : d.startsWithDrive s = false)
    (ht : ¬ (d.homeRoot = true ∧ s = [ofByte tilde])) : (d.root s).form = .relative := by
  have hw : d.written [s] false = s := by simp [written_singleton]
  have hseg : ∀ s' ∈ [s], d.IsSegment s' := by simpa using hs
  have hr : d.Reading [] (d.written [s] false) .relative := by
    rw [reading_relative_written_iff false hseg (by simp) (hw.symm ▸ hd)]
    simpa using ht
  rw [hw] at hr
  exact congrArg Root.form hr.root_eq

theorem joined_nil (ys : List α) : d.joined [] ys = ys := by
  by_cases hy : ys = []
  · subst hy
    rfl
  by_cases hr : (d.root ys).form = .relative
  · exact joined_relative [] hr
  · rcases joined_of_not_relative [] hr hy with hj | ⟨-, hj⟩
    · exact hj
    · exact hj

structure TakesNames (d : Dialect) (xs : List α) : Prop where
  ne_nil : xs ≠ []
  endsWithSep_eq : d.endsWithSep xs = false
  isBareDrive_eq : d.isBareDrive xs = false
  spelled : ∀ a ∈ xs, d.isSep a = true → a = d.sep

namespace TakesNames

theorem joined_eq (h : d.TakesNames xs) (hf : (d.root s).form = .relative) :
    d.joined xs s = xs ++ d.sep :: s := by
  have hsep : d.sepLike xs = d.sep := by
    unfold sepLike
    cases hc : xs.find? d.isSep with
    | none => rfl
    | some c => exact h.spelled c (List.mem_of_find?_eq_some hc) (List.find?_some hc)
  have hends : d.ensureSep xs = xs ++ [d.sep] := by
    simp [ensureSep, h.ne_nil, h.endsWithSep_eq, hsep]
  rw [joined_relative xs hf, h.isBareDrive_eq, if_neg Bool.false_ne_true, hends, List.append_assoc,
    List.singleton_append]

theorem append (h : d.TakesNames xs) (hs : d.IsSegment s) :
    d.TakesNames (xs ++ d.sep :: s) := by
  constructor
  · simp
  · rw [List.append_cons, endsWithSep_append _ hs.1, endsWithSep_segment hs]
  · exact isBareDrive_eq_false_of_mem (a := d.sep) (by simp) (Or.inl (isSep_sep d))
  · intro a ha hsep
    simp only [List.mem_append, List.mem_cons] at ha
    rcases ha with ha | rfl | ha
    · exact h.spelled a ha hsep
    · rfl
    · rw [hs.2 a ha] at hsep
      cases hsep

theorem foldl_joined (h : d.TakesNames xs) (hs : ∀ s ∈ names, d.IsSegment s)
    (hf : ∀ s ∈ names, (d.root s).form = .relative) :
    names.foldl d.joined xs = xs ++ names.flatMap (d.sep :: ·) := by
  induction names generalizing xs with
  | nil => simp
  | cons s names ih =>
    have hs' := hs s List.mem_cons_self
    rw [List.foldl_cons, h.joined_eq (hf s List.mem_cons_self),
      ih (h.append hs') (fun t ht => hs t (List.mem_cons_of_mem s ht))
        (fun t ht => hf t (List.mem_cons_of_mem s ht)), List.flatMap_cons, List.append_assoc]

end TakesNames

theorem written_cons_flatMap (s : List α) (names : List (List α)) :
    d.written (s :: names) false = s ++ names.flatMap (d.sep :: ·) := by
  induction names generalizing s with
  | nil => simp [written_singleton]
  | cons t names ih =>
    rw [written_cons s false (by simp), ih t, List.flatMap_cons, List.cons_append]

theorem Reading.open_root (h : d.Reading root below f) (hb : below ≠ []) :
    root = [] ∨ d.isBareDrive root = true ∨ d.endsWithSep root = true := by
  rcases h.ends with he | ⟨-, hroot | hf | hbelow⟩
  · exact Or.inr (Or.inr he)
  · exact Or.inl hroot
  · subst hf
    cases h with
    | driveRelative hd => exact Or.inr (Or.inl (isBareDrive_iff.2 ⟨_, _, rfl, hd⟩))
    | unc _ _ _ h => cases h
  · exact absurd hbelow hb

namespace Built

theorem joined_root (h : d.Built root (s :: names) f) (hf : (d.root s).form = .relative) :
    d.joined root s = root ++ s := by
  have hne : d.written (s :: names) false ≠ [] := by
    rw [Ne, written_eq_nil_iff h.isSegment]
    simp
  rcases h.reading.open_root hne with rfl | hb | he
  · exact joined_nil s
  · rw [joined_relative root hf, if_pos hb]
  · exact joined_of_endsWithSep he hf

theorem takesNames (h : d.Built root (s :: names) f) (hf : (d.root s).form = .relative) :
    d.TakesNames (root ++ s) := by
  have hs := h.isSegment s List.mem_cons_self
  constructor
  · simp [hs.1]
  · rw [endsWithSep_append root hs.1, endsWithSep_segment hs]
  · rw [← h.joined_root hf, isBareDrive_joined_eq root hs.1]
    exact isBareDrive_of_form_ne (by simp [hf])
  · intro a ha hsep
    rcases List.mem_append.1 ha with ha | ha
    · exact h.spelled a ha hsep
    · rw [hs.2 a ha] at hsep
      cases hsep

theorem foldl_joined (h : d.Built root names f)
    (hf : ∀ s ∈ names, (d.root s).form = .relative) :
    names.foldl d.joined root = root ++ d.written names false := by
  cases names with
  | nil => simp [written_nil]
  | cons s names =>
    have hs := hf s List.mem_cons_self
    rw [List.foldl_cons, h.joined_root hs, (h.takesNames hs).foldl_joined
      (fun t ht => h.isSegment t (List.mem_cons_of_mem s ht))
      (fun t ht => hf t (List.mem_cons_of_mem s ht)), written_cons_flatMap, List.append_assoc]

end Built

theorem length_ensureSep_le (xs : List α) : (d.ensureSep xs).length ≤ xs.length + 1 := by
  rcases ensureSep_cases (d := d) xs with ⟨he, -⟩ | ⟨c, he, -⟩ <;> simp [he]

theorem length_volume_le (xs : List α) : (d.volume xs).length ≤ xs.length :=
  Nat.le_trans (length_trimEnd_le d.isSep (d.rootUnits xs)) (List.length_take_le' _ _)

theorem length_joined_le (xs ys : List α) :
    (d.joined xs ys).length ≤ xs.length + ys.length + 1 := by
  have hv := length_volume_le (d := d) xs
  have he := length_ensureSep_le (d := d) xs
  unfold joined
  dsimp only
  split
  · omega
  · split
    · split
      · rw [List.length_append]
        omega
      · omega
    · split <;> rw [List.length_append] <;> omega

theorem length_foldl_joined_le (xs : List α) (names : List (List α)) :
    (names.foldl d.joined xs).length ≤ xs.length + extent names := by
  induction names generalizing xs with
  | nil => exact Nat.le_refl _
  | cons s names ih =>
    have hs := length_joined_le (d := d) xs s
    have hn := ih (d.joined xs s)
    rw [List.foldl_cons, extent_cons]
    omega

theorem length_written_cons (s : List α) (names : List (List α)) :
    (d.written (s :: names) false).length = s.length + extent names := by
  have hw := length_written (d := d) false (List.cons_ne_nil s names)
  simp only [extent_cons, Bool.false_eq_true, if_false] at hw
  omega

namespace Built

theorem length_joined_root_le (h : d.Built root (s :: names) f) :
    (d.joined root s).length ≤ root.length + s.length := by
  by_cases ht : d.homeRoot = true ∧ s = [ofByte tilde]
  · rw [ht.2, joined_of_homeRooted (form_tilde ht.1)]
    exact Nat.le_add_left _ _
  · have hs := form_of_name (h.isSegment s List.mem_cons_self) (h.noDrive s List.mem_cons_self) ht
    rw [h.joined_root hs, List.length_append]

theorem root_ne_nil_of_tilde (h : d.Built root ([ofByte tilde] :: names) f)
    (hh : d.homeRoot = true) : root ≠ [] := by
  rintro rfl
  have hr := h.reading
  have hne : d.written ([ofByte tilde] :: names) false ≠ [] := by
    rw [Ne, written_eq_nil_iff h.isSegment]
    simp
  have hhome : d.startsWithHome (d.written ([ofByte tilde] :: names) false) = true :=
    (startsWithHome_written false h.isSegment).2 ⟨hh, rfl⟩
  generalize d.written ([ofByte tilde] :: names) false = below at hr hne hhome
  cases hr with
  | empty => exact hne rfl
  | relative _ _ _ hhome' =>
    rw [hhome] at hhome'
    cases hhome'

theorem length_foldl_joined_lt (h : d.Built root names f) (hh : d.homeRoot = true)
    (ht : [ofByte tilde] ∈ names) :
    (names.foldl d.joined root).length < (root ++ d.written names false).length := by
  obtain ⟨front, back, rfl⟩ := List.append_of_mem ht
  have hw := length_written (d := d) false
    (List.append_ne_nil_of_right_ne_nil front (List.cons_ne_nil [ofByte tilde] back))
  have hback := length_foldl_joined_le (d := d) [(ofByte tilde : α)] back
  have hlost : 0 < root.length + extent front := by
    cases front with
    | nil => exact Nat.add_pos_left (List.length_pos_iff.2 (h.root_ne_nil_of_tilde hh)) _
    | cons s front =>
      rw [extent_cons]
      omega
  simp only [extent_append, extent_cons, List.length_singleton, Bool.false_eq_true,
    if_false] at hw hback
  rw [List.foldl_append, List.foldl_cons, joined_of_homeRooted (form_tilde hh), List.length_append]
  omega

theorem foldl_joined_eq_iff (h : d.Built root names f) :
    names.foldl d.joined root = root ++ d.written names false ↔
      ¬ (d.homeRoot = true ∧ [ofByte tilde] ∈ names) := by
  constructor
  · rintro he ⟨hh, ht⟩
    exact absurd (congrArg List.length he) (Nat.ne_of_lt (h.length_foldl_joined_lt hh ht))
  · intro hn
    refine h.foldl_joined fun s hs => form_of_name (h.isSegment s hs) (h.noDrive s hs) ?_
    rintro ⟨hh, rfl⟩
    exact hn ⟨hh, hs⟩

end Built

end Dialect

namespace Path

open Dialect CodeUnit

variable {α : Type} [CodeUnit α] {d : Dialect} {p : Path α d} {names : List (List α)}

def pushAll (segments : List (List α)) (p : Path α d) : Except PathError (Path α d) :=
  segments.foldlM (fun q segment => q.push segment false) p

theorem exists_push {segment : List α} (hs : segment ≠ [])
    (hl : (d.joined p.units segment).length ≤ d.maxLength) :
    ∃ q, p.push segment false = .ok q ∧ q.units = d.joined p.units segment :=
  ⟨_, (push_eq_ok_iff false hs).2 ⟨hl, rfl⟩, units_exact _⟩

theorem pushAll_cons {q : Path α d} {segment : List α} (h : p.push segment false = .ok q)
    (names : List (List α)) : pushAll (segment :: names) p = pushAll names q := by
  rw [pushAll, List.foldlM_cons, h]
  rfl

theorem exists_pushAll (hs : ∀ s ∈ names, s ≠ [])
    (hl : p.units.length + extent names ≤ d.maxLength) :
    ∃ q, pushAll names p = .ok q ∧ q.units = names.foldl d.joined p.units := by
  induction names generalizing p with
  | nil => exact ⟨p, rfl, rfl⟩
  | cons s names ih =>
    have hj := length_joined_le (d := d) p.units s
    rw [extent_cons] at hl
    obtain ⟨q, hq, hu⟩ := exists_push (p := p) (hs s List.mem_cons_self) (by omega)
    obtain ⟨r, hr, hru⟩ := ih (p := q) (fun t ht => hs t (List.mem_cons_of_mem s ht))
      (by rw [hu]; omega)
    refine ⟨r, (pushAll_cons hq names).trans hr, ?_⟩
    rw [hru, hu, List.foldl_cons]

theorem exists_pushAll_built {root : List α} {f : Form} (h : d.Built root names f)
    (hl : (root ++ d.written names false).length ≤ d.maxLength) :
    ∃ q : Path α d, pushAll ((if root.isEmpty then [] else [root]) ++ names) empty = .ok q ∧
      q.units = names.foldl d.joined root := by
  have hroot : ∃ q : Path α d, q.units = root ∧
      pushAll ((if root.isEmpty then [] else [root]) ++ names) empty = pushAll names q := by
    by_cases hr : root = []
    · subst hr
      exact ⟨empty, rfl, rfl⟩
    · have hle : (d.joined (empty : Path α d).units root).length ≤ d.maxLength := by
        show (d.joined [] root).length ≤ d.maxLength
        rw [joined_nil]
        rw [List.length_append] at hl
        omega
      obtain ⟨q, hq, hu⟩ := exists_push hr hle
      have hne : root.isEmpty = false := by simpa using hr
      refine ⟨q, hu.trans (joined_nil root), ?_⟩
      rw [hne]
      exact pushAll_cons hq names
  obtain ⟨q, hq, hpush⟩ := hroot
  rw [hpush]
  cases names with
  | nil => exact ⟨q, rfl, hq⟩
  | cons s names =>
    -- the first name takes no separator with it
    have hle := h.length_joined_root_le
    rw [List.length_append, length_written_cons] at hl
    obtain ⟨r, hr, hru⟩ := exists_push (p := q) (h.isSegment s List.mem_cons_self).1
      (by rw [hq]; omega)
    obtain ⟨t, ht, htu⟩ := exists_pushAll (p := r)
      (fun t ht => (h.isSegment t (List.mem_cons_of_mem s ht)).1) (by rw [hru, hq]; omega)
    refine ⟨t, (pushAll_cons hr names).trans ht, ?_⟩
    rw [htu, hru, hq, List.foldl_cons]

/-- The canonical form of a path ends in no separator but that of its root, and its components can
be pushed in their order onto a path that is empty. They give it back if and only if none of them
below its root is a lone tilde, where a tilde has a meaning. -/
theorem pushAll_components_canonical (hp : p.units ≠ [])
    (hv : (d.kind (Leniency.strict.allowSlashRuns) p.units).isValid = true)
    (hl : p.units.length ≤ d.maxLength) :
    let c := p.canonical true
    c.Trimmed ∧ ∃ q : Path α d, pushAll c.components empty = .ok q ∧
      (q.units = c.units ↔ ¬ (d.homeRoot = true ∧ [ofByte tilde] ∈ c.componentsBelow)) := by
  intro c
  obtain ⟨root, names, f, hc, hb⟩ := exists_built_canonical hp hv
  have hu : c.units = root ++ d.written names false := (units_canonical p true).trans hc
  have hle : (root ++ d.written names false).length ≤ d.maxLength := by
    rw [← hc]
    exact Nat.le_trans (length_canonical_le true p.units) hl
  obtain ⟨q, hq, hqu⟩ := exists_pushAll_built hb hle
  refine ⟨?_, q, ?_, ?_⟩
  · rw [Trimmed, hu, hb.belowRoot_eq, endsWithSep_written false hb.isSegment, Bool.false_and]
  · rw [components, hu, hb.components_eq, hq]
  · rw [componentsBelow, hu, hb.componentsBelow_eq, hqu, hb.foldl_joined_eq_iff]

/-- `C:a/./b` has the canonical components `C:`, `a` and `b`, which make `C:a\b`. -/
theorem pushAll_components_canonical_drive : ∃ p q : Path UInt8 .windows,
    p.units = [67, 58, 97, 47, 46, 47, 98] ∧
      pushAll (p.canonical true).components empty = .ok q ∧ q.units = [67, 58, 97, 92, 98] := by
  obtain ⟨-, q, hq, he⟩ := pushAll_components_canonical
    (p := (⟨Buffer.exact [67, 58, 97, 47, 46, 47, 98]⟩ : Path UInt8 .windows))
    (by decide) (by decide) (by decide)
  refine ⟨_, q, rfl, hq, (he.2 ?_).trans (by decide)⟩
  rw [componentsBelow, Dialect.componentsBelow_eq]
  decide

/-- `a` and `~` make `~`, not `a\~`. -/
theorem not_forall_pushAll_components :
    ¬ ∀ p : Path UInt8 .windows, p.units ≠ [] →
      (Dialect.windows.kind (Leniency.strict.allowSlashRuns) p.units).isValid = true →
      p.units.length ≤ Dialect.windows.maxLength → (p.canonical true).Trimmed →
      ∃ q : Path UInt8 .windows, pushAll (p.canonical true).components empty = .ok q ∧
        q.units = (p.canonical true).units := by
  intro h
  obtain ⟨q, hq, hu⟩ := h ⟨Buffer.exact [97, 92, 126]⟩ (by decide) (by decide) (by decide)
    (by unfold Trimmed; decide)
  rw [components, Dialect.components_eq] at hq
  have hpush : pushAll [[97], [126]] (empty : Path UInt8 .windows) = .ok ⟨Buffer.exact [126]⟩ := by
    decide
  obtain rfl := Except.ok.inj (hpush.symm.trans hq)
  exact absurd hu (by decide)

end Path

end PathForms
