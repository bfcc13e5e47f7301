import PathForms.Proofs.CanonicalForm

/-!
# The root of a canonical path

A canonical path begins with the root it had, in preferred spelling. It is read with that root again
unless a segment comes up against it that goes on with it. That happens in two ways: a share without
a server or without a name takes the first segments below it, and a relative path of which a lone
tilde is the first segment left becomes one that begins in the home directory.
-/

set_option autoImplicit false

namespace PathForms

namespace Dialect

open CodeUnit

variable {α : Type} [CodeUnit α] {d : Dialect}

@[simp]
theorem respelled_nil : d.respelled ([] : List α) = [] := rfl

@[simp]
theorem respelled_cons (a : α) (xs : List α) :
    d.respelled (a :: xs) = d.respell a :: d.respelled xs := rfl

@[simp]
theorem respelled_append (xs ys : List α) :
    d.respelled (xs ++ ys) = d.respelled xs ++ d.respelled ys := List.map_append

theorem respelled_drive {a b : α} (h : d.startsWithDrive [a, b] = true) :
    d.respelled [a, b] = [a, b] := by
  have ha := not_isSep_of_startsWithDrive h
  have hb := not_isSep_colon_of_startsWithDrive h
  simp [respelled, respell, ha, hb]

theorem Reading.respelled_root {root below below' : List α} {f : Form}
    (h : d.Reading root below f) (hf : f ≠ .relative) (hs : d.startsWithSep below' = false)
    (hb : below = [] ∨ f = .uncIncomplete → below' = []) :
    d.Reading (d.respelled root) below' f := by
  cases h with
  | empty =>
    rw [hb (Or.inl rfl)]
    exact .empty
  | relative => exact absurd rfl hf
  | slash ha _ => exact .slash (by rwa [isSep_respell]) (fun _ => hs)
  | driveRelative hd _ =>
    rw [respelled_drive hd]
    exact .driveRelative hd hs
  | @driveRooted a b c _ hd hc =>
    have he : d.respelled [a, b, c] = [a, b] ++ [d.respell c] := by
      rw [← respelled_drive hd]
      rfl
    exact he ▸ .driveRooted hd (by rwa [isSep_respell])
  | home hh ha =>
    have he : d.respell _ = _ := respell_of_not_isSep (not_isSep_of_isByte_tilde ha)
    rw [hb (Or.inl rfl), respelled_cons, he]
    exact .home hh ha
  | homeSep hh ha hc =>
    have he : d.respell _ = _ := respell_of_not_isSep (not_isSep_of_isByte_tilde ha)
    rw [respelled_cons, he]
    exact .homeSep hh ha (by rwa [isSep_respell])
  | unc hn ha hc h =>
    refine .unc hn (by rwa [isSep_respell]) (by rwa [isSep_respell]) ?_
    have hr : ∀ {c : α}, d.isSep c = true → d.isSep (d.respell c) = true := by
      intro c hc
      rwa [isSep_respell]
    cases h with
    | bare => exact .bare (Or.inl (hb (Or.inr rfl)))
    | server hs =>
      rw [hb (Or.inl rfl), ← respelled, respelled_segment hs]
      exact .server hs
    | serverSep hs hc =>
      rw [← respelled, respelled_append, respelled_segment hs]
      exact .serverSep hs (hr hc) (Or.inl (hb (Or.inr rfl)))
    | share hs hc hh =>
      rw [hb (Or.inl rfl), ← respelled, respelled_append, respelled_cons,
        respelled_segment hs, respelled_segment hh]
      exact .share hs (hr hc) hh
    | complete hs hc hh he =>
      rw [← respelled, respelled_append, respelled_cons, respelled_append,
        respelled_segment hs, respelled_segment hh]
      exact .complete hs (hr hc) hh (hr he)

theorem length_rootUnits (xs : List α) : (d.rootUnits xs).length = (d.root xs).length := by
  obtain ⟨root, below, f, rfl, h⟩ := exists_reading (d := d) xs
  simp [rootUnits, h.root_eq]

theorem root_canonical_eq_iff_reading (trim : Bool) {xs : List α} (hx : xs ≠ [])
    (h : d.Faultless xs) : d.root (d.canonical trim xs) = d.root xs ↔
      d.Reading (d.respelled (d.rootUnits xs))
        (d.written (d.lasting xs) (d.endsWithSep (d.belowRoot xs) && !trim)) (d.root xs).form := by
  have hl : (d.respelled (d.rootUnits xs)).length = (d.root xs).length := by
    rw [respelled, List.length_map, length_rootUnits]
  rw [canonical_eq_written trim hx h, reading_iff, hl]

theorem mem_written {names : List (List α)} {t : Bool} {a : α} (h : a ∈ d.written names t) :
    a = d.sep ∨ ∃ s ∈ names, a ∈ s := by
  induction names with
  | nil => simp [written_nil] at h
  | cons s names ih =>
    by_cases hn : names = []
    · rw [hn, written_singleton, List.mem_append] at h
      rcases h with h | h
      · exact Or.inr ⟨s, List.mem_cons_self, h⟩
      · cases t with
        | false => simp at h
        | true => exact Or.inl (by simpa using h)
    · rw [written_cons s t hn, List.mem_append, List.mem_cons] at h
      rcases h with h | h | h
      · exact Or.inr ⟨s, List.mem_cons_self, h⟩
      · exact Or.inl h
      · rcases ih h with h | ⟨s', hs, h⟩
        · exact Or.inl h
        · exact Or.inr ⟨s', List.mem_cons_of_mem s hs, h⟩

theorem mem_belowRoot_of_mem_lasting {xs s : List α} (hs : s ∈ d.lasting xs) {a : α}
    (ha : a ∈ s) : a = ofByte dot ∨ a ∈ d.belowRoot xs := by
  unfold lasting orDot at hs
  split at hs
  · rw [List.mem_singleton.1 hs] at ha
    exact Or.inl (List.mem_singleton.1 ha)
  · exact Or.inr (mem_of_mem_parts (mem_of_mem_settled hs) ha)

theorem mem_of_mem_lasting {xs s : List α} (hs : s ∈ d.lasting xs) {a : α} (ha : a ∈ s) :
    a = ofByte dot ∨ a ∈ xs :=
  (mem_belowRoot_of_mem_lasting hs ha).imp_right List.mem_of_mem_drop

theorem startsWithDrive_of_no_colon {xs : List α} (h : ∀ a ∈ xs, isByte colon a = false) :
    d.startsWithDrive xs = false := by
  match xs with
  | [] => rfl
  | [_] => rfl
  | a :: b :: xs => simp [startsWithDrive, h b (by simp)]

theorem startsWithDrive_written_lasting {xs : List α} (h : d.Faultless xs)
    (hf : (d.root xs).form = .relative) (t : Bool) :
    d.startsWithDrive (d.written (d.lasting xs) t) = false := by
  cases d with
  | unix =>
    rw [← Bool.not_eq_true]
    intro hs
    unfold startsWithDrive at hs
    split at hs <;> simp [driveLetters] at hs
  | windows =>
    have hr := h.not_hasReserved rfl
    rw [hf, hasReserved, List.any_eq_false] at hr
    have hx : ∀ a ∈ xs, isByte colon a = false := by
      intro a ha
      rw [← Bool.not_eq_true]
      exact fun hc => hr a ha (isReserved_of_isByte_colon hc)
    apply startsWithDrive_of_no_colon
    intro a ha
    rcases mem_written ha with rfl | ⟨s, hs, ha⟩
    · simp [isByte, sep, code_ofByte, preferred, backslash, colon]
    · rcases mem_of_mem_lasting hs ha with rfl | ha
      · simp [isByte, code_ofByte, dot, colon]
      · exact hx a ha

theorem exists_written_cons (s : List α) (names : List (List α)) (t : Bool) :
    ∃ rest, d.written (s :: names) t = s ++ rest ∧ d.NameEnds rest := by
  by_cases hn : names = []
  · refine ⟨if t then [d.sep] else [], by rw [hn, written_singleton], ?_⟩
    cases t with
    | false => exact Or.inl rfl
    | true => exact Or.inr (by simp [startsWithSep, isSep_sep])
  · exact ⟨_, written_cons s t hn, Or.inr (by simp [startsWithSep, isSep_sep])⟩

theorem startsWithHome_written {names : List (List α)} (t : Bool)
    (h : ∀ s ∈ names, d.IsSegment s) :
    d.startsWithHome (d.written names t) = true ↔
      d.homeRoot = true ∧ names.head? = some [ofByte tilde] := by
  cases names with
  | nil => simp [written_nil, startsWithHome]
  | cons s names =>
    obtain ⟨rest, hw, hr⟩ := exists_written_cons (d := d) s names t
    have hs := h s List.mem_cons_self
    rw [hw]
    obtain ⟨a, s, rfl⟩ := List.exists_cons_of_ne_nil hs.1
    cases s with
    | nil =>
      have he : (rest.isEmpty || d.startsWithSep rest) = true := by simpa [NameEnds] using hr
      simp [startsWithHome, he, isByte_iff]
    | cons b s =>
      have hb : d.isSep b = false := hs.2 b (by simp)
      simp [startsWithHome, startsWithSep, hb]

theorem Reading.relative_inv {root below : List α} (h : d.Reading root below .relative) :
    root = [] ∧ d.startsWithSep below = false ∧ d.startsWithDrive below = false ∧
      d.startsWithHome below = false := by
  cases h with
  | relative _ hs hd hh => exact ⟨rfl, hs, hd, hh⟩
  | unc _ _ _ h => cases h

theorem reading_of_relative {xs : List α} (h : (d.root xs).form = .relative) :
    d.Reading [] xs .relative := by
  obtain ⟨root, below, f, rfl, hr⟩ := exists_reading (d := d) xs
  rw [hr.root_eq] at h
  obtain rfl : f = .relative := h
  obtain rfl := hr.relative_inv.1
  exact hr

theorem reading_relative_written_iff {names : List (List α)} (t : Bool)
    (hs : ∀ s ∈ names, d.IsSegment s) (hn : names ≠ [])
    (hd : d.startsWithDrive (d.written names t) = false) :
    d.Reading [] (d.written names t) .relative ↔
      ¬ (d.homeRoot = true ∧ names.head? = some [ofByte tilde]) := by
  rw [← startsWithHome_written t hs, Bool.not_eq_true]
  constructor
  · exact fun h => h.relative_inv.2.2.2
  · exact .relative (mt (written_eq_nil_iff hs).1 hn) (startsWithSep_written t hs) hd

theorem exists_reading_home (hh : d.homeRoot = true) (names : List (List α)) (t : Bool) :
    ∃ root, d.Reading root (d.written names t) .homeRooted ∧ d.respelled root = root ∧
      root ++ d.written names t = d.written ([ofByte tilde] :: names) t := by
  have ha : isByte tilde (ofByte tilde : α) = true := isByte_iff.2 rfl
  have hr : d.respell (ofByte tilde : α) = ofByte tilde :=
    respell_of_not_isSep (not_isSep_of_isByte_tilde ha)
  by_cases hn : names = []
  · rw [hn, written_nil, written_singleton]
    cases t with
    | false => exact ⟨[ofByte tilde], .home hh ha, by simp [hr], by simp⟩
    | true =>
      exact ⟨[ofByte tilde, d.sep], .homeSep hh ha (isSep_sep d), by simp [hr], by simp⟩
  · exact ⟨[ofByte tilde, d.sep], .homeSep hh ha (isSep_sep d), by simp [hr],
      by simp [written_cons, hn]⟩

theorem Reading.nameEnds {root below : List α} (h : d.Reading root below .uncIncomplete) :
    d.NameEnds below := by
  cases h with
  | unc _ _ _ h =>
    cases h with
    | bare hb => exact hb
    | server => exact Or.inl rfl
    | serverSep _ _ hb => exact hb
    | share => exact Or.inl rfl

theorem exists_shareReading_written {names : List (List α)} (t : Bool)
    (hs : ∀ s ∈ names, d.IsSegment s) :
    ∃ rest f, d.ShareReading rest (d.written (names.drop 2) t) f ∧ d.respelled rest = rest ∧
      rest ++ d.written (names.drop 2) t = d.written names t := by
  match names, hs with
  | [], _ => exact ⟨[], _, .bare (Or.inl (written_nil t)), rfl, rfl⟩
  | [s], hs =>
    have h1 := hs s (by simp)
    rw [show [s].drop 2 = [] from rfl, written_nil, written_singleton]
    cases t with
    | false => exact ⟨s, _, .server h1, respelled_segment h1, rfl⟩
    | true =>
      exact ⟨s ++ [d.sep], _, .serverSep h1 (isSep_sep d) (Or.inl rfl),
        by simp [respelled_segment h1], by simp⟩
  | s :: n :: names, hs =>
    have h1 := hs s (by simp)
    have h2 := hs n (by simp)
    rw [show (s :: n :: names).drop 2 = names from rfl, written_cons s t (by simp)]
    have hc : d.respelled (s ++ d.sep :: (n ++ [d.sep])) = s ++ d.sep :: (n ++ [d.sep]) := by
      simp [respelled_segment h1, respelled_segment h2]
    by_cases hn : names = []
    · rw [hn, written_nil, written_singleton]
      cases t with
      | false =>
        exact ⟨s ++ d.sep :: n, _, .share h1 (isSep_sep d) h2,
          by simp [respelled_segment h1, respelled_segment h2], by simp⟩
      | true =>
        exact ⟨_, _, .complete h1 (isSep_sep d) h2 (isSep_sep d), hc, by simp⟩
    · exact ⟨_, _, .complete h1 (isSep_sep d) h2 (isSep_sep d), hc, by simp [written_cons n t hn]⟩

/-- A share without a server or without a name, and a segment below it that is left. -/
def AbsorbsSegment (d : Dialect) (xs : List α) : Prop :=
  d.kind (Leniency.strict.allowSlashRuns) xs = .form .uncIncomplete ∧ d.survivors xs ≠ []

/-- A relative path of which a lone tilde is the first segment left, where a tilde has a meaning. -/
def BaresTilde (d : Dialect) (xs : List α) : Prop :=
  d.homeRoot = true ∧ d.kind (Leniency.strict.allowSlashRuns) xs = .form .relative ∧
    (d.survivors xs).head? = some [ofByte tilde]

theorem Reading.root_ne_nil {root below : List α} {f : Form} (h : d.Reading root below f)
    (hr : f ≠ .relative) (he : f ≠ .empty) : root ≠ [] := by
  cases h with
  | empty => exact absurd rfl he
  | relative => exact absurd rfl hr
  | _ => simp

theorem lasting_eq_survivors {xs : List α} (h : d.rootUnits xs ≠ []) :
    d.lasting xs = d.survivors xs := by
  simp [lasting, orDot, h]

theorem survivors_of_below_eq_nil {xs : List α} (h : d.belowRoot xs = []) :
    d.survivors xs = [] := by
  rw [survivors, h, parts_nil]
  rfl

theorem head?_orDot_eq_tilde_iff {b : Bool} {names : List (List α)} :
    (orDot b names).head? = some [ofByte tilde] ↔ names.head? = some [ofByte tilde] := by
  have hne : (ofByte dot : α) ≠ ofByte tilde := by
    rw [Ne, eq_iff_code_eq, code_ofByte, code_ofByte]
    decide
  cases names with
  | nil => cases b <;> simp [orDot, hne]
  | cons => simp [orDot]

theorem lasting_ne_nil {xs : List α} (h : d.rootUnits xs = []) : d.lasting xs ≠ [] := by
  rw [lasting, h, Ne, ← List.isEmpty_iff, isEmpty_orDot]
  simp

theorem rootUnits_of_relative {xs : List α} (h : (d.root xs).form = .relative) :
    d.rootUnits xs = [] := by
  have hr := (reading_of_relative h).root_eq
  rw [List.nil_append] at hr
  rw [rootUnits, hr]
  rfl

theorem rootUnits_ne_nil {xs : List α} (hx : xs ≠ []) (h : (d.root xs).form ≠ .relative) :
    d.rootUnits xs ≠ [] :=
  (reading_root xs).root_ne_nil h (mt form_eq_empty_iff.1 hx)

theorem root_canonical_of_relative (trim : Bool) {xs : List α} (hx : xs ≠ [])
    (h : d.Faultless xs) (hf : (d.root xs).form = .relative) :
    d.root (d.canonical trim xs) = d.root xs ↔
      ¬ (d.homeRoot = true ∧ (d.survivors xs).head? = some [ofByte tilde]) := by
  have hr := rootUnits_of_relative hf
  rw [root_canonical_eq_iff_reading trim hx h, hf, hr, show d.respelled ([] : List α) = [] from rfl,
    reading_relative_written_iff _ (fun _ => isSegment_of_mem_lasting) (lasting_ne_nil hr)
      (startsWithDrive_written_lasting h hf _), lasting, head?_orDot_eq_tilde_iff]

theorem root_canonical_of_uncIncomplete (trim : Bool) {xs : List α} (hx : xs ≠ [])
    (h : d.Faultless xs) (hf : (d.root xs).form = .uncIncomplete) :
    d.root (d.canonical trim xs) = d.root xs ↔ d.survivors xs = [] := by
  have hseg : ∀ s ∈ d.survivors xs, d.IsSegment s := fun _ => isSegment_of_mem_survivors
  rw [root_canonical_eq_iff_reading trim hx h, hf,
    lasting_eq_survivors (rootUnits_ne_nil hx (by simp [hf]))]
  constructor
  · intro hr
    rcases hr.nameEnds with hb | hb
    · exact (written_eq_nil_iff hseg).1 hb
    · simp [startsWithSep_written _ hseg] at hb
  · intro hs
    have hr := reading_root (d := d) xs
    rw [hf] at hr
    rw [hs, written_nil]
    exact hr.respelled_root (by simp) rfl (fun _ => rfl)

theorem root_canonical_of_closed (trim : Bool) {xs : List α} (hx : xs ≠ [])
    (h : d.Faultless xs) (hr : (d.root xs).form ≠ .relative)
    (hu : (d.root xs).form ≠ .uncIncomplete) :
    d.root (d.canonical trim xs) = d.root xs := by
  have hseg : ∀ s ∈ d.survivors xs, d.IsSegment s := fun _ => isSegment_of_mem_survivors
  rw [root_canonical_eq_iff_reading trim hx h, lasting_eq_survivors (rootUnits_ne_nil hx hr)]
  refine (reading_root xs).respelled_root hr (startsWithSep_written _ hseg) ?_
  rintro (hb | hb)
  · rw [survivors_of_below_eq_nil hb, written_nil]
  · exact absurd hb hu

theorem root_canonical_iff (trim : Bool) (xs : List α) :
    d.root (d.canonical trim xs) = d.root xs ↔ ¬ (d.AbsorbsSegment xs ∨ d.BaresTilde xs) := by
  by_cases hx : xs = []
  · have hf : (d.root xs).form = .empty := form_eq_empty_iff.2 hx
    have ha : ¬ d.AbsorbsSegment xs := by
      intro ha
      have hk := kind_eq_form ha.1
      simp [hf] at hk
    have hb : ¬ d.BaresTilde xs := by
      intro hb
      have hk := kind_eq_form hb.2.1
      simp [hf] at hk
    have hc : d.canonical trim xs = xs := by rw [hx, canonical_nil]
    simp [hc, ha, hb]
  by_cases h : d.Faultless xs
  · rw [AbsorbsSegment, BaresTilde, h.kind_eq]
    by_cases hr : (d.root xs).form = .relative
    · rw [root_canonical_of_relative trim hx h hr, hr]
      simp
    by_cases hu : (d.root xs).form = .uncIncomplete
    · rw [root_canonical_of_uncIncomplete trim hx h hu, hu]
      simp
    · simp [root_canonical_of_closed trim hx h hr hu, hr, hu]
  · have ha : ¬ d.AbsorbsSegment xs := fun ha => h (faultless_of_kind_eq ha.1)
    have hb : ¬ d.BaresTilde xs := fun hb => h (faultless_of_kind_eq hb.2.1)
    simp [canonical_of_not_faultless trim h, ha, hb]

theorem isAbsolute_append {root below : List α} {f : Form} (h : d.Reading root below f) :
    d.isAbsolute (root ++ below) = f.isAbsolute d := by
  rw [isAbsolute, h.root_eq]

theorem ShareReading.isAbsolute {rest below : List α} {f : Form}
    (h : d.ShareReading rest below f) : f.isAbsolute d = true := by
  cases h <;> rfl

theorem ShareReading.isRooted {rest below : List α} {f : Form}
    (h : d.ShareReading rest below f) : f.isRooted = true := by
  cases h <;> rfl

theorem isAbsolute_of_seps (hn : d.networkShares = true) {a b : α} (ha : d.isSep a = true)
    (hb : d.isSep b = true) (xs : List α) : d.isAbsolute (a :: b :: xs) = true := by
  obtain ⟨rest, below, f, rfl, h⟩ := exists_shareReading (d := d) xs
  rw [← List.cons_append, ← List.cons_append, isAbsolute_append (.unc hn ha hb h), h.isAbsolute]

theorem isAbsolute_canonical_of_absorbsSegment (trim : Bool) {xs : List α}
    (h : d.AbsorbsSegment xs) : d.isAbsolute (d.canonical trim xs) = true := by
  have hu := kind_eq_form h.1
  have hx : xs ≠ [] := fun hx => by simp [form_eq_empty_iff.2 hx] at hu
  have hr := reading_root (d := d) xs
  rw [← hu] at hr
  rw [canonical_eq_written trim hx (faultless_of_kind_eq h.1)]
  generalize d.rootUnits xs = root, d.belowRoot xs = below at hr ⊢
  cases hr with
  | unc hn ha hb _ =>
    exact isAbsolute_of_seps hn (by rwa [isSep_respell]) (by rwa [isSep_respell]) _

theorem isAbsolute_canonical_of_baresTilde (trim : Bool) {xs : List α} (h : d.BaresTilde xs) :
    d.isAbsolute (d.canonical trim xs) = false := by
  have hf := kind_eq_form h.2.1
  have hx : xs ≠ [] := fun hx => by simp [form_eq_empty_iff.2 hx] at hf
  obtain ⟨names, hs⟩ : ∃ names, d.survivors xs = [ofByte tilde] :: names :=
    List.head?_eq_some_iff.1 h.2.2
  obtain ⟨root, hr, -, hw⟩ := exists_reading_home h.1 names
    (d.endsWithSep (d.belowRoot xs) && !trim)
  have hl : d.lasting xs = [ofByte tilde] :: names := by simp [lasting, orDot, hs]
  rw [canonical_eq_written trim hx (faultless_of_kind_eq h.2.1), rootUnits_of_relative hf.symm, hl,
    ← hw]
  exact isAbsolute_append hr

theorem isAbsolute_canonical (trim : Bool) (xs : List α) :
    d.isAbsolute (d.canonical trim xs) = d.isAbsolute xs := by
  by_cases ha : d.AbsorbsSegment xs
  · rw [isAbsolute_canonical_of_absorbsSegment trim ha, isAbsolute, ← kind_eq_form ha.1]
    rfl
  by_cases hb : d.BaresTilde xs
  · rw [isAbsolute_canonical_of_baresTilde trim hb, isAbsolute, ← kind_eq_form hb.2.1]
    rfl
  · rw [isAbsolute, (root_canonical_iff trim xs).2 (by simp [ha, hb]), isAbsolute]

end Dialect

namespace Path

variable {α : Type} [CodeUnit α] {d : Dialect}

/-- Making a path canonical leaves the form and the length of its root as they are, unless a segment
comes up against the root that goes on with it. -/
theorem root_units_canonical_iff (p : Path α d) (trim : Bool) :
    d.root (p.canonical trim).units = d.root p.units ↔
      ¬ (d.AbsorbsSegment p.units ∨ d.BaresTilde p.units) := by
  rw [units_canonical, Dialect.root_canonical_iff]

/-- The root does change: `.\~` becomes `~`. -/
theorem not_forall_root_units_canonical_eq : ¬ ∀ (p : Path UInt8 .windows) (trim : Bool),
    Dialect.windows.root (p.canonical trim).units = Dialect.windows.root p.units := by
  intro h
  have hp := h ⟨Buffer.exact [46, 92, 126]⟩ true
  revert hp
  decide

end Path

end PathForms
