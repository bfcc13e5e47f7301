import PathForms.Path.Resolution
import PathForms.Proofs.CanonicalRoot

/-!
# Resolution without a limit

A resolution that succeeds leaves the canonical form of the path put onto its base, and what that
is does not depend on how long a path may be. It is absolute, because the base is, with two
exceptions. What follows a drive may begin in the home directory, and then it stands on its own; and
two separators without a server are no share, so that nothing of such a base is kept for a path
below the bare separator.
-/

set_option autoImplicit false

namespace PathForms

namespace Dialect

open CodeUnit

variable {α : Type} [CodeUnit α] {d : Dialect}

def extendedBy (d : Dialect) (xs segment : List α) : List α :=
  if segment.isEmpty then xs else d.joined xs segment

/-- A path put onto an absolute base, however long the result is. -/
def placed (d : Dialect) (base xs : List α) : List α :=
  if (d.root xs).form = .driveRelative then
    if d.startsWithDrive base && (d.compareFirst 2 (xs.take 2) base).isEq then
      d.extendedBy base (xs.drop 2)
    else d.extendedBy (xs.take 2 ++ [d.sep]) (xs.drop 2)
  else d.extendedBy base xs

theorem isAbsolute_append_of_isAbsolute {xs : List α} (h : d.isAbsolute xs = true)
    (ys : List α) : d.isAbsolute (xs ++ ys) = true := by
  obtain ⟨root, below, f, rfl, hr⟩ := exists_reading (d := d) xs
  rw [isAbsolute_append hr] at h
  cases hr with
  | @slash a _ ha hb =>
    have hs : d.Reading [a] (below ++ ys) .slashRooted := by
      apply Reading.slash ha
      intro hn
      simp [Form.isAbsolute, driveLetters_of_networkShares hn] at h
    rw [List.append_assoc, isAbsolute_append hs, h]
  | driveRooted hd hc => exact isAbsolute_append (.driveRooted hd hc)
  | unc hn ha hb _ => exact isAbsolute_of_seps hn ha hb _
  | _ => cases h

theorem exists_ensureSep_eq (xs : List α) : ∃ ys, d.ensureSep xs = xs ++ ys := by
  unfold ensureSep
  split
  · exact ⟨[], by simp⟩
  · exact ⟨_, rfl⟩

theorem ensureSep_of_endsWithSep {xs : List α} (h : d.endsWithSep xs = true) :
    d.ensureSep xs = xs := by
  rw [ensureSep, h, Bool.or_true, if_pos rfl]

theorem form_of_isBareDrive {xs : List α} (h : d.isBareDrive xs = true) :
    (d.root xs).form = .driveRelative := by
  rw [isBareDrive, beq_iff_eq] at h
  rw [h]

theorem isBareDrive_of_form_ne {xs : List α} (h : (d.root xs).form ≠ .driveRelative) :
    d.isBareDrive xs = false := by
  rw [← Bool.not_eq_true]
  intro hb
  exact h (form_of_isBareDrive hb)

theorem isBareDrive_of_isAbsolute {xs : List α} (h : d.isAbsolute xs = true) :
    d.isBareDrive xs = false := by
  apply isBareDrive_of_form_ne
  intro hf
  simp [isAbsolute, hf, Form.isAbsolute] at h

theorem form_of_no_sep_no_drive {xs : List α} (hs : d.startsWithSep xs = false)
    (hd : d.startsWithDrive xs = false) :
    (d.root xs).form = .empty ∨ (d.root xs).form = .relative ∨ (d.root xs).form = .homeRooted := by
  obtain ⟨root, below, f, rfl, hr⟩ := exists_reading (d := d) xs
  rw [hr.root_eq]
  cases hr with
  | slash ha _ => simp [startsWithSep, ha] at hs
  | driveRelative hd' _ => simp [startsWithDrive_cons_cons, hd'] at hd
  | driveRooted hd' _ => simp [startsWithDrive_cons_cons, hd'] at hd
  | unc _ ha _ _ => simp [startsWithSep, ha] at hs
  | _ => simp

theorem joined_relative (xs : List α) {ys : List α} (hf : (d.root ys).form = .relative) :
    d.joined xs ys = if d.isBareDrive xs then xs ++ ys else d.ensureSep xs ++ ys := by
  simp [joined, hf, Form.isAbsolute]

theorem joined_of_relative {base xs : List α} (hb : d.isAbsolute base = true)
    (hf : (d.root xs).form = .relative) : d.joined base xs = d.ensureSep base ++ xs := by
  rw [joined_relative base hf, isBareDrive_of_isAbsolute hb]
  rfl

theorem joined_of_homeRooted {base xs : List α} (hf : (d.root xs).form = .homeRooted) :
    d.joined base xs = xs := by
  simp [joined, hf]

theorem isEmpty_eq_false_of_form {xs : List α} {f : Form} (h : (d.root xs).form = f)
    (hf : f ≠ .empty) : xs.isEmpty = false := by
  rw [List.isEmpty_eq_false_iff]
  rintro rfl
  exact hf h.symm

theorem isAbsolute_extendedBy_iff {base xs : List α} (hb : d.isAbsolute base = true)
    (hs : d.startsWithSep xs = false) (hd : d.startsWithDrive xs = false) :
    d.isAbsolute (d.extendedBy base xs) = true ↔ (d.root xs).form ≠ .homeRooted := by
  unfold extendedBy
  rcases form_of_no_sep_no_drive hs hd with hf | hf | hf
  · rw [hf, form_eq_empty_iff.1 hf]
    simp [hb]
  · have hx : xs.isEmpty = false := isEmpty_eq_false_of_form hf (by simp)
    obtain ⟨ys, hy⟩ := exists_ensureSep_eq (d := d) base
    rw [hx, if_neg (by simp), joined_of_relative hb hf, hy, List.append_assoc, hf]
    simp [isAbsolute_append_of_isAbsolute hb]
  · have hx : xs.isEmpty = false := isEmpty_eq_false_of_form hf (by simp)
    rw [hx, if_neg (by simp), joined_of_homeRooted hf, isAbsolute, hf]
    simp [Form.isAbsolute]

theorem trimEnd_append_of_exists {β : Type} {p : β → Bool} (xs : List β) {ys : List β}
    (h : ∃ a ∈ ys, p a = false) : trimEnd p (xs ++ ys) = xs ++ trimEnd p ys := by
  obtain ⟨a, ha, hp⟩ := h
  have hd : ys.reverse.dropWhile p ≠ [] := by
    rw [Ne, List.dropWhile_eq_nil_iff]
    intro hall
    simp [hall a (by simpa using ha)] at hp
  rw [trimEnd, trimEnd, List.reverse_append, List.dropWhile_append, if_neg (by simpa using hd),
    List.reverse_append, List.reverse_reverse]

theorem ShareReading.exists_name {rest below : List α} {f : Form}
    (h : d.ShareReading rest below f) :
    rest = [] ∧ f = .uncIncomplete ∨ ∃ a ∈ rest, d.isSep a = false := by
  have hs : ∀ {s : List α}, d.IsSegment s → ∃ a ∈ s, d.isSep a = false := by
    intro s hs
    obtain ⟨a, s', rfl⟩ := List.exists_cons_of_ne_nil hs.1
    exact ⟨a, by simp, hs.2 a (by simp)⟩
  cases h with
  | bare => exact Or.inl ⟨rfl, rfl⟩
  | server h => exact Or.inr (hs h)
  | serverSep h _ _ =>
    obtain ⟨a, ha, hn⟩ := hs h
    exact Or.inr ⟨a, by simp [ha], hn⟩
  | share h _ _ =>
    obtain ⟨a, ha, hn⟩ := hs h
    exact Or.inr ⟨a, by simp [ha], hn⟩
  | complete h _ _ _ =>
    obtain ⟨a, ha, hn⟩ := hs h
    exact Or.inr ⟨a, by simp [ha], hn⟩

theorem volume_eq {root below : List α} {f : Form} (h : d.Reading root below f) :
    d.volume (root ++ below) = trimEnd d.isSep root := by
  simp [volume, trimSeps, rootUnits, h.root_eq]

theorem exists_slash {xs : List α} (h : (d.root xs).form = .slashRooted) :
    ∃ a below, xs = a :: below ∧ d.isSep a = true ∧ d.Reading [a] below .slashRooted := by
  obtain ⟨root, below, f, rfl, hr⟩ := exists_reading (d := d) xs
  rw [hr.root_eq] at h
  cases hr with
  | @slash a _ ha hb => exact ⟨a, below, rfl, ha, .slash ha hb⟩
  | unc _ _ _ hs => cases hs <;> cases h
  | _ => cases h

theorem joined_of_slashRooted {base xs : List α} (hb : d.isAbsolute base = true)
    (hf : (d.root xs).form = .slashRooted) :
    d.joined base xs = if d.driveLetters then d.volume base ++ xs else xs := by
  cases hl : d.driveLetters <;> simp [joined, hf, Form.isAbsolute, hl, hb]

theorem extendedBy_of_slashRooted {base xs : List α} (hb : d.isAbsolute base = true)
    (hl : d.driveLetters = true) (hf : (d.root xs).form = .slashRooted) :
    d.extendedBy base xs = d.volume base ++ xs := by
  have hx : xs.isEmpty = false := isEmpty_eq_false_of_form hf (by simp)
  rw [extendedBy, hx, if_neg (by simp), joined_of_slashRooted hb hf, if_pos hl]

theorem isAbsolute_volume_append_iff {base xs : List α} (hb : d.isAbsolute base = true)
    (hl : d.driveLetters = true) (hf : (d.root xs).form = .slashRooted) :
    d.isAbsolute (d.volume base ++ xs) = true ↔ d.root base ≠ ⟨.uncIncomplete, 2⟩ := by
  have hxs : d.isAbsolute xs = false := by simp [isAbsolute, hf, Form.isAbsolute, hl]
  obtain ⟨x, xs, rfl, hx, -⟩ := exists_slash hf
  obtain ⟨root, below, f, rfl, hr⟩ := exists_reading (d := d) base
  rw [isAbsolute_append hr] at hb
  rw [volume_eq hr, hr.root_eq]
  cases hr with
  | slash => simp [Form.isAbsolute, hl] at hb
  | @driveRooted a b c _ hd hc =>
    have hn := not_isSep_colon_of_startsWithDrive hd
    have hv : trimEnd d.isSep [a, b, c] = [a, b] := by simp [trimEnd, hc, hn]
    have hread : d.Reading [a, b, x] xs .driveRooted := .driveRooted hd hx
    rw [hv, show [a, b] ++ x :: xs = [a, b, x] ++ xs from rfl, isAbsolute_append hread]
    simp [Form.isAbsolute]
  | @unc a b rest _ _ hn ha hb' h =>
    rcases h.exists_name with ⟨rfl, rfl⟩ | hname
    · have hv : trimEnd d.isSep [a, b] = [] := by simp [trimEnd, ha, hb']
      rw [hv, List.nil_append, hxs]
      simp
    · have hne : rest ≠ [] := by
        rintro rfl
        simp at hname
      rw [show a :: b :: rest = [a, b] ++ rest from rfl, trimEnd_append_of_exists _ hname,
        List.append_assoc]
      simp only [List.cons_append, List.nil_append, isAbsolute_of_seps hn ha hb']
      simp [hne]
  | _ => cases hb

/-- The two ways to stay adrift of an absolute base: what follows a drive begins in the home
directory, or a path below the bare separator meets a base that names no server. -/
def Adrift (d : Dialect) (base xs : List α) : Prop :=
  (d.root xs).form = .driveRelative ∧ (d.root (xs.drop 2)).form = .homeRooted ∨
    (d.root xs).form = .slashRooted ∧ d.root base = ⟨.uncIncomplete, 2⟩

theorem exists_drive {xs : List α} (h : (d.root xs).form = .driveRelative) :
    ∃ a b rest, xs = a :: b :: rest ∧ d.startsWithDrive [a, b] = true ∧
      d.startsWithSep rest = false := by
  obtain ⟨root, below, f, rfl, hr⟩ := exists_reading (d := d) xs
  rw [hr.root_eq] at h
  cases hr with
  | @driveRelative a b _ hd hb => exact ⟨a, b, below, rfl, hd, hb⟩
  | unc _ _ _ hs => cases hs <;> cases h
  | _ => cases h

theorem startsWithDrive_after_drive {a b : α} {rest : List α} (h : d.Faultless (a :: b :: rest))
    (hf : (d.root (a :: b :: rest)).form = .driveRelative)
    (hd : d.startsWithDrive [a, b] = true) : d.startsWithDrive rest = false := by
  simp only [startsWithDrive, Bool.and_eq_true] at hd
  have hr := h.not_hasReserved (validates_of_driveLetters hd.1.1)
  rw [hf, hasReserved, List.any_eq_false] at hr
  apply startsWithDrive_of_no_colon
  intro c hc
  rw [← Bool.not_eq_true]
  intro hcolon
  exact hr c (by simp [Form.namesDrive, hc]) (isReserved_of_isByte_colon hcolon)

theorem isAbsolute_drive_root {a b : α} (hd : d.startsWithDrive [a, b] = true) :
    d.isAbsolute [a, b, d.sep] = true := by
  have hr : d.Reading [a, b, d.sep] [] .driveRooted := .driveRooted hd (isSep_sep d)
  exact isAbsolute_append hr

theorem isAbsolute_placed_of_driveRelative {base xs : List α} (hb : d.isAbsolute base = true)
    (h : d.Faultless xs) (hf : (d.root xs).form = .driveRelative) :
    d.isAbsolute (d.placed base xs) = true ↔ (d.root (xs.drop 2)).form ≠ .homeRooted := by
  obtain ⟨a, b, rest, rfl, hd, hs⟩ := exists_drive hf
  have hd' := startsWithDrive_after_drive h hf hd
  rw [placed, if_pos hf]
  split
  · exact isAbsolute_extendedBy_iff hb hs hd'
  · exact isAbsolute_extendedBy_iff (isAbsolute_drive_root hd) hs hd'

theorem isAbsolute_placed_of_relative {base xs : List α} (hb : d.isAbsolute base = true)
    (hf : (d.root xs).form = .relative) : d.isAbsolute (d.placed base xs) = true := by
  obtain ⟨-, hs, hd, -⟩ := (reading_of_relative hf).relative_inv
  rw [placed, if_neg (by simp [hf]), isAbsolute_extendedBy_iff hb hs hd, hf]
  simp

theorem isAbsolute_placed_of_slashRooted {base xs : List α} (hb : d.isAbsolute base = true)
    (hl : d.driveLetters = true) (hf : (d.root xs).form = .slashRooted) :
    d.isAbsolute (d.placed base xs) = true ↔ d.root base ≠ ⟨.uncIncomplete, 2⟩ := by
  rw [placed, if_neg (by simp [hf]), extendedBy_of_slashRooted hb hl hf,
    isAbsolute_volume_append_iff hb hl hf]

theorem isAbsolute_placed_iff {base xs : List α} (hb : d.isAbsolute base = true)
    (h : d.Faultless xs) (hn : d.needsBase xs = true) :
    d.isAbsolute (d.placed base xs) = true ↔ ¬ d.Adrift base xs := by
  rw [needsBase, h.kind_eq] at hn
  unfold Adrift
  cases hf : (d.root xs).form with
  | relative => simp [isAbsolute_placed_of_relative hb hf]
  | driveRelative => simp [isAbsolute_placed_of_driveRelative hb h hf]
  | slashRooted =>
    have hl : d.driveLetters = true := by simpa [hf, Form.isAbsolute] using hn
    simp [isAbsolute_placed_of_slashRooted hb hl hf]
  | _ => simp [hf, Form.isAbsolute] at hn

theorem networkShares_of_uncIncomplete {xs : List α} (h : (d.root xs).form = .uncIncomplete) :
    d.networkShares = true := by
  have hr := reading_root (d := d) xs
  rw [h] at hr
  generalize d.rootUnits xs = root, d.belowRoot xs = below at hr
  cases hr with
  | unc hn _ _ _ => exact hn

theorem isAbsolute_of_not_needsBase {xs : List α} (hx : xs ≠ []) (h : d.Faultless xs)
    (hh : (d.root xs).form ≠ .homeRooted) (hn : d.needsBase xs = false) :
    d.isAbsolute xs = true := by
  have he : (d.root xs).form ≠ .empty := mt form_eq_empty_iff.1 hx
  rw [needsBase, h.kind_eq] at hn
  rw [isAbsolute]
  cases hf : (d.root xs).form <;> simp_all

theorem not_adrift_of_isAbsolute {base xs : List α} (h : d.isAbsolute xs = true) :
    ¬ d.Adrift base xs := by
  rintro (⟨hf, -⟩ | ⟨hf, hu⟩)
  · simp [isAbsolute, hf, Form.isAbsolute] at h
  · have hn := networkShares_of_uncIncomplete (congrArg Root.form hu)
    have hl := driveLetters_of_networkShares hn
    simp [isAbsolute, hf, Form.isAbsolute, hl] at h

end Dialect

namespace Path

variable {α : Type} [CodeUnit α] {d : Dialect} {p base q : Path α d} {xs segment : List α}
variable {trim : Bool}

theorem units_of_ofUnits (h : ofUnits xs = .ok q) : q.units = xs := by
  unfold ofUnits at h
  split at h
  · cases h
  · cases h
    exact Buffer.contents_exact xs

theorem units_of_join (h : p.join segment = .ok q) :
    q.units = d.extendedBy p.units segment := by
  unfold join push at h
  unfold Dialect.extendedBy
  by_cases hs : segment.isEmpty = true
  · rw [if_pos hs] at h ⊢
    cases h
    rfl
  · rw [if_neg hs] at h ⊢
    exact units_of_ofUnits h

theorem units_of_onto (h : p.onto base = .ok q) : q.units = d.placed base.units p.units := by
  unfold onto at h
  unfold Dialect.placed
  split at h
  · next hf =>
    rw [if_pos hf]
    dsimp only at h
    split at h
    · next hd =>
      rw [if_pos hd]
      exact units_of_join h
    · next hd =>
      rw [if_neg hd, units_of_join h]
      exact congrArg (d.extendedBy · _) (Buffer.contents_exact _)
  · next hf =>
    rw [if_neg hf]
    exact units_of_join h

theorem units_of_resolve (hn : d.needsBase p.units = true) (h : p.resolve base trim = .ok q) :
    base.isAbsolute = true ∧ q.units = d.canonical trim (d.placed base.units p.units) := by
  simp only [resolve, hn, Bool.not_true, Bool.false_eq_true, if_false] at h
  by_cases hb : base.isAbsolute = true
  · simp only [hb, Bool.not_true, Bool.false_eq_true, if_false] at h
    obtain ⟨r, hr, hq⟩ := bind_eq_ok.1 h
    rw [units_of_ofUnits hq, units_canonical, units_of_onto hr]
    exact ⟨hb, rfl⟩
  · simp [hb] at h

/-- A path without faults that names something, and does so without the home directory, resolves to
an absolute path unless it stays adrift of its base. -/
theorem isAbsolute_resolve_iff (hp : p.units ≠ [])
    (hv : (d.kind (Leniency.strict.allowSlashRuns) p.units).isValid = true)
    (hh : d.kind (Leniency.strict.allowSlashRuns) p.units ≠ .form .homeRooted)
    (h : p.resolve base trim = .ok q) :
    q.isAbsolute = true ↔ ¬ d.Adrift base.units p.units := by
  have hf : d.Faultless p.units := hv
  by_cases hn : d.needsBase p.units = true
  · obtain ⟨hb, hq⟩ := units_of_resolve hn h
    rw [isAbsolute, hq, Dialect.isAbsolute_canonical, Dialect.isAbsolute_placed_iff hb hf hn]
  · rw [Bool.not_eq_true] at hn
    have hhome : (d.root p.units).form ≠ .homeRooted := by
      intro he
      rw [hf.kind_eq, he] at hh
      exact hh rfl
    have ha := Dialect.isAbsolute_of_not_needsBase hp hf hhome hn
    have hq : q = p := by
      simp [resolve, hn] at h
      exact h.symm
    simp [hq, isAbsolute, ha, Dialect.not_adrift_of_isAbsolute ha]

/-- `C:a` resolved against `C:\w` is the absolute `C:\w\a`. -/
theorem isAbsolute_resolve_drive_name : ∃ p base q : Path UInt8 .windows,
    p.units = [67, 58, 97] ∧ base.units = [67, 58, 92, 119] ∧ p.resolve base true = .ok q ∧
      (q.isAbsolute = true ↔ ¬ Dialect.windows.Adrift base.units p.units) ∧
      q.units = [67, 58, 92, 119, 92, 97] := by
  have hq : Path.resolve (⟨Buffer.exact [67, 58, 97]⟩ : Path UInt8 .windows)
      ⟨Buffer.exact [67, 58, 92, 119]⟩ true = .ok ⟨Buffer.exact [67, 58, 92, 119, 92, 97]⟩ := by
    decide
  exact ⟨_, _, _, rfl, rfl, hq,
    isAbsolute_resolve_iff (by decide) (by decide) (by decide) hq, rfl⟩

/-- `C:~` resolved against `C:\w` is `~`. -/
theorem not_forall_isAbsolute_resolve :
    ¬ ∀ (p base q : Path UInt8 .windows) (trim : Bool), p.units ≠ [] →
      (Dialect.windows.kind (Leniency.strict.allowSlashRuns) p.units).isValid = true →
      Dialect.windows.kind (Leniency.strict.allowSlashRuns) p.units ≠ .form .homeRooted →
      p.resolve base trim = .ok q → q.isAbsolute = true := by
  intro h
  have ha := h ⟨Buffer.exact [67, 58, 126]⟩ ⟨Buffer.exact [67, 58, 92, 119]⟩
    ⟨Buffer.exact [126]⟩ true (by decide) (by decide) (by decide) (by decide)
  exact absurd ha (by decide)

end Path

end PathForms
