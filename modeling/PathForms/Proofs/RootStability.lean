import PathForms.Proofs.Extensions

/-!
# Roots and what stands behind them

A root is read at the front of a path, and units that are cut away behind it make no difference to
it. Other units in their place may come to belong to the root, unless it is closed, as a drive and a
share are by a separator. A path that is one of these roots or a lone separator, and nothing else,
has nothing behind its root that an edit at its end could change.
-/

set_option autoImplicit false

namespace PathForms

open CodeUnit

def bareForms : List Form := [.slashRooted, .driveRooted, .uncRooted]

/-- Whether nothing that stands behind a root can be a part of it. A lone separator is closed where
two of them do not introduce a share. -/
def Root.isClosed (d : Dialect) : Root → Bool
  | ⟨.driveRooted, _⟩ | ⟨.uncRooted, _⟩ => true
  | ⟨.slashRooted, _⟩ => !d.networkShares
  | ⟨.homeRooted, n⟩ => n == 2
  | _ => false

variable {α : Type} [CodeUnit α] {d : Dialect}

namespace Dialect

variable {xs root below rest s : List α} {f : Form}

theorem IsSegment.append (hs : d.IsSegment s) (hr : ∀ a ∈ rest, d.isSep a = false) :
    d.IsSegment (s ++ rest) := by
  refine ⟨by simp [hs.1], fun a ha => ?_⟩
  rcases List.mem_append.1 ha with ha | ha
  · exact hs.2 a ha
  · exact hr a ha

theorem Reading.replace_below (h : d.Reading root below f)
    (hc : Root.isClosed d ⟨f, root.length⟩ = true) (rest : List α) : d.Reading root rest f := by
  cases h with
  | slash ha => exact .slash ha fun hn => by simp [Root.isClosed, hn] at hc
  | driveRooted hd hsep => exact .driveRooted hd hsep
  | homeSep hh ha hb => exact .homeSep hh ha hb
  | unc hn ha hb h =>
    cases h with
    | complete hs hsep hh he => exact .unc hn ha hb (.complete hs hsep hh he)
    | _ => cases hc
  | _ => cases hc

theorem ShareReading.append_segment (h : d.ShareReading root below .uncIncomplete)
    (hs : d.IsSegment s) : d.ShareReading (root ++ s) [] .uncIncomplete := by
  cases h with
  | bare => exact .server hs
  | server hr => exact .server (hr.append hs.2)
  | serverSep hr hc =>
    rw [List.append_assoc]
    exact .share hr hc hs
  | share hr hc hh =>
    rw [List.append_assoc, List.cons_append]
    exact .share hr hc (hh.append hs.2)

theorem Reading.root_append_ne (h : d.Reading (root ++ rest) [] f) (hne : rest ≠ []) (g : Form) :
    d.root (root ++ rest) ≠ ⟨g, root.length⟩ := by
  have hpos := List.length_pos_iff.2 hne
  rw [← List.append_nil (root ++ rest), h.root_eq, ne_eq, Root.mk.injEq, List.length_append]
  omega

theorem Reading.exists_root_append_ne (h : d.Reading root below f)
    (hc : Root.isClosed d ⟨f, root.length⟩ = false) :
    ∃ rest, d.root (root ++ rest) ≠ ⟨f, root.length⟩ := by
  -- A share whose notation has not ended takes in a name, and any other open root a separator. The
  -- root of a relative path is nothing, and nothing by itself is an empty path.
  have hsep : d.isSep (d.sep : α) = true := isSep_sep d
  have hne : [(d.sep : α)] ≠ [] := by simp
  cases h with
  | empty =>
    have hr : d.Reading ([] ++ [d.sep]) ([] : List α) _ := .slash hsep fun _ => rfl
    exact ⟨_, hr.root_append_ne hne _⟩
  | relative => exact ⟨[], by simp [Dialect.root]⟩
  | @slash a _ ha =>
    have hn : d.networkShares = true := by simpa [Root.isClosed] using hc
    have hr : d.Reading ([a] ++ [d.sep]) [] _ := .unc hn ha hsep (.bare (Or.inl rfl))
    exact ⟨_, hr.root_append_ne hne _⟩
  | @driveRelative a b _ hd =>
    have hr : d.Reading ([a, b] ++ [d.sep]) [] _ := .driveRooted hd hsep
    exact ⟨_, hr.root_append_ne hne _⟩
  | @home a hh ha =>
    have hr : d.Reading ([a] ++ [d.sep]) [] _ := .homeSep hh ha hsep
    exact ⟨_, hr.root_append_ne hne _⟩
  | @unc a b rest _ f hn ha hb h =>
    have hf : f = .uncIncomplete := by
      cases h with
      | complete => cases hc
      | _ => rfl
    subst hf
    have hdot : d.IsSegment [(ofByte dot : α)] := isSegment_dot
    have hr : d.Reading (a :: b :: rest ++ [ofByte dot]) [] _ :=
      .unc hn ha hb (h.append_segment hdot)
    exact ⟨_, hr.root_append_ne hdot.1 _⟩
  | _ => cases hc

/-- Behind the root of a path units can be cut away, and the root is read as before. Whatever stands
behind it in their place, it is read as before if it is closed, and only then. -/
theorem root_take_and_root_append_iff (d : Dialect) (xs : List α) :
    (0 < (d.root xs).length →
      ∀ n, (d.root xs).length ≤ n → d.root (xs.take n) = d.root xs) ∧
    ((∀ rest, d.root (xs.take (d.root xs).length ++ rest) = d.root xs) ↔
      (d.root xs).isClosed d = true) := by
  obtain ⟨root, below, f, rfl, hr⟩ := exists_reading (d := d) xs
  rw [hr.root_eq, List.take_left]
  refine ⟨fun hpos n hn => ?_, fun h => ?_, fun h rest => (hr.replace_below h rest).root_eq⟩
  · have hf : f ≠ .relative := by
      rintro rfl
      rw [hr.relative_inv.1] at hpos
      cases hpos
    rw [List.take_append, List.take_of_length_le hn]
    exact (hr.shorten_below hf (List.take_prefix _ _)).root_eq
  · by_contra hc
    rw [Bool.not_eq_true] at hc
    obtain ⟨rest, hne⟩ := hr.exists_root_append_ne hc
    exact hne (h rest)

/-- In `\\s\\h` the share has no name, and the root ends where it should stand; in `\\s\h\a` it has
one, and the root ends behind it. -/
theorem root_take_and_root_append_share :
    0 < (windows.root ([92, 92, 115, 92, 92, 104] : List UInt8)).length ∧
    windows.root ([92, 92, 115, 92, 92] : List UInt8) = ⟨.uncIncomplete, 4⟩ ∧
    windows.root ([92, 92, 115, 92, 104, 92, 92, 98] : List UInt8) = ⟨.uncRooted, 6⟩ := by
  have hlacks := root_take_and_root_append_iff windows ([92, 92, 115, 92, 92, 104] : List UInt8)
  have hnamed := root_take_and_root_append_iff windows ([92, 92, 115, 92, 104, 92, 97] : List UInt8)
  exact ⟨by decide, hlacks.1 (by decide) 5 (by decide), hnamed.2.2 (by decide) [92, 98]⟩

theorem reading_nil_iff : d.Reading xs [] f ↔ d.root xs = ⟨f, xs.length⟩ := by
  rw [reading_iff, List.append_nil]

theorem ShareReading.three_lt_length (h : d.ShareReading rest below .uncRooted) :
    3 < rest.length := by
  cases h with
  | complete hs _ hh _ =>
    have := List.length_pos_iff.2 hs.1
    have := List.length_pos_iff.2 hh.1
    simp
    omega

theorem isBareRoot_of_three_lt (h : 3 < xs.length) :
    d.isBareRoot xs = (d.root xs == ⟨.uncRooted, xs.length⟩) := by
  match xs, h with
  | a :: b :: c :: e :: xs, _ => rfl

theorem isBareRoot_cases (h : d.isBareRoot xs = true) :
    (∃ a, xs = [a] ∧ d.isSep a = true) ∨
    (∃ a b c, xs = [a, b, c] ∧ d.startsWithDrive [a, b] = true ∧ d.isSep c = true) ∨
    d.root xs = ⟨.uncRooted, xs.length⟩ := by
  unfold isBareRoot at h
  dsimp only at h
  split at h
  · exact Or.inl ⟨_, rfl, h⟩
  · next a b c =>
    split at h
    · next hd => exact Or.inr (Or.inl ⟨a, b, c, rfl, hd, h⟩)
    · exact Or.inr (Or.inr (beq_iff_eq.1 h))
  · exact Or.inr (Or.inr (beq_iff_eq.1 h))

theorem isBareRoot_iff_reading : d.isBareRoot xs = true ↔ ∃ f ∈ bareForms, d.Reading xs [] f := by
  constructor
  · intro h
    rcases isBareRoot_cases h with ⟨a, rfl, ha⟩ | ⟨a, b, c, rfl, hd, hc⟩ | hroot
    · exact ⟨.slashRooted, by simp [bareForms], .slash ha fun _ => rfl⟩
    · exact ⟨.driveRooted, by simp [bareForms], .driveRooted hd hc⟩
    · exact ⟨.uncRooted, by simp [bareForms], reading_nil_iff.2 hroot⟩
  · rintro ⟨f, hf, hr⟩
    have hroot := reading_nil_iff.1 hr
    cases hr with
    | slash ha => exact ha
    | driveRooted hd hc => simp [isBareRoot, startsWithDrive_cons_cons, hd, hc]
    | @unc _ _ _ _ f _ _ _ h =>
      have hu : f = .uncRooted := by
        cases h with
        | complete => rfl
        | _ => simp [bareForms] at hf
      subst hu
      have hlen := h.three_lt_length
      rw [isBareRoot_of_three_lt (by simp; omega), hroot]
      exact beq_self_eq_true _
    | _ => simp [bareForms] at hf

theorem Reading.isBareRoot_iff (hr : d.Reading root below f) :
    d.isBareRoot (root ++ below) = true ↔ f ∈ bareForms ∧ below = [] := by
  rw [isBareRoot_iff_reading]
  constructor
  · rintro ⟨g, hg, h⟩
    have hroot := reading_nil_iff.1 h
    rw [hr.root_eq, Root.mk.injEq, List.length_append] at hroot
    exact ⟨hroot.1 ▸ hg, List.length_eq_zero_iff.1 (by omega)⟩
  · rintro ⟨hf, rfl⟩
    exact ⟨f, hf, by rwa [List.append_nil]⟩

end Dialect

namespace Path

open Dialect

variable {p : Path α d} {root below : List α} {f : Form}

/-- Edits at the end of the path leave it as it is. -/
structure EndFixed (p : Path α d) : Prop where
  pop : ∀ trim, (p.pop trim).units = p.units
  popSep : p.popSep.units = p.units
  pushExtension : ∀ ext withSep, p.pushExtension ext withSep = .ok p

theorem endFixed_iff (hp : p.units = root ++ below) (hr : d.Reading root below f) :
    p.EndFixed ↔ below = [] := by
  constructor
  · intro h
    rcases exists_lastSegment (d := d) below with hs | ⟨before, name, seps, rfl, hl⟩
    · have hsep := h.popSep
      rw [units_popSep_of_reading hp hr, trimEnd_eq_nil hs, hp] at hsep
      exact (List.append_cancel_left hsep).symm
    · have hpop := h.pop false
      rw [units_pop_of_lastSegment false hp hr hl, hp, List.append_assoc before] at hpop
      have hnil := List.self_eq_append_right.1 (List.append_cancel_left hpop)
      exact absurd (List.append_eq_nil_iff.1 hnil).1 hl.name.1
  · rintro rfl
    have hs : ∀ a ∈ ([] : List α), d.isSep a = true := by simp
    have hext := fun ext withSep => pushExtension_of_forall_isSep ext withSep hp hr hs
    refine ⟨fun trim => ?_, ?_, hext⟩
    · rw [units_pop_of_forall_isSep trim hp hr hs, hp]
    · rw [units_popSep_of_reading hp hr, hp]
      rfl

theorem directory_entry_eq_nil_iff (hp : p.units = root ++ below) (hr : d.Reading root below f) :
    (p.classify .lenient).slices.directory = [] ∧ (p.classify .lenient).slices.entry = [] ↔
      below = [] := by
  have hx := throughLast_append_afterLast d.isSep below
  have hdir : (p.classify .lenient).slices.directory = throughLast d.isSep below := by
    show throughLast d.isSep (d.belowRoot p.units) = _
    rw [hp, hr.belowRoot_eq]
  have hentry : (p.classify .lenient).slices.entry = afterLast d.isSep below := by
    show afterLast d.isSep (d.belowRoot p.units) = _
    rw [hp, hr.belowRoot_eq]
  rw [hdir, hentry, ← List.append_eq_nil_iff, hx]

/-- A bare root is recognised if and only if classification finds a root of one of the three forms
that is the whole path. If the root has such a form, this is to say that the path has neither a
directory nor an entry, and that edits at its end leave it as it is. -/
theorem isBareRoot_units_iff (p : Path α d) :
    (d.isBareRoot p.units = true ↔ ∃ f ∈ bareForms, d.root p.units = ⟨f, p.units.length⟩) ∧
    ((d.root p.units).form ∈ bareForms →
      (d.isBareRoot p.units = true ↔
        (p.classify .lenient).slices.directory = [] ∧
          (p.classify .lenient).slices.entry = []) ∧
      (d.isBareRoot p.units = true ↔ p.EndFixed)) := by
  constructor
  · simp only [isBareRoot_iff_reading, reading_nil_iff]
  · intro hf
    obtain ⟨root, below, f, hp, hr⟩ := exists_reading (d := d) p.units
    rw [hp, hr.root_eq] at hf
    have hbare : d.isBareRoot p.units = true ↔ below = [] := by
      rw [hp, hr.isBareRoot_iff]
      exact and_iff_right hf
    exact ⟨hbare.trans (directory_entry_eq_nil_iff hp hr).symm,
      hbare.trans (endFixed_iff hp hr).symm⟩

/-- `\\s\h\` is a share and nothing else. -/
theorem isBareRoot_units_share :
    let p : Path UInt8 .windows := ⟨Buffer.exact [92, 92, 115, 92, 104, 92]⟩
    windows.isBareRoot p.units = true ∧ (windows.root p.units).form ∈ bareForms ∧
      ((p.classify .lenient).slices.directory = [] ∧
        (p.classify .lenient).slices.entry = []) ∧ p.EndFixed := by
  intro p
  have hbare : windows.isBareRoot p.units = true := by decide
  have hform : (windows.root p.units).form ∈ bareForms := by decide
  have h := (isBareRoot_units_iff p).2 hform
  exact ⟨hbare, hform, h.1.1 hbare, h.2.1 hbare⟩

end Path

end PathForms
