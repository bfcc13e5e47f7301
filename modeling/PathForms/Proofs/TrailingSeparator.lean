import PathForms.Proofs.Ancestors
import PathForms.Proofs.PathRuns
import PathForms.Proofs.Pushing

/-!
# Trailing separators

A separator at the end of a path leaves it as rooted and as absolute as it was, unless the path is a
bare drive: there it means the root of the drive. What an edit leaves is a bare drive only if that
is the segment that was pushed, so whether the edit is also asked for a separator at the end makes
no difference otherwise, and none at all to an extension. To pop without the separator in front is to
pop and then drop the separators at the end, as long as there is something to pop.
-/

set_option autoImplicit false

namespace PathForms

namespace Dialect

open CodeUnit

variable {α : Type} [CodeUnit α] {d : Dialect} {xs ys ext : List α}

theorem isBareDrive_iff : d.isBareDrive xs = true ↔
    ∃ a b, xs = [a, b] ∧ d.startsWithDrive [a, b] = true := by
  constructor
  · intro h
    obtain ⟨a, b, rest, rfl, hd, hs⟩ := exists_drive (form_of_isBareDrive h)
    have hr : d.Reading [a, b] rest .driveRelative := .driveRelative hd hs
    have hroot : d.root (a :: b :: rest) = ⟨.driveRelative, 2⟩ := hr.root_eq
    rw [isBareDrive, hroot, beq_iff_eq, Root.mk.injEq] at h
    obtain rfl : rest = [] := List.length_eq_zero_iff.1 (Nat.succ.inj (Nat.succ.inj h.2.symm))
    exact ⟨a, b, rfl, hd⟩
  · rintro ⟨a, b, rfl, hd⟩
    have hr : d.Reading [a, b] [] .driveRelative := .driveRelative hd rfl
    exact beq_iff_eq.2 hr.root_eq

theorem isBareDrive_eq_false_of_mem {a : α} (ha : a ∈ xs)
    (h : d.isSep a = true ∨ isDot a = true) : d.isBareDrive xs = false := by
  have hcode : code a = 92 ∨ code a = 47 ∨ code a = 46 := by
    rcases h with h | h
    · exact (code_of_isSep h).imp_right Or.inl
    · exact Or.inr (Or.inr (by simpa [isDot, isByte, dot] using h))
  rw [← Bool.not_eq_true, isBareDrive_iff]
  rintro ⟨b, c, rfl, hd⟩
  simp only [startsWithDrive, isDriveLetter, isUpper, isLower, isByte, colon, Bool.and_eq_true,
    Bool.or_eq_true, decide_eq_true_eq, beq_iff_eq] at hd
  have hc : code c = 58 := hd.2
  have hb := hd.1.2
  simp only [List.mem_cons, List.not_mem_nil, or_false] at ha
  rcases ha with rfl | rfl <;> omega

theorem joined_of_not_relative (xs : List α) (hr : (d.root ys).form ≠ .relative) (hy : ys ≠ []) :
    d.joined xs ys = ys ∨ d.startsWithSep ys = true ∧ d.joined xs ys = d.volume xs ++ ys := by
  have he : (d.root ys).form ≠ .empty := mt form_eq_empty_iff.1 hy
  unfold joined
  cases hf : (d.root ys).form with
  | empty => exact absurd hf he
  | relative => exact absurd hf hr
  | slashRooted =>
    obtain ⟨a, below, rfl, ha, -⟩ := exists_slash hf
    have hs : d.startsWithSep (a :: below) = true := ha
    cases hl : d.driveLetters <;> cases hx : d.isAbsolute xs <;> simp [Form.isAbsolute, hl, hs]
  | _ => exact Or.inl (by simp [Form.isAbsolute])

theorem isBareDrive_joined_eq (xs : List α) (hy : ys ≠ []) :
    d.isBareDrive (d.joined xs ys) = d.isBareDrive ys := by
  by_cases hr : (d.root ys).form = .relative
  · have hbare : d.isBareDrive ys = false := isBareDrive_of_form_ne (by simp [hr])
    rw [hbare, joined_relative xs hr]
    by_cases hx : d.isBareDrive xs = true
    · -- the segment follows the colon
      obtain ⟨a, b, rfl, -⟩ := isBareDrive_iff.1 hx
      rw [if_pos hx, ← Bool.not_eq_true, isBareDrive_iff]
      rintro ⟨a', b', he, -⟩
      have hlen := congrArg List.length he
      exact hy (List.length_eq_zero_iff.1 (by simpa using hlen))
    rw [if_neg hx]
    rcases ensureSep_cases (d := d) xs with ⟨he, rfl | hends⟩ | ⟨c, he, hc, -⟩
    · rw [he]
      exact hbare
    · obtain ⟨zs, c, rfl, hc⟩ := exists_eq_append_of_endsWithSep hends
      rw [he]
      exact isBareDrive_eq_false_of_mem (a := c) (by simp) (Or.inl hc)
    · rw [he]
      exact isBareDrive_eq_false_of_mem (a := c) (by simp) (Or.inl hc)
  · rcases joined_of_not_relative xs hr hy with hj | ⟨hs, hj⟩
    · rw [hj]
    · obtain ⟨a, below, rfl⟩ := List.exists_cons_of_ne_nil hy
      have ha : d.isSep a = true := hs
      rw [hj, isBareDrive_eq_false_of_mem (a := a) (by simp) (Or.inl ha),
        isBareDrive_eq_false_of_mem (a := a) (by simp) (Or.inl ha)]

theorem isBareDrive_of_extended? (h : d.extended? false xs ext = some ys) :
    d.isBareDrive ys = false := by
  simp only [extended?, Bool.false_eq_true, if_false, Option.ite_none_left_eq_some,
    Option.some.injEq] at h
  obtain ⟨-, rfl⟩ := h
  split
  · next hd =>
    obtain ⟨a, ha, hdot⟩ := (Option.any_eq_true _ _).1 hd
    exact isBareDrive_eq_false_of_mem
      (List.mem_append_right _ (List.mem_of_head? ha)) (Or.inr hdot)
  · exact isBareDrive_eq_false_of_mem (a := ofByte dot) (by simp) (Or.inr (isByte_iff.2 rfl))

theorem extended?_true (xs ext : List α) :
    d.extended? true xs ext = (d.extended? false xs ext).map d.ensureSep := by
  unfold extended?
  dsimp only
  split
  · rfl
  · rfl

theorem isRooted_ensureSep (h : d.isBareDrive xs = false) :
    d.isRooted (d.ensureSep xs) = d.isRooted xs := by
  rcases form_ensureSep h with hf | ⟨hx, hf⟩
  · rw [isRooted, isRooted, hf]
  · rw [isRooted, isRooted, hf, hx]
    rfl

theorem isAbsolute_ensureSep_of_isBareDrive (h : d.isBareDrive xs = true) :
    d.isAbsolute xs = false ∧ d.isAbsolute (d.ensureSep xs) = true := by
  refine ⟨by rw [isAbsolute, form_of_isBareDrive h]; rfl, ?_⟩
  obtain ⟨a, b, rfl, hd⟩ := isBareDrive_iff.1 h
  have hb := not_isSep_colon_of_startsWithDrive hd
  rcases ensureSep_cases (d := d) [a, b] with ⟨-, hends⟩ | ⟨c, he, hc, -⟩
  · simp [endsWithSep, hb] at hends
  · have hr : d.Reading [a, b, c] [] .driveRooted := .driveRooted hd hc
    rw [he]
    exact isAbsolute_append hr

/-- Whether separators lie below the root, and nothing else. -/
def separatorsOnly (d : Dialect) (xs : List α) : Bool :=
  !(d.belowRoot xs).isEmpty && (d.belowRoot xs).all d.isSep

theorem separatorsOnly_iff {root below : List α} {f : Form} (hr : d.Reading root below f) :
    d.separatorsOnly (root ++ below) = true ↔ below ≠ [] ∧ ∀ a ∈ below, d.isSep a = true := by
  rw [separatorsOnly, hr.belowRoot_eq, Bool.and_eq_true, List.all_eq_true]
  simp

theorem length_le_length_ensureSep (xs : List α) : xs.length ≤ (d.ensureSep xs).length := by
  obtain ⟨ys, he⟩ := exists_ensureSep_eq (d := d) xs
  rw [he, List.length_append]
  exact Nat.le_add_right _ _

end Dialect

namespace Path

open Dialect

variable {α : Type} [CodeUnit α] {d : Dialect} {p q : Path α d} {xs segment ext : List α}

structure SameRooting (p q : Path α d) : Prop where
  isRooted_eq : q.isRooted = p.isRooted
  isAbsolute_eq : q.isAbsolute = p.isAbsolute

theorem sameRooting_iff (h : q.units = d.ensureSep p.units) :
    SameRooting p q ↔ d.isBareDrive p.units = false := by
  constructor
  · intro hs
    rw [← Bool.not_eq_true]
    intro hb
    obtain ⟨hp, hq⟩ := isAbsolute_ensureSep_of_isBareDrive hb
    have he := hs.isAbsolute_eq
    rw [isAbsolute, isAbsolute, h, hp, hq] at he
    cases he
  · intro hb
    constructor
    · rw [isRooted, isRooted, h, isRooted_ensureSep hb]
    · rw [isAbsolute, isAbsolute, h, Dialect.isAbsolute_ensureSep hb]

theorem exists_ofUnits_of_ensureSep (h : ofUnits (d.ensureSep xs) = .ok q) :
    ∃ r : Path α d, ofUnits xs = .ok r ∧ r.units = xs ∧ q.units = d.ensureSep r.units := by
  have hq := sound_of_ofUnits h
  have hl := length_le_length_ensureSep (d := d) xs
  have hle := hq.length_units
  rw [units_of_ofUnits h] at hle
  refine ⟨_, ofUnits_of_le (Nat.le_trans hl hle), units_exact xs, ?_⟩
  rw [units_of_ofUnits h, units_exact]

theorem exists_push_of_push_true (hs : segment ≠ []) (h : p.push segment true = .ok q) :
    ∃ r, p.push segment false = .ok r ∧ r.units = d.joined p.units segment ∧
      q.units = d.ensureSep r.units := by
  have hne : segment.isEmpty = false := by simpa using hs
  unfold Path.push at h ⊢
  rw [hne] at h ⊢
  exact exists_ofUnits_of_ensureSep h

theorem sameRooting_push (h : p.push segment true = .ok q) :
    ∃ r, p.push segment false = .ok r ∧
      (SameRooting r q ↔ d.isBareDrive segment = false) := by
  by_cases hs : segment = []
  · subst hs
    cases h
    exact ⟨p, rfl, fun _ => rfl, fun _ => ⟨rfl, rfl⟩⟩
  · obtain ⟨r, hr, hu, hq⟩ := exists_push_of_push_true hs h
    refine ⟨r, hr, ?_⟩
    rw [sameRooting_iff hq, hu, isBareDrive_joined_eq p.units hs]

theorem sameRooting_pushExtension (h : p.pushExtension ext true = .ok q) :
    ∃ r, p.pushExtension ext false = .ok r ∧ SameRooting r q := by
  unfold Path.pushExtension at h ⊢
  by_cases he : ext.isEmpty = true
  · rw [if_pos he] at h ⊢
    cases h
    exact ⟨p, rfl, rfl, rfl⟩
  rw [if_neg he, extended?_true] at h
  rw [if_neg he]
  cases hx : d.extended? false p.units ext with
  | none =>
    rw [hx] at h
    cases h
    exact ⟨p, rfl, rfl, rfl⟩
  | some xs =>
    rw [hx] at h
    obtain ⟨r, hr, hu, hq⟩ := exists_ofUnits_of_ensureSep h
    refine ⟨r, hr, (sameRooting_iff hq).2 ?_⟩
    rw [hu]
    exact isBareDrive_of_extended? hx

/-- A separator that is added to the end of a path, or asked for at the end of an edit, changes
whether the result is rooted or absolute if and only if it comes up against a bare drive: the path,
or the segment that is pushed. An extension never leaves one. -/
theorem sameRooting_of_trailing_sep (h : p.Sound) :
    (∀ q, p.pushSep = .ok q → (SameRooting p q ↔ d.isBareDrive p.units = false)) ∧
    (∀ segment q, p.push segment true = .ok q → ∃ r, p.push segment false = .ok r ∧
      (SameRooting r q ↔ d.isBareDrive segment = false)) ∧
    ∀ ext q, p.pushExtension ext true = .ok q → ∃ r, p.pushExtension ext false = .ok r ∧
      SameRooting r q :=
  ⟨fun _ hq => sameRooting_iff (h.checked_pushSep.units_eq hq),
    fun _ _ => sameRooting_push, fun _ _ => sameRooting_pushExtension⟩

/-- A separator behind `~` leaves a path that is rooted and not absolute, as `~` is. -/
theorem sameRooting_of_trailing_sep_home : ∃ p q : Path UInt8 .windows,
    p.units = [126] ∧ p.pushSep = .ok q ∧ q.units = [126, 92] ∧ SameRooting p q := by
  have hp : (⟨Buffer.exact [126]⟩ : Path UInt8 .windows).Sound :=
    sound_of_holds (Buffer.holds_exact [126]) (by decide)
  obtain ⟨q, hq, hu⟩ := hp.checked_pushSep.exists_eq_ok (by decide)
  exact ⟨_, q, rfl, hq, hu, ((sameRooting_of_trailing_sep hp).1 q hq).2 (by decide)⟩

/-- A separator behind `C:` roots it. -/
theorem not_forall_sameRooting_pushSep :
    ¬ ∀ p q : Path UInt8 .windows, p.Sound → p.pushSep = .ok q → SameRooting p q := by
  intro h
  have hp : (⟨Buffer.exact [67, 58]⟩ : Path UInt8 .windows).Sound :=
    sound_of_holds (Buffer.holds_exact [67, 58]) (by decide)
  obtain ⟨q, hq, hu⟩ := hp.checked_pushSep.exists_eq_ok (by decide)
  exact absurd ((sameRooting_iff hu).1 (h _ q hp hq)) (by decide)

theorem units_pop_of_separatorsOnly (h : d.separatorsOnly p.units = true) (trim : Bool) :
    (p.pop trim).units = p.units := by
  obtain ⟨root, below, f, hp, hr⟩ := exists_reading (d := d) p.units
  rw [hp, separatorsOnly_iff hr] at h
  rw [units_pop_of_forall_isSep trim hp hr h.2, hp]

theorem not_trimmed_of_separatorsOnly (h : d.separatorsOnly p.units = true) : ¬ p.Trimmed := by
  obtain ⟨root, below, f, hp, hr⟩ := exists_reading (d := d) p.units
  rw [hp, separatorsOnly_iff hr] at h
  have hends := endsWithSep_append_of_forall_isSep [] h.1 h.2
  rw [List.nil_append] at hends
  rw [Trimmed, hp, hr.belowRoot_eq, hends]
  exact Bool.false_ne_true.symm

theorem units_pop_true (h : d.separatorsOnly p.units = false) :
    (p.pop true).units = (p.pop false).popSep.units := by
  obtain ⟨root, below, f, hp, hr⟩ := exists_reading (d := d) p.units
  rcases exists_lastSegment (d := d) below with hs | ⟨before, name, seps, rfl, hl⟩
  · -- nothing lies below the root at all
    have hb : below = [] := by
      by_contra hb
      rw [hp, (separatorsOnly_iff hr).2 ⟨hb, hs⟩] at h
      cases h
    subst hb
    rw [units_popSep_of_reading (units_pop_of_forall_isSep false hp hr hs) hr,
      units_pop_of_forall_isSep true hp hr hs]
    rfl
  · obtain ⟨g, hb⟩ := hl.exists_reading hr
    rw [units_popSep_of_reading (units_pop_of_lastSegment false hp hr hl) hb,
      units_pop_of_lastSegment true hp hr hl]
    rfl

/-- To pop without the separator in front is to pop and then to drop the separators at the end, and
none is left there save in the root, unless separators and nothing else lie below the root: then
there is nothing to pop, and popping leaves the path as it is. -/
theorem units_pop_true_iff (p : Path α d) :
    ((p.pop true).units = (p.pop false).popSep.units ↔ d.separatorsOnly p.units = false) ∧
    ((p.pop true).Trimmed ↔ d.separatorsOnly p.units = false) ∧
    (d.separatorsOnly p.units = true → ∀ trim, (p.pop trim).units = p.units) := by
  have htrimmed : (p.pop false).popSep.Trimmed := (trimmed_popSep _).1
  cases h : d.separatorsOnly p.units with
  | false =>
    have he := units_pop_true h
    refine ⟨iff_of_true he rfl, iff_of_true ?_ rfl, fun hf => by cases hf⟩
    rw [Trimmed, he]
    exact htrimmed
  | true =>
    have hpop := units_pop_of_separatorsOnly h
    have hno : ¬ (p.pop true).Trimmed := by
      rw [Trimmed, hpop]
      exact not_trimmed_of_separatorsOnly h
    refine ⟨iff_of_false (fun he => hno ?_) (by simp), iff_of_false hno (by simp), fun _ => hpop⟩
    rw [Trimmed, he]
    exact htrimmed

/-- Nothing is popped of `//`, whose second separator is dropped otherwise. -/
theorem not_forall_units_pop_true :
    ¬ ∀ p : Path UInt8 .unix, (p.pop true).units = (p.pop false).popSep.units := by
  intro h
  exact absurd (h ⟨Buffer.exact [47, 47]⟩) (by decide)

end Path

end PathForms
