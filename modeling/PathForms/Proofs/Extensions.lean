import PathForms.Proofs.Division
import PathForms.Proofs.TrailingSeparator

/-!
# Extensions

An extension that is added goes behind the last name of a path, and the search for the last dot
finds it there again: it is what is taken off first. Taking off extensions keeps the root and the
location of a path, and of its name the dots in front, all but the last of them: two dots or three with
something behind them come to be one of the names that walk the tree. A tilde in front may be left
alone, too, and then stands for the home directory.
-/

set_option autoImplicit false

namespace PathForms

open CodeUnit

section

variable {β : Type} {p : β → Bool} {front rest : List β} {c : β}

theorem throughLast_append_cons (hc : p c = true) (hr : ∀ a ∈ rest, p a = false) :
    throughLast p (front ++ c :: rest) = front ++ [c] := by
  have hx : front ++ c :: rest = front ++ [c] ++ rest := by simp
  rw [hx, throughLast, trimEnd_append_of_forall _ (by simpa using hr), trimEnd_eq_self]
  simp [hc]

theorem takeWhile_append_of_exists (h : ∃ a ∈ front, p a = false) (rest : List β) :
    (front ++ rest).takeWhile p = front.takeWhile p := by
  obtain ⟨a, ha, hp⟩ := h
  rw [List.takeWhile_append, if_neg]
  intro hlen
  have hall := List.all_takeWhile (p := p) (l := front)
  rw [(List.takeWhile_prefix p).eq_of_length hlen, List.all_eq_true] at hall
  rw [hall a ha] at hp
  cases hp

end

variable {α : Type} [CodeUnit α]

def withoutExtension (name : List α) : List α := name.take (name.length - (extension name).length)

section

variable {name suffix : List α} {c : α}

theorem withoutExtension_append (name : List α) : withoutExtension name ++ extension name = name :=
  (take_append_extension name).1

theorem nameDivision_withoutExtension (name : List α) :
    NameDivision (withoutExtension name) (extension name) :=
  (take_append_extension name).2

theorem extension_append (hn : name ≠ []) (hc : isDot c = true) (hs : suffix ≠ [])
    (hfree : ∀ a ∈ suffix, isDot a = false) : extension (name ++ c :: suffix) = c :: suffix := by
  obtain ⟨a, ha⟩ := List.exists_mem_of_ne_nil suffix hs
  exact extension_dotted hn ⟨a, by simp [ha], hfree a ha⟩ (throughLast_append_cons hc hfree)

theorem withoutExtension_append_extension (hn : name ≠ []) (hc : isDot c = true) (hs : suffix ≠ [])
    (hfree : ∀ a ∈ suffix, isDot a = false) : withoutExtension (name ++ c :: suffix) = name := by
  have h := withoutExtension_append (name ++ c :: suffix)
  rw [extension_append hn hc hs hfree] at h
  exact List.append_cancel_right h

end

/-- Whether a name begins with two or three dots and has something else in it. -/
def hidesDots (name : List α) : Bool :=
  ((name.takeWhile isDot).length == 2 || (name.takeWhile isDot).length == 3) &&
    name.any (fun a => !isDot a)

/-- Whether a name is, or comes to be when its extensions are taken off, one of the two that walk the
tree. -/
def comesToDots (name : List α) : Bool := isDots name || hidesDots name

section

variable {name suffix : List α} {c : α}

theorem isDots_of_forall_isDot (h : ∀ a ∈ name, isDot a = true) :
    isDots name = (name.length == 1 || name.length == 2) := by
  match name with
  | [] => rfl
  | [a] => simp [isDots, isSelf, h a]
  | [a, b] => simp [isDots, isSelf, isParent, h a, h b]
  | a :: b :: c :: name => rfl

theorem isDots_of_exists_not_isDot (h : ∃ a ∈ name, isDot a = false) : isDots name = false := by
  rw [← Bool.not_eq_true]
  intro hdots
  have hall : ∀ a ∈ name, isDot a = true := by
    match name, hdots with
    | [a], hdots => simpa [isDots, isSelf, isParent] using hdots
    | [a, b], hdots => simpa [isDots, isSelf, isParent] using hdots
  obtain ⟨a, ha, hd⟩ := h
  rw [hall a ha] at hd
  cases hd

theorem any_not_isDot : name.any (fun a => !isDot a) = true ↔ ∃ a ∈ name, isDot a = false := by
  simp

theorem comesToDots_of_forall_isDot (h : ∀ a ∈ name, isDot a = true) :
    comesToDots name = (name.length == 1 || name.length == 2) := by
  have hany : name.any (fun a => !isDot a) = false := by simpa using h
  rw [comesToDots, hidesDots, hany, Bool.and_false, Bool.or_false, isDots_of_forall_isDot h]

theorem comesToDots_of_exists_not_isDot (h : ∃ a ∈ name, isDot a = false) : comesToDots name =
    ((name.takeWhile isDot).length == 2 || (name.takeWhile isDot).length == 3) := by
  rw [comesToDots, isDots_of_exists_not_isDot h, hidesDots, any_not_isDot.2 h, Bool.and_true,
    Bool.false_or]

theorem comesToDots_withoutExtension (name : List α) :
    comesToDots (withoutExtension name) = comesToDots name := by
  have hx := withoutExtension_append name
  have hd := nameDivision_withoutExtension name
  generalize withoutExtension name = stem at hx hd ⊢
  generalize extension name = ext at hx hd
  subst hx
  cases hd with
  | whole => rw [List.append_nil]
  | @dotted suffix c hc hlast hstem hname =>
    rw [comesToDots_of_exists_not_isDot hname]
    by_cases hdots : ∀ a ∈ stem, isDot a = true
    · have hsuffix : suffix.takeWhile isDot = [] := by
        cases suffix with
        | nil => rfl
        | cons a suffix => simp [hlast a List.mem_cons_self]
      have hlead : (stem ++ c :: suffix).takeWhile isDot = stem ++ [c] := by
        rw [List.takeWhile_append_of_pos hdots, List.takeWhile_cons_of_pos hc, hsuffix]
      rw [comesToDots_of_forall_isDot hdots, hlead, List.length_append, List.length_singleton]
      simp
    · have hstem' : ∃ a ∈ stem, isDot a = false := by simpa using hdots
      rw [comesToDots_of_exists_not_isDot hstem', takeWhile_append_of_exists hstem']

theorem isDots_of_comesToDots (h : comesToDots name = true) (he : extension name = []) :
    isDots name = true := by
  have hd := nameDivision_withoutExtension name
  have hx := withoutExtension_append name
  rw [he] at hd hx
  rw [List.append_nil] at hx
  rw [hx] at hd
  cases hd with
  | whole hw =>
    by_cases hdots : ∀ a ∈ name, isDot a = true
    · rwa [comesToDots_of_forall_isDot hdots, ← isDots_of_forall_isDot hdots] at h
    · -- two leading dots, but no dot behind the first unit
      rw [comesToDots_of_exists_not_isDot (by simpa using hdots)] at h
      match name, hw.resolve_left hdots with
      | [], _ => cases h
      | [a], _ => cases ha : isDot a <;> simp [ha] at h
      | a :: b :: name, hfree =>
        have hb := hfree b List.mem_cons_self
        cases ha : isDot a <;> simp [ha, hb] at h

end

namespace Dialect

variable {d : Dialect} {xs root below dir name before seps suffix ext : List α} {f : Form} {c : α}

/-- The path `xs` has a root of the form `f`, a directory that ends in a separator, if there is one,
and an entry. -/
structure HasEntry (d : Dialect) (xs root dir name : List α) (f : Form) : Prop where
  units_eq : xs = root ++ (dir ++ name)
  reading : d.Reading root (dir ++ name) f
  dir : dir = [] ∨ d.endsWithSep dir = true
  name : ∀ a ∈ name, d.isSep a = false

theorem exists_hasEntry (xs : List α) : ∃ root dir name f, d.HasEntry xs root dir name f := by
  obtain ⟨root, below, f, rfl, hr⟩ := exists_reading (d := d) xs
  have hb := throughLast_append_afterLast d.isSep below
  refine ⟨root, throughLast d.isSep below, afterLast d.isSep below, f, ?_, ?_,
    throughLast_isSep below, fun _ => not_of_mem_afterLast⟩
  · rw [hb]
  · rwa [hb]

namespace HasEntry

theorem root_eq (h : d.HasEntry xs root dir name f) : d.root xs = ⟨f, root.length⟩ := by
  rw [h.units_eq, h.reading.root_eq]

theorem rootUnits_eq (h : d.HasEntry xs root dir name f) : d.rootUnits xs = root := by
  rw [h.units_eq, h.reading.rootUnits_eq]

theorem entry_eq (h : d.HasEntry xs root dir name f) : (d.slices xs).entry = name := by
  have hname : afterLast d.isSep name = name := by
    rw [afterLast, List.takeWhile_eq_self_iff.2 (by simpa using h.name), List.reverse_reverse]
  have he : (d.slices xs).entry = afterLast d.isSep (d.belowRoot xs) := rfl
  rw [he, h.units_eq, h.reading.belowRoot_eq, afterLast_append h.dir, hname]

theorem location_eq (h : d.HasEntry xs root dir name f) : (d.slices xs).location = root ++ dir := by
  have hx := root_append_directory_append_entry (d := d) xs
  rw [← location_slices, h.entry_eq] at hx
  have he : (d.slices xs).location ++ name = root ++ dir ++ name := by
    rw [hx, h.units_eq, List.append_assoc]
  exact List.append_cancel_right he

theorem extension_eq (h : d.HasEntry xs root dir name f) :
    (d.slices xs).extension = extension name :=
  congrArg extension h.entry_eq

theorem not_isSep_withoutExtension (h : d.HasEntry xs root dir name f) :
    ∀ a ∈ withoutExtension name, d.isSep a = false := by
  intro a ha
  apply h.name
  rw [← withoutExtension_append name]
  exact List.mem_append_left _ ha

theorem not_isSep_extension (h : d.HasEntry xs root dir name f) :
    ∀ a ∈ extension name, d.isSep a = false := by
  intro a ha
  apply h.name
  rw [← withoutExtension_append name]
  exact List.mem_append_right _ ha

theorem append_extension (h : d.HasEntry xs root dir name f) :
    xs = root ++ (dir ++ withoutExtension name) ++ extension name := by
  rw [List.append_assoc, List.append_assoc, withoutExtension_append, h.units_eq]

theorem take_withoutExtensionLength (h : d.HasEntry xs root dir name f) :
    xs.take (d.withoutExtensionLength xs) = root ++ (dir ++ withoutExtension name) := by
  rw [withoutExtensionLength, h.extension_eq]
  have hx := h.append_extension
  generalize extension name = ext at hx
  rw [hx, List.length_append, Nat.add_sub_cancel, List.take_left]

end HasEntry

theorem Reading.append_dot (h : d.Reading root below f) (hb : below ≠ []) (hc : isDot c = true)
    (rest : List α) : d.Reading root (below ++ c :: rest) f := by
  by_cases hf : f = .relative
  · subst hf
    obtain ⟨rfl, hsep, hdrive, hhome⟩ := h.relative_inv
    obtain ⟨a, below, rfl⟩ := List.exists_cons_of_ne_nil hb
    have hcode : code c = 46 := by simpa [isDot, isByte, dot] using hc
    have hcolon : isByte colon c = false := by simp [isByte, colon, hcode]
    have hcsep : d.isSep c = false := not_isSep_of_isDot hc
    refine .relative (by simp) hsep ?_ ?_
    · cases below with
      | nil => simp [startsWithDrive, hcolon]
      | cons b below => exact hdrive
    · cases below with
      | nil =>
        have ha : (d.homeRoot && isByte tilde a) = false := by simpa [startsWithHome] using hhome
        simp [startsWithHome, startsWithSep, ha, hcsep]
      | cons b below => exact hhome
  · exact h.lengthen hb hf _

theorem dotted_extension (hs : suffix ≠ []) (hfree : ∀ a ∈ suffix, isDot a = false)
    (he : ext = suffix ∨ ext = ofByte dot :: suffix) :
    (if ext.head?.any isDot then ext else ofByte dot :: ext) = ofByte dot :: suffix := by
  rcases he with rfl | rfl
  · obtain ⟨a, ext, rfl⟩ := List.exists_cons_of_ne_nil hs
    simp [hfree a List.mem_cons_self]
  · have hdot : isDot (ofByte dot : α) = true := isByte_iff.2 rfl
    simp [hdot]

theorem extended?_of_forall_isSep (withSep : Bool) (ext : List α) (hr : d.Reading root seps f)
    (hs : ∀ a ∈ seps, d.isSep a = true) : d.extended? withSep (root ++ seps) ext = none := by
  simp only [extended?, hr.root_eq, trimSeps_append, trimEnd_eq_nil hs, List.append_nil, if_true]

theorem extended?_of_lastSegment (ext : List α) (hr : d.Reading root (before ++ name ++ seps) f)
    (h : d.LastSegment before name seps) :
    d.extended? false (root ++ (before ++ name ++ seps)) ext =
      some (root ++ (before ++ name) ++
        if ext.head?.any isDot then ext else ofByte dot :: ext) := by
  have hlen : (root ++ (before ++ name)).length ≠ root.length := by
    have := List.length_pos_iff.2 h.name.1
    simp only [List.length_append]
    omega
  simp only [extended?, hr.root_eq, trimSeps_append, h.trimEnd_eq, if_neg hlen, Bool.false_eq_true,
    if_false]

theorem withoutExtension_eq_nil (h : withoutExtension name = []) : name = [] := by
  have hx := withoutExtension_append name
  have hd := nameDivision_withoutExtension name
  rw [h] at hx hd
  rw [← hx]
  generalize extension name = ext at hx hd ⊢
  cases hd with
  | whole => rfl
  | dotted _ _ hstem => exact absurd rfl hstem

/-- Whether a path is a name alone that begins with a tilde and a dot, in a dialect where a lone tilde
stands for the home directory. -/
def extendsHome (d : Dialect) : List α → Bool
  | a :: b :: name => d.homeRoot && isByte tilde a && isDot b && name.all (fun c => !d.isSep c)
  | _ => false

theorem extendsHome_iff : d.extendsHome xs = true ↔ d.homeRoot = true ∧ ∃ a b name,
    xs = a :: b :: name ∧ isByte tilde a = true ∧ isDot b = true ∧
      ∀ c ∈ name, d.isSep c = false := by
  constructor
  · intro h
    match xs, h with
    | a :: b :: name, h =>
      simp only [extendsHome, Bool.and_eq_true, List.all_eq_true, Bool.not_eq_true'] at h
      exact ⟨h.1.1.1, a, b, name, rfl, h.1.1.2, h.1.2, h.2⟩
  · rintro ⟨hh, a, b, name, rfl, ha, hb, hfree⟩
    simpa [extendsHome, hh, ha, hb] using hfree

theorem extendsHome_append (h : d.extendsHome xs = true) (hext : ∀ a ∈ ext, d.isSep a = false) :
    d.extendsHome (xs ++ ext) = true := by
  obtain ⟨hh, a, b, name, rfl, ha, hb, hfree⟩ := extendsHome_iff.1 h
  refine extendsHome_iff.2 ⟨hh, a, b, name ++ ext, rfl, ha, hb, fun c hc => ?_⟩
  rcases List.mem_append.1 hc with hc | hc
  · exact hfree c hc
  · exact hext c hc

theorem HasEntry.withoutExtension (h : d.HasEntry xs root dir name f)
    (hx : d.extendsHome xs = false) :
    d.HasEntry (root ++ (dir ++ PathForms.withoutExtension name)) root dir
      (PathForms.withoutExtension name) f := by
  have hext := h.not_isSep_extension
  have hr := h.reading
  rw [← withoutExtension_append name, ← List.append_assoc] at hr
  refine ⟨rfl, ?_, h.dir, h.not_isSep_withoutExtension⟩
  by_cases hf : f = .relative
  · subst hf
    have hne : dir ++ PathForms.withoutExtension name ≠ [] := by
      intro hnil
      obtain ⟨hdir, hstem⟩ := List.append_eq_nil_iff.1 hnil
      have hroot := h.reading.root_eq
      rw [hdir, withoutExtension_eq_nil hstem, h.reading.relative_inv.1] at hroot
      cases hroot
    apply hr.shorten_relative hne
    rcases startsWithHome_shorten hr.relative_inv.2.2.2 with hh | ⟨hh, ⟨a, ha, ht⟩, hn⟩
    · exact hh
    · -- the extension begins with a dot behind the tilde
      exfalso
      have hunits := h.append_extension
      rw [ha, hr.relative_inv.1] at hunits
      have hdot := nameDivision_withoutExtension name
      generalize extension name = suffix at hunits hdot hext hn
      cases hdot with
      | whole => exact hn (Or.inl rfl)
      | @dotted suffix c hc =>
        rw [hunits, ← Bool.not_eq_true, extendsHome_iff] at hx
        exact hx ⟨hh, a, c, suffix, rfl, ht, hc, fun b hb => hext b (List.mem_cons_of_mem c hb)⟩
  · exact hr.shorten_below hf (List.prefix_append _ _)

theorem hasEntry_of_extendsHome (h : d.extendsHome xs = true) :
    d.HasEntry xs [] [] xs .relative := by
  obtain ⟨-, a, b, name, rfl, ha, hb, hfree⟩ := extendsHome_iff.1 h
  have hasep : d.isSep a = false := not_isSep_of_isByte_tilde ha
  have hbsep : d.isSep b = false := not_isSep_of_isDot hb
  refine ⟨rfl, .relative (by simp) hasep ?_ ?_, Or.inl rfl, ?_⟩
  · simp [startsWithDrive, not_isDriveLetter_of_isByte_tilde ha]
  · simp [startsWithHome, startsWithSep, hbsep]
  · simpa [hasep, hbsep] using hfree

theorem not_isDot_of_isByte_tilde {a : α} (h : isByte tilde a = true) : isDot a = false := by
  have hc : code a = 126 := by simpa [isByte, tilde] using h
  simp [isDot, isByte, dot, hc]

theorem extendsHome_withoutExtension (h : d.extendsHome xs = true) :
    (PathForms.withoutExtension xs).length < xs.length ∧
    ((∃ a, PathForms.withoutExtension xs = [a] ∧ d.Reading [a] [] .homeRooted) ∨
      d.extendsHome (PathForms.withoutExtension xs) = true) := by
  obtain ⟨hh, a, b, name, rfl, ha, hb, hfree⟩ := extendsHome_iff.1 h
  have hx := withoutExtension_append (a :: b :: name)
  have hd := nameDivision_withoutExtension (a :: b :: name)
  have hne : PathForms.withoutExtension (a :: b :: name) ≠ [] :=
    mt withoutExtension_eq_nil (List.cons_ne_nil a (b :: name))
  generalize PathForms.withoutExtension (a :: b :: name) = stem at hx hd hne ⊢
  generalize extension (a :: b :: name) = ext at hx hd
  constructor
  · -- there is a dot behind the first unit, and the first unit is none
    rw [← hx, List.length_append]
    cases hd with
    | whole hw =>
      rw [List.append_nil] at hx
      rw [hx] at hw
      rcases hw with hw | hw
      · have hdot := hw a List.mem_cons_self
        rw [not_isDot_of_isByte_tilde ha] at hdot
        cases hdot
      · have hdot := hw b List.mem_cons_self
        rw [hb] at hdot
        cases hdot
    | dotted => simp
  · match stem, hx with
    | [c], hx =>
      obtain ⟨rfl, -⟩ := List.cons.inj hx
      exact Or.inl ⟨c, rfl, .home hh ha⟩
    | c :: e :: stem, hx =>
      simp only [List.cons_append, List.cons.injEq] at hx
      obtain ⟨rfl, rfl, rfl⟩ := hx
      exact Or.inr (extendsHome_iff.2
        ⟨hh, c, e, stem, rfl, ha, hb, fun b hb => hfree b (List.mem_append_left _ hb)⟩)

theorem comesToDots_of_extendsHome (h : d.extendsHome xs = true) : comesToDots xs = false := by
  obtain ⟨-, a, b, name, rfl, ha, -⟩ := extendsHome_iff.1 h
  have hdot := not_isDot_of_isByte_tilde ha
  rw [comesToDots_of_exists_not_isDot ⟨a, List.mem_cons_self, hdot⟩]
  simp [hdot]

end Dialect

namespace Path

open Dialect

variable {d : Dialect} {p q : Path α d} {root dir name before seps suffix ext : List α} {f : Form}

theorem units_popExtension_of_hasEntry (h : d.HasEntry p.units root dir name f) :
    p.popExtension.units = root ++ (dir ++ withoutExtension name) := by
  rw [units_popExtension, h.take_withoutExtensionLength]

/-- The path `q` is `p` with an extension added, and `p` without the separators at its end is `q`
with its extension taken off. -/
structure AddsExtension (p q : Path α d) (suffix : List α) : Prop where
  extension_eq : q.extension = ofByte dot :: suffix
  root_eq : d.root q.units = d.root p.units
  rootUnits_eq : q.root = p.root
  location_eq : q.location = p.popSep.location
  units_popExtension_eq : q.popExtension.units = p.popSep.units

theorem hasEntry_popSep (hp : p.units = root ++ (before ++ name ++ seps))
    (hr : d.Reading root (before ++ name ++ seps) f) (h : d.LastSegment before name seps) :
    d.HasEntry p.popSep.units root before name f := by
  refine ⟨?_, ?_, h.before, h.name.2⟩
  · rw [units_popSep_of_reading hp hr, h.trimEnd_eq]
  · exact hr.of_cut (fun _ => by simp [h.name.1])
      (Or.inr (Or.inr (nameEnds_of_forall_isSep h.seps)))

theorem addsExtension_of_lastSegment (hp : p.units = root ++ (before ++ name ++ seps))
    (hr : d.Reading root (before ++ name ++ seps) f) (h : d.LastSegment before name seps)
    (hs : suffix ≠ []) (hfree : ∀ a ∈ suffix, isDot a = false ∧ d.isSep a = false)
    (hq : q.units = root ++ (before ++ name) ++ ofByte dot :: suffix) :
    AddsExtension p q suffix := by
  have hdot : isDot (ofByte dot : α) = true := isByte_iff.2 rfl
  have hdots : ∀ a ∈ suffix, isDot a = false := fun a ha => (hfree a ha).1
  have hcut := hasEntry_popSep hp hr h
  have hentry : d.HasEntry q.units root before (name ++ ofByte dot :: suffix) f := by
    refine ⟨?_, ?_, h.before, fun a ha => ?_⟩
    · rw [hq]
      simp
    · rw [← List.append_assoc]
      exact hcut.reading.append_dot (by simp [h.name.1]) hdot suffix
    · rcases List.mem_append.1 ha with ha | ha
      · exact h.name.2 a ha
      · rcases List.mem_cons.1 ha with rfl | ha
        · exact isSegment_dot.2 _ (List.mem_singleton.2 rfl)
        · exact (hfree a ha).2
  constructor
  · exact hentry.extension_eq.trans (extension_append h.name.1 hdot hs hdots)
  · rw [hentry.root_eq, hp, hr.root_eq]
  · rw [Path.root, Path.root, hentry.rootUnits_eq, hp, hr.rootUnits_eq]
  · exact hentry.location_eq.trans hcut.location_eq.symm
  · rw [units_popExtension_of_hasEntry hentry, hcut.units_eq,
      withoutExtension_append_extension h.name.1 hdot hs hdots]

theorem pushExtension_of_forall_isSep (ext : List α) (withSep : Bool) (hp : p.units = root ++ seps)
    (hr : d.Reading root seps f) (hs : ∀ a ∈ seps, d.isSep a = true) :
    p.pushExtension ext withSep = .ok p := by
  rw [Path.pushExtension, hp, extended?_of_forall_isSep withSep ext hr hs, ite_self]

theorem checked_pushExtension (hp : p.units = root ++ (before ++ name ++ seps))
    (hr : d.Reading root (before ++ name ++ seps) f) (h : d.LastSegment before name seps)
    (hs : suffix ≠ []) (hfree : ∀ a ∈ suffix, isDot a = false)
    (he : ext = suffix ∨ ext = ofByte dot :: suffix) :
    Checked (p.pushExtension ext false) (root ++ (before ++ name) ++ ofByte dot :: suffix) := by
  have hne : ext.isEmpty = false := by
    rcases he with rfl | rfl <;> simp [hs]
  rw [Path.pushExtension, hne, hp, extended?_of_lastSegment ext hr h,
    dotted_extension hs hfree he]
  exact checked_ofUnits _

/-- An extension that is added to the last name of a path is its extension, and taking it off gives
the path back without the separators at its end; the root and the location stay. With nothing but
separators below the root there is no name to extend, and the path stays as it is. -/
theorem popExtension_pushExtension (hs : suffix ≠ [])
    (hfree : ∀ a ∈ suffix, isDot a = false ∧ d.isSep a = false)
    (he : ext = suffix ∨ ext = ofByte dot :: suffix) (p : Path α d) :
    ((∃ a ∈ d.belowRoot p.units, d.isSep a = false) →
      ((∃ q, p.pushExtension ext false = .ok q) ↔
        p.popSep.units.length + suffix.length + 1 ≤ d.maxLength) ∧
      ∀ q, p.pushExtension ext false = .ok q → AddsExtension p q suffix) ∧
    ((∀ a ∈ d.belowRoot p.units, d.isSep a = true) → p.pushExtension ext false = .ok p) := by
  obtain ⟨root, below, f, hp, hr⟩ := exists_reading (d := d) p.units
  rw [hp, hr.belowRoot_eq]
  rcases exists_lastSegment (d := d) below with hall | ⟨before, name, seps, rfl, h⟩
  · refine ⟨?_, fun _ => pushExtension_of_forall_isSep ext false hp hr hall⟩
    rintro ⟨a, ha, hsep⟩
    rw [hall a ha] at hsep
    cases hsep
  · have hdots : ∀ a ∈ suffix, isDot a = false := fun a ha => (hfree a ha).1
    have hchecked := checked_pushExtension hp hr h hs hdots he
    have hlen : (root ++ (before ++ name) ++ ofByte dot :: suffix).length =
        p.popSep.units.length + suffix.length + 1 := by
      rw [(hasEntry_popSep hp hr h).units_eq, List.length_append, List.length_cons, Nat.add_assoc]
    refine ⟨fun _ => ⟨⟨?_, fun hle => ?_⟩, fun q hq => ?_⟩, fun hall => ?_⟩
    · rintro ⟨q, hq⟩
      rw [← hlen]
      exact hchecked.length_le hq
    · rw [← hlen] at hle
      obtain ⟨q, hq, -⟩ := hchecked.exists_eq_ok hle
      exact ⟨q, hq⟩
    · exact addsExtension_of_lastSegment hp hr h hs hfree (hchecked.units_eq hq)
    · exact absurd hall h.not_forall_isSep

/-- An extension added to `C:..\` goes behind the two dots, and none is added to `C:\`. -/
theorem popExtension_pushExtension_dots : ∃ p q r : Path UInt8 .windows,
    p.units = [67, 58, 46, 46, 92] ∧ p.pushExtension [120] false = .ok q ∧
      q.units = [67, 58, 46, 46, 46, 120] ∧ AddsExtension p q [120] ∧
      r.units = [67, 58, 92] ∧ r.pushExtension [46, 120] false = .ok r := by
  have hfree : ∀ a ∈ [(120 : UInt8)], isDot a = false ∧ Dialect.windows.isSep a = false := by
    intro a ha
    rw [List.mem_singleton.1 ha]
    decide
  have hq : Path.pushExtension (⟨Buffer.exact [67, 58, 46, 46, 92]⟩ : Path UInt8 .windows) [120]
      false = .ok ⟨Buffer.exact [67, 58, 46, 46, 46, 120]⟩ := by
    decide
  have hnil : Dialect.windows.belowRoot [(67 : UInt8), 58, 92] = [] := by
    decide
  have hp := popExtension_pushExtension (d := .windows) (List.cons_ne_nil 120 []) hfree (Or.inl rfl)
    ⟨Buffer.exact [67, 58, 46, 46, 92]⟩
  have hr := popExtension_pushExtension (d := .windows) (List.cons_ne_nil 120 []) hfree (Or.inr rfl)
    ⟨Buffer.exact [67, 58, 92]⟩
  refine ⟨_, _, _, rfl, hq, rfl, (hp.1 ⟨46, by decide, by decide⟩).2 _ hq, rfl, hr.2 fun a ha => ?_⟩
  cases hnil ▸ ha

structure SamePlace (p q : Path α d) : Prop where
  root_eq : d.root q.units = d.root p.units
  rootUnits_eq : q.root = p.root
  location_eq : q.location = p.location

def popExtensions : Nat → Path α d → Path α d
  | 0, p => p
  | n + 1, p => popExtensions n p.popExtension

theorem hasEntry_popExtension (h : d.HasEntry p.units root dir name f)
    (hx : d.extendsHome p.units = false) :
    d.HasEntry p.popExtension.units root dir (withoutExtension name) f := by
  rw [units_popExtension_of_hasEntry h]
  exact h.withoutExtension hx

theorem samePlace_popExtension (h : d.extendsHome p.units = false) :
    SamePlace p p.popExtension ∧ d.extendsHome p.popExtension.units = false := by
  obtain ⟨root, dir, name, f, hp⟩ := exists_hasEntry (d := d) p.units
  have hq := hasEntry_popExtension hp h
  refine ⟨⟨?_, ?_, ?_⟩, ?_⟩
  · rw [hq.root_eq, hp.root_eq]
  · rw [Path.root, Path.root, hq.rootUnits_eq, hp.rootUnits_eq]
  · exact hq.location_eq.trans hp.location_eq.symm
  · rw [← Bool.not_eq_true] at h ⊢
    intro hx
    apply h
    rw [hp.append_extension, ← units_popExtension_of_hasEntry hp]
    exact extendsHome_append hx hp.not_isSep_extension

theorem samePlace_popExtensions (n : Nat) (h : d.extendsHome p.units = false) :
    SamePlace p (popExtensions n p) := by
  induction n generalizing p with
  | zero => exact ⟨rfl, rfl, rfl⟩
  | succ n ih =>
    obtain ⟨hstep, hx⟩ := samePlace_popExtension h
    have hrun := ih hx
    exact ⟨hrun.root_eq.trans hstep.root_eq, hrun.rootUnits_eq.trans hstep.rootUnits_eq,
      hrun.location_eq.trans hstep.location_eq⟩

theorem units_popExtension_of_extendsHome (h : d.extendsHome p.units = true) :
    p.popExtension.units = withoutExtension p.units :=
  units_popExtension_of_hasEntry (hasEntry_of_extendsHome h)

theorem exists_popExtensions_home (h : d.extendsHome p.units = true) :
    ∃ n, (d.root (popExtensions n p).units).form = .homeRooted := by
  induction hn : p.units.length using Nat.strong_induction_on generalizing p with
  | _ k ih =>
    obtain ⟨hlt, hcases⟩ := extendsHome_withoutExtension h
    rw [← units_popExtension_of_extendsHome h] at hlt hcases
    rcases hcases with ⟨a, ha, hr⟩ | hx
    · refine ⟨1, ?_⟩
      show (d.root p.popExtension.units).form = .homeRooted
      rw [ha]
      exact congrArg Root.form hr.root_eq
    · rw [hn] at hlt
      obtain ⟨n, hroot⟩ := ih _ hlt hx rfl
      exact ⟨n + 1, hroot⟩

theorem comesToDots_popExtension (p : Path α d) :
    comesToDots p.popExtension.file = comesToDots p.file := by
  cases hx : d.extendsHome p.units with
  | true =>
    have hp : p.file = p.units := (hasEntry_of_extendsHome hx).entry_eq
    rw [hp, comesToDots_of_extendsHome hx]
    obtain ⟨-, hcases⟩ := extendsHome_withoutExtension hx
    rw [← units_popExtension_of_extendsHome hx] at hcases
    rcases hcases with ⟨a, ha, hr⟩ | hx
    · have he : d.HasEntry p.popExtension.units [a] [] [] .homeRooted :=
        ⟨ha, hr, Or.inl rfl, by simp⟩
      have hfile : p.popExtension.file = [] := he.entry_eq
      rw [hfile]
      rfl
    · have hfile : p.popExtension.file = p.popExtension.units :=
        (hasEntry_of_extendsHome hx).entry_eq
      rw [hfile, comesToDots_of_extendsHome hx]
  | false =>
    obtain ⟨root, dir, name, f, hp⟩ := exists_hasEntry (d := d) p.units
    have hfile : p.file = name := hp.entry_eq
    have hq : p.popExtension.file = withoutExtension name := (hasEntry_popExtension hp hx).entry_eq
    rw [hfile, hq, comesToDots_withoutExtension]

theorem comesToDots_popExtensions (n : Nat) (p : Path α d) :
    comesToDots (popExtensions n p).file = comesToDots p.file := by
  induction n generalizing p with
  | zero => rfl
  | succ n ih => exact (ih p.popExtension).trans (comesToDots_popExtension p)

theorem exists_popExtensions_eq_nil (p : Path α d) : ∃ n, (popExtensions n p).extension = [] := by
  induction hn : p.units.length using Nat.strong_induction_on generalizing p with
  | _ k ih =>
    obtain ⟨root, dir, name, f, hp⟩ := exists_hasEntry (d := d) p.units
    by_cases he : p.extension = []
    · exact ⟨0, he⟩
    have hpos : 0 < (PathForms.extension name).length := by
      rw [← hp.extension_eq]
      exact List.length_pos_iff.2 he
    have hlen := congrArg List.length hp.append_extension
    rw [← units_popExtension_of_hasEntry hp, List.length_append] at hlen
    obtain ⟨n, hnil⟩ := ih p.popExtension.units.length (by omega) p.popExtension rfl
    exact ⟨n + 1, hnil⟩

/-- Taking off extensions never makes one of the two names that walk the tree out of another name,
unless that begins with two or three dots and has something else in it: the last of these dots is a
dot like any other. And it never changes the root or the location, unless only a tilde is left. -/
theorem isDots_file_popExtensions_iff (h : isDots p.file = false) :
    ((∀ n, isDots (popExtensions n p).file = false) ↔ hidesDots p.file = false) ∧
    ((∀ n, SamePlace p (popExtensions n p)) ↔ d.extendsHome p.units = false) := by
  have hcomes : comesToDots p.file = hidesDots p.file := by
    rw [comesToDots, h, Bool.false_or]
  rw [← hcomes]
  refine ⟨⟨fun hall => ?_, fun hno n => ?_⟩, fun hall => ?_, fun hx n => samePlace_popExtensions n hx⟩
  · obtain ⟨n, hnil⟩ := exists_popExtensions_eq_nil p
    rw [← Bool.not_eq_true, ← comesToDots_popExtensions n p]
    intro hdots
    have hd := isDots_of_comesToDots hdots hnil
    rw [hall n] at hd
    cases hd
  · rw [← comesToDots_popExtensions n p, comesToDots, Bool.or_eq_false_iff] at hno
    exact hno.1
  · rw [← Bool.not_eq_true]
    intro hx
    obtain ⟨n, hhome⟩ := exists_popExtensions_home hx
    rw [(hall n).root_eq, (hasEntry_of_extendsHome hx).root_eq] at hhome
    cases hhome

/-- The name `.a.b` on a drive only becomes shorter. -/
theorem isDots_file_popExtensions_hidden : ∃ p : Path UInt8 .windows,
    p.units = [67, 58, 46, 97, 46, 98] ∧ isDots p.file = false ∧
      (∀ n, isDots (popExtensions n p).file = false) ∧ ∀ n, SamePlace p (popExtensions n p) := by
  have h := isDots_file_popExtensions_iff (d := .windows)
    (p := ⟨Buffer.exact [(67 : UInt8), 58, 46, 97, 46, 98]⟩) (by decide)
  exact ⟨_, rfl, by decide, h.1.2 (by decide), h.2.2 (by decide)⟩

/-- The name `..a` comes to be the two dots that lead to the parent, and `~.a` comes to be the home
directory. -/
theorem not_forall_isDots_file_popExtensions :
    (¬ ∀ p : Path UInt8 .windows, isDots p.file = false →
      ∀ n, isDots (popExtensions n p).file = false) ∧
    ¬ ∀ p : Path UInt8 .windows, isDots p.file = false → ∀ n, SamePlace p (popExtensions n p) := by
  constructor
  · intro h
    have hdots := h ⟨Buffer.exact [46, 46, 97]⟩ (by decide) 1
    revert hdots
    decide
  · intro h
    have hroot := (h ⟨Buffer.exact [126, 46, 97]⟩ (by decide) 1).root_eq
    revert hroot
    decide

end Path

end PathForms
