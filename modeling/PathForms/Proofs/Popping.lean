import PathForms.Proofs.CanonicalIdempotent
import PathForms.Proofs.Destination

/-!
# Popping

Popping cuts a path in front of the last segment below its root, and perhaps in front of the
separators there too. A cut at such a place never changes how the root is read, except that nothing
may be left of a relative path. So the root stays, the last component goes, and popping again and
again comes down to the root in as many steps as there are components below it.
-/

set_option autoImplicit false

namespace PathForms

section

variable {β : Type} {p : β → Bool} {xs ys : List β}

theorem exists_trimEnd_append (p : β → Bool) (xs : List β) :
    ∃ ys, xs = trimEnd p xs ++ ys ∧ ∀ a ∈ ys, p a = true := by
  refine ⟨(xs.reverse.takeWhile p).reverse, ?_, fun a ha => ?_⟩
  · rw [trimEnd, ← List.reverse_append, List.takeWhile_append_dropWhile, List.reverse_reverse]
  · have := List.all_takeWhile (p := p) (l := xs.reverse)
    rw [List.all_eq_true] at this
    exact this a (List.mem_reverse.1 ha)

theorem length_trimEnd_le (p : β → Bool) (xs : List β) : (trimEnd p xs).length ≤ xs.length := by
  obtain ⟨ys, hx, -⟩ := exists_trimEnd_append p xs
  have hlen := congrArg List.length hx
  rw [List.length_append] at hlen
  omega

theorem getLast?_trimEnd (p : β → Bool) (xs : List β) :
    (trimEnd p xs).getLast?.any p = false := by
  have h := List.head?_dropWhile_not p xs.reverse
  rw [trimEnd, List.getLast?_reverse]
  cases hd : (xs.reverse.dropWhile p).head? with
  | none => rfl
  | some a => simpa [hd] using h

theorem trimEnd_append_of_forall (xs : List β) (h : ∀ a ∈ ys, p a = true) :
    trimEnd p (xs ++ ys) = trimEnd p xs := by
  rw [trimEnd, List.reverse_append,
    List.dropWhile_append_of_pos (fun a ha => h a (List.mem_reverse.1 ha)), trimEnd]

theorem trimEnd_eq_self (h : xs.getLast?.any p = false) : trimEnd p xs = xs := by
  rcases List.eq_nil_or_concat xs with rfl | ⟨zs, c, rfl⟩
  · rfl
  · have hc : p c = false := by simpa using h
    simp [trimEnd, hc]

theorem trimEnd_eq_nil (h : ∀ a ∈ xs, p a = true) : trimEnd p xs = [] :=
  trimEnd_append_of_forall [] h

theorem throughLast_eq_nil_or_concat (p : β → Bool) (xs : List β) :
    throughLast p xs = [] ∨ ∃ front c, throughLast p xs = front ++ [c] ∧ p c = true := by
  have h := getLast?_trimEnd (fun a => !p a) xs
  rcases List.eq_nil_or_concat (throughLast p xs) with hx | ⟨front, c, hx⟩
  · exact Or.inl hx
  · rw [← throughLast, hx] at h
    exact Or.inr ⟨front, c, by simpa using hx, by simpa using h⟩

end

namespace Dialect

open CodeUnit

variable {α : Type} [CodeUnit α] {d : Dialect} {xs before name seps root below cut rest : List α}
  {f : Form}

theorem parts_of_forall_isSep (h : ∀ a ∈ xs, d.isSep a = true) : d.parts xs = [] := by
  have hd : xs.dropWhile d.isSep = [] := List.dropWhile_eq_nil_iff.2 h
  rw [← parts_dropWhile_isSep, hd, parts_nil]

theorem parts_append_of_forall_isSep (xs : List α) (h : ∀ a ∈ seps, d.isSep a = true) :
    d.parts (xs ++ seps) = d.parts xs := by
  cases seps with
  | nil => rw [List.append_nil]
  | cons c seps =>
    rw [parts_append_cons xs seps (h c List.mem_cons_self),
      parts_of_forall_isSep (fun a ha => h a (List.mem_cons_of_mem c ha)), List.append_nil]

theorem parts_trimEnd (xs : List α) : d.parts (trimEnd d.isSep xs) = d.parts xs := by
  obtain ⟨seps, hx, hs⟩ := exists_trimEnd_append d.isSep xs
  calc d.parts (trimEnd d.isSep xs) = d.parts (trimEnd d.isSep xs ++ seps) :=
        (parts_append_of_forall_isSep _ hs).symm
    _ = d.parts xs := by rw [← hx]

/-- In the run `before ++ name ++ seps`, `name` is the last segment. -/
structure LastSegment (d : Dialect) (before name seps : List α) : Prop where
  before : before = [] ∨ d.endsWithSep before = true
  name : d.IsSegment name
  seps : ∀ a ∈ seps, d.isSep a = true

theorem throughLast_isSep (xs : List α) :
    throughLast d.isSep xs = [] ∨ d.endsWithSep (throughLast d.isSep xs) = true := by
  rcases throughLast_eq_nil_or_concat d.isSep xs with hx | ⟨front, c, hx, hc⟩
  · exact Or.inl hx
  · rw [hx]
    exact Or.inr ((endsWithSep_append front (List.cons_ne_nil c [])).trans hc)

theorem exists_lastSegment (xs : List α) : (∀ a ∈ xs, d.isSep a = true) ∨
    ∃ before name seps, xs = before ++ name ++ seps ∧ d.LastSegment before name seps := by
  obtain ⟨seps, hx, hs⟩ := exists_trimEnd_append d.isSep xs
  have hend := getLast?_trimEnd d.isSep xs
  generalize trimEnd d.isSep xs = names at hx hend
  by_cases hn : names = []
  · rw [hx, hn]
    exact Or.inl hs
  have hname : afterLast d.isSep names ≠ [] := by
    intro ha
    have hall := throughLast_append_afterLast d.isSep names
    rw [ha, List.append_nil] at hall
    rcases throughLast_isSep (d := d) names with h | h
    · exact hn (hall.symm.trans h)
    · rw [hall, endsWithSep, hend] at h
      cases h
  refine Or.inr ⟨throughLast d.isSep names, afterLast d.isSep names, seps, ?_, ?_⟩
  · rw [throughLast_append_afterLast]
    exact hx
  · exact ⟨throughLast_isSep names, ⟨hname, fun _ => not_of_mem_afterLast⟩, hs⟩

namespace LastSegment

theorem not_forall_isSep (h : d.LastSegment before name seps) :
    ¬ ∀ a ∈ before ++ name ++ seps, d.isSep a = true := by
  intro hall
  obtain ⟨a, ha⟩ := List.exists_mem_of_ne_nil name h.name.1
  have hsep := hall a (by simp [ha])
  rw [h.name.2 a ha] at hsep
  cases hsep

theorem trimEnd_eq (h : d.LastSegment before name seps) :
    trimEnd d.isSep (before ++ name ++ seps) = before ++ name := by
  rw [trimEnd_append_of_forall _ h.seps, trimEnd_eq_self]
  rw [← endsWithSep, endsWithSep_append _ h.name.1, endsWithSep_segment h.name]

theorem throughLast_eq (h : d.LastSegment before name seps) :
    throughLast d.isSep (before ++ name) = before := by
  rw [throughLast, trimEnd_append_of_forall _ (by simpa using h.name.2), trimEnd_eq_self]
  rcases h.before with rfl | hb
  · rfl
  · obtain ⟨zs, c, rfl, hc⟩ := exists_eq_append_of_endsWithSep hb
    simpa using hc

theorem afterLast_eq (h : d.LastSegment before name seps) :
    afterLast d.isSep (before ++ name) = name := by
  have ha := throughLast_append_afterLast d.isSep (before ++ name)
  rw [h.throughLast_eq] at ha
  exact List.append_cancel_left ha

theorem parts_eq (h : d.LastSegment before name seps) :
    d.parts (before ++ name ++ seps) = d.parts before ++ [name] := by
  rw [parts_append_of_forall_isSep _ h.seps, parts_append_of_endsWithSep h.before,
    parts_segment h.name]

end LastSegment

theorem afterLast_of_endsWithSep (h : d.endsWithSep xs = true) : afterLast d.isSep xs = [] := by
  obtain ⟨zs, c, rfl, hc⟩ := exists_eq_append_of_endsWithSep h
  simp [afterLast, hc]

theorem endsWithSep_append_of_forall_isSep (xs : List α) (hne : seps ≠ [])
    (h : ∀ a ∈ seps, d.isSep a = true) : d.endsWithSep (xs ++ seps) = true := by
  rw [endsWithSep_append xs hne, endsWithSep, List.getLast?_eq_some_getLast hne]
  exact h _ (List.getLast_mem hne)

theorem nameEnds_of_forall_isSep (h : ∀ a ∈ seps, d.isSep a = true) : d.NameEnds seps := by
  cases seps with
  | nil => exact Or.inl rfl
  | cons c seps => exact Or.inr (h c List.mem_cons_self)

theorem startsWithSep_shorten (h : cut <+: xs) (hx : d.startsWithSep xs = false) :
    d.startsWithSep cut = false := by
  obtain ⟨rest, rfl⟩ := h
  cases cut with
  | nil => rfl
  | cons a cut => exact hx

theorem NameEnds.shorten (hx : d.NameEnds xs) (h : cut <+: xs) : d.NameEnds cut := by
  obtain ⟨rest, rfl⟩ := h
  cases cut with
  | nil => exact Or.inl rfl
  | cons a cut => exact nameEnds_cons_iff.2 (nameEnds_cons_iff.1 hx)

theorem NameEnds.lengthen (h : d.NameEnds xs) (hx : xs ≠ []) (rest : List α) :
    d.NameEnds (xs ++ rest) := by
  rcases h with h | h
  · exact absurd h hx
  · exact Or.inr ((startsWithSep_append rest hx).trans h)

theorem ShareReading.shorten_below (h : d.ShareReading root below f) (hc : cut <+: below) :
    d.ShareReading root cut f := by
  cases h with
  | bare hb => exact .bare (hb.shorten hc)
  | server hs => exact List.prefix_nil.1 hc ▸ .server hs
  | serverSep hs hsep hb => exact .serverSep hs hsep (hb.shorten hc)
  | share hs hsep hh => exact List.prefix_nil.1 hc ▸ .share hs hsep hh
  | complete hs hsep hh he => exact .complete hs hsep hh he

theorem Reading.shorten_below (h : d.Reading root below f) (hf : f ≠ .relative)
    (hc : cut <+: below) : d.Reading root cut f := by
  cases h with
  | empty =>
    obtain rfl := List.prefix_nil.1 hc
    exact .empty
  | relative => exact absurd rfl hf
  | slash ha hb => exact .slash ha (fun hn => startsWithSep_shorten hc (hb hn))
  | driveRelative hd hb => exact .driveRelative hd (startsWithSep_shorten hc hb)
  | driveRooted hd hsep => exact .driveRooted hd hsep
  | home hh ha => exact List.prefix_nil.1 hc ▸ .home hh ha
  | homeSep hh ha hb => exact .homeSep hh ha hb
  | unc hn ha hb h => exact .unc hn ha hb (h.shorten_below hc)

theorem startsWithDrive_shorten (h : cut <+: xs) (hx : d.startsWithDrive xs = false) :
    d.startsWithDrive cut = false := by
  obtain ⟨rest, rfl⟩ := h
  match cut with
  | [] => rfl
  | [a] => rfl
  | a :: b :: cut => exact hx

theorem startsWithHome_shorten (hx : d.startsWithHome (cut ++ rest) = false) :
    d.startsWithHome cut = false ∨
      d.homeRoot = true ∧ (∃ a, cut = [a] ∧ isByte tilde a = true) ∧ ¬ d.NameEnds rest := by
  cases hcut : d.startsWithHome cut with
  | false => exact Or.inl rfl
  | true =>
    match cut, hcut with
    | [a], hcut =>
      simp only [startsWithHome, Bool.and_eq_true] at hcut
      refine Or.inr ⟨hcut.1.1, ⟨a, rfl, hcut.1.2⟩, fun hr => ?_⟩
      have hends : (rest.isEmpty || d.startsWithSep rest) = true := by simpa [NameEnds] using hr
      simp [startsWithHome, hcut.1.1, hcut.1.2, hends] at hx
    | a :: b :: cut, hcut =>
      have he : d.startsWithHome (a :: b :: cut ++ rest) = d.startsWithHome (a :: b :: cut) := rfl
      rw [he, hcut] at hx
      cases hx

theorem Reading.shorten_relative (h : d.Reading root (cut ++ rest) .relative) (hne : cut ≠ [])
    (hh : d.startsWithHome cut = false) : d.Reading root cut .relative := by
  obtain ⟨rfl, hsep, hdrive, -⟩ := h.relative_inv
  have hc : cut <+: cut ++ rest := List.prefix_append _ _
  exact .relative hne (startsWithSep_shorten hc hsep) (startsWithDrive_shorten hc hdrive) hh

theorem Reading.of_relative_append (h : d.Reading root (cut ++ rest) .relative) (hne : cut ≠ [])
    (hc : d.endsWithSep cut = true ∨ d.NameEnds rest) : d.Reading root cut .relative := by
  apply h.shorten_relative hne
  rcases startsWithHome_shorten h.relative_inv.2.2.2 with hh | ⟨-, ⟨a, rfl, ha⟩, hn⟩
  · exact hh
  · have hsep : d.endsWithSep [a] = false := not_isSep_of_isByte_tilde ha
    exact absurd (hc.resolve_left (by simp [hsep])) hn

theorem Reading.of_cut (h : d.Reading root (cut ++ rest) f) (hne : f = .relative → cut ≠ [])
    (hc : cut = [] ∨ d.endsWithSep cut = true ∨ d.NameEnds rest) : d.Reading root cut f := by
  by_cases hf : f = .relative
  · subst hf
    exact h.of_relative_append (hne rfl) (hc.resolve_left (hne rfl))
  · exact h.shorten_below hf (List.prefix_append cut rest)

theorem Reading.exists_of_cut (h : d.Reading root (cut ++ rest) f)
    (hc : cut = [] ∨ d.endsWithSep cut = true ∨ d.NameEnds rest) :
    ∃ g, d.Reading root cut g := by
  by_cases hn : f = .relative ∧ cut = []
  · obtain ⟨rfl, rfl⟩ := hn
    obtain rfl := h.relative_inv.1
    exact ⟨.empty, .empty⟩
  · exact ⟨f, h.of_cut (fun hf he => hn ⟨hf, he⟩) hc⟩

theorem Reading.exists_trimEnd (h : d.Reading root below f) :
    ∃ g, d.Reading root (trimEnd d.isSep below) g := by
  obtain ⟨seps, hb, hs⟩ := exists_trimEnd_append d.isSep below
  rw [hb] at h
  exact h.exists_of_cut (Or.inr (Or.inr (nameEnds_of_forall_isSep hs)))

theorem LastSegment.exists_reading (h : d.LastSegment before name seps)
    (hr : d.Reading root (before ++ name ++ seps) f) : ∃ g, d.Reading root before g := by
  rw [List.append_assoc] at hr
  apply hr.exists_of_cut
  rcases h.before with hb | hb
  · exact Or.inl hb
  · exact Or.inr (Or.inl hb)

def leftBefore (d : Dialect) (trim : Bool) (before : List α) : List α :=
  if trim then trimEnd d.isSep before else before

theorem exists_leftBefore_append (trim : Bool) (before : List α) :
    ∃ cut, before = d.leftBefore trim before ++ cut ∧ ∀ a ∈ cut, d.isSep a = true := by
  cases trim with
  | false => exact ⟨[], (List.append_nil before).symm, by simp⟩
  | true => exact exists_trimEnd_append d.isSep before

theorem parts_leftBefore (trim : Bool) (before : List α) :
    d.parts (d.leftBefore trim before) = d.parts before := by
  cases trim with
  | false => rfl
  | true => exact parts_trimEnd before

/-- All that popping can do to a path: nothing, if only separators lie below the root; else the last
segment goes, with what follows it. -/
inductive Pops (d : Dialect) (trim : Bool) : List α → List α → Prop
  | nothing {root seps : List α} {f : Form} (hr : d.Reading root seps f)
      (hs : ∀ a ∈ seps, d.isSep a = true) : Pops d trim (root ++ seps) (root ++ seps)
  | segment {root before name seps : List α} {f : Form}
      (hr : d.Reading root (before ++ name ++ seps) f) (h : d.LastSegment before name seps) :
      Pops d trim (root ++ (before ++ name ++ seps)) (root ++ d.leftBefore trim before)

theorem poppedLength_of_forall_isSep (trim : Bool) (hr : d.Reading root seps f)
    (hs : ∀ a ∈ seps, d.isSep a = true) :
    d.poppedLength trim (root ++ seps) = (root ++ seps).length := by
  have he : afterLast d.isSep seps = [] := by
    by_cases hn : seps = []
    · rw [hn]
      rfl
    · exact afterLast_of_endsWithSep (endsWithSep_append_of_forall_isSep [] hn hs)
  simp [poppedLength, slices, hr.root_eq, he, trimEnd_eq_nil hs]

theorem poppedLength_of_lastSegment (trim : Bool) (hr : d.Reading root (before ++ name ++ seps) f)
    (h : d.LastSegment before name seps) :
    d.poppedLength trim (root ++ (before ++ name ++ seps)) =
      (root ++ d.leftBefore trim before).length := by
  have htake : (root ++ (before ++ name ++ seps)).take (root ++ before).length =
      root ++ before := by
    rw [List.append_assoc before, ← List.append_assoc root, List.take_left]
  have hcut : (if trim then (d.trimSeps root.length (root ++ before)).length
      else (root ++ before).length) = (root ++ d.leftBefore trim before).length := by
    cases trim <;> simp [leftBefore, trimSeps]
  by_cases hn : seps = []
  · -- the path ends in the segment itself, which is its entry
    subst hn
    rw [List.append_nil] at hr htake ⊢
    have hne : (afterLast d.isSep (before ++ name)).isEmpty = false := by
      simpa [h.afterLast_eq] using h.name.1
    simp only [poppedLength, slices, hr.root_eq, List.drop_left, hne, h.throughLast_eq,
      Bool.false_eq_true, if_false, List.take_left, ← List.length_append, htake, hcut]
  · have he : afterLast d.isSep (before ++ name ++ seps) = [] :=
      afterLast_of_endsWithSep (endsWithSep_append_of_forall_isSep _ hn h.seps)
    have hnames : (before ++ name).isEmpty = false := by
      simp [h.name.1]
    simp only [poppedLength, slices, hr.root_eq, List.drop_left, he, List.take_left,
      h.trimEnd_eq, hnames, h.throughLast_eq, List.isEmpty_nil, if_true,
      Bool.false_eq_true, if_false, ← List.length_append, htake, hcut]

theorem take_poppedLength_of_lastSegment (trim : Bool)
    (hr : d.Reading root (before ++ name ++ seps) f) (h : d.LastSegment before name seps) :
    (root ++ (before ++ name ++ seps)).take
        (d.poppedLength trim (root ++ (before ++ name ++ seps))) =
      root ++ d.leftBefore trim before := by
  obtain ⟨cut, hc, -⟩ := exists_leftBefore_append (d := d) trim before
  have hx : root ++ (before ++ name ++ seps) =
      root ++ d.leftBefore trim before ++ (cut ++ name ++ seps) := by
    rw [List.append_assoc root, ← List.append_assoc _ (cut ++ name), ← List.append_assoc _ cut,
      ← hc]
  rw [poppedLength_of_lastSegment trim hr h, hx, List.take_left]

theorem pops_take (trim : Bool) (xs : List α) :
    d.Pops trim xs (xs.take (d.poppedLength trim xs)) := by
  obtain ⟨root, below, f, rfl, hr⟩ := exists_reading (d := d) xs
  rcases exists_lastSegment (d := d) below with hs | ⟨before, name, seps, rfl, h⟩
  · rw [poppedLength_of_forall_isSep trim hr hs, List.take_length]
    exact .nothing hr hs
  · rw [take_poppedLength_of_lastSegment trim hr h]
    exact .segment hr h

theorem trimSeps_append (root below : List α) :
    d.trimSeps root.length (root ++ below) = root ++ trimEnd d.isSep below := by
  simp [trimSeps]

theorem take_withoutSepsLength (hr : d.Reading root below f) :
    (root ++ below).take (d.withoutSepsLength (root ++ below)) = root ++ trimEnd d.isSep below := by
  obtain ⟨seps, hb, -⟩ := exists_trimEnd_append d.isSep below
  rw [withoutSepsLength, hr.root_eq, trimSeps_append]
  generalize trimEnd d.isSep below = left at hb
  rw [hb, ← List.append_assoc, List.take_left]

theorem LastSegment.reading_leftBefore (h : d.LastSegment before name seps) {trim : Bool}
    (hr : d.Reading root (before ++ name ++ seps) f)
    (hne : f = .relative → d.leftBefore trim before ≠ []) :
    d.Reading root (d.leftBefore trim before) f := by
  obtain ⟨cut, hc, hs⟩ := exists_leftBefore_append (d := d) trim before
  have hb := h.before
  generalize d.leftBefore trim before = left at hc hne ⊢
  subst hc
  rw [List.append_assoc left, List.append_assoc left] at hr
  apply hr.of_cut hne
  cases cut with
  | nil =>
    rw [List.append_nil] at hb
    exact hb.imp_right Or.inl
  | cons c cut => exact Or.inr (Or.inr (Or.inr (hs c List.mem_cons_self)))

def componentsBelow (d : Dialect) (xs : List α) : List (List α) :=
  (d.components xs).drop (if (d.rootUnits xs).isEmpty then 0 else 1)

theorem componentsBelow_eq (xs : List α) : d.componentsBelow xs = d.parts (d.belowRoot xs) := by
  rw [componentsBelow, components_eq]
  split <;> rfl

namespace Pops

variable {trim : Bool} {ys : List α}

theorem root_eq (h : d.Pops trim xs ys) : d.root ys = d.root xs ∨
    (d.root xs).form = .relative ∧ d.rootUnits xs = [] ∧ ys = [] := by
  cases h with
  | nothing hr hs => exact Or.inl rfl
  | @segment root before name seps f hr h =>
    by_cases hne : f = .relative ∧ d.leftBefore trim before = []
    · obtain ⟨rfl, hl⟩ := hne
      obtain rfl := hr.relative_inv.1
      exact Or.inr ⟨by rw [hr.root_eq], hr.rootUnits_eq, hl⟩
    · have hr' := h.reading_leftBefore hr (fun hf hl => hne ⟨hf, hl⟩)
      exact Or.inl (hr'.root_eq.trans hr.root_eq.symm)

theorem rootUnits_eq (h : d.Pops trim xs ys) : d.rootUnits ys = d.rootUnits xs := by
  have hroot := h.root_eq
  cases h with
  | nothing => rfl
  | segment hr h =>
    rcases hroot with hroot | ⟨-, hx, hy⟩
    · rw [hr.rootUnits_eq, rootUnits, hroot, hr.root_eq, List.take_left]
    · rw [hx, hy]
      rfl

theorem form_eq (h : d.Pops trim xs ys) : (d.root ys).form =
    if (d.root xs).form = .relative ∧ ys = [] then .empty else (d.root xs).form := by
  split
  · next he =>
    rw [he.2]
    rfl
  · next hne =>
    rcases h.root_eq with hroot | ⟨hf, -, hy⟩
    · rw [hroot]
    · exact absurd ⟨hf, hy⟩ hne

theorem componentsBelow_eq (h : d.Pops trim xs ys) :
    d.componentsBelow ys = (d.componentsBelow xs).dropLast := by
  rw [Dialect.componentsBelow_eq, Dialect.componentsBelow_eq]
  have hroot := h.root_eq
  cases h with
  | nothing hr hs => rw [hr.belowRoot_eq, parts_of_forall_isSep hs, List.dropLast_nil]
  | @segment root before name seps f hr h =>
    rw [hr.belowRoot_eq, h.parts_eq, List.dropLast_concat]
    rcases hroot with hroot | ⟨-, -, hy⟩
    · rw [belowRoot, hroot, hr.root_eq, List.drop_left, parts_leftBefore]
    · rw [← parts_leftBefore trim before, hy, (List.append_eq_nil_iff.1 hy).2]
      rfl

theorem eq_of_componentsBelow_eq_nil (h : d.Pops trim xs ys) (hx : d.componentsBelow xs = []) :
    ys = xs := by
  rw [Dialect.componentsBelow_eq] at hx
  cases h with
  | nothing => rfl
  | segment hr h =>
    rw [hr.belowRoot_eq, h.parts_eq] at hx
    simp at hx

end Pops

theorem componentsBelow_eq_nil_iff {xs : List α} :
    d.componentsBelow xs = [] ↔ ∀ a ∈ d.belowRoot xs, d.isSep a = true := by
  rw [componentsBelow_eq]
  refine ⟨fun h => ?_, parts_of_forall_isSep⟩
  rcases exists_lastSegment (d := d) (d.belowRoot xs) with hs | ⟨before, name, seps, hx, hl⟩
  · exact hs
  · rw [hx, hl.parts_eq] at h
    simp at h

end Dialect

namespace Path

open Dialect

variable {α : Type} [CodeUnit α] {d : Dialect} {p : Path α d}
  {root below before name seps : List α} {f : Form}

theorem units_popSep_of_reading (hp : p.units = root ++ below) (hr : d.Reading root below f) :
    p.popSep.units = root ++ trimEnd d.isSep below := by
  rw [units_popSep, hp, take_withoutSepsLength hr]

theorem units_pop_of_forall_isSep (trim : Bool) (hp : p.units = root ++ seps)
    (hr : d.Reading root seps f) (hs : ∀ a ∈ seps, d.isSep a = true) :
    (p.pop trim).units = root ++ seps := by
  rw [units_pop, hp, poppedLength_of_forall_isSep trim hr hs, List.take_length]

theorem units_pop_of_lastSegment (trim : Bool) (hp : p.units = root ++ (before ++ name ++ seps))
    (hr : d.Reading root (before ++ name ++ seps) f) (h : d.LastSegment before name seps) :
    (p.pop trim).units = root ++ d.leftBefore trim before := by
  rw [units_pop, hp, take_poppedLength_of_lastSegment trim hr h]

def componentsBelow (p : Path α d) : List (List α) := d.componentsBelow p.units

/-- The path `q` is `p` without its last component below the root. -/
structure LosesLast (p q : Path α d) : Prop where
  components_eq : p.componentsBelow ≠ [] → q.components = p.components.dropLast
  units_eq : p.componentsBelow = [] → q.units = p.units
  root_eq : q.root = p.root
  form_eq : (d.root q.units).form =
    if (d.root p.units).form = .relative ∧ q.units = [] then .empty else (d.root p.units).form

def popAll (flags : List Bool) (p : Path α d) : Path α d := flags.foldl pop p

theorem pops_pop (p : Path α d) (trim : Bool) : d.Pops trim p.units (p.pop trim).units := by
  rw [units_pop]
  exact pops_take trim p.units

theorem losesLast_pop (p : Path α d) (trim : Bool) : LosesLast p (p.pop trim) := by
  have h := pops_pop p trim
  refine ⟨fun hc => ?_, h.eq_of_componentsBelow_eq_nil, h.rootUnits_eq, h.form_eq⟩
  have hb := h.componentsBelow_eq
  rw [componentsBelow, Dialect.componentsBelow_eq] at hc
  rw [Dialect.componentsBelow_eq, Dialect.componentsBelow_eq] at hb
  rw [components, components, Dialect.components_eq, Dialect.components_eq, h.rootUnits_eq, hb,
    List.dropLast_append_of_ne_nil hc]

theorem root_popAll (flags : List Bool) (p : Path α d) : (popAll flags p).root = p.root := by
  induction flags generalizing p with
  | nil => rfl
  | cons trim flags ih => exact (ih (p.pop trim)).trans (pops_pop p trim).rootUnits_eq

theorem componentsBelow_popAll (flags : List Bool) (p : Path α d) :
    (popAll flags p).componentsBelow =
      p.componentsBelow.take (p.componentsBelow.length - flags.length) := by
  induction flags generalizing p with
  | nil => exact List.take_length.symm
  | cons trim flags ih =>
    have hpop : (p.pop trim).componentsBelow = p.componentsBelow.dropLast :=
      (pops_pop p trim).componentsBelow_eq
    have hrun : popAll (trim :: flags) p = popAll flags (p.pop trim) := rfl
    rw [hrun, ih, hpop, List.length_dropLast, List.dropLast_eq_take, List.take_take,
      List.length_cons]
    congr 1
    omega

/-- Whatever the path is, popping takes off its last component below the root, or nothing if there
is none, and leaves the root. Popping again and again comes down to the root, up to separators that
follow it, after as many steps as there are components below the root and no fewer, and changes
nothing from then on. -/
theorem losesLast_popAll (p : Path α d) : (∀ trim, LosesLast p (p.pop trim)) ∧
    ∀ flags : List Bool,
      (popAll flags p).root = p.root ∧
      (popAll flags p).componentsBelow =
        p.componentsBelow.take (p.componentsBelow.length - flags.length) ∧
      ((∃ seps, (popAll flags p).units = p.root ++ seps ∧ ∀ a ∈ seps, d.isSep a = true) ↔
        p.componentsBelow.length ≤ flags.length) ∧
      (p.componentsBelow.length ≤ flags.length →
        ∀ trim, ((popAll flags p).pop trim).units = (popAll flags p).units) := by
  refine ⟨losesLast_pop p, fun flags => ?_⟩
  have hroot := root_popAll flags p
  have hbelow := componentsBelow_popAll flags p
  have hnil : (popAll flags p).componentsBelow = [] ↔
      p.componentsBelow.length ≤ flags.length := by
    rw [hbelow, List.take_eq_nil_iff, ← List.length_eq_zero_iff]
    omega
  refine ⟨hroot, hbelow, ?_, fun hn trim => ?_⟩
  · have hunits : (popAll flags p).units = p.root ++ d.belowRoot (popAll flags p).units := by
      rw [← hroot]
      exact (List.take_append_drop _ _).symm
    rw [← hnil, componentsBelow, componentsBelow_eq_nil_iff]
    constructor
    · rintro ⟨seps, hs, hall⟩
      rw [hunits] at hs
      rwa [List.append_cancel_left hs]
    · exact fun hall => ⟨_, hunits, hall⟩
  · exact (losesLast_pop _ trim).units_eq (hnil.2 hn)

/-- `C:\a\b\` is its root and nothing else after two steps. -/
example : (popAll [true, true] ⟨Buffer.exact [67, 58, 92, 97, 92, 98, 92]⟩ :
    Path UInt8 .windows).units = [67, 58, 92] := by
  decide

end Path

end PathForms
