import PathForms.Proofs.JoinCanonical
import PathForms.Proofs.Popping

/-!
# Pushing

A segment without a root comes to lie below the root of the path that it is pushed onto, behind all
that stood there. The one root that takes it in is that of a share whose name is still missing: the
segment becomes the name, or the server, and popping cannot give it back. A path that is absolute
stays so when it is extended, unless it is the bare mark of a share, of which a segment rooted by a
separator keeps nothing.
-/

set_option autoImplicit false

namespace PathForms

namespace Dialect

open CodeUnit

variable {α : Type} [CodeUnit α] {d : Dialect} {xs ys root below lower rest seps : List α}
  {f : Form}

theorem ShareReading.lengthen_below (h : d.ShareReading root below f) (hb : below ≠ [])
    (rest : List α) : d.ShareReading root (below ++ rest) f := by
  cases h with
  | bare he => exact .bare (he.lengthen hb rest)
  | server => exact absurd rfl hb
  | serverSep hs hc he => exact .serverSep hs hc (he.lengthen hb rest)
  | share => exact absurd rfl hb
  | complete hs hc hh he => exact .complete hs hc hh he

theorem Reading.relative_append (h : d.Reading [] xs .relative)
    (hr : d.endsWithSep xs = true ∨ d.NameEnds rest) : d.Reading [] (xs ++ rest) .relative := by
  cases h with
  | @relative _ hne hsep hdrive hhome =>
    obtain ⟨a, xs, rfl⟩ := List.exists_cons_of_ne_nil hne
    cases xs with
    | nil =>
      -- a lone unit has a separator behind it, so it begins neither a drive nor a home directory
      have ha : d.endsWithSep [a] = false := hsep
      have hends : d.NameEnds rest := hr.resolve_left (by simp [ha])
      refine .relative (by simp) hsep ?_ ?_
      · cases rest with
        | nil => rfl
        | cons b rest =>
          have hb := nameEnds_cons_iff.1 hends
          rw [List.singleton_append, startsWithDrive_cons_cons, ← Bool.not_eq_true]
          intro hd
          rw [not_isSep_colon_of_startsWithDrive hd] at hb
          cases hb
      · have hh : (d.homeRoot && isByte tilde a) = false := by
          simpa [startsWithHome] using hhome
        simp [startsWithHome, hh]
    | cons b xs => exact .relative (by simp) hsep hdrive hhome

theorem Reading.lengthen (h : d.Reading root below f) (hb : below ≠ []) (hf : f ≠ .relative)
    (rest : List α) : d.Reading root (below ++ rest) f := by
  cases h with
  | empty => exact absurd rfl hb
  | relative => exact absurd rfl hf
  | slash ha hs =>
    refine .slash ha (fun hn => ?_)
    rw [startsWithSep_append rest hb]
    exact hs hn
  | driveRelative hd hs => exact .driveRelative hd ((startsWithSep_append rest hb).trans hs)
  | driveRooted hd hc => exact .driveRooted hd hc
  | home => exact absurd rfl hb
  | homeSep hh ha hs => exact .homeSep hh ha hs
  | unc hn ha hs h => exact .unc hn ha hs (h.lengthen_below hb rest)

theorem Reading.lengthen_below (h : d.Reading root below f) (hb : below ≠ [])
    (hr : d.endsWithSep below = true ∨ d.NameEnds rest) : d.Reading root (below ++ rest) f := by
  by_cases hf : f = .relative
  · subst hf
    obtain rfl := h.relative_inv.1
    exact h.relative_append hr
  · exact h.lengthen hb hf rest

theorem Reading.exists_ensureSep (h : d.Reading root below f) (hb : below ≠ []) :
    ∃ seps, d.ensureSep (root ++ below) = root ++ (below ++ seps) ∧
      (∀ a ∈ seps, d.isSep a = true) ∧ d.endsWithSep (below ++ seps) = true ∧
      d.Reading root (below ++ seps) f := by
  rcases ensureSep_cases (d := d) (root ++ below) with ⟨he, hx⟩ | ⟨c, he, hc, -⟩
  · have hends := hx.resolve_left (by simp [hb])
    rw [endsWithSep_append root hb] at hends
    rw [he]
    exact ⟨[], by simp, by simp, by simpa using hends, by simpa using h⟩
  · refine ⟨[c], ?_, by simpa using hc, ?_, h.lengthen_below hb (Or.inr (Or.inr hc))⟩
    · rw [he, List.append_assoc]
    · rw [endsWithSep_append below (by simp)]
      exact hc

/-- A share whose name is missing: two separators, perhaps a server, perhaps a separator behind it,
and nothing more. -/
def lacksShare (d : Dialect) (xs : List α) : Bool :=
  d.root xs == ⟨.uncIncomplete, xs.length⟩ && decide ((d.parts xs).length ≤ 1)

/-- A segment pushed onto `xs` comes to lie behind `root ++ lower`, which is `xs` with no more than
separators added, and its own first unit opens a new part below `root`. -/
structure Lands (d : Dialect) (xs segment root lower : List α) (f : Form) : Prop where
  joined_eq : d.joined xs segment = root ++ (lower ++ segment)
  reading : d.Reading root (lower ++ segment) f
  lower_ends : lower = [] ∨ d.endsWithSep lower = true
  parts_eq : d.parts lower = d.parts (d.belowRoot xs)
  units_eq : ∃ seps, root ++ lower = xs ++ seps ∧ ∀ a ∈ seps, d.isSep a = true

theorem joined_of_endsWithSep (h : d.endsWithSep xs = true) (hf : (d.root ys).form = .relative) :
    d.joined xs ys = xs ++ ys := by
  rw [joined_relative xs hf, ensureSep_of_endsWithSep h, ite_self]

theorem exists_joined_of_not_endsWithSep (h : d.endsWithSep xs = false) (hx : xs ≠ [])
    (hb : d.isBareDrive xs = false) (hf : (d.root ys).form = .relative) :
    ∃ c, d.joined xs ys = xs ++ [c] ++ ys ∧ d.isSep c = true := by
  rcases ensureSep_cases (d := d) xs with ⟨-, hends⟩ | ⟨c, he, hc, -⟩
  · rw [h] at hends
    simp [hx] at hends
  · refine ⟨c, ?_, hc⟩
    rw [joined_relative xs hf, hb, he]
    rfl

theorem exists_lands_of_below (hr : d.Reading root below f) (hb : below ≠ [])
    (hf : (d.root ys).form = .relative) : ∃ lower, d.Lands (root ++ below) ys root lower f := by
  have hbare : d.isBareDrive (root ++ below) = false := by
    rw [isBareDrive, hr.root_eq]
    simp [hb]
  obtain ⟨seps, he, hs, hends, hlower⟩ := hr.exists_ensureSep hb
  refine ⟨below ++ seps, ?_, hlower.lengthen_below (by simp [hb]) (Or.inl hends), Or.inr hends, ?_,
    seps, ?_, hs⟩
  · rw [joined_relative _ hf, hbare, he, if_neg Bool.false_ne_true, List.append_assoc]
  · rw [parts_append_of_forall_isSep below hs, hr.belowRoot_eq]
  · rw [List.append_assoc]

theorem lands_of_root (hr : d.Reading xs [] f) (hs : ∀ a ∈ seps, d.isSep a = true)
    (hj : d.joined xs ys = xs ++ seps ++ ys) {g : Form} (hy : d.Reading (xs ++ seps) ys g) :
    d.Lands xs ys (xs ++ seps) [] g := by
  have hb := hr.belowRoot_eq
  rw [List.append_nil] at hb
  refine ⟨?_, hy, Or.inl rfl, ?_, seps, ?_, hs⟩
  · rw [hj, List.nil_append]
  · rw [hb]
  · rw [List.append_nil]

theorem lands_of_endsWithSep (hr : d.Reading xs [] f) (he : d.endsWithSep xs = true)
    (hf : (d.root ys).form = .relative) (hy : d.Reading xs ys f) : d.Lands xs ys xs [] f := by
  have hj : d.joined xs ys = xs ++ [] ++ ys := by
    rw [List.append_nil, joined_of_endsWithSep he hf]
  have hnil : ∀ a ∈ ([] : List α), d.isSep a = true := by simp
  have hl := lands_of_root hr hnil hj (by rwa [List.append_nil])
  rwa [List.append_nil] at hl

theorem exists_lands_behind_sep {g : Form} (hr : d.Reading xs [] f)
    (he : d.endsWithSep xs = false) (hx : xs ≠ []) (hd : f ≠ .driveRelative)
    (hf : (d.root ys).form = .relative)
    (hy : ∀ c, d.isSep c = true → d.Reading (xs ++ [c]) ys g) :
    ∃ c, d.Lands xs ys (xs ++ [c]) [] g := by
  have hroot := hr.root_eq
  rw [List.append_nil] at hroot
  have hb : d.isBareDrive xs = false := isBareDrive_of_form_ne (by rwa [hroot])
  obtain ⟨c, hj, hc⟩ := exists_joined_of_not_endsWithSep he hx hb hf
  exact ⟨c, lands_of_root hr (by simpa using hc) hj (hy c hc)⟩

theorem lacksShare_iff : d.lacksShare xs = true ↔ d.networkShares = true ∧
    ∃ a b rest, xs = a :: b :: rest ∧ d.isSep a = true ∧ d.isSep b = true ∧
      (rest = [] ∨ d.IsSegment rest ∨
        ∃ s c, rest = s ++ [c] ∧ d.IsSegment s ∧ d.isSep c = true) := by
  have hparts : ∀ {a b : α} (rest : List α), d.isSep a = true → d.isSep b = true →
      d.parts (a :: b :: rest) = d.parts rest := by
    intro a b rest ha hb
    rw [parts_cons_sep ha, parts_cons_sep hb]
  constructor
  · intro h
    rw [lacksShare, Bool.and_eq_true, beq_iff_eq, decide_eq_true_eq] at h
    obtain ⟨root, below, f, rfl, hr⟩ := exists_reading (d := d) xs
    obtain ⟨hroot, hp⟩ := h
    rw [hr.root_eq, Root.mk.injEq, List.length_append] at hroot
    obtain rfl : below = [] := List.length_eq_zero_iff.1 (by omega)
    obtain rfl := hroot.1
    rw [List.append_nil] at hp ⊢
    cases hr with
    | @unc a b rest _ _ hn ha hb h =>
      refine ⟨hn, a, b, rest, rfl, ha, hb, ?_⟩
      cases h with
      | bare => exact Or.inl rfl
      | server hs => exact Or.inr (Or.inl hs)
      | serverSep hs hc => exact Or.inr (Or.inr ⟨_, _, rfl, hs, hc⟩)
      | share hs hc hh =>
        rw [hparts _ ha hb, parts_append_cons _ _ hc, parts_segment hs, parts_segment hh] at hp
        simp at hp
  · rintro ⟨hn, a, b, rest, rfl, ha, hb, h⟩
    have hread : d.ShareReading rest [] .uncIncomplete ∧ (d.parts rest).length ≤ 1 := by
      rcases h with rfl | hs | ⟨s, c, rfl, hs, hc⟩
      · exact ⟨.bare (Or.inl rfl), Nat.zero_le 1⟩
      · exact ⟨.server hs, by rw [parts_segment hs]; exact Nat.le_refl 1⟩
      · refine ⟨.serverSep hs hc (Or.inl rfl), ?_⟩
        rw [parts_append_cons s [] hc, parts_segment hs]
        exact Nat.le_refl 1
    have hroot := (Reading.unc hn ha hb hread.1).root_eq
    rw [List.append_nil] at hroot
    rw [lacksShare, hroot, hparts rest ha hb]
    simpa using hread.2

theorem exists_lands_of_root (hr : d.Reading xs [] f) (hx : d.lacksShare xs = false)
    (hf : (d.root ys).form = .relative) : ∃ root lower g, d.Lands xs ys root lower g ∧
      (xs ≠ [] → f ≠ .uncIncomplete → g = f) := by
  have hy := reading_of_relative hf
  have hstart := hy.relative_inv.2.1
  have hroot := hr.root_eq
  rw [List.append_nil] at hroot
  have hnil : ∀ a ∈ ([] : List α), d.isSep a = true := by simp
  cases hr with
  | empty =>
    exact ⟨_, _, _, lands_of_root .empty hnil (joined_relative [] hf) hy, fun h => absurd rfl h⟩
  | relative hne => exact absurd rfl hne
  | slash ha hs =>
    have hl := lands_of_endsWithSep (.slash ha hs) ha hf (.slash ha fun _ => hstart)
    exact ⟨_, _, _, hl, fun _ _ => rfl⟩
  | @driveRelative a b _ hd hs =>
    -- a bare drive: the segment follows the colon
    have hj : d.joined [a, b] ys = [a, b] ++ [] ++ ys := by
      have hb : d.isBareDrive [a, b] = true := by simp [isBareDrive, hroot]
      rw [joined_relative _ hf, hb]
      rfl
    exact ⟨_, _, _, lands_of_root (.driveRelative hd hs) hnil hj (.driveRelative hd hstart),
      fun _ _ => rfl⟩
  | driveRooted hd hc =>
    have hl := lands_of_endsWithSep (.driveRooted hd hc) hc hf (.driveRooted hd hc)
    exact ⟨_, _, _, hl, fun _ _ => rfl⟩
  | home hh ha =>
    obtain ⟨c, hl⟩ := exists_lands_behind_sep (.home hh ha) (not_isSep_of_isByte_tilde ha) (by simp)
      (by simp) hf (fun c hc => .homeSep hh ha hc)
    exact ⟨_, _, _, hl, fun _ _ => rfl⟩
  | homeSep hh ha hb =>
    have hl := lands_of_endsWithSep (.homeSep hh ha hb) hb hf (.homeSep hh ha hb)
    exact ⟨_, _, _, hl, fun _ _ => rfl⟩
  | @unc a b rest _ _ hn ha hb h =>
    have hlacks : ¬ (rest = [] ∨ d.IsSegment rest ∨
        ∃ s c, rest = s ++ [c] ∧ d.IsSegment s ∧ d.isSep c = true) := by
      intro hr
      rw [lacksShare_iff.2 ⟨hn, a, b, rest, rfl, ha, hb, hr⟩] at hx
      cases hx
    cases h with
    | bare => exact absurd (Or.inl rfl) hlacks
    | server hs => exact absurd (Or.inr (Or.inl hs)) hlacks
    | serverSep hs hc => exact absurd (Or.inr (Or.inr ⟨_, _, rfl, hs, hc⟩)) hlacks
    | share hs hc hh =>
      -- the separator that is added completes the root
      have hv := Volume.share hn ha hb hs hc hh
      obtain ⟨e, hl⟩ := exists_lands_behind_sep (.unc hn ha hb (.share hs hc hh)) hv.endsWithSep_eq
        (by simp) (by simp) hf (fun e he => hv.reading he ys)
      exact ⟨_, _, _, hl, fun _ h => absurd rfl h⟩
    | @complete s h _ c e hs hc hh he =>
      have hv := Volume.share hn ha hb hs hc hh
      have hx : a :: b :: (s ++ c :: (h ++ [e])) = a :: b :: (s ++ c :: h) ++ [e] := by simp
      have hlast : d.endsWithSep (a :: b :: (s ++ c :: h) ++ [e]) = true :=
        (endsWithSep_append _ (by simp)).trans he
      rw [hx]
      have hl := lands_of_endsWithSep (hv.reading he []) hlast hf (hv.reading he ys)
      exact ⟨_, _, _, hl, fun _ _ => rfl⟩

theorem exists_lands (hx : d.lacksShare xs = false) (hf : (d.root ys).form = .relative) :
    ∃ root lower f, d.Lands xs ys root lower f ∧
      (xs ≠ [] → (d.root xs).form ≠ .uncIncomplete → f = (d.root xs).form) := by
  obtain ⟨root, below, f, rfl, hr⟩ := exists_reading (d := d) xs
  rw [hr.root_eq]
  by_cases hb : below = []
  · subst hb
    rw [List.append_nil] at hx ⊢
    exact exists_lands_of_root hr hx hf
  · obtain ⟨lower, hl⟩ := exists_lands_of_below hr hb hf
    exact ⟨root, lower, f, hl, fun _ _ => rfl⟩

theorem exists_absorbed (hx : d.lacksShare xs = true) (hs : d.IsSegment ys)
    (hf : (d.root ys).form = .relative) : ∃ front, d.joined xs ys = front ++ ys ∧
      xs.length ≤ front.length ∧ d.Reading (front ++ ys) [] .uncIncomplete := by
  have hbare : d.isBareDrive xs = false := by
    rw [lacksShare, Bool.and_eq_true, beq_iff_eq] at hx
    apply isBareDrive_of_form_ne
    rw [hx.1]
    simp
  obtain ⟨hn, a, b, rest, rfl, ha, hb, h⟩ := lacksShare_iff.1 hx
  rcases h with rfl | hr | ⟨s, c, rfl, hr, hc⟩
  · exact ⟨[a, b], joined_of_endsWithSep hb hf, Nat.le_refl _, .unc hn ha hb (.server hs)⟩
  · have hends : d.endsWithSep (a :: b :: rest) = false :=
      (endsWithSep_append [a, b] hr.1).trans (endsWithSep_segment hr)
    obtain ⟨c, hj, hc⟩ := exists_joined_of_not_endsWithSep hends (by simp) hbare hf
    refine ⟨_, hj, by simp, ?_⟩
    have hread : d.Reading _ [] _ := .unc hn ha hb (.share hr hc hs)
    simpa using hread
  · have hends : d.endsWithSep (a :: b :: (s ++ [c])) = true :=
      (endsWithSep_append (a :: b :: s) (by simp)).trans hc
    refine ⟨_, joined_of_endsWithSep hends hf, Nat.le_refl _, ?_⟩
    have hread : d.Reading _ [] _ := .unc hn ha hb (.share hr hc hs)
    simpa using hread

theorem afterLast_append (h : lower = [] ∨ d.endsWithSep lower = true) (ys : List α) :
    afterLast d.isSep (lower ++ ys) = afterLast d.isSep ys := by
  rcases h with rfl | h
  · rfl
  · obtain ⟨zs, c, rfl, hc⟩ := exists_eq_append_of_endsWithSep h
    rw [afterLast, afterLast, List.reverse_append, List.takeWhile_append]
    split
    · next hlen =>
      -- no separator among the later units, so the last one of the earlier units ends the search
      rw [(List.takeWhile_prefix _).eq_of_length hlen]
      simp [hc]
    · rfl

theorem trimSeps_zero (xs : List α) : d.trimSeps 0 xs = trimEnd d.isSep xs := rfl

theorem Lands.trimEnd_pop (h : d.Lands xs ys root lower f) (hs : d.IsSegment ys) :
    trimEnd d.isSep ((d.joined xs ys).take (d.poppedLength true (d.joined xs ys))) =
      trimEnd d.isSep xs := by
  have hlast : d.LastSegment lower ys [] := ⟨h.lower_ends, hs, by simp⟩
  have hr := h.reading
  rw [← List.append_nil (lower ++ ys)] at hr
  have ht := take_poppedLength_of_lastSegment true hr hlast
  rw [List.append_nil, ← h.joined_eq] at ht
  obtain ⟨seps, hx, hseps⟩ := h.units_eq
  obtain ⟨cut, hc, hcut⟩ := exists_trimEnd_append d.isSep lower
  calc trimEnd d.isSep ((d.joined xs ys).take (d.poppedLength true (d.joined xs ys)))
      = trimEnd d.isSep (root ++ trimEnd d.isSep lower ++ cut) := by
        rw [ht, trimEnd_append_of_forall _ hcut]
        rfl
    _ = trimEnd d.isSep (xs ++ seps) := by rw [List.append_assoc, ← hc, hx]
    _ = trimEnd d.isSep xs := trimEnd_append_of_forall xs hseps

theorem trimEnd_pop_of_lacksShare (hx : d.lacksShare xs = true) (hs : d.IsSegment ys)
    (hf : (d.root ys).form = .relative) :
    trimEnd d.isSep ((d.joined xs ys).take (d.poppedLength true (d.joined xs ys))) ≠
      trimEnd d.isSep xs := by
  obtain ⟨front, hj, hlen, hr⟩ := exists_absorbed hx hs hf
  have hpop := poppedLength_of_forall_isSep true hr (by simp)
  have hkeep : trimEnd d.isSep (front ++ ys) = front ++ ys := by
    apply trimEnd_eq_self
    rw [← endsWithSep, endsWithSep_append front hs.1, endsWithSep_segment hs]
  rw [List.append_nil] at hpop
  rw [hj, hpop, List.take_length, hkeep]
  intro he
  have hle := length_trimEnd_le d.isSep xs
  have hpos := List.length_pos_iff.2 hs.1
  rw [← he, List.length_append] at hle
  omega

theorem Lands.exists_pushed (h : d.Lands xs ys root lower f) (hne : ys ≠ []) (withSep : Bool) :
    ∃ seps, d.pushed withSep xs ys = root ++ (lower ++ ys ++ seps) ∧
      (∀ a ∈ seps, d.isSep a = true) ∧ d.Reading root (lower ++ ys ++ seps) f ∧
      (withSep = false → seps = []) ∧
      (withSep = true → d.endsWithSep (lower ++ ys ++ seps) = true) := by
  have hb : lower ++ ys ≠ [] := by simp [hne]
  cases withSep with
  | false =>
    refine ⟨[], ?_, by simp, ?_, fun _ => rfl, fun h => by cases h⟩
    · rw [List.append_nil]
      exact h.joined_eq
    · rw [List.append_nil]
      exact h.reading
  | true =>
    obtain ⟨seps, he, hs, hends, hr⟩ := h.reading.exists_ensureSep hb
    refine ⟨seps, ?_, hs, hr, fun h => (by cases h), fun _ => hends⟩
    rw [pushed, if_pos rfl, h.joined_eq, he]

theorem form_ensureSep (h : d.isBareDrive xs = false) :
    (d.root (d.ensureSep xs)).form = (d.root xs).form ∨
      (d.root xs).form = .uncIncomplete ∧ (d.root (d.ensureSep xs)).form = .uncRooted := by
  rcases ensureSep_cases (d := d) xs with ⟨he, -⟩ | ⟨c, he, hc, hn⟩
  · exact Or.inl (by rw [he])
  obtain ⟨root, below, f, rfl, hr⟩ := exists_reading (d := d) xs
  by_cases hb : below = []
  · -- the separator comes up against the root
    subst hb
    have hroot := hr.root_eq
    rw [List.append_nil] at h he hn hroot ⊢
    rw [he, hroot]
    cases hr with
    | empty => simp [ensureSep] at he
    | relative hne => exact absurd rfl hne
    | slash hs => simp [endsWithSep, hs] at hn
    | driveRelative => simp [isBareDrive, hroot] at h
    | driveRooted _ hs => simp [endsWithSep, hs] at hn
    | @home a hh ht =>
      have hr' : d.Reading [a, c] [] .homeRooted := .homeSep hh ht hc
      have hf := congrArg Root.form hr'.root_eq
      exact Or.inl hf
    | homeSep _ _ hs => simp [endsWithSep, hs] at hn
    | @unc a b rest _ _ hs ha hb h =>
      cases h with
      | bare => simp [endsWithSep, hb] at hn
      | server h1 =>
        have hr' : d.Reading _ [] _ := .unc hs ha hb (.serverSep h1 hc (Or.inl rfl))
        exact Or.inl (by simpa using congrArg Root.form hr'.root_eq)
      | @serverSep s _ e _ he' =>
        have hends : d.endsWithSep (a :: b :: (s ++ [e])) = true :=
          (endsWithSep_append (a :: b :: s) (by simp)).trans he'
        rw [hends] at hn
        cases hn
      | share h1 hc' h2 =>
        have hr' : d.Reading _ [] _ := .unc hs ha hb (.complete h1 hc' h2 hc)
        exact Or.inr ⟨rfl, by simpa using congrArg Root.form hr'.root_eq⟩
      | @complete s n _ e' e _ _ _ he' =>
        have hends : d.endsWithSep (a :: b :: (s ++ e' :: (n ++ [e]))) = true := by
          rw [show a :: b :: (s ++ e' :: (n ++ [e])) = a :: b :: (s ++ e' :: n) ++ [e] by simp]
          exact (endsWithSep_append _ (by simp)).trans he'
        rw [hends] at hn
        cases hn
  · have hmore : d.Reading root (below ++ [c]) f := hr.lengthen_below hb (Or.inr (Or.inr hc))
    rw [he, List.append_assoc, hmore.root_eq, hr.root_eq]
    exact Or.inl rfl

theorem isAbsolute_ensureSep (h : d.isBareDrive xs = false) :
    d.isAbsolute (d.ensureSep xs) = d.isAbsolute xs := by
  rcases form_ensureSep h with hf | ⟨hx, hf⟩
  · rw [isAbsolute, isAbsolute, hf]
  · rw [isAbsolute, isAbsolute, hf, hx]
    rfl

theorem volume_eq_nil (h : d.root xs = ⟨.uncIncomplete, 2⟩) : d.volume xs = [] := by
  obtain ⟨root, below, f, rfl, hr⟩ := exists_reading (d := d) xs
  rw [hr.root_eq, Root.mk.injEq] at h
  rw [volume_eq hr]
  cases hr with
  | unc hn ha hb hs =>
    obtain rfl := List.length_eq_zero_iff.1 (Nat.succ.inj (Nat.succ.inj h.2))
    exact trimEnd_eq_nil (by simp [ha, hb])
  | _ => cases h.1

theorem joined_of_bare_mark (hx : d.root xs = ⟨.uncIncomplete, 2⟩)
    (hf : (d.root ys).form = .slashRooted) : d.joined xs ys = ys := by
  have ha : d.isAbsolute xs = true := by
    rw [isAbsolute, hx]
    rfl
  rw [joined_of_slashRooted ha hf, volume_eq_nil hx, List.nil_append, ite_self]

theorem isAbsolute_joined_iff (hx : d.isAbsolute xs = true)
    (hf : (d.root ys).form = .relative ∨ (d.root ys).form = .slashRooted) :
    d.isAbsolute (d.joined xs ys) = true ↔
      ¬ ((d.root ys).form = .slashRooted ∧ d.root xs = ⟨.uncIncomplete, 2⟩) := by
  rcases hf with hf | hf
  · obtain ⟨more, he⟩ := exists_ensureSep_eq (d := d) xs
    rw [joined_of_relative hx hf, he, List.append_assoc, isAbsolute_append_of_isAbsolute hx, hf]
    simp
  · rw [joined_of_slashRooted hx hf]
    by_cases hl : d.driveLetters = true
    · rw [if_pos hl, isAbsolute_volume_append_iff hx hl hf]
      simp [hf]
    · have hy : d.isAbsolute ys = true := by
        simpa [isAbsolute, hf, Form.isAbsolute] using hl
      have hroot : d.root xs ≠ ⟨.uncIncomplete, 2⟩ := by
        intro hu
        exact hl (driveLetters_of_networkShares
          (networkShares_of_uncIncomplete (congrArg Root.form hu)))
      simp [hl, hy, hroot]

theorem isBareDrive_joined (hx : d.isAbsolute xs = true)
    (hf : (d.root ys).form = .relative ∨ (d.root ys).form = .slashRooted) :
    d.isBareDrive (d.joined xs ys) = false := by
  by_cases hj : d.isAbsolute (d.joined xs ys) = true
  · exact isBareDrive_of_isAbsolute hj
  · rw [isAbsolute_joined_iff hx hf, not_not] at hj
    rw [joined_of_bare_mark hj.2 hj.1]
    exact isBareDrive_of_form_ne (by simp [hj.1])

end Dialect

namespace Path

open Dialect

variable {α : Type} [CodeUnit α] {d : Dialect} {p q : Path α d} {segment : List α} {withSep : Bool}

theorem units_of_push (hs : segment ≠ []) (h : p.push segment withSep = .ok q) :
    q.units = d.pushed withSep p.units segment := by
  obtain ⟨-, rfl⟩ := (push_eq_ok_iff withSep hs).1 h
  exact units_exact _

/-- Popping undoes the push of a single segment, up to separators at the end, unless the segment
supplied what the root of a share lacked: the root is never popped. -/
theorem trimSeps_pop_push_iff (hs : d.IsSegment segment) (hf : (d.root segment).form = .relative)
    (h : p.push segment false = .ok q) :
    d.trimSeps 0 (q.pop true).units = d.trimSeps 0 p.units ↔ d.lacksShare p.units = false := by
  have hq : q.units = d.joined p.units segment := units_of_push hs.1 h
  rw [units_pop, hq, trimSeps_zero, trimSeps_zero]
  cases hx : d.lacksShare p.units with
  | false =>
    obtain ⟨root, lower, f, hl, -⟩ := exists_lands hx hf
    simp [hl.trimEnd_pop hs]
  | true => simp [trimEnd_pop_of_lacksShare hx hs hf]

/-- `a` pushed onto `\\s\h` goes again when popped; the separator that completed the root stays. -/
theorem trimSeps_pop_push_share : ∃ p q : Path UInt8 .windows,
    p.units = [92, 92, 115, 92, 104] ∧ p.push [97] false = .ok q ∧
      (Dialect.windows.trimSeps 0 (q.pop true).units = Dialect.windows.trimSeps 0 p.units ↔
        Dialect.windows.lacksShare p.units = false) ∧
      (q.pop true).units = [92, 92, 115, 92, 104, 92] := by
  have hq : Path.push (⟨Buffer.exact [92, 92, 115, 92, 104]⟩ : Path UInt8 .windows) [97] false =
      .ok ⟨Buffer.exact [92, 92, 115, 92, 104, 92, 97]⟩ := by
    decide
  have hs : Dialect.windows.IsSegment [(97 : UInt8)] :=
    ⟨List.cons_ne_nil _ _, List.forall_mem_singleton.2 rfl⟩
  exact ⟨_, _, rfl, hq, trimSeps_pop_push_iff hs (by decide) hq, by decide⟩

/-- `h` pushed onto `\\s` is the name of the share, which popping leaves. -/
theorem not_forall_trimSeps_pop_push :
    ¬ ∀ (p q : Path UInt8 .windows) (segment : List UInt8), Dialect.windows.IsSegment segment →
      (Dialect.windows.root segment).form = .relative → p.push segment false = .ok q →
      Dialect.windows.trimSeps 0 (q.pop true).units = Dialect.windows.trimSeps 0 p.units := by
  intro h
  have hs : Dialect.windows.IsSegment [(104 : UInt8)] :=
    ⟨List.cons_ne_nil _ _, List.forall_mem_singleton.2 rfl⟩
  have he := h ⟨Buffer.exact [92, 92, 115]⟩ ⟨Buffer.exact [92, 92, 115, 92, 104]⟩ [104] hs
    (by decide) (by decide)
  exact absurd he (by decide)

/-- The path `q` is `p` with the segment behind it: its components are those of `p` and then those of
the segment, below the same root. -/
structure Appends (p q : Path α d) (segment : List α) (withSep : Bool) : Prop where
  componentsBelow_eq : q.componentsBelow = p.componentsBelow ++ d.componentsBelow segment
  form_eq : p.units ≠ [] → (d.root q.units).form = (d.root p.units).form
  units_eq : ∃ added, q.units = p.units ++ added
  file_eq : withSep = false → q.file = (d.classify .lenient segment).slices.entry
  endsWithSep_eq : withSep = true → q.endsWithSep = true

/-- A segment without a root, pushed onto a path whose root is not an unfinished share, extends its
components under the same root. -/
theorem appends_push (hp : (d.root p.units).form ≠ .uncIncomplete)
    (hs : (d.root segment).form = .relative) (h : p.push segment withSep = .ok q) :
    Appends p q segment withSep := by
  have hne : segment ≠ [] := by
    rintro rfl
    cases hs
  have hx : d.lacksShare p.units = false := by
    rw [← Bool.not_eq_true]
    intro hl
    rw [lacksShare, Bool.and_eq_true, beq_iff_eq] at hl
    exact hp (congrArg Root.form hl.1)
  obtain ⟨root, lower, f, hl, hf⟩ := exists_lands hx hs
  obtain ⟨seps, hpush, hseps, hr, hfile, hends⟩ := hl.exists_pushed hne withSep
  have hq := (units_of_push hne h).trans hpush
  have hseg := (reading_of_relative hs).belowRoot_eq
  constructor
  · rw [componentsBelow, componentsBelow, Dialect.componentsBelow_eq, Dialect.componentsBelow_eq,
      Dialect.componentsBelow_eq, hq, hr.belowRoot_eq, parts_append_of_forall_isSep _ hseps,
      parts_append_of_endsWithSep hl.lower_ends, hl.parts_eq]
    rw [List.nil_append] at hseg
    rw [hseg]
  · intro hnil
    rw [hq, hr.root_eq]
    exact hf hnil hp
  · obtain ⟨more, hmore, -⟩ := hl.units_eq
    refine ⟨more ++ (segment ++ seps), ?_⟩
    rw [hq, List.append_assoc lower, ← List.append_assoc root, hmore, List.append_assoc]
  · intro hw
    have hfileq : q.file = afterLast d.isSep (d.belowRoot q.units) := rfl
    have hentry : (d.classify .lenient segment).slices.entry =
        afterLast d.isSep (d.belowRoot segment) := rfl
    rw [List.nil_append] at hseg
    rw [hfileq, hentry, hq, hr.belowRoot_eq, hfile hw, List.append_nil, hseg,
      afterLast_append hl.lower_ends]
  · intro hw
    have hb : lower ++ segment ++ seps ≠ [] := by simp [hne]
    rw [endsWithSep, hq, Dialect.endsWithSep_append root hb]
    exact hends hw

/-- `a\b` pushed onto `~` lies below the root `~\`. -/
theorem appends_push_home : ∃ p q : Path UInt8 .windows,
    p.units = [126] ∧ p.push [97, 92, 98] true = .ok q ∧ Appends p q [97, 92, 98] true ∧
      q.units = [126, 92, 97, 92, 98, 92] := by
  have hq : Path.push (⟨Buffer.exact [126]⟩ : Path UInt8 .windows) [97, 92, 98] true =
      .ok ⟨Buffer.exact [126, 92, 97, 92, 98, 92]⟩ := by
    decide
  exact ⟨_, _, rfl, hq, appends_push (by decide) (by decide) hq, rfl⟩

/-- An absolute path is absolute after a push onto it too, with one exception: of the bare mark of a
share nothing is kept in front of a segment rooted by a separator. -/
theorem isAbsolute_push_iff (hp : p.isAbsolute = true)
    (hs : (d.root segment).form = .relative ∨ (d.root segment).form = .slashRooted)
    (h : p.push segment withSep = .ok q ∨ p.join segment = .ok q) :
    q.isAbsolute = true ↔
      ¬ ((d.root segment).form = .slashRooted ∧ d.root p.units = ⟨.uncIncomplete, 2⟩) := by
  have hne : segment ≠ [] := by
    rintro rfl
    rcases hs with hs | hs <;> cases hs
  have hjoined : d.isAbsolute q.units = d.isAbsolute (d.joined p.units segment) := by
    rcases h with h | h
    · rw [units_of_push hne h, pushed]
      cases withSep with
      | false => rfl
      | true => exact Dialect.isAbsolute_ensureSep (isBareDrive_joined hp hs)
    · rw [units_of_push hne h]
      rfl
  rw [isAbsolute, hjoined]
  exact isAbsolute_joined_iff hp hs

/-- `\a` pushed onto `\\s` keeps the server. -/
theorem isAbsolute_push_server : ∃ p q : Path UInt8 .windows,
    p.units = [92, 92, 115] ∧ p.push [92, 97] false = .ok q ∧
      (q.isAbsolute = true ↔ ¬ ((Dialect.windows.root [(92 : UInt8), 97]).form = .slashRooted ∧
        Dialect.windows.root p.units = ⟨.uncIncomplete, 2⟩)) ∧
      q.units = [92, 92, 115, 92, 97] := by
  have hq : Path.push (⟨Buffer.exact [92, 92, 115]⟩ : Path UInt8 .windows) [92, 97] false =
      .ok ⟨Buffer.exact [92, 92, 115, 92, 97]⟩ := by
    decide
  exact ⟨_, _, rfl, hq,
    isAbsolute_push_iff (by decide) (Or.inr (by decide)) (Or.inl hq), rfl⟩

/-- `\a` pushed onto `\\` is `\a`. -/
theorem not_forall_isAbsolute_push :
    ¬ ∀ (p q : Path UInt8 .windows) (segment : List UInt8), p.isAbsolute = true →
      ((Dialect.windows.root segment).form = .relative ∨
        (Dialect.windows.root segment).form = .slashRooted) →
      p.push segment false = .ok q → q.isAbsolute = true := by
  intro h
  have ha := h ⟨Buffer.exact [92, 92]⟩ ⟨Buffer.exact [92, 97]⟩ [92, 97] (by decide)
    (Or.inr (by decide)) (by decide)
  exact absurd ha (by decide)

end Path

end PathForms
