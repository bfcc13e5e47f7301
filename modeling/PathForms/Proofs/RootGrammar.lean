import Mathlib.Data.List.TakeWhile
import PathForms.Classification
import PathForms.Proofs.Segments

/-!
# The grammar of roots

`Reading d root below f` says that a path made of the units `root` and then the units `below` has a
root of the form `f` that ends where `below` begins. The rules of the grammar are its constructors,
and `Dialect.root` finds exactly what they allow, so a statement about roots is a case analysis over
the rules. A rule says of the units below the root only how they may begin.
-/

set_option autoImplicit false

namespace PathForms.Dialect

open CodeUnit

variable {α : Type} [CodeUnit α] {d : Dialect}

def startsWithHome (d : Dialect) : List α → Bool
  | [] => false
  | a :: xs => d.homeRoot && isByte tilde a && (xs.isEmpty || d.startsWithSep xs)

def NameEnds (d : Dialect) (below : List α) : Prop := below = [] ∨ d.startsWithSep below = true

/-- What follows the two separators of a share: the rest of its root, and the units below. -/
inductive ShareReading (d : Dialect) : List α → List α → Form → Prop
  | bare {below : List α} (hb : d.NameEnds below) : ShareReading d [] below .uncIncomplete
  | server {s : List α} (hs : d.IsSegment s) : ShareReading d s [] .uncIncomplete
  | serverSep {s below : List α} {c : α} (hs : d.IsSegment s) (hc : d.isSep c = true)
      (hb : d.NameEnds below) : ShareReading d (s ++ [c]) below .uncIncomplete
  | share {s h : List α} {c : α} (hs : d.IsSegment s) (hc : d.isSep c = true)
      (hh : d.IsSegment h) : ShareReading d (s ++ c :: h) [] .uncIncomplete
  | complete {s h below : List α} {c e : α} (hs : d.IsSegment s) (hc : d.isSep c = true)
      (hh : d.IsSegment h) (he : d.isSep e = true) :
      ShareReading d (s ++ c :: (h ++ [e])) below .uncRooted

inductive Reading (d : Dialect) : List α → List α → Form → Prop
  | empty : Reading d [] [] .empty
  | relative {below : List α} (hne : below ≠ []) (hsep : d.startsWithSep below = false)
      (hdrive : d.startsWithDrive below = false) (hhome : d.startsWithHome below = false) :
      Reading d [] below .relative
  | slash {a : α} {below : List α} (ha : d.isSep a = true)
      (hb : d.networkShares = true → d.startsWithSep below = false) :
      Reading d [a] below .slashRooted
  | driveRelative {a b : α} {below : List α} (hd : d.startsWithDrive [a, b] = true)
      (hb : d.startsWithSep below = false) : Reading d [a, b] below .driveRelative
  | driveRooted {a b c : α} {below : List α} (hd : d.startsWithDrive [a, b] = true)
      (hc : d.isSep c = true) : Reading d [a, b, c] below .driveRooted
  | home {a : α} (hh : d.homeRoot = true) (ha : isByte tilde a = true) :
      Reading d [a] [] .homeRooted
  | homeSep {a b : α} {below : List α} (hh : d.homeRoot = true) (ha : isByte tilde a = true)
      (hb : d.isSep b = true) : Reading d [a, b] below .homeRooted
  | unc {a b : α} {rest below : List α} {f : Form} (hn : d.networkShares = true)
      (ha : d.isSep a = true) (hb : d.isSep b = true) (h : d.ShareReading rest below f) :
      Reading d (a :: b :: rest) below f

theorem isSep_unix (a : α) : unix.isSep a = (code a == 47) := by
  simp [isSep, preferred, alternative?, isByte, slash]

theorem isSep_windows (a : α) : windows.isSep a = (code a == 92 || code a == 47) := by
  simp [isSep, preferred, alternative?, isByte, slash, backslash]

theorem code_of_isSep {a : α} (h : d.isSep a = true) : code a = 92 ∨ code a = 47 := by
  cases d with
  | unix => rw [isSep_unix] at h; simp_all
  | windows => rw [isSep_windows] at h; simp_all

theorem not_isSep_of_isByte_tilde {a : α} (h : isByte tilde a = true) : d.isSep a = false := by
  have hc : code a = 126 := by simpa [isByte, tilde] using h
  rw [← Bool.not_eq_true]
  intro hs
  have := code_of_isSep hs
  omega

theorem not_isSep_of_isByte_colon {a : α} (h : isByte colon a = true) : d.isSep a = false := by
  have hc : code a = 58 := by simpa [isByte, colon] using h
  rw [← Bool.not_eq_true]
  intro hs
  have := code_of_isSep hs
  omega

theorem not_isSep_of_isDriveLetter {a : α} (h : isDriveLetter a = true) : d.isSep a = false := by
  simp only [isDriveLetter, isUpper, isLower, Bool.or_eq_true, decide_eq_true_eq] at h
  rw [← Bool.not_eq_true]
  intro hs
  have := code_of_isSep hs
  omega

theorem not_isDriveLetter_of_isByte_tilde {a : α} (h : isByte tilde a = true) :
    isDriveLetter a = false := by
  have hc : code a = 126 := by simpa [isByte, tilde] using h
  simp [isDriveLetter, isUpper, isLower, hc]

theorem startsWithDrive_cons_cons (a b : α) (xs : List α) :
    d.startsWithDrive (a :: b :: xs) = d.startsWithDrive [a, b] := rfl

theorem not_isSep_of_startsWithDrive {a : α} {xs : List α}
    (h : d.startsWithDrive (a :: xs) = true) : d.isSep a = false := by
  cases xs with
  | nil => simp [startsWithDrive] at h
  | cons b xs =>
    simp only [startsWithDrive, Bool.and_eq_true] at h
    exact not_isSep_of_isDriveLetter h.1.2

theorem not_isSep_colon_of_startsWithDrive {a b : α} (h : d.startsWithDrive [a, b] = true) :
    d.isSep b = false := by
  simp only [startsWithDrive, Bool.and_eq_true] at h
  exact not_isSep_of_isByte_colon h.2

theorem not_startsWithDrive_of_isSep {a : α} (h : d.isSep a = true) (xs : List α) :
    d.startsWithDrive (a :: xs) = false := by
  rw [← Bool.not_eq_true]
  intro hd
  rw [not_isSep_of_startsWithDrive hd] at h
  cases h

theorem nameEnds_cons_iff {a : α} {xs : List α} : d.NameEnds (a :: xs) ↔ d.isSep a = true := by
  simp [NameEnds, startsWithSep]

theorem uncRoot_free {s : List α} (h : ∀ a ∈ s, d.isSep a = false) :
    d.uncRoot s = ⟨.uncIncomplete, s.length + 2⟩ := by
  have hd : s.dropWhile (fun a => !d.isSep a) = [] := by
    rw [List.dropWhile_eq_nil_iff]
    simpa using h
  simp [uncRoot, hd]

theorem takeWhile_of_nameEnds {below : List α} (h : d.NameEnds below) :
    below.takeWhile (fun a => !d.isSep a) = [] := by
  cases below with
  | nil => rfl
  | cons a below =>
    have ha := nameEnds_cons_iff.1 h
    rw [List.takeWhile_cons_of_neg (by simpa using ha)]

theorem dropWhile_of_nameEnds {below : List α} (h : d.NameEnds below) :
    below.dropWhile (fun a => !d.isSep a) = below := by
  cases below with
  | nil => rfl
  | cons a below =>
    have ha := nameEnds_cons_iff.1 h
    rw [List.dropWhile_cons_of_neg (by simpa using ha)]

theorem takeWhile_segment_append {s : List α} (h : d.IsSegment s) {c : α} (hc : d.isSep c = true)
    (xs : List α) : (s ++ c :: xs).takeWhile (fun a => !d.isSep a) = s := by
  rw [List.takeWhile_append_of_pos (by simpa using h.2),
    List.takeWhile_cons_of_neg (by simpa using hc),
    List.append_nil]

theorem dropWhile_segment_append {s : List α} (h : d.IsSegment s) {c : α} (hc : d.isSep c = true)
    (xs : List α) : (s ++ c :: xs).dropWhile (fun a => !d.isSep a) = c :: xs := by
  rw [List.dropWhile_append_of_pos (by simpa using h.2),
    List.dropWhile_cons_of_neg (by simpa using hc)]

theorem uncRoot_append {s : List α} (hs : d.IsSegment s) {c : α} (hc : d.isSep c = true)
    (xs : List α) : d.uncRoot (s ++ c :: xs) =
      match xs.dropWhile (fun a => !d.isSep a) with
      | [] => ⟨.uncIncomplete, s.length + xs.length + 3⟩
      | _ :: _ =>
        let share := xs.takeWhile (fun a => !d.isSep a)
        if share.isEmpty then ⟨.uncIncomplete, s.length + 3⟩
        else ⟨.uncRooted, s.length + share.length + 4⟩ := by
  have he : s.isEmpty = false := by simpa using hs.1
  simp only [uncRoot, takeWhile_segment_append hs hc, dropWhile_segment_append hs hc, he,
    Bool.false_eq_true, if_false]
  cases xs.dropWhile (fun a => !d.isSep a) with
  | nil => simp; omega
  | cons => rfl

theorem ShareReading.uncRoot_eq {rest below : List α} {f : Form}
    (h : d.ShareReading rest below f) :
    d.uncRoot (rest ++ below) = ⟨f, rest.length + 2⟩ := by
  cases h with
  | bare hb =>
    cases below with
    | nil => rfl
    | cons c below =>
      simp only [List.nil_append, uncRoot, takeWhile_of_nameEnds hb, dropWhile_of_nameEnds hb]
      rfl
  | server hs => rw [List.append_nil, uncRoot_free hs.2]
  | @serverSep s _ c hs hc hb =>
    rw [List.append_assoc, List.singleton_append, uncRoot_append hs hc, dropWhile_of_nameEnds hb,
      takeWhile_of_nameEnds hb]
    cases below <;> simp
  | @share s h c hs hc hh =>
    have hd : h.dropWhile (fun a => !d.isSep a) = [] := by
      rw [List.dropWhile_eq_nil_iff]
      simpa using hh.2
    rw [List.append_nil, uncRoot_append hs hc, hd]
    simp
    omega
  | @complete s h _ c e hs hc hh he =>
    have hx : s ++ c :: (h ++ [e]) ++ below = s ++ c :: (h ++ e :: below) := by simp
    have hn : h.isEmpty = false := by simpa using hh.1
    rw [hx, uncRoot_append hs hc, dropWhile_segment_append hh he, takeWhile_segment_append hh he]
    simp [hn]
    omega

theorem Reading.root_eq {root below : List α} {f : Form} (h : d.Reading root below f) :
    d.root (root ++ below) = ⟨f, root.length⟩ := by
  cases h with
  | empty => rfl
  | relative hne hsep hdrive hhome =>
    obtain ⟨a, xs, rfl⟩ := List.exists_cons_of_ne_nil hne
    have ha : d.isSep a = false := by simpa [startsWithSep] using hsep
    simp only [List.nil_append, Dialect.root, ha, hdrive, Bool.false_eq_true, if_false]
    simp only [startsWithHome] at hhome
    by_cases hh : (d.homeRoot && isByte tilde a) = true
    · rw [hh, Bool.true_and, Bool.or_eq_false_iff] at hhome
      rw [if_pos hh, if_neg (by simp [hhome.1]), if_neg (by simp [hhome.2])]
      rfl
    · rw [if_neg hh]
      rfl
  | slash ha hb =>
    cases hn : d.networkShares <;> simp_all [Dialect.root]
  | @driveRelative a b _ hd hb =>
    have ha := not_isSep_of_startsWithDrive hd
    rw [← startsWithDrive_cons_cons a b below] at hd
    simp [Dialect.root, ha, hd, hb]
  | @driveRooted a b c _ hd hc =>
    have ha := not_isSep_of_startsWithDrive hd
    rw [← startsWithDrive_cons_cons a b (c :: below)] at hd
    simp [Dialect.root, ha, hd, startsWithSep, hc]
  | home hh ha =>
    have hs : d.isSep _ = false := not_isSep_of_isByte_tilde ha
    simp [Dialect.root, hs, startsWithDrive, hh, ha]
  | @homeSep a b _ hh ha hb =>
    have hs : d.isSep a = false := not_isSep_of_isByte_tilde ha
    have hd := not_isDriveLetter_of_isByte_tilde ha
    simp [Dialect.root, hs, startsWithDrive, hd, hh, ha, startsWithSep, hb]
  | unc hn ha hb h =>
    simp [Dialect.root, ha, hn, startsWithSep, hb, h.uncRoot_eq]

theorem exists_firstSep (xs : List α) : (∀ a ∈ xs, d.isSep a = false) ∨
    ∃ s c ys, xs = s ++ c :: ys ∧ (∀ a ∈ s, d.isSep a = false) ∧ d.isSep c = true := by
  induction xs with
  | nil => exact Or.inl (by simp)
  | cons a xs ih =>
    by_cases ha : d.isSep a = true
    · exact Or.inr ⟨[], a, xs, rfl, by simp, ha⟩
    · rw [Bool.not_eq_true] at ha
      rcases ih with h | ⟨s, c, ys, rfl, hs, hc⟩
      · exact Or.inl (by simpa [ha] using h)
      · exact Or.inr ⟨a :: s, c, ys, rfl, by simpa [ha] using hs, hc⟩

theorem exists_shareReading (xs : List α) :
    ∃ rest below f, xs = rest ++ below ∧ d.ShareReading rest below f := by
  rcases exists_firstSep (d := d) xs with hx | ⟨s, c, ys, rfl, hs, hc⟩
  · by_cases h : xs = []
    · exact ⟨[], [], _, h, .bare (Or.inl rfl)⟩
    · exact ⟨xs, [], _, by simp, .server ⟨h, hx⟩⟩
  by_cases h : s = []
  · exact ⟨[], c :: ys, _, by simp [h], .bare (Or.inr (by simpa [startsWithSep] using hc))⟩
  have hs' : d.IsSegment s := ⟨h, hs⟩
  rcases exists_firstSep (d := d) ys with hy | ⟨share, e, zs, rfl, hh, he⟩
  · by_cases hn : ys = []
    · exact ⟨s ++ [c], [], _, by simp [hn], .serverSep hs' hc (Or.inl rfl)⟩
    · exact ⟨s ++ c :: ys, [], _, by simp, .share hs' hc ⟨hn, hy⟩⟩
  by_cases hn : share = []
  · exact ⟨s ++ [c], e :: zs, _, by simp [hn],
      .serverSep hs' hc (Or.inr (by simpa [startsWithSep] using he))⟩
  · exact ⟨s ++ c :: (share ++ [e]), zs, _, by simp, .complete hs' hc ⟨hn, hh⟩ he⟩

theorem exists_reading (xs : List α) :
    ∃ root below f, xs = root ++ below ∧ d.Reading root below f := by
  cases xs with
  | nil => exact ⟨[], [], _, rfl, .empty⟩
  | cons a xs =>
    by_cases ha : d.isSep a = true
    · by_cases hn : d.networkShares = true → d.startsWithSep xs = false
      · exact ⟨[a], xs, _, rfl, .slash ha hn⟩
      · obtain ⟨hn', hs⟩ : d.networkShares = true ∧ d.startsWithSep xs = true := by
          simpa using hn
        obtain ⟨b, xs, rfl, hb⟩ := exists_cons_of_startsWithSep hs
        obtain ⟨rest, below, f, rfl, h⟩ := exists_shareReading (d := d) xs
        exact ⟨a :: b :: rest, below, f, rfl, .unc hn' ha hb h⟩
    · rw [Bool.not_eq_true] at ha
      by_cases hd : d.startsWithDrive (a :: xs) = true
      · cases xs with
        | nil => simp [startsWithDrive] at hd
        | cons b xs =>
          rw [startsWithDrive_cons_cons] at hd
          by_cases hs : d.startsWithSep xs = true
          · obtain ⟨c, xs, rfl, hc⟩ := exists_cons_of_startsWithSep hs
            exact ⟨[a, b, c], xs, _, rfl, .driveRooted hd hc⟩
          · exact ⟨[a, b], xs, _, rfl, .driveRelative hd (by simpa using hs)⟩
      · by_cases hh : d.startsWithHome (a :: xs) = true
        · simp only [startsWithHome, Bool.and_eq_true] at hh
          cases xs with
          | nil => exact ⟨[a], [], _, rfl, .home hh.1.1 hh.1.2⟩
          | cons b xs =>
            exact ⟨[a, b], xs, _, rfl, .homeSep hh.1.1 hh.1.2 (by simpa [startsWithSep] using hh.2)⟩
        · exact ⟨[], a :: xs, _, rfl, .relative (by simp) (by simpa [startsWithSep] using ha)
            (by simpa using hd) (by simpa using hh)⟩

/-- The root that is found is one that the rules allow, and the only one. -/
theorem reading_iff {root below : List α} {f : Form} :
    d.Reading root below f ↔ d.root (root ++ below) = ⟨f, root.length⟩ := by
  constructor
  · exact Reading.root_eq
  · intro h
    obtain ⟨root', below', f', hx, hr⟩ := exists_reading (d := d) (root ++ below)
    have he := hr.root_eq
    rw [← hx, h, Root.mk.injEq] at he
    obtain ⟨rfl, rfl⟩ := List.append_inj hx he.2
    exact he.1 ▸ hr

theorem Reading.ends {root below : List α} {f : Form} (h : d.Reading root below f) :
    d.endsWithSep root = true ∨
      d.startsWithSep below = false ∧ (root = [] ∨ f = .driveRelative ∨ below = []) := by
  cases h with
  | empty => exact Or.inr ⟨rfl, Or.inl rfl⟩
  | relative _ hs => exact Or.inr ⟨hs, Or.inl rfl⟩
  | slash ha => exact Or.inl ha
  | driveRelative _ hs => exact Or.inr ⟨hs, Or.inr (Or.inl rfl)⟩
  | driveRooted _ hc => exact Or.inl hc
  | home => exact Or.inr ⟨rfl, Or.inr (Or.inr rfl)⟩
  | homeSep _ _ hb => exact Or.inl hb
  | @unc a b _ _ _ _ _ hb h =>
    cases h with
    | bare => exact Or.inl hb
    | server => exact Or.inr ⟨rfl, Or.inr (Or.inr rfl)⟩
    | @serverSep s _ c _ hc =>
      exact Or.inl ((endsWithSep_append (a :: b :: s) (List.cons_ne_nil c [])).trans hc)
    | share => exact Or.inr ⟨rfl, Or.inr (Or.inr rfl)⟩
    | @complete s n _ c e _ _ _ he =>
      have hx : a :: b :: (s ++ c :: (n ++ [e])) = a :: b :: (s ++ c :: n) ++ [e] := by simp
      rw [hx]
      exact Or.inl ((endsWithSep_append _ (List.cons_ne_nil e [])).trans he)

theorem rootUnits_append_belowRoot (xs : List α) : d.rootUnits xs ++ d.belowRoot xs = xs :=
  List.take_append_drop _ _

theorem reading_root (xs : List α) :
    d.Reading (d.rootUnits xs) (d.belowRoot xs) (d.root xs).form := by
  obtain ⟨root, below, f, rfl, h⟩ := exists_reading (d := d) xs
  simpa [rootUnits, belowRoot, h.root_eq] using h

end PathForms.Dialect
