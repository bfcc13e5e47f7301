import PathForms.Proofs.StrictValidity

/-!
# The rules of roots

For each form there is a rule that says which paths have a root of that form, and how long the root
is. No rule depends on the order in which they are tried: a path obeys exactly one of them, and its
root is the one that this rule describes.
-/

set_option autoImplicit false

namespace PathForms.Dialect

open CodeUnit

variable {α : Type} [CodeUnit α] {xs tail server share rest below : List α} {n : Nat} {f : Form}

def DriveThen (xs tail : List α) : Prop :=
  ∃ a b, xs = a :: b :: tail ∧ isDriveLetter a = true ∧ isByte colon b = true

def TildeThen (xs tail : List α) : Prop := ∃ a, xs = a :: tail ∧ isByte tilde a = true

def PairThen (xs tail : List α) : Prop :=
  ∃ a b, xs = a :: b :: tail ∧ windows.isSep a = true ∧ windows.isSep b = true

def ShareEnds (server share xs : List α) : Prop :=
  ∃ c e rest, xs = server ++ c :: (share ++ e :: rest) ∧ windows.IsSegment server ∧
    windows.isSep c = true ∧ windows.IsSegment share ∧ windows.isSep e = true

def ShareLacks (server xs : List α) : Prop :=
  ∃ c e rest, xs = server ++ c :: e :: rest ∧ windows.IsSegment server ∧
    windows.isSep c = true ∧ windows.isSep e = true

/-- The length of the root of a path whose share does not end, if `tail` follows its two separators:
the root stops where a name should begin and a separator stands, else it is the whole path. -/
def OpenShareLength (tail : List α) (n : Nat) : Prop :=
  windows.startsWithSep tail = true ∧ n = 2 ∨
  (∃ server, ShareLacks server tail ∧ n = server.length + 3) ∨
  windows.startsWithSep tail = false ∧ (∀ server, ¬ ShareLacks server tail) ∧ n = tail.length + 2

/-- Whether the root of a path has the given form and length, in a dialect with drives, shares and
a home directory. -/
def WindowsRule (xs : List α) (n : Nat) : Form → Prop
  | .empty => xs = [] ∧ n = 0
  | .relative => xs ≠ [] ∧ windows.startsWithSep xs = false ∧ (∀ tail, ¬ DriveThen xs tail) ∧
      (∀ tail, TildeThen xs tail → ¬ windows.NameEnds tail) ∧ n = 0
  | .slashRooted => windows.startsWithSep xs = true ∧ (∀ tail, ¬ PairThen xs tail) ∧ n = 1
  | .driveRelative => ∃ tail, DriveThen xs tail ∧ windows.startsWithSep tail = false ∧ n = 2
  | .driveRooted => ∃ tail, DriveThen xs tail ∧ windows.startsWithSep tail = true ∧ n = 3
  | .uncIncomplete => ∃ tail, PairThen xs tail ∧ (∀ server share, ¬ ShareEnds server share tail) ∧
      OpenShareLength tail n
  | .uncRooted => ∃ tail server share, PairThen xs tail ∧ ShareEnds server share tail ∧
      n = server.length + share.length + 4
  | .homeRooted => TildeThen xs [] ∧ n = 1 ∨
      ∃ tail, TildeThen xs tail ∧ windows.startsWithSep tail = true ∧ n = 2

/-- Whether the root of a path has the given form and length, in a dialect without any of these. -/
def UnixRule (xs : List α) (n : Nat) : Form → Prop
  | .empty => xs = [] ∧ n = 0
  | .relative => xs ≠ [] ∧ unix.startsWithSep xs = false ∧ n = 0
  | .slashRooted => unix.startsWithSep xs = true ∧ n = 1
  | .driveRelative | .driveRooted | .uncIncomplete | .uncRooted | .homeRooted => False

theorem startsWithDrive_of_drive {a b : α} (ha : isDriveLetter a = true)
    (hb : isByte colon b = true) (tail : List α) :
    windows.startsWithDrive (a :: b :: tail) = true := by
  simp [startsWithDrive, driveLetters, ha, hb]

theorem reading_of_pair {a b : α} (ha : windows.isSep a = true) (hb : windows.isSep b = true)
    (h : windows.ShareReading rest below f) :
    windows.root (a :: b :: (rest ++ below)) = ⟨f, rest.length + 2⟩ :=
  (Reading.unc rfl ha hb h).root_eq

theorem ShareEnds.reading (h : ShareEnds server share tail) : ∃ rest below,
    tail = rest ++ below ∧ windows.ShareReading rest below .uncRooted ∧
      rest.length = server.length + share.length + 2 := by
  obtain ⟨c, e, below, rfl, hs, hc, hh, he⟩ := h
  refine ⟨server ++ c :: (share ++ [e]), below, by simp, .complete hs hc hh he, ?_⟩
  simp
  omega

theorem ShareLacks.reading (h : ShareLacks server tail) : ∃ rest below,
    tail = rest ++ below ∧ windows.ShareReading rest below .uncIncomplete ∧
      rest.length = server.length + 1 := by
  obtain ⟨c, e, below, rfl, hs, hc, he⟩ := h
  exact ⟨server ++ [c], e :: below, by simp, .serverSep hs hc (Or.inr he), by simp⟩

theorem exists_openShare (h : ∀ server share, ¬ ShareEnds server share tail)
    (hn : OpenShareLength tail n) : ∃ rest below, tail = rest ++ below ∧
      windows.ShareReading rest below .uncIncomplete ∧ n = rest.length + 2 := by
  rcases hn with ⟨hs, rfl⟩ | ⟨server, hs, rfl⟩ | ⟨hs, hserver, rfl⟩
  · exact ⟨[], tail, rfl, .bare (Or.inr hs), rfl⟩
  · obtain ⟨rest, below, rfl, hr, hlen⟩ := hs.reading
    exact ⟨rest, below, rfl, hr, by omega⟩
  · obtain ⟨rest, below, f, rfl, hr⟩ := exists_shareReading (d := windows) tail
    suffices hb : below = [] ∧ f = .uncIncomplete by
      obtain ⟨rfl, rfl⟩ := hb
      exact ⟨rest, [], rfl, hr, by simp⟩
    cases hr with
    | bare hb =>
      refine ⟨hb.resolve_right fun he => ?_, rfl⟩
      rw [List.nil_append, he] at hs
      cases hs
    | server => exact ⟨rfl, rfl⟩
    | @serverSep s below c hseg hc hb =>
      refine ⟨hb.resolve_right fun he => ?_, rfl⟩
      obtain ⟨e, rest, rfl, he⟩ := exists_cons_of_startsWithSep he
      exact hserver s ⟨c, e, rest, by simp, hseg, hc, he⟩
    | share => exact ⟨rfl, rfl⟩
    | @complete s sh below c e hseg hc hh he =>
      exact absurd ⟨c, e, below, by simp, hseg, hc, hh, he⟩ (h s sh)

theorem root_of_windowsRule (h : WindowsRule xs n f) : windows.root xs = ⟨f, n⟩ := by
  cases f with
  | empty =>
    obtain ⟨rfl, rfl⟩ := h
    rfl
  | relative =>
    obtain ⟨hne, hs, hdrive, hhome, rfl⟩ := h
    refine (Reading.relative hne hs ?_ ?_).root_eq
    · rw [← Bool.not_eq_true]
      intro hd
      obtain ⟨a, b, tail, hx, ha, hb⟩ := exists_cons_of_startsWithDrive hd
      exact hdrive tail ⟨a, b, hx, ha, hb⟩
    · obtain ⟨a, tail, rfl⟩ := List.exists_cons_of_ne_nil hne
      rw [← Bool.not_eq_true]
      intro hh
      simp only [startsWithHome, Bool.and_eq_true, Bool.or_eq_true, List.isEmpty_iff] at hh
      exact hhome tail ⟨a, rfl, hh.1.2⟩ hh.2
  | slashRooted =>
    obtain ⟨hs, hpair, rfl⟩ := h
    obtain ⟨a, tail, rfl, ha⟩ := exists_cons_of_startsWithSep hs
    refine (Reading.slash ha fun _ => ?_).root_eq
    rw [← Bool.not_eq_true]
    intro ht
    obtain ⟨b, tail, rfl, hb⟩ := exists_cons_of_startsWithSep ht
    exact hpair tail ⟨a, b, rfl, ha, hb⟩
  | driveRelative =>
    obtain ⟨tail, ⟨a, b, rfl, ha, hb⟩, hs, rfl⟩ := h
    exact (Reading.driveRelative (startsWithDrive_of_drive ha hb []) hs).root_eq
  | driveRooted =>
    obtain ⟨tail, ⟨a, b, rfl, ha, hb⟩, hs, rfl⟩ := h
    obtain ⟨c, tail, rfl, hc⟩ := exists_cons_of_startsWithSep hs
    exact (Reading.driveRooted (startsWithDrive_of_drive ha hb []) hc).root_eq
  | uncIncomplete =>
    obtain ⟨tail, ⟨a, b, rfl, ha, hb⟩, hshare, hlen⟩ := h
    obtain ⟨rest, below, rfl, hr, rfl⟩ := exists_openShare hshare hlen
    exact reading_of_pair ha hb hr
  | uncRooted =>
    obtain ⟨tail, server, share, ⟨a, b, rfl, ha, hb⟩, hshare, rfl⟩ := h
    obtain ⟨rest, below, rfl, hr, hlen⟩ := hshare.reading
    rw [reading_of_pair ha hb hr, hlen]
  | homeRooted =>
    rcases h with ⟨⟨a, rfl, ha⟩, rfl⟩ | ⟨tail, ⟨a, rfl, ha⟩, hs, rfl⟩
    · exact (Reading.home rfl ha).root_eq
    · obtain ⟨c, tail, rfl, hc⟩ := exists_cons_of_startsWithSep hs
      exact (Reading.homeSep rfl ha hc).root_eq

theorem root_of_unixRule (h : UnixRule xs n f) : unix.root xs = ⟨f, n⟩ := by
  cases f with
  | empty =>
    obtain ⟨rfl, rfl⟩ := h
    rfl
  | relative =>
    obtain ⟨hne, hs, rfl⟩ := h
    have hdrive : unix.startsWithDrive xs = false := by
      cases xs with
      | nil => rfl
      | cons a xs => cases xs <;> rfl
    have hhome : unix.startsWithHome xs = false := by cases xs <;> rfl
    exact (Reading.relative hne hs hdrive hhome).root_eq
  | slashRooted =>
    obtain ⟨hs, rfl⟩ := h
    obtain ⟨a, tail, rfl, ha⟩ := exists_cons_of_startsWithSep hs
    exact (Reading.slash ha nofun).root_eq
  | _ => exact h.elim

theorem segment_append_inj {d : Dialect} {s t ys zs : List α} {c e : α} (hs : d.IsSegment s)
    (ht : d.IsSegment t) (hc : d.isSep c = true) (he : d.isSep e = true)
    (h : s ++ c :: ys = t ++ e :: zs) : s = t ∧ ys = zs := by
  have hst := congrArg (List.takeWhile fun a => !d.isSep a) h
  rw [takeWhile_segment_append hs hc, takeWhile_segment_append ht he] at hst
  subst hst
  exact ⟨rfl, (List.cons.inj (List.append_cancel_left h)).2⟩

theorem not_shareLacks_of_free (h : ∀ a ∈ tail, windows.isSep a = false) (server : List α) :
    ¬ ShareLacks server tail := by
  rintro ⟨c, e, rest, rfl, -, hc, -⟩
  rw [h c (by simp)] at hc
  cases hc

theorem not_shareLacks_append {s ys : List α} {c : α} (hs : windows.IsSegment s)
    (hc : windows.isSep c = true) (hy : windows.startsWithSep ys = false) (server : List α) :
    ¬ ShareLacks server (s ++ c :: ys) := by
  rintro ⟨c', e, rest, hx, ht, hc', he⟩
  obtain ⟨-, rfl⟩ := segment_append_inj hs ht hc hc' hx
  simp [startsWithSep, he] at hy

theorem openShareLength_of_reading (h : windows.ShareReading rest below .uncIncomplete) :
    OpenShareLength (rest ++ below) (rest.length + 2) := by
  cases h with
  | bare hb =>
    rcases hb with rfl | hb
    · exact Or.inr (Or.inr ⟨rfl, not_shareLacks_of_free (by simp), rfl⟩)
    · exact Or.inl ⟨hb, rfl⟩
  | server hs =>
    refine Or.inr (Or.inr ⟨startsWithSep_segment_append hs [], ?_, by simp⟩)
    rw [List.append_nil]
    exact not_shareLacks_of_free hs.2
  | @serverSep s _ c hs hc hb =>
    rw [List.append_assoc, List.singleton_append]
    by_cases he : windows.startsWithSep below = true
    · obtain ⟨e, below, rfl, he⟩ := exists_cons_of_startsWithSep he
      exact Or.inr (Or.inl ⟨s, ⟨c, e, below, rfl, hs, hc, he⟩, by simp⟩)
    · obtain rfl := hb.resolve_right he
      exact Or.inr (Or.inr ⟨startsWithSep_segment_append hs _, not_shareLacks_append hs hc rfl,
        by simp⟩)
  | @share s h c hs hc hh =>
    rw [List.append_nil]
    refine Or.inr (Or.inr ⟨startsWithSep_segment_append hs _, not_shareLacks_append hs hc ?_, rfl⟩)
    simpa using startsWithSep_segment_append hh []

theorem windowsRule_of_reading {root : List α} (h : windows.Reading root below f) :
    WindowsRule (root ++ below) root.length f := by
  cases h with
  | empty => exact ⟨rfl, rfl⟩
  | relative hne hs hdrive hhome =>
    refine ⟨hne, hs, ?_, ?_, rfl⟩
    · rintro tail ⟨a, b, hx, ha, hb⟩
      rw [List.nil_append] at hx
      rw [hx, startsWithDrive_of_drive ha hb] at hdrive
      cases hdrive
    · rintro tail ⟨a, hx, ha⟩ hn
      rw [List.nil_append] at hx
      have ht : (tail.isEmpty || windows.startsWithSep tail) = true := by simpa [NameEnds] using hn
      rw [hx, startsWithHome, ha, ht] at hhome
      cases hhome
  | slash ha hb =>
    refine ⟨ha, ?_, rfl⟩
    rintro tail ⟨a, b, hx, -, hb'⟩
    obtain ⟨-, rfl⟩ := List.cons.inj hx
    have hs := hb rfl
    rw [startsWithSep, List.head?_cons, Option.any_some, hb'] at hs
    cases hs
  | @driveRelative a b _ hd hb =>
    obtain ⟨a', b', _, hx, ha, hcolon⟩ := exists_cons_of_startsWithDrive hd
    cases hx
    exact ⟨below, ⟨a, b, rfl, ha, hcolon⟩, hb, rfl⟩
  | @driveRooted a b c _ hd hc =>
    obtain ⟨a', b', _, hx, ha, hcolon⟩ := exists_cons_of_startsWithDrive hd
    cases hx
    exact ⟨c :: below, ⟨a, b, rfl, ha, hcolon⟩, hc, rfl⟩
  | home _ ha => exact Or.inl ⟨⟨_, rfl, ha⟩, rfl⟩
  | @homeSep a b _ _ ha hb => exact Or.inr ⟨b :: below, ⟨a, rfl, ha⟩, hb, rfl⟩
  | @unc a b rest _ f _ ha hb h =>
    have hroot := reading_of_pair ha hb h
    have hpair : PairThen (a :: b :: (rest ++ below)) (rest ++ below) := ⟨a, b, rfl, ha, hb⟩
    by_cases hf : f = .uncIncomplete
    · subst hf
      refine ⟨_, hpair, fun server share hshare => ?_, openShareLength_of_reading h⟩
      have hrule : WindowsRule (a :: b :: (rest ++ below)) _ .uncRooted :=
        ⟨_, server, share, hpair, hshare, rfl⟩
      rw [root_of_windowsRule hrule] at hroot
      cases hroot
    · cases h with
      | @complete s sh _ c e hs hc hh he =>
        refine ⟨_, s, sh, hpair, ⟨c, e, below, by simp, hs, hc, hh, he⟩, ?_⟩
        simp
        omega
      | _ => exact absurd rfl hf

theorem unixRule_of_reading {root : List α} (h : unix.Reading root below f) :
    UnixRule (root ++ below) root.length f := by
  cases h with
  | empty => exact ⟨rfl, rfl⟩
  | relative hne hs => exact ⟨hne, hs, rfl⟩
  | slash ha => exact ⟨ha, rfl⟩
  | driveRelative hd => simp [startsWithDrive, driveLetters] at hd
  | driveRooted hd => simp [startsWithDrive, driveLetters] at hd
  | home hh => cases hh
  | homeSep hh => cases hh
  | unc hn => cases hn

/-- The root that is found has a form and a length if and only if the path obeys the rule for them,
and it lies within the path. -/
theorem root_eq_iff_rule (xs : List α) (n : Nat) (f : Form) :
    (windows.root xs = ⟨f, n⟩ ↔ WindowsRule xs n f) ∧
    (unix.root xs = ⟨f, n⟩ ↔ UnixRule xs n f) ∧
    ∀ d : Dialect, (d.root xs).length ≤ xs.length := by
  refine ⟨⟨fun h => ?_, root_of_windowsRule⟩, ⟨fun h => ?_, root_of_unixRule⟩, fun d => ?_⟩
  · obtain ⟨root, below, g, rfl, hr⟩ := exists_reading (d := windows) xs
    rw [hr.root_eq] at h
    cases h
    exact windowsRule_of_reading hr
  · obtain ⟨root, below, g, rfl, hr⟩ := exists_reading (d := unix) xs
    rw [hr.root_eq] at h
    cases h
    exact unixRule_of_reading hr
  · obtain ⟨root, below, g, rfl, hr⟩ := exists_reading (d := d) xs
    rw [hr.root_eq, List.length_append]
    exact Nat.le_add_right _ _

/-- In `\\s\\h` a separator stands where the share should begin. -/
example : windows.root ([92, 92, 115, 92, 92, 104] : List UInt8) = ⟨.uncIncomplete, 4⟩ := by
  decide

end PathForms.Dialect
