import PathForms.Proofs.CanonicalLength
import PathForms.Proofs.CompleteRoot
import PathForms.Proofs.Components
import PathForms.Proofs.LetterCase
import PathForms.Proofs.Resolution

/-!
# Where a path leads

A place is a complete root and the segments that lead on from it. A path that is resolved against a
base with a complete root leads to a place that is known from the components of the two: it goes on
from the base, or from the root of the base, or from the root of a drive of its own. Resolving it
writes down that place after walking its segments.
-/

set_option autoImplicit false

namespace PathForms

structure Place (α : Type) where
  root : List α
  segments : List (List α)
  deriving DecidableEq, Repr

namespace Place

variable {α : Type}

def below (t : Place α) (names : List (List α)) : Place α := ⟨t.root, t.segments ++ names⟩

@[simp]
theorem below_nil (t : Place α) : t.below [] = t := by
  simp [below]

end Place

namespace Dialect

open CodeUnit

variable {α : Type} [CodeUnit α] {d : Dialect} {base xs : List α} {t : Place α}

/-- One segment of a walk. The directory above a root is the root. -/
def walkStep (walk : List (List α)) (part : List α) : List (List α) :=
  if isSelf part then walk
  else if isParent part then walk.tail
  else part :: walk

/-- Where segments lead to from a root. -/
def walked (parts : List (List α)) : List (List α) := (parts.foldl walkStep []).reverse

def place (d : Dialect) (xs : List α) : Place α :=
  ⟨d.respelled (d.rootUnits xs), d.parts (d.belowRoot xs)⟩

/-- Whether a base is on the drive that a path names, in either case of the letter. -/
def onSameDrive (d : Dialect) : List α → List α → Bool
  | a :: rest, b :: _ => d.startsWithDrive (a :: rest) && decide (AlikeButCase a b)
  | _, _ => false

/-- Where a path leads from a base. -/
def destination (d : Dialect) (base xs : List α) : Place α :=
  match (d.root xs).form with
  | .slashRooted => ⟨(d.place base).root, d.parts xs⟩
  | .driveRelative =>
    if d.onSameDrive base xs then (d.place base).below (d.parts (xs.drop 2))
    else ⟨xs.take 2 ++ [d.sep], d.parts (xs.drop 2)⟩
  | _ => (d.place base).below (d.parts xs)

/-- Whether a base with a complete root is all that it takes to locate a path. What stands behind a
drive must not begin in the home directory. -/
def restsOnBase (d : Dialect) (xs : List α) : Bool :=
  match d.kind (Leniency.strict.allowSlashRuns) xs with
  | .form .relative => true
  | .form .slashRooted => d.driveLetters
  | .form .driveRelative => (d.root (xs.drop 2)).form != .homeRooted
  | _ => false

theorem Stable.stackStep_eq_walkStep {stack : List (List α)} (h : Stable true stack)
    (part : List α) : Dialect.stackStep true stack part = walkStep stack part := by
  unfold Dialect.stackStep walkStep
  cases stack with
  | nil => simp
  | cons top below =>
    have ht : isParent top = false := h.noParent rfl top List.mem_cons_self
    simp [ht]

theorem Stable.foldl_stackStep_eq {parts stack : List (List α)} (h : Stable true stack)
    (hp : ∀ s ∈ parts, s ≠ []) :
    parts.foldl (Dialect.stackStep true) stack = parts.foldl walkStep stack := by
  induction parts generalizing stack with
  | nil => rfl
  | cons part parts ih =>
    -- Below a root no step up is ever kept, so the top of the stack is always a name.
    have hs := h.stackStep (hp part List.mem_cons_self)
    rw [List.foldl_cons, List.foldl_cons, ← h.stackStep_eq_walkStep part]
    exact ih hs (fun s hm => hp s (List.mem_cons_of_mem part hm))

theorem settled_eq_walked {parts : List (List α)} (hp : ∀ s ∈ parts, s ≠ []) :
    settled true parts = walked parts := by
  rw [settled_eq_stackOf_of_ne hp, stackOf, Stable.nil.foldl_stackStep_eq hp, walked]

theorem isSegment_of_mem_walked {names : List (List α)} (h : ∀ s ∈ names, d.IsSegment s) :
    ∀ s ∈ walked names, d.IsSegment s := by
  intro s hs
  rw [← settled_eq_walked (fun s hm => (h s hm).1)] at hs
  exact h s (mem_of_mem_settled hs)

theorem isSegment_of_mem_place {s : List α} (h : s ∈ walked (d.place xs).segments) :
    d.IsSegment s :=
  isSegment_of_mem_walked (fun _ => isSegment_of_mem_parts) s h

theorem form_of_hasCompleteRoot (h : d.hasCompleteRoot xs = true) :
    d.Faultless xs ∧ (d.root xs).form.isAbsolute d = true ∧ (d.root xs).form ≠ .uncIncomplete := by
  obtain ⟨v, f, e, below, rfl, hv, he, hf⟩ := hasCompleteRoot_iff.1 h
  rw [hv.form_eq he]
  refine ⟨hf, ?_⟩
  cases hv with
  | bare hl => simp [Form.isAbsolute, hl]
  | drive => simp [Form.isAbsolute]
  | share => simp [Form.isAbsolute]

theorem isRooted_of_isAbsolute (h : d.isAbsolute xs = true) : d.isRooted xs = true := by
  rw [isAbsolute] at h
  rw [isRooted]
  cases hf : (d.root xs).form <;> simp_all [Form.isAbsolute, Form.isRooted]

theorem ne_of_isAbsolute (h : d.isAbsolute xs = true) :
    xs ≠ [] ∧ (d.root xs).form ≠ .relative := by
  constructor
  · rintro rfl
    cases h
  · intro hr
    simp [isAbsolute, hr, Form.isAbsolute] at h

theorem canonical_eq_place (h : d.hasCompleteRoot xs = true) (trim : Bool) :
    d.canonical trim xs = (d.place xs).root ++
      d.written (walked (d.place xs).segments) (d.endsWithSep (d.belowRoot xs) && !trim) := by
  obtain ⟨hf, ha, -⟩ := form_of_hasCompleteRoot h
  obtain ⟨hx, hr⟩ := ne_of_isAbsolute ha
  rw [canonical_eq_written trim hx hf, lasting_eq_survivors (rootUnits_ne_nil hx hr), survivors,
    isRooted_of_isAbsolute ha,
    settled_eq_walked (fun _ hs => (isSegment_of_mem_parts hs).1)]
  rfl

theorem components_canonical (h : d.hasCompleteRoot xs = true) (trim : Bool) :
    d.components (d.canonical trim xs) = (d.place xs).root :: walked (d.place xs).segments := by
  obtain ⟨hf, ha, hu⟩ := form_of_hasCompleteRoot h
  obtain ⟨hx, hr⟩ := ne_of_isAbsolute ha
  have hroot := root_canonical_of_closed trim hx hf hr hu
  have hlen : (d.place xs).root.length = (d.root xs).length := by
    rw [place, respelled, List.length_map, length_rootUnits]
  have hne : (d.place xs).root ≠ [] := by
    simpa [place, respelled] using rootUnits_ne_nil hx hr
  have hs : ∀ s ∈ walked (d.place xs).segments, d.IsSegment s := fun _ => isSegment_of_mem_place
  rw [components_eq, rootUnits, belowRoot, hroot, canonical_eq_place h, List.take_left' hlen,
    List.drop_left' hlen, parts_written _ hs]
  simp [hne]

theorem canonical_eq_root_of_endsWithSep (h : d.hasCompleteRoot xs = true)
    (he : d.endsWithSep (d.canonical true xs) = true) :
    d.canonical true xs = (d.place xs).root := by
  have hs : ∀ s ∈ walked (d.place xs).segments, d.IsSegment s := fun _ => isSegment_of_mem_place
  rw [canonical_eq_place h, Bool.not_true, Bool.and_false] at he ⊢
  by_cases hn : walked (d.place xs).segments = []
  · rw [hn, written_nil, List.append_nil]
  · rw [endsWithSep_append _ (mt (written_eq_nil_iff hs).1 hn), endsWithSep_written _ hs] at he
    simp at he

def LeadsTo (d : Dialect) (xs : List α) (t : Place α) : Prop :=
  d.hasCompleteRoot xs = true ∧ d.place xs = t

theorem Volume.leadsTo {v below : List α} {f : Form} {e : α} (h : d.Volume v f)
    (he : d.isSep e = true) (hf : d.Faultless (v ++ e :: below)) :
    d.LeadsTo (v ++ e :: below) ⟨d.respelled v ++ [d.sep], d.parts below⟩ := by
  refine ⟨hasCompleteRoot_iff.2 ⟨v, f, e, below, rfl, h, he, hf⟩, ?_⟩
  rw [place, h.rootUnits_eq he, h.belowRoot_eq he, respelled_append, respelled_cons, respelled_nil,
    respell, if_pos he]

theorem parts_append_of_endsWithSep (h : xs = [] ∨ d.endsWithSep xs = true) (ys : List α) :
    d.parts (xs ++ ys) = d.parts xs ++ d.parts ys := by
  rcases h with rfl | h
  · rfl
  · obtain ⟨zs, c, rfl, hc⟩ := exists_eq_append_of_endsWithSep h
    rw [List.append_assoc, List.singleton_append, parts_append_cons zs ys hc,
      parts_append_cons zs [] hc, parts_nil, List.append_nil]

theorem isSep_sepLike (xs : List α) : d.isSep (d.sepLike xs) = true := by
  unfold sepLike
  cases hf : xs.find? d.isSep with
  | none => exact isSep_sep d
  | some c => exact List.find?_some hf

theorem ensureSep_cases (xs : List α) :
    d.ensureSep xs = xs ∧ (xs = [] ∨ d.endsWithSep xs = true) ∨
      ∃ c, d.ensureSep xs = xs ++ [c] ∧ d.isSep c = true ∧ d.endsWithSep xs = false := by
  unfold ensureSep
  split
  · next h => exact Or.inl ⟨rfl, by simpa using h⟩
  · next h =>
    rw [Bool.or_eq_true, not_or] at h
    exact Or.inr ⟨d.sepLike xs, rfl, isSep_sepLike xs, by simpa using h.2⟩

theorem exists_ensureSep_below (v below : List α) (e : α) :
    ∃ below', d.ensureSep (v ++ e :: below) = v ++ e :: below' ∧
      (∀ a ∈ below', a ∈ below ∨ d.isSep a = true) ∧
      ∀ ys, d.parts (below' ++ ys) = d.parts below ++ d.parts ys := by
  rcases ensureSep_cases (d := d) (v ++ e :: below) with ⟨he, hx⟩ | ⟨c, he, hc, -⟩
  · refine ⟨below, he, fun a ha => Or.inl ha, parts_append_of_endsWithSep ?_⟩
    by_cases hb : below = []
    · exact Or.inl hb
    · have hends := hx.resolve_left (by simp)
      rw [List.append_cons, endsWithSep_append _ hb] at hends
      exact Or.inr hends
  · refine ⟨below ++ [c], ?_, ?_, ?_⟩
    · rw [he, List.append_assoc, List.cons_append]
    · intro a ha
      rcases List.mem_append.1 ha with ha | ha
      · exact Or.inl ha
      · exact Or.inr (List.mem_singleton.1 ha ▸ hc)
    · intro ys
      rw [List.append_assoc, List.singleton_append, parts_append_cons below ys hc]

theorem LeadsTo.ensureSep_append (h : d.LeadsTo base t) (hx : ∀ a ∈ xs, d.Allowed a) :
    d.LeadsTo (d.ensureSep base ++ xs) (t.below (d.parts xs)) := by
  obtain ⟨hc, rfl⟩ := h
  obtain ⟨v, f, e, below, rfl, hv, he, hf⟩ := hasCompleteRoot_iff.1 hc
  obtain ⟨below', hb, hmem, hparts⟩ := exists_ensureSep_below (d := d) v below e
  have hf' : d.Faultless (v ++ e :: (below' ++ xs)) := by
    rw [hv.faultless_iff he] at hf ⊢
    refine ⟨hf.1, fun a ha => ?_⟩
    rcases List.mem_append.1 ha with ha | ha
    · rcases hmem a ha with ha | ha
      · exact hf.2 a ha
      · exact allowed_of_isSep ha
    · exact hx a ha
  have hto := hv.leadsTo he hf'
  rw [(hv.leadsTo he hf).2, Place.below, ← hparts, hb, List.append_assoc, List.cons_append]
  exact hto

theorem LeadsTo.extendedBy (h : d.LeadsTo base t) (hx : ∀ a ∈ xs, d.Allowed a)
    (hr : xs = [] ∨ (d.root xs).form = .relative) :
    d.LeadsTo (d.extendedBy base xs) (t.below (d.parts xs)) := by
  rcases hr with rfl | hr
  · rw [parts_nil, Place.below_nil]
    exact h
  · have hb : d.isAbsolute base = true := (form_of_hasCompleteRoot h.1).2.1
    have hn : xs.isEmpty = false := isEmpty_eq_false_of_form hr (by simp)
    rw [Dialect.extendedBy, hn, if_neg (by simp), joined_of_relative hb hr]
    exact h.ensureSep_append hx

theorem LeadsTo.volume_append {x : α} (h : d.LeadsTo base t) (hx : d.isSep x = true)
    (ha : ∀ a ∈ xs, d.Allowed a) :
    d.LeadsTo (d.volume base ++ x :: xs) ⟨t.root, d.parts (x :: xs)⟩ := by
  obtain ⟨hc, rfl⟩ := h
  obtain ⟨v, f, e, below, rfl, hv, he, hf⟩ := hasCompleteRoot_iff.1 hc
  have hvol : d.volume (v ++ e :: below) = v := by
    rw [List.append_cons, volume_eq (hv.reading he below),
      trimEnd_concat he hv.endsWithSep_eq]
  have hf' : d.Faultless (v ++ x :: xs) :=
    (hv.faultless_iff hx).2 ⟨((hv.faultless_iff he).1 hf).1, ha⟩
  rw [(hv.leadsTo he hf).2, hvol, parts_cons_sep hx]
  exact hv.leadsTo hx hf'

theorem leadsTo_drive {a b : α} (hd : d.startsWithDrive [a, b] = true) :
    d.LeadsTo [a, b, d.sep] ⟨[a, b, d.sep], []⟩ := by
  have hv : d.Volume [a, b] .driveRooted := .drive hd
  have hf : d.Faultless ([a, b] ++ [d.sep]) :=
    (hv.faultless_iff (isSep_sep d)).2 ⟨unitFault?_drive hd, by simp⟩
  have hto := hv.leadsTo (isSep_sep d) hf
  rwa [respelled_drive hd] at hto

theorem Faultless.allowed_of_relative (h : d.Faultless xs) (hf : (d.root xs).form = .relative) :
    ∀ a ∈ xs, d.Allowed a := by
  obtain ⟨root, below, f, rfl, hr⟩ := exists_reading (d := d) xs
  obtain rfl : f = .relative := by rwa [hr.root_eq] at hf
  have hb := h.allowed_below hr
  rwa [hr.relative_inv.1]

theorem LeadsTo.placed_of_relative (h : d.LeadsTo base t) (hx : d.Faultless xs)
    (hf : (d.root xs).form = .relative) :
    d.LeadsTo (d.placed base xs) (t.below (d.parts xs)) := by
  rw [placed, if_neg (by simp [hf])]
  exact h.extendedBy (hx.allowed_of_relative hf) (Or.inr hf)

theorem LeadsTo.placed_of_slashRooted (h : d.LeadsTo base t) (hx : d.Faultless xs)
    (hl : d.driveLetters = true) (hf : (d.root xs).form = .slashRooted) :
    d.LeadsTo (d.placed base xs) ⟨t.root, d.parts xs⟩ := by
  have hb : d.isAbsolute base = true := (form_of_hasCompleteRoot h.1).2.1
  rw [placed, if_neg (by simp [hf]), extendedBy_of_slashRooted hb hl hf]
  obtain ⟨a, below, rfl, ha, hr⟩ := exists_slash hf
  exact h.volume_append ha (hx.allowed_below hr)

theorem onSameDrive_eq (hf : (d.root xs).form = .driveRelative) : d.onSameDrive base xs =
    (d.startsWithDrive base && (d.compareFirst 2 (xs.take 2) base).isEq) := by
  obtain ⟨a, b, rest, rfl, hd, -⟩ := exists_drive hf
  have hl : d.caseSensitive = false := by
    cases d with
    | unix => cases hd
    | windows => rfl
  match base with
  | [] | [_] => simp [onSameDrive, startsWithDrive]
  | a' :: b' :: rest' =>
    rw [onSameDrive, Bool.eq_iff_iff, Bool.and_eq_true, Bool.and_eq_true]
    refine and_congr_right (fun hb => ?_)
    rw [decide_eq_true_iff, ← foldCase_eq_iff, compareFirst, isEq_compareUnits]
    simp only [startsWithDrive, Bool.and_eq_true, isByte_iff] at hb hd
    simpa [collate, hl, hb.2, hd.2, eq_iff_code_eq] using eq_comm

theorem LeadsTo.placed_of_driveRelative (h : d.LeadsTo base t) (hx : d.Faultless xs)
    (hf : (d.root xs).form = .driveRelative) (hh : (d.root (xs.drop 2)).form ≠ .homeRooted) :
    d.LeadsTo (d.placed base xs) (if d.onSameDrive base xs then t.below (d.parts (xs.drop 2))
      else ⟨xs.take 2 ++ [d.sep], d.parts (xs.drop 2)⟩) := by
  rw [placed, if_pos hf, ← onSameDrive_eq hf]
  obtain ⟨a, b, rest, rfl, hd, hs⟩ := exists_drive hf
  have ha : ∀ c ∈ rest, d.Allowed c := hx.allowed_below (.driveRelative hd hs)
  have hr : rest = [] ∨ (d.root rest).form = .relative := by
    rcases form_of_no_sep_no_drive hs (startsWithDrive_after_drive hx hf hd) with hr | hr | hr
    · exact Or.inl (form_eq_empty_iff.1 hr)
    · exact Or.inr hr
    · exact absurd hr hh
  split
  · exact h.extendedBy ha hr
  · exact (leadsTo_drive hd).extendedBy ha hr

theorem leadsTo_placed (hb : d.hasCompleteRoot base = true) (hx : d.restsOnBase xs = true) :
    d.LeadsTo (d.placed base xs) (d.destination base xs) := by
  have h : d.LeadsTo base (d.place base) := ⟨hb, rfl⟩
  unfold restsOnBase at hx
  split at hx
  · next hk =>
    have hf := (kind_eq_form hk).symm
    simp only [destination, hf]
    exact h.placed_of_relative (faultless_of_kind_eq hk) hf
  · next hk =>
    have hf := (kind_eq_form hk).symm
    simp only [destination, hf]
    exact h.placed_of_slashRooted (faultless_of_kind_eq hk) hx hf
  · next hk =>
    have hf := (kind_eq_form hk).symm
    simp only [destination, hf]
    exact h.placed_of_driveRelative (faultless_of_kind_eq hk) hf (by simpa using hx)
  · cases hx

theorem needsBase_of_restsOnBase (h : d.restsOnBase xs = true) : d.needsBase xs = true := by
  unfold restsOnBase at h
  unfold needsBase
  split at h <;> simp_all [Form.isAbsolute]

end Dialect

namespace Path

variable {α : Type} [CodeUnit α] {d : Dialect} {p base q : Path α d} {trim : Bool}

/-- Resolving a path reports the root of its destination and where the segments of its destination
lead. Without a mark at its end, the result ends in a separator only if it is that root. -/
theorem components_resolve (hb : d.hasCompleteRoot base.units = true)
    (hp : d.restsOnBase p.units = true) (h : p.resolve base trim = .ok q) :
    let t := d.destination base.units p.units
    q.components = t.root :: Dialect.walked t.segments ∧
      (trim = true → q.endsWithSep = true → q.units = t.root) := by
  obtain ⟨-, hq⟩ := units_of_resolve (Dialect.needsBase_of_restsOnBase hp) h
  obtain ⟨hc, ht⟩ := Dialect.leadsTo_placed hb hp
  refine ⟨?_, ?_⟩
  · rw [components, hq, Dialect.components_canonical hc, ht]
  · rintro rfl he
    rw [endsWithSep, hq] at he
    rw [hq, Dialect.canonical_eq_root_of_endsWithSep hc he, ht]

/-- `C:..\a` resolved against `c:/w` has the components `c:\` and `a`. -/
theorem components_resolve_parent : ∃ p base q : Path UInt8 .windows,
    p.units = [67, 58, 46, 46, 92, 97] ∧ base.units = [99, 58, 47, 119] ∧
      p.resolve base true = .ok q ∧ q.components = [[99, 58, 92], [97]] := by
  have hq : Path.resolve (⟨Buffer.exact [67, 58, 46, 46, 92, 97]⟩ : Path UInt8 .windows)
      ⟨Buffer.exact [99, 58, 47, 119]⟩ true = .ok ⟨Buffer.exact [99, 58, 92, 97]⟩ := by
    decide
  exact ⟨_, _, _, rfl, rfl, hq,
    (components_resolve (by decide) (by decide) hq).1.trans (by decide)⟩

end Path

end PathForms
