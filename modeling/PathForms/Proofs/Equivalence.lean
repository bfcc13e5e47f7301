import PathForms.Proofs.CanonicalIdempotent
import PathForms.Proofs.Destination

/-!
# Paths that lead to the same place

Two paths are compared as text, after both have been resolved and made canonical. What is written
then is the place that a path leads to, and the segments can be read off it again, so the texts agree
exactly where the places do.
-/

set_option autoImplicit false

namespace PathForms

namespace Dialect

open CodeUnit

variable {α : Type} [CodeUnit α] {d : Dialect} {base xs : List α}

/-- Where a path leads that is complete in itself, or from a base if it is not. -/
def located (d : Dialect) (base xs : List α) : Place α :=
  if d.hasCompleteRoot xs then d.place xs else d.destination base xs

/-- The segments of a path that begins with a separator, and otherwise those of the base and then
those of the path. -/
def segmentsFrom (d : Dialect) (base xs : List α) : List (List α) :=
  if d.startsWithSep xs then d.parts xs else d.parts base ++ d.parts xs

theorem written_inj {names names' : List (List α)} {t : Bool} (h : ∀ s ∈ names, d.IsSegment s)
    (h' : ∀ s ∈ names', d.IsSegment s) :
    d.written names t = d.written names' t ↔ names = names' := by
  constructor
  · intro hw
    rw [← parts_written t h, ← parts_written t h', hw]
  · exact congrArg (d.written · t)

theorem sameSpelling_unix {xs ys : List α} : unix.sameSpelling xs ys = true ↔ xs = ys := by
  rw [sameSpelling, isEq_compareUnits]
  exact List.map_inj_right fun a b h => code_injective a b h

theorem isSegment_of_mem_segmentsFrom : ∀ s ∈ d.segmentsFrom base xs, d.IsSegment s := by
  intro s hs
  unfold segmentsFrom at hs
  split at hs
  · exact isSegment_of_mem_parts hs
  · rcases List.mem_append.1 hs with hs | hs
    · exact isSegment_of_mem_parts hs
    · exact isSegment_of_mem_parts hs

theorem faultless_unix_iff : unix.Faultless xs ↔ xs.any isNul = false := by
  rw [faultless_iff, unitFault?_eq_none_iff]
  simp [validates]

theorem form_unix_of_sep (h : unix.startsWithSep xs = true) :
    (unix.root xs).form = .slashRooted := by
  cases xs with
  | nil => cases h
  | cons a xs =>
    have ha : unix.isSep a = true := by simpa [startsWithSep] using h
    rw [root, if_pos ha, networkShares, Bool.false_and, if_neg (by simp)]

theorem form_unix_of_not_sep (hx : xs ≠ []) (h : unix.startsWithSep xs = false) :
    (unix.root xs).form = .relative := by
  have hd : unix.startsWithDrive xs = false := by
    unfold startsWithDrive
    split <;> rfl
  have hh : unix.startsWithHome xs = false := by
    unfold startsWithHome
    split <;> rfl
  have hr : unix.Reading [] xs .relative := .relative hx h hd hh
  exact congrArg Root.form hr.root_eq

theorem hasCompleteRoot_unix (hn : xs.any isNul = false) :
    unix.hasCompleteRoot xs = unix.startsWithSep xs := by
  by_cases hx : xs = []
  · rw [hx]
    rfl
  · rw [hasCompleteRoot, (faultless_unix_iff.2 hn).kind_eq]
    by_cases hs : unix.startsWithSep xs = true
    · rw [form_unix_of_sep hs, hs]
      rfl
    · rw [Bool.not_eq_true] at hs
      rw [form_unix_of_not_sep hx hs, hs]

theorem place_unix (h : unix.startsWithSep xs = true) :
    unix.place xs = ⟨[unix.sep], unix.parts xs⟩ := by
  obtain ⟨a, below, rfl, ha, -⟩ := exists_slash (form_unix_of_sep h)
  rw [parts_cons_sep ha]
  have hv : unix.Volume ([] : List α) .slashRooted := .bare rfl
  have hroot := hv.rootUnits_eq ha below
  have hbelow := hv.belowRoot_eq ha below
  rw [List.nil_append] at hroot hbelow
  rw [place, hroot, hbelow]
  simp [respell, ha]

theorem located_unix (hb : unix.startsWithSep base = true) (hx : xs ≠ [])
    (hn : xs.any isNul = false) :
    unix.located base xs = ⟨[unix.sep], unix.segmentsFrom base xs⟩ := by
  rw [located, segmentsFrom, hasCompleteRoot_unix hn]
  by_cases hs : unix.startsWithSep xs = true
  · rw [if_pos hs, if_pos hs, place_unix hs]
  · rw [if_neg hs, if_neg hs]
    rw [Bool.not_eq_true] at hs
    simp only [destination, form_unix_of_not_sep hx hs, place_unix hb]
    rfl

theorem restsOnBase_unix (hx : xs ≠ []) (hn : xs.any isNul = false)
    (hs : unix.startsWithSep xs = false) : unix.restsOnBase xs = true := by
  rw [restsOnBase, (faultless_unix_iff.2 hn).kind_eq, form_unix_of_not_sep hx hs]

theorem needsBase_of_hasCompleteRoot (h : d.hasCompleteRoot xs = true) :
    d.needsBase xs = false := by
  obtain ⟨hf, ha, -⟩ := form_of_hasCompleteRoot h
  rw [needsBase, hf.kind_eq]
  cases hk : (d.root xs).form <;> simp_all

end Dialect

namespace Path

open CodeUnit

variable {α : Type} [CodeUnit α] {d : Dialect}

theorem units_canonical_of_resolve {p base q : Path α d}
    (hb : d.hasCompleteRoot base.units = true)
    (hp : d.hasCompleteRoot p.units = true ∨ d.restsOnBase p.units = true)
    (h : p.resolve base true = .ok q) :
    (q.canonical true).units = (d.located base.units p.units).root ++
      d.written (Dialect.walked (d.located base.units p.units).segments) false := by
  rw [units_canonical, Dialect.located]
  by_cases hc : d.hasCompleteRoot p.units = true
  · have hq : p = q := by
      rw [resolve, Dialect.needsBase_of_hasCompleteRoot hc] at h
      exact Except.ok.inj h
    rw [if_pos hc, ← hq, Dialect.canonical_eq_place hc, Bool.not_true, Bool.and_false]
  · have hr := hp.resolve_left hc
    obtain ⟨-, hq⟩ := units_of_resolve (Dialect.needsBase_of_restsOnBase hr) h
    obtain ⟨hcp, ht⟩ := Dialect.leadsTo_placed hb hr
    rw [if_neg hc, hq, Dialect.canonical_canonical, Dialect.canonical_eq_place hcp, ht,
      Bool.not_true, Bool.and_false]

variable {p base : Path α .unix} {xs : List α} {b : Bool}

theorem units_canonical_of_resolve_unix {q : Path α .unix} (hp : p.units ≠ [])
    (hpn : p.units.any isNul = false) (hb : Dialect.unix.startsWithSep base.units = true)
    (hbn : base.units.any isNul = false) (h : p.resolve base true = .ok q) :
    (q.canonical true).units = Dialect.unix.sep ::
      Dialect.unix.written (Dialect.walked (Dialect.unix.segmentsFrom base.units p.units)) false := by
  have hc : Dialect.unix.hasCompleteRoot base.units = true := by
    rw [Dialect.hasCompleteRoot_unix hbn, hb]
  have hor : Dialect.unix.hasCompleteRoot p.units = true ∨
      Dialect.unix.restsOnBase p.units = true := by
    by_cases hs : Dialect.unix.startsWithSep p.units = true
    · exact Or.inl (by rw [Dialect.hasCompleteRoot_unix hpn, hs])
    · exact Or.inr (Dialect.restsOnBase_unix hp hpn (by simpa using hs))
  rw [units_canonical_of_resolve hc hor h, Dialect.located_unix hb hp hpn, List.singleton_append]

/-- Where there are no drives, two paths resolve to the same place if and only if the same segments
are left of them, once those of the base stand before those of a relative path. -/
theorem equivalentIn_iff (hp : p.units ≠ []) (hpn : p.units.any isNul = false) (hx : xs ≠ [])
    (hxn : xs.any isNul = false) (hb : Dialect.unix.startsWithSep base.units = true)
    (hbn : base.units.any isNul = false) (h : p.equivalentIn xs base = .ok b) :
    b = true ↔ Dialect.walked (Dialect.unix.segmentsFrom base.units p.units) =
      Dialect.walked (Dialect.unix.segmentsFrom base.units xs) := by
  obtain ⟨q, hq, hleft⟩ := bind_eq_ok.1 h
  obtain ⟨left, hl, hright⟩ := bind_eq_ok.1 hleft
  obtain ⟨right, hr, hequal⟩ := bind_eq_ok.1 hright
  rw [← units_of_ofUnits hq] at hx hxn ⊢
  have heq : (left.canonical true).equal (right.canonical true).units = b :=
    Except.ok.inj hequal
  rw [← heq, equal, Dialect.sameSpelling_unix,
    units_canonical_of_resolve_unix hp hpn hb hbn hl,
    units_canonical_of_resolve_unix hx hxn hb hbn hr, List.cons.injEq, Dialect.written_inj]
  · simp
  · exact Dialect.isSegment_of_mem_walked Dialect.isSegment_of_mem_segmentsFrom
  · exact Dialect.isSegment_of_mem_walked Dialect.isSegment_of_mem_segmentsFrom

/-- Against `/w`, the paths `a/../b` and `/w/./b/` are the same place. -/
theorem equivalentIn_dots : ∃ p base : Path UInt8 .unix,
    p.units = [97, 47, 46, 46, 47, 98] ∧ base.units = [47, 119] ∧
      p.equivalentIn [47, 119, 47, 46, 47, 98, 47] base = .ok true ∧
      Dialect.walked (Dialect.unix.segmentsFrom base.units p.units) =
        Dialect.walked (Dialect.unix.segmentsFrom base.units [47, 119, 47, 46, 47, 98, 47]) := by
  have h : equivalentIn (⟨Buffer.exact [97, 47, 46, 46, 47, 98]⟩ : Path UInt8 .unix)
      [47, 119, 47, 46, 47, 98, 47] ⟨Buffer.exact [47, 119]⟩ = .ok true := by
    decide
  exact ⟨_, _, rfl, rfl, h, (equivalentIn_iff (by decide) (by decide) (by decide) (by decide)
    (by decide) (by decide) h).1 rfl⟩

end Path

end PathForms
