import PathForms.Proofs.PathRuns
import PathForms.Proofs.Pushing

/-!
# What comes of a resolution

A resolution against an absolute base fails only on length, and the length that counts is that of
the path put onto its base. That path is checked before it is made canonical, so the resolution may
fail although what it would leave is short. Where it succeeds, a second one against the same base
changes nothing: its result is absolute, or begins in the home directory, or has a fault, or it
stays below the bare separator because its base names no server.
-/

set_option autoImplicit false

namespace PathForms

namespace Dialect

open CodeUnit

variable {α : Type} [CodeUnit α] {d : Dialect} {xs base : List α} {trim : Bool}

/-- What a path resolves to against an absolute base, however long it is. -/
def resolved (d : Dialect) (trim : Bool) (base xs : List α) : List α :=
  if d.needsBase xs then d.canonical trim (d.placed base xs) else xs

theorem needsBase_iff : d.needsBase xs = true ↔ d.Faultless xs ∧ (d.root xs).form ≠ .empty ∧
    (d.root xs).form ≠ .homeRooted ∧ d.isAbsolute xs = false := by
  by_cases hf : d.Faultless xs
  · rw [needsBase, hf.kind_eq, isAbsolute]
    cases (d.root xs).form <;> simp [hf]
  · have hn : d.needsBase xs = false := by
      unfold needsBase
      split
      · rfl
      · rfl
      · rfl
      · next hk => exact absurd (faultless_of_kind_eq hk) hf
    simp [hf, hn]

theorem needsBase_canonical_of_homeRooted (h : (d.root xs).form = .homeRooted) :
    d.needsBase (d.canonical trim xs) = false := by
  by_cases hf : d.Faultless xs
  · have hx : xs ≠ [] := by
      rintro rfl
      cases h
    have hr := root_canonical_of_closed trim hx hf (by simp [h]) (by simp [h])
    rw [← Bool.not_eq_true, needsBase_iff, hr]
    exact fun hn => hn.2.2.1 h
  · rw [canonical_of_not_faultless trim hf, ← Bool.not_eq_true, needsBase_iff]
    exact fun hn => hf hn.1

theorem placed_of_adrift_home (hf : (d.root xs).form = .driveRelative)
    (hh : (d.root (xs.drop 2)).form = .homeRooted) : d.placed base xs = xs.drop 2 := by
  have hne : (xs.drop 2).isEmpty = false := isEmpty_eq_false_of_form hh (by simp)
  rw [placed, if_pos hf]
  split <;> rw [extendedBy, hne, if_neg (by simp), joined_of_homeRooted hh]

theorem adrift_of_needsBase_resolved (hb : d.isAbsolute base = true)
    (hn : d.needsBase xs = true) (h : d.needsBase (d.resolved trim base xs) = true) :
    d.root base = ⟨.uncIncomplete, 2⟩ ∧ (d.root (d.resolved trim base xs)).form = .slashRooted := by
  have hf := (needsBase_iff.1 hn).1
  have hr : d.resolved trim base xs = d.canonical trim (d.placed base xs) := if_pos hn
  rw [hr] at h ⊢
  have hplaced := (needsBase_iff.1 h).2.2.2
  rw [isAbsolute_canonical, ← Bool.not_eq_true, isAbsolute_placed_iff hb hf hn, not_not] at hplaced
  rcases hplaced with ⟨hd, hh⟩ | ⟨hs, hu⟩
  · rw [placed_of_adrift_home hd hh, needsBase_canonical_of_homeRooted hh] at h
    cases h
  · have hne : xs.isEmpty = false := isEmpty_eq_false_of_form hs (by simp)
    have hp : d.placed base xs = xs := by
      rw [placed, if_neg (by simp [hs]), extendedBy, hne, if_neg (by simp),
        joined_of_bare_mark hu hs]
    refine ⟨hu, ?_⟩
    rw [hp, root_canonical_of_closed trim (by simpa using hne) hf (by simp [hs]) (by simp [hs]), hs]

variable {s : List α}

theorem isSegment_dots : d.IsSegment [(ofByte dot : α), ofByte dot] := by
  refine ⟨by simp, fun a ha => ?_⟩
  have hdot : d.IsSegment [(ofByte dot : α)] := isSegment_dot
  exact hdot.2 a (by simpa using ha)

theorem ensureSep_root_append_segment (hs : unix.IsSegment s) :
    unix.ensureSep (unix.sep :: s) = unix.sep :: s ++ [unix.sep] := by
  have hends : unix.endsWithSep (unix.sep :: s) = false :=
    (endsWithSep_append [unix.sep] hs.1).trans (endsWithSep_segment hs)
  have hfirst : unix.sepLike (unix.sep :: s) = (unix.sep : α) := by
    simp [sepLike, isSep_sep]
  simp [ensureSep, hends, hfirst]

theorem placed_parent (s : List α) :
    unix.placed (unix.sep :: s) [ofByte dot, ofByte dot] =
      unix.ensureSep (unix.sep :: s) ++ [ofByte dot, ofByte dot] := by
  have hdots : unix.IsSegment [(ofByte dot : α), ofByte dot] := isSegment_dots
  have hstart : unix.startsWithSep [(ofByte dot : α), ofByte dot] = false :=
    hdots.2 _ List.mem_cons_self
  have hf := form_unix_of_not_sep hdots.1 hstart
  rw [placed, if_neg (by simp [hf]), extendedBy, if_neg (by simp), joined_unix _ hdots.1,
    if_neg (by simp [hstart])]

theorem length_placed_parent (hs : unix.IsSegment s) :
    (unix.placed (unix.sep :: s) [ofByte dot, ofByte dot]).length = s.length + 4 := by
  rw [placed_parent, ensureSep_root_append_segment hs]
  simp

theorem settled_parent {rooted : Bool} (hs : s ≠ []) (hd : isDots s = false) :
    settled rooted [s, [ofByte dot, ofByte dot]] = [] := by
  rw [isDots, Bool.or_eq_false_iff] at hd
  have hdot : isDot (ofByte dot : α) = true := isByte_iff.2 rfl
  have hup : isParent [(ofByte dot : α), ofByte dot] = true := by simp [isParent, hdot]
  have hname : stackStep rooted [] s = [s] := by simp [stackStep, hd.1, hd.2]
  have hpop : stackStep rooted [s] [ofByte dot, ofByte dot] = [] := by
    simp [stackStep, hup, hd.2, isSelf]
  rw [settled_eq_stackOf_of_ne (by simp [hs]), stackOf, List.foldl_cons, hname, List.foldl_cons,
    hpop]
  rfl

theorem canonical_placed_parent (trim : Bool) (hs : unix.IsSegment s) (hd : isDots s = false)
    (hn : s.any isNul = false) :
    unix.canonical trim (unix.placed (unix.sep :: s) [ofByte dot, ofByte dot]) =
      [unix.sep] := by
  have hdots : unix.IsSegment [(ofByte dot : α), ofByte dot] := isSegment_dots
  have hstart : unix.startsWithSep (unix.sep :: s) = true := isSep_sep unix
  have hnul : (unix.ensureSep (unix.sep :: s) ++ [(ofByte dot : α), ofByte dot]).any isNul =
      false := by
    apply any_isNul_ensureSep_append
    · rw [List.any_cons, hn, (allowed_of_isSep (isSep_sep unix)).1]
      rfl
    · have hdot : isNul (ofByte dot : α) = false := by simp [isNul, isByte, code_ofByte, dot]
      simp [hdot]
  rw [placed_parent, canonical_ensureSep_append trim (by simp) hdots.1 hnul, hstart,
    parts_cons_sep (isSep_sep unix), parts_segment hs, parts_segment hdots, List.singleton_append,
    settled_parent hs.1 hd]
  simp [orDot, written_nil]

end Dialect

namespace Path

open Dialect

variable {α : Type} [CodeUnit α] {d : Dialect} {p base q : Path α d} {trim : Bool}

theorem resolve_of_not_needsBase (hn : d.needsBase p.units = false) :
    p.resolve base trim = .ok p := by
  simp [resolve, hn]

theorem resolve_of_needsBase (hn : d.needsBase p.units = true) (hb : base.isAbsolute = true) :
    p.resolve base trim = (p.onto base).bind fun r => ofUnits (r.canonical trim).units := by
  simp only [resolve, hn, hb, Bool.not_true, Bool.false_eq_true, if_false]
  rfl

theorem checked_join (segment : List α) (h : p.units.length ≤ d.maxLength) :
    Checked (p.join segment) (d.extendedBy p.units segment) := by
  unfold join push extendedBy
  split
  · exact checked_ok h
  · exact checked_ofUnits _

theorem three_le_maxLength : 3 ≤ d.maxLength := by
  cases d <;> decide

theorem checked_onto (h : base.units.length ≤ d.maxLength) :
    Checked (p.onto base) (d.placed base.units p.units) := by
  unfold onto placed
  split
  · dsimp only
    split
    · exact checked_join _ h
    · have hroot : (⟨Buffer.exact (p.units.take 2 ++ [d.sep])⟩ : Path α d).units =
          p.units.take 2 ++ [d.sep] := units_exact _
      have hle : (p.units.take 2 ++ [d.sep]).length ≤ d.maxLength := by
        have hl := List.length_take_le 2 p.units
        have h3 := three_le_maxLength (d := d)
        rw [List.length_append, List.length_singleton]
        omega
      rw [← hroot] at hle
      have hj := checked_join (p.units.drop 2) hle
      rwa [hroot] at hj
  · exact checked_join _ h

theorem ofUnits_canonical (hl : p.units.length ≤ d.maxLength) :
    ofUnits (p.canonical trim).units = .ok (p.canonical trim) := by
  rw [units_canonical, ofUnits_of_le (Nat.le_trans (length_canonical_le trim p.units) hl)]
  rfl

theorem resolve_eq_error_iff (hb : base.isAbsolute = true)
    (hl : base.units.length ≤ d.maxLength) (e : PathError) :
    p.resolve base trim = .error e ↔ d.needsBase p.units = true ∧
      e = .tooLong (d.placed base.units p.units).length d.maxLength ∧
      d.maxLength < (d.placed base.units p.units).length := by
  have hc : Checked (p.onto base) (d.placed base.units p.units) := checked_onto hl
  cases hn : d.needsBase p.units with
  | false => simp [resolve_of_not_needsBase hn]
  | true =>
    rw [resolve_of_needsBase hn hb, ← hc.eq_error_iff]
    cases hr : p.onto base with
    | error e' => simp [Except.bind]
    | ok r =>
      have hle : r.units.length ≤ d.maxLength := by
        rw [hc.units_eq hr]
        exact hc.length_le hr
      show ofUnits (r.canonical trim).units = .error e ↔ _
      simp [ofUnits_canonical hle]

theorem units_eq_resolved (h : p.resolve base trim = .ok q) :
    q.units = d.resolved trim base.units p.units := by
  cases hn : d.needsBase p.units with
  | false =>
    rw [resolve_of_not_needsBase hn] at h
    cases h
    rw [resolved, hn]
    rfl
  | true =>
    rw [resolved, if_pos hn]
    exact (units_of_resolve hn h).2

/-- What resolving against an absolute base within the limit comes to: it fails if and only if the
path needs a base and is too long when put onto it, and it leaves the resolved path otherwise. What
is too long, and is reported, is the path before it is made canonical. -/
theorem resolve_fails_or_resolved (hb : base.isAbsolute = true)
    (hl : base.units.length ≤ d.maxLength) :
    (∀ e, p.resolve base trim = .error e ↔ d.needsBase p.units = true ∧
      e = .tooLong (d.placed base.units p.units).length d.maxLength ∧
      d.maxLength < (d.placed base.units p.units).length) ∧
    ∀ q, p.resolve base trim = .ok q → q.units = d.resolved trim base.units p.units :=
  ⟨fun e => resolve_eq_error_iff hb hl e, fun _ => units_eq_resolved⟩

def deepBase : Path UInt8 .unix := ⟨Buffer.exact (Dialect.unix.sep :: List.replicate 4094 97)⟩

theorem isSegment_deep : Dialect.unix.IsSegment (List.replicate 4094 (97 : UInt8)) := by
  refine ⟨List.cons_ne_nil _ _, fun a ha => ?_⟩
  rw [List.eq_of_mem_replicate ha]
  rfl

theorem units_deepBase :
    deepBase.units = Dialect.unix.sep :: List.replicate 4094 (97 : UInt8) :=
  units_exact _

theorem deepBase_parent : deepBase.isAbsolute = true ∧ deepBase.units.length = 4095 ∧
    (Dialect.unix.placed deepBase.units [46, 46]).length = 4098 ∧
    ∀ trim, Dialect.unix.resolved trim deepBase.units [46, 46] = [47] := by
  have hn : (List.replicate 4094 (97 : UInt8)).any CodeUnit.isNul = false := by
    rw [List.any_eq_false]
    intro a ha
    rw [List.eq_of_mem_replicate ha]
    decide
  rw [isAbsolute, units_deepBase]
  refine ⟨rfl, ?_, ?_, fun trim => ?_⟩
  · rw [List.length_cons, List.length_replicate]
  · have hp := length_placed_parent isSegment_deep
    rw [List.length_replicate] at hp
    exact hp
  · rw [resolved, if_pos (by decide)]
    exact canonical_placed_parent trim isSegment_deep rfl hn

/-- Two dots cannot be resolved against a base as long as there can be. -/
theorem resolve_fails_or_resolved_parent : ∃ p base : Path UInt8 .unix,
    p.units = [46, 46] ∧ p.resolve base true = .error (.tooLong 4098 4095) ∧
      Dialect.unix.resolved true base.units p.units = [47] := by
  obtain ⟨ha, hl, hp, hr⟩ := deepBase_parent
  refine ⟨⟨Buffer.exact [46, 46]⟩, deepBase, rfl, ?_, hr true⟩
  refine ((resolve_fails_or_resolved ha (Nat.le_of_eq hl)).1 _).2 ⟨by decide, ?_⟩
  rw [units_exact, hp]
  decide

/-- The length that is reported need not be that of the resolved path, nor need that be too long. -/
theorem not_forall_resolve_eq_error :
    ¬ ∀ (p base : Path UInt8 .unix) (trim : Bool), base.isAbsolute = true →
      p.units.length ≤ Dialect.unix.maxLength → base.units.length ≤ Dialect.unix.maxLength →
      ∀ n, p.resolve base trim = .error (.tooLong n Dialect.unix.maxLength) ↔
        n = (Dialect.unix.resolved trim base.units p.units).length ∧
          Dialect.unix.maxLength < n := by
  intro h
  obtain ⟨ha, hl, hp, hr⟩ := deepBase_parent
  let p : Path UInt8 .unix := ⟨Buffer.exact [46, 46]⟩
  have he : p.resolve deepBase true = .error (.tooLong 4098 Dialect.unix.maxLength) := by
    refine (resolve_eq_error_iff ha (Nat.le_of_eq hl) _).2 ⟨by decide, ?_⟩
    rw [units_exact, hp]
    decide
  have hn := ((h p deepBase true ha (by decide) (Nat.le_of_eq hl) 4098).1 he).1
  rw [units_exact, hr true] at hn
  cases hn

/-- A resolved path is resolved. -/
theorem resolve_resolved (h : p.resolve base trim = .ok q) : q.resolve base trim = .ok q := by
  cases hn : d.needsBase p.units with
  | false =>
    rw [resolve_of_not_needsBase hn] at h
    cases h
    exact resolve_of_not_needsBase hn
  | true =>
    cases hq : d.needsBase q.units with
    | false => exact resolve_of_not_needsBase hq
    | true =>
      have hu := units_eq_resolved h
      obtain ⟨hb, hc⟩ := units_of_resolve hn h
      obtain ⟨hmark, hs⟩ := adrift_of_needsBase_resolved hb hn (hu ▸ hq)
      rw [← hu] at hs
      have hkeep : ofUnits q.units = .ok q := by
        rw [resolve_of_needsBase hn hb] at h
        obtain ⟨r, -, hr⟩ := bind_eq_ok.1 h
        rw [units_of_ofUnits hr]
        exact hr
      -- the base has nothing to add, and nothing is left to be made canonical
      have honto : q.onto base = .ok q := by
        have hne : q.units.isEmpty = false := isEmpty_eq_false_of_form hs (by simp)
        rw [onto, if_neg (by simp [hs]), join, push, hne, if_neg (by simp), pushed,
          if_neg (by simp), joined_of_bare_mark hmark hs]
        exact hkeep
      calc q.resolve base trim = ofUnits (q.canonical trim).units := by
            rw [resolve_of_needsBase hq hb, honto]
            rfl
        _ = ofUnits q.units := by rw [units_canonical, hc, canonical_canonical]
        _ = .ok q := hkeep

/-- `\a\..\b` resolved against `\` is `\b`, which still needs a base, and stays what it is. -/
theorem resolve_resolved_mark : ∃ p base q : Path UInt8 .windows,
    p.units = [92, 97, 92, 46, 46, 92, 98] ∧ base.units = [92, 92] ∧
      p.resolve base true = .ok q ∧ q.units = [92, 98] ∧
      Dialect.windows.needsBase q.units = true ∧ q.resolve base true = .ok q := by
  have hq : Path.resolve (⟨Buffer.exact [92, 97, 92, 46, 46, 92, 98]⟩ : Path UInt8 .windows)
      ⟨Buffer.exact [92, 92]⟩ true = .ok ⟨Buffer.exact [92, 98]⟩ := by
    decide
  exact ⟨_, _, _, rfl, rfl, hq, rfl, by decide, resolve_resolved hq⟩

end Path

end PathForms
