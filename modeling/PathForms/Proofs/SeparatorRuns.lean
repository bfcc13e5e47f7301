import PathForms.Proofs.Ancestors
import PathForms.Proofs.CanonicalLength
import PathForms.Proofs.SeparatorSpelling
import PathForms.Proofs.StrictValidity

/-!
# Runs of separators

The components of a path say nothing of the separators between them. Put together again with single
separators they make a path that is no longer, and shorter where separators followed each other. So
a run of separators is found where putting the components together loses units, and a path without
runs can be told from its components but for the spelling of its separators.
-/

set_option autoImplicit false

namespace PathForms.Dialect

open CodeUnit

variable {α : Type} [CodeUnit α] {d : Dialect} {xs ys root below : List α} {f : Form}

/-- The path that the components of a path make: the root, the names below it with single separators
between them, and one behind them if the path ends in one. -/
def rewritten (d : Dialect) (xs : List α) : List α :=
  d.rootUnits xs ++ d.written (d.componentsBelow xs) (d.endsWithSep xs)

/-- Whether separators follow each other from the last unit of the root on. -/
def hasRun (d : Dialect) (xs : List α) : Bool := d.hasSepPair (xs.drop ((d.root xs).length - 1))

theorem length_written_parts_le (xs : List α) :
    (d.written (d.parts xs) (d.endsWithSep xs)).length ≤ xs.length := by
  have h := length_written_le (List.Sublist.refl (d.parts xs)) false
  rwa [Bool.not_false, Bool.and_true] at h

theorem exists_pair_of_hasSepPair (h : d.hasSepPair xs = true) :
    ∃ us c e vs, xs = us ++ c :: e :: vs ∧ d.isSep c = true ∧ d.isSep e = true := by
  induction xs with
  | nil => cases h
  | cons a xs ih =>
    rw [hasSepPair_cons, Bool.or_eq_true, Bool.and_eq_true] at h
    rcases h with ⟨ha, hs⟩ | h
    · obtain ⟨b, xs, rfl, hb⟩ := exists_cons_of_startsWithSep hs
      exact ⟨[], a, b, xs, rfl, ha, hb⟩
    · obtain ⟨us, c, e, vs, rfl, hc, he⟩ := ih h
      exact ⟨a :: us, c, e, vs, rfl, hc, he⟩

theorem length_written_parts_lt (h : (d.startsWithSep xs || d.hasSepPair xs) = true) :
    (d.written (d.parts xs) (d.endsWithSep xs)).length < xs.length := by
  rcases Bool.or_eq_true_iff.1 h with h | h
  · obtain ⟨c, xs, rfl, hc⟩ := exists_cons_of_startsWithSep h
    have hle := length_written_parts_le (d := d) xs
    rw [parts_cons_sep hc]
    by_cases hx : xs = []
    · subst hx
      rw [parts_nil, written_nil]
      exact Nat.zero_lt_one
    · rw [show d.endsWithSep (c :: xs) = d.endsWithSep xs from endsWithSep_append [c] hx]
      exact Nat.lt_succ_of_le hle
  · obtain ⟨us, c, e, vs, rfl, hc, he⟩ := exists_pair_of_hasSepPair h
    have hle := length_written_parts_le (d := d) (us ++ e :: vs)
    rw [parts_append_cons us vs he, endsWithSep_append us (by simp)] at hle
    rw [parts_append_cons us (e :: vs) hc, parts_cons_sep he, endsWithSep_append us (by simp),
      show d.endsWithSep (c :: e :: vs) = d.endsWithSep (e :: vs) from
        endsWithSep_append [c] (by simp)]
    rw [List.length_append, List.length_cons] at hle ⊢
    rw [List.length_cons]
    omega

theorem written_parts_segment_append {s rest : List α} {c : α} (hs : d.IsSegment s)
    (hc : d.isSep c = true) (hr : d.parts rest ≠ []) :
    d.written (d.parts (s ++ c :: rest)) (d.endsWithSep (s ++ c :: rest)) =
      s ++ d.sep :: d.written (d.parts rest) (d.endsWithSep rest) := by
  have hne : rest ≠ [] := by
    rintro rfl
    exact hr parts_nil
  have hends : d.endsWithSep (s ++ c :: rest) = d.endsWithSep rest := by
    rw [List.append_cons, endsWithSep_append _ hne]
  rw [hends, parts_append_cons s rest hc, parts_segment hs, List.singleton_append,
    written_cons s _ hr]

theorem respelled_eq_written (hs : d.startsWithSep xs = false) (hp : d.hasSepPair xs = false) :
    d.respelled xs = d.written (d.parts xs) (d.endsWithSep xs) := by
  -- behind the first segment and its separator stands a shorter run of the same kind
  induction hn : xs.length using Nat.strong_induction_on generalizing xs with
  | _ n ih =>
    by_cases hx : xs = []
    · rw [hx, parts_nil, written_nil]
      rfl
    obtain ⟨s, rest, rfl, hseg, hr⟩ := exists_segment_append hx hs
    rw [hasSepPair_segment_append hseg] at hp
    cases rest with
    | nil =>
      rw [List.append_nil, respelled_segment hseg, parts_segment hseg, endsWithSep_segment hseg,
        written_singleton]
      exact (List.append_nil s).symm
    | cons c rest =>
      have hc := nameEnds_cons_iff.1 hr
      rw [hasSepPair_cons, hc, Bool.true_and, Bool.or_eq_false_iff] at hp
      have hspell : d.respelled (s ++ c :: rest) = s ++ d.sep :: d.respelled rest := by
        rw [respelled_append, respelled_segment hseg, respelled, List.map_cons,
          respell_of_isSep hc, respelled]
      rw [hspell]
      by_cases hrest : rest = []
      · subst hrest
        have hends : d.endsWithSep (s ++ [c]) = true := (endsWithSep_append s (by simp)).trans hc
        rw [parts_append_cons s [] hc, parts_segment hseg, parts_nil, List.append_nil, hends,
          written_singleton]
        rfl
      · have hlen : rest.length < n := by
          rw [← hn, List.length_append, List.length_cons]
          omega
        have hrec := ih _ hlen hp.1 hp.2 rfl
        have hparts : d.parts rest ≠ [] := by
          intro h0
          rw [h0, written_nil] at hrec
          exact hrest (List.map_eq_nil_iff.1 hrec)
        rw [hrec, written_parts_segment_append hseg hc hparts]

theorem Reading.hasRun_eq (h : d.Reading root below f) :
    d.hasRun (root ++ below) = (d.startsWithSep below || d.hasSepPair below) := by
  have hends : d.startsWithSep below = true → d.endsWithSep root = true := by
    intro hs
    refine h.ends.resolve_right fun hn => ?_
    rw [hn.1] at hs
    cases hs
  rw [hasRun, h.root_eq]
  rcases List.eq_nil_or_concat root with rfl | ⟨front, c, rfl⟩
  · have hs : d.startsWithSep below = false := by
      rw [← Bool.not_eq_true]
      intro hs
      cases hends hs
    rw [hs]
    rfl
  · rw [List.concat_eq_append] at hends ⊢
    have hdrop : (front ++ [c] ++ below).drop ((front ++ [c]).length - 1) = c :: below := by simp
    rw [endsWithSep_append front (List.cons_ne_nil c [])] at hends
    rw [hdrop, hasSepPair_cons]
    cases hs : d.startsWithSep below with
    | false => rw [Bool.and_false]
    | true => rw [show d.isSep c = true from hends hs, Bool.and_true]

theorem Reading.rewritten_eq (h : d.Reading root below f) : d.rewritten (root ++ below) =
    root ++ d.written (d.parts below) (d.endsWithSep below) := by
  rw [rewritten, h.rootUnits_eq, componentsBelow_eq, h.belowRoot_eq]
  by_cases hb : below = []
  · rw [hb, parts_nil, written_nil, written_nil]
  · rw [endsWithSep_append root hb]

theorem hasRun_iff (xs : List α) :
    d.hasRun xs = true ↔ xs.length ≠ (d.rewritten xs).length := by
  obtain ⟨root, below, f, rfl, hr⟩ := exists_reading (d := d) xs
  rw [hr.hasRun_eq, hr.rewritten_eq, List.length_append, List.length_append, Ne,
    Nat.add_left_cancel_iff]
  constructor
  · exact fun h => Nat.ne_of_gt (length_written_parts_lt h)
  · intro h
    by_contra hn
    rw [Bool.not_eq_true, Bool.or_eq_false_iff] at hn
    rw [← respelled_eq_written hn.1 hn.2, respelled, List.length_map] at h
    exact h rfl

theorem respelled_rewritten (h : d.hasRun xs = false) :
    d.respelled (d.rewritten xs) = d.respelled xs := by
  obtain ⟨root, below, f, rfl, hr⟩ := exists_reading (d := d) xs
  rw [hr.hasRun_eq, Bool.or_eq_false_iff] at h
  rw [hr.rewritten_eq, respelled_append, respelled_append, respelled_eq_written h.1 h.2,
    respelled_written _ fun _ => isSegment_of_mem_parts]

theorem rootUnits_head_components (xs : List α) :
    d.rootUnits ((d.components xs).head?.getD []) = d.rootUnits xs := by
  obtain ⟨root, below, f, rfl, hr⟩ := exists_reading (d := d) xs
  rw [components_eq, hr.rootUnits_eq, hr.belowRoot_eq]
  by_cases hroot : root = []
  · subst hroot
    cases hr with
    | empty => rfl
    | relative hne hs hdrive hhome =>
      obtain ⟨s, rest, rfl, hseg, hrest⟩ := exists_segment_append hne hs
      have hread := (Reading.relative hne hs hdrive hhome).of_relative_append hseg.1 (Or.inr hrest)
      rw [parts_segment_append hseg hrest]
      exact hread.rootUnits_eq
  · have hf : f ≠ .relative := fun hf => hroot (hf ▸ hr).relative_inv.1
    have hread := (hr.shorten_below hf List.nil_prefix).rootUnits_eq
    rw [List.append_nil] at hread
    rw [if_neg (by simpa using hroot)]
    exact hread

theorem rewritten_eq_of_components_eq (hc : d.components xs = d.components ys)
    (he : d.endsWithSep xs = d.endsWithSep ys) : d.rewritten xs = d.rewritten ys := by
  have hroot : d.rootUnits xs = d.rootUnits ys := by
    rw [← rootUnits_head_components xs, hc, rootUnits_head_components]
  rw [rewritten, rewritten, componentsBelow, componentsBelow, hroot, hc, he]

theorem similar_iff_of_not_hasRun (hx : d.hasRun xs = false) (hy : d.hasRun ys = false) :
    d.Similar xs ys ↔
      (d.components xs).map d.respelled = (d.components ys).map d.respelled ∧
        d.endsWithSep xs = d.endsWithSep ys := by
  have hk : d.KeepsRules (d.respell : α → α) := keepsRules_respell
  have hcomp : ∀ zs : List α, (d.components zs).map d.respelled = d.components (d.respelled zs) :=
    fun zs => (hk.components_map zs).symm
  have hends : ∀ zs : List α, d.endsWithSep zs = d.endsWithSep (d.respelled zs) :=
    fun zs => (hk.endsWithSep_map zs).symm
  have hrun : ∀ {zs : List α}, d.hasRun zs = false →
      d.respelled (d.rewritten (d.respelled zs)) = d.respelled zs := by
    intro zs hz
    have hz' : d.hasRun (d.respelled zs) = false := by
      rwa [hasRun, respelled, hk.root_map, ← List.map_drop, hk.hasSepPair_map]
    rw [respelled_rewritten hz', respelled_respelled]
  rw [similar_iff, hcomp, hcomp, hends xs, hends ys]
  constructor
  · intro h
    rw [show d.respelled xs = d.respelled ys from h]
    exact ⟨rfl, rfl⟩
  · rintro ⟨hc, he⟩
    have hw := congrArg d.respelled (rewritten_eq_of_components_eq hc he)
    rw [hrun hx, hrun hy] at hw
    exact hw

theorem kind_eq_fault_iff {xs : List α} : windows.kind Leniency.strict.allowUnits xs =
    .fault .slashRun ↔ windows.hasRun xs = true := by
  have hf : windows.fault? Leniency.strict.allowUnits xs =
      if windows.hasRun xs then some .slashRun else none := rfl
  rw [kind, classify, hf]
  cases windows.hasRun xs <;> simp

/-- A run of separators is found if and only if units are lost where the components of a path are
put together again. So a path without runs is told, but for the spelling of its separators, by its
components and by whether it ends in a separator. -/
theorem kind_eq_slashRun_iff (xs : List α) :
    (windows.kind Leniency.strict.allowUnits xs = .fault .slashRun ↔
      xs.length ≠ (windows.rewritten xs).length) ∧
    ∀ ys : List α, windows.kind Leniency.strict.allowUnits xs ≠ .fault .slashRun →
      windows.kind Leniency.strict.allowUnits ys ≠ .fault .slashRun →
      (windows.Similar xs ys ↔
        (windows.components xs).map windows.respelled =
            (windows.components ys).map windows.respelled ∧
          windows.endsWithSep xs = windows.endsWithSep ys) := by
  refine ⟨kind_eq_fault_iff.trans (hasRun_iff xs), fun ys hx hy => ?_⟩
  rw [Ne, kind_eq_fault_iff, Bool.not_eq_true] at hx hy
  exact similar_iff_of_not_hasRun hx hy

/-- The root of `\\s\\h` ends at the third separator, and the fourth one makes a run. There is none
in `a\b/` and `a/b\`, which have the same components. -/
theorem kind_eq_slashRun_share :
    windows.kind Leniency.strict.allowUnits ([92, 92, 115, 92, 92, 104] : List UInt8) =
      .fault .slashRun ∧
    windows.Similar ([97, 92, 98, 47] : List UInt8) [97, 47, 98, 92] := by
  have hshare := kind_eq_slashRun_iff ([92, 92, 115, 92, 92, 104] : List UInt8)
  have hsame := kind_eq_slashRun_iff ([97, 92, 98, 47] : List UInt8)
  refine ⟨hshare.1.2 ?_, (hsame.2 [97, 47, 98, 92] (by decide) (by decide)).2 ⟨?_, rfl⟩⟩
  · rw [rewritten, componentsBelow_eq]
    decide
  · rw [components_eq, components_eq]
    decide

end PathForms.Dialect
