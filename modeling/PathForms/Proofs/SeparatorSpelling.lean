import PathForms.Proofs.CanonicalForm
import PathForms.Proofs.CanonicalRoot
import PathForms.Proofs.MatchedRuns

/-!
# Paths that differ in the spelling of separators

Two paths are similar if they have the same units in the same places, separators counting as one.
No rule asks which separator stands in a place, so similar paths stay similar under every edit with
similar arguments. The one thing that an edit takes from the spelling is the separator that it adds,
which is again a separator; and the canonical form keeps nothing of it.
-/

set_option autoImplicit false

namespace PathForms

namespace Dialect

open CodeUnit

variable {α : Type} [CodeUnit α] {d : Dialect}

/-- The same units in the same places, where any two separators count as the same. -/
def Similar (d : Dialect) (xs ys : List α) : Prop :=
  List.Forall₂ (fun a b => a = b ∨ d.isSep a = true ∧ d.isSep b = true) xs ys

theorem respell_of_isSep {a : α} (h : d.isSep a = true) : d.respell a = d.sep := if_pos h

theorem respell_eq_respell_iff {a b : α} : d.respell a = d.respell b ↔
    a = b ∨ d.isSep a = true ∧ d.isSep b = true := by
  constructor
  · intro h
    have hs : d.isSep a = d.isSep b := by rw [← isSep_respell, h, isSep_respell]
    cases ha : d.isSep a with
    | true => exact Or.inr ⟨rfl, hs ▸ ha⟩
    | false =>
      rw [respell_of_not_isSep ha, respell_of_not_isSep (hs ▸ ha)] at h
      exact Or.inl h
  · rintro (rfl | ⟨ha, hb⟩)
    · rfl
    · rw [respell_of_isSep ha, respell_of_isSep hb]

theorem similar_iff {xs ys : List α} : d.Similar xs ys ↔ Matched d.respell d.respell xs ys := by
  rw [Matched, ← List.forall₂_eq_eq_eq, List.forall₂_map_left_iff, List.forall₂_map_right_iff]
  simp only [respell_eq_respell_iff]
  rfl

theorem respell_cases (a : α) : d.respell a = a ∨
    d.isSep a = true ∧ d.isSep (d.respell a) = true := by
  cases h : d.isSep a with
  | false => exact Or.inl (respell_of_not_isSep h)
  | true => exact Or.inr ⟨rfl, (isSep_respell d a).trans h⟩

theorem keepsRules_respell : d.KeepsRules (d.respell : α → α) where
  isSep_eq := isSep_respell d
  map_sep := respell_sep
  isByte_eq b hb := by
    refine eq_of_moves_within respell_cases fun a ha => ?_
    have hc := code_of_isSep ha
    have hn : b.toNat ≠ 92 ∧ b.toNat ≠ 47 := by
      simp only [List.mem_cons, List.not_mem_nil, or_false] at hb
      rcases hb with rfl | rfl | rfl | rfl <;> decide
    rw [isByte, beq_eq_false_iff_ne]
    omega
  isDriveLetter_eq := by
    refine eq_of_moves_within respell_cases fun a ha => ?_
    rw [← Bool.not_eq_true]
    intro hl
    rw [not_isSep_of_isDriveLetter hl] at ha
    cases ha
  isReserved_eq := by
    refine eq_of_moves_within respell_cases fun a ha => ?_
    have hc := code_of_isSep ha
    rw [← Bool.not_eq_true]
    intro hr
    have := code_of_isReserved hr
    omega
  collate_eq a ha := by rw [respell_of_not_isSep ha]

theorem respelled_written {names : List (List α)} (t : Bool) (h : ∀ s ∈ names, d.IsSegment s) :
    d.respelled (d.written names t) = d.written names t := by
  refine (List.map_congr_left fun a ha => ?_).trans (List.map_id _)
  rcases mem_written ha with rfl | ⟨s, hs, ha⟩
  · exact respell_sep
  · exact respell_of_not_isSep ((h s hs).2 a ha)

theorem respelled_canonical (trim : Bool) {xs : List α} (h : d.Faultless xs) :
    d.respelled (d.canonical trim xs) = d.canonical trim xs := by
  by_cases hx : xs = []
  · rw [hx, canonical_nil]
    rfl
  · have hseg : ∀ s ∈ d.lasting xs, d.IsSegment s := fun _ => isSegment_of_mem_lasting
    rw [canonical_eq_written trim hx h, respelled_append, respelled_respelled,
      respelled_written _ hseg]

theorem canonical_eq_of_similar (trim : Bool) {xs ys : List α} (h : d.Similar xs ys)
    (hx : d.Faultless xs) : d.canonical trim xs = d.canonical trim ys := by
  have hk : d.KeepsRules (d.respell : α → α) := keepsRules_respell
  have hm := similar_iff.1 h
  have hy : d.Faultless ys := by
    rw [Faultless] at hx ⊢
    rwa [← hm.eq_of_map (hk.kind_map _) (hk.kind_map _)]
  have hc : d.respelled (d.canonical trim xs) = d.respelled (d.canonical trim ys) :=
    hm.of_map (hk.canonical_map trim) (hk.canonical_map trim)
  rwa [respelled_canonical trim hx, respelled_canonical trim hy] at hc

end Dialect

namespace Path

open Dialect CodeUnit

variable {α : Type} {d : Dialect}

def respelledBoth [CodeUnit α] (s : Session (Path α d)) : Session (Path α d) :=
  ⟨s.current.respell, s.aside.respell⟩

theorem related_respell_left [CodeUnit α] {p q : Path α d}
    (h : Related (Matched d.respell d.respell) p q) :
    Related (Matched d.respell d.respell) p.respell q := by
  rw [Related, units_respell]
  exact (respelled_respelled p.units).trans h

theorem related_respell_right [CodeUnit α] {p q : Path α d}
    (h : Related (Matched d.respell d.respell) p q) :
    Related (Matched d.respell d.respell) p q.respell := by
  rw [Related, units_respell]
  exact h.trans (respelled_respelled q.units).symm

variable [TextUnit α]

/-- How separators are spelled never matters to what is done to a path. Similar paths are divided at
the same places however lenient the reader is; each step with similar arguments gives similar paths
or the same error, also if it follows on a respelling on one side and precedes it on the other; and
paths without faults have the same canonical form to the unit. The paths are terminated, as all
paths are that edits can make. -/
theorem sameOutcome_of_similar {p p' q q' : Path α d} (hp : p.buffer.WellFormed)
    (hp' : p'.buffer.WellFormed) (h : d.Similar p.units p'.units)
    (hq : d.Similar q.units q'.units) :
    (∀ l, SameShape (p.classify l) (p'.classify l)) ∧
    (∀ op op', Op.Alike d.Similar op op' →
      SameOutcome (BothRelated d.Similar) (step op ⟨p, q⟩) (step op' ⟨p', q'⟩) ∧
      SameOutcome (BothRelated d.Similar) ((step op ⟨p, q⟩).map respelledBoth)
        (step op' (respelledBoth ⟨p', q'⟩))) ∧
    ∀ trim, d.Faultless p.units → (p.canonical trim).units = (p'.canonical trim).units := by
  have hr : (d.Similar : List α → List α → Prop) = Matched d.respell d.respell := by
    funext xs ys
    exact propext similar_iff
  have hk : d.KeepsRules (d.respell : α → α) := keepsRules_respell
  have hm : BothRelated (Matched d.respell d.respell) (⟨p, q⟩ : Session (Path α d)) ⟨p', q'⟩ :=
    ⟨similar_iff.1 h, similar_iff.1 hq⟩
  have hm' : BothRelated (Matched d.respell d.respell) (⟨p, q⟩ : Session (Path α d))
      (respelledBoth ⟨p', q'⟩) :=
    ⟨related_respell_right hm.current, related_respell_right hm.aside⟩
  have hw : p'.respell.buffer.WellFormed := (hp'.holds.modify _).wellFormed
  rw [hr]
  refine ⟨Matched.sameShape hk hk hm.current, fun op op' ho => ⟨?_, ?_⟩, fun trim hf => ?_⟩
  · exact sameOutcome_step hk hk hp hp' hm ho
  · exact (sameOutcome_step hk hk hp hw hm' ho).map_left fun _ _ hst =>
      ⟨related_respell_left hst.current, related_respell_left hst.aside⟩
  · rw [units_canonical, units_canonical]
    exact canonical_eq_of_similar trim h hf

/-- `C:/a` and `C:\a`, each with the other aside. -/
theorem sameOutcome_of_similar_drive : ∃ p p' : Path UInt8 .windows,
    p.units = [67, 58, 47, 97] ∧ p'.units = [67, 58, 92, 97] ∧
      SameShape (p.classify .strict) (p'.classify .strict) ∧
      SameOutcome (BothRelated windows.Similar) (step .pushSep ⟨p, p'⟩) (step .pushSep ⟨p', p⟩) ∧
      (p.canonical true).units = (p'.canonical true).units := by
  have h : windows.Similar ([67, 58, 47, 97] : List UInt8) [67, 58, 92, 97] :=
    similar_iff.2 rfl
  have h' : windows.Similar ([67, 58, 92, 97] : List UInt8) [67, 58, 47, 97] :=
    similar_iff.2 rfl
  have ht := @sameOutcome_of_similar UInt8 .windows _ ⟨Buffer.exact [67, 58, 47, 97]⟩
    ⟨Buffer.exact [67, 58, 92, 97]⟩ ⟨Buffer.exact [67, 58, 92, 97]⟩
    ⟨Buffer.exact [67, 58, 47, 97]⟩ (Buffer.wellFormed_exact _) (Buffer.wellFormed_exact _) h h'
  exact ⟨_, _, rfl, rfl, ht.1 .strict, (ht.2.1 _ _ .pushSep).1, ht.2.2 true rfl⟩

end Path

end PathForms
