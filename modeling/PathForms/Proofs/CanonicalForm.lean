import PathForms.Path.Basic
import PathForms.Proofs.PartStack
import PathForms.Proofs.RootGrammar

/-!
# The canonical form

A path without faults becomes its root in preferred spelling and then the segments that settle below
it, written one after another. The second description of the canonical form is one pass over the
segments with a stack, and it is the same for every path.
-/

set_option autoImplicit false

namespace PathForms

namespace Dialect

open CodeUnit

variable {α : Type} [CodeUnit α] {d : Dialect}

/-- No fault is found in the path; runs of separators are overlooked. -/
def Faultless (d : Dialect) (xs : List α) : Prop :=
  (d.kind (Leniency.strict.allowSlashRuns) xs).isValid = true

def survivors (d : Dialect) (xs : List α) : List (List α) :=
  settled (d.isRooted xs) (d.parts (d.belowRoot xs))

def orDot (rootless : Bool) (names : List (List α)) : List (List α) :=
  if names.isEmpty && rootless then [[ofByte dot]] else names

def lasting (d : Dialect) (xs : List α) : List (List α) :=
  orDot (d.rootUnits xs).isEmpty (d.survivors xs)

theorem kind_eq_form {l : Leniency} {xs : List α} {f : Form} (h : d.kind l xs = .form f) :
    f = (d.root xs).form := by
  unfold kind classify at h
  split at h
  · simp at h
  · simpa using h.symm

theorem isValid_kind_iff {l : Leniency} {xs : List α} :
    (d.kind l xs).isValid = true ↔ d.fault? l xs = none := by
  rw [kind, classify]
  cases d.fault? l xs <;> simp [Kind.isValid]

theorem fault?_eq_none_iff {l : Leniency} {xs : List α} : d.fault? l xs = none ↔
    (l.units = false → d.unitFault? (d.root xs).form xs = none) ∧
      (l.slashRuns = false → d.runFault? (d.root xs).length xs = none) := by
  unfold fault?
  dsimp only
  cases l.units <;> cases l.slashRuns <;> cases d.unitFault? (d.root xs).form xs <;> simp

theorem Faultless.kind_eq {xs : List α} (h : d.Faultless xs) :
    d.kind (Leniency.strict.allowSlashRuns) xs = .form (d.root xs).form := by
  cases hk : d.kind (Leniency.strict.allowSlashRuns) xs with
  | form f => rw [kind_eq_form hk]
  | fault x => simp [Faultless, hk, Kind.isValid] at h

theorem faultless_of_kind_eq {xs : List α} {f : Form}
    (h : d.kind (Leniency.strict.allowSlashRuns) xs = .form f) : d.Faultless xs := by
  rw [Faultless, h]
  rfl

theorem faultless_iff {xs : List α} :
    d.Faultless xs ↔ d.unitFault? (d.root xs).form xs = none := by
  rw [Faultless, isValid_kind_iff, fault?_eq_none_iff]
  simp [Leniency.strict, Leniency.allowSlashRuns]

theorem Faultless.not_hasReserved {xs : List α} (h : d.Faultless xs) (hv : d.validates = true) :
    hasReserved (d.root xs).form xs = false := by
  rw [faultless_iff, unitFault?] at h
  rw [← Bool.not_eq_true]
  intro hr
  simp only [hv, hr, Bool.not_true, Bool.false_eq_true, if_false, if_true] at h
  split at h <;> simp at h

theorem isReserved_of_isByte_colon {a : α} (h : isByte colon a = true) : isReserved a = true := by
  have hc : code a = 58 := by simpa [isByte, colon] using h
  simp [isReserved, hc]

theorem form_eq_empty_iff {xs : List α} : (d.root xs).form = .empty ↔ xs = [] := by
  constructor
  · intro h
    obtain ⟨root, below, f, rfl, hr⟩ := exists_reading (d := d) xs
    rw [hr.root_eq] at h
    cases hr with
    | empty => rfl
    | unc _ _ _ hs => cases hs <;> simp at h
    | _ => simp at h
  · rintro rfl
    rfl

theorem present_parts (xs : List α) : present (d.parts xs) = d.parts xs := by
  simp [present, parts, List.filter_filter]

theorem settled_piecesAt (rooted : Bool) (xs : List α) :
    settled rooted (piecesAt d.isSep xs) = settled rooted (d.parts xs) := by
  rw [settled_eq_stackOf, settled_eq_stackOf, present_parts]
  rfl

theorem canonical_of_not_faultless (trim : Bool) {xs : List α} (h : ¬ d.Faultless xs) :
    d.canonical trim xs = xs := by
  unfold canonical
  split
  · rfl
  · rfl
  · next hk => exact absurd (faultless_of_kind_eq hk) h

theorem canonical_nil (trim : Bool) : d.canonical trim ([] : List α) = [] := by
  unfold canonical
  split
  · rfl
  · rfl
  · next f hf hk => exact absurd (kind_eq_form hk) hf

theorem canonical_of_faultless (trim : Bool) {xs : List α} (hx : xs ≠ []) (h : d.Faultless xs) :
    d.canonical trim xs = d.rebuilt (d.root xs) trim xs := by
  unfold canonical
  split
  · next hk => rw [h.kind_eq] at hk; cases hk
  · next hk => exact absurd (form_eq_empty_iff.1 (kind_eq_form hk).symm) hx
  · rfl

theorem isSegment_dot : d.IsSegment [(ofByte dot : α)] := by
  refine ⟨by simp, fun a ha => ?_⟩
  have hc : code a = 46 := by
    rw [List.mem_singleton.1 ha, code_ofByte]
    rfl
  rw [← Bool.not_eq_true]
  intro hs
  have := code_of_isSep hs
  omega

theorem isSegment_of_mem_survivors {xs s : List α} (h : s ∈ d.survivors xs) : d.IsSegment s :=
  isSegment_of_mem_parts (mem_of_mem_settled h)

theorem isSegment_of_mem_orDot {b : Bool} {names : List (List α)}
    (h : ∀ s ∈ names, d.IsSegment s) : ∀ s ∈ orDot b names, d.IsSegment s := by
  intro s hs
  unfold orDot at hs
  split at hs
  · rw [List.mem_singleton.1 hs]
    exact isSegment_dot
  · exact h s hs

theorem isSegment_of_mem_lasting {xs s : List α} (h : s ∈ d.lasting xs) : d.IsSegment s :=
  isSegment_of_mem_orDot (fun _ => isSegment_of_mem_survivors) s h

theorem intercalate_isEmpty {names : List (List α)} (h : ∀ s ∈ names, d.IsSegment s) :
    ([d.sep].intercalate names).isEmpty = names.isEmpty := by
  have hw : d.written names false = [d.sep].intercalate names := by simp [written]
  rw [Bool.eq_iff_iff, List.isEmpty_iff, List.isEmpty_iff, ← hw, written_eq_nil_iff h]

theorem intercalate_orDot (b : Bool) (names : List (List α)) :
    [d.sep].intercalate (orDot b names) =
      if names.isEmpty && b then [ofByte dot] else [d.sep].intercalate names := by
  unfold orDot
  split
  · rw [List.intercalate_singleton]
  · rfl

theorem isEmpty_orDot (b : Bool) (names : List (List α)) :
    (orDot b names).isEmpty = (names.isEmpty && !b) := by
  cases names <;> cases b <;> rfl

theorem rebuilt_eq_written (trim : Bool) (xs : List α) :
    d.rebuilt (d.root xs) trim xs = d.respelled (d.rootUnits xs) ++
      d.written (d.lasting xs) (d.endsWithSep (d.belowRoot xs) && !trim) := by
  have hb : (d.respelled (d.rootUnits xs)).isEmpty = (d.rootUnits xs).isEmpty := by
    simp [respelled]
  let names := settled (d.isRooted xs) (piecesAt d.isSep (d.belowRoot xs))
  let body := if names.isEmpty && (d.respelled (d.rootUnits xs)).isEmpty
    then [ofByte dot] else [d.sep].intercalate names
  have hbody : body = [d.sep].intercalate (d.lasting xs) := by
    rw [lasting, intercalate_orDot, survivors, ← settled_piecesAt, ← hb]
  have hr : d.rebuilt (d.root xs) trim xs = d.respelled (d.rootUnits xs) ++ body ++
      (if d.endsWithSep (d.belowRoot xs) && !trim && !body.isEmpty then [d.sep] else []) := rfl
  rw [hr, hbody, intercalate_isEmpty (fun _ => isSegment_of_mem_lasting), List.append_assoc,
    written]

/-- A path without faults is written anew below its root. -/
theorem canonical_eq_written (trim : Bool) {xs : List α} (hx : xs ≠ []) (h : d.Faultless xs) :
    d.canonical trim xs = d.respelled (d.rootUnits xs) ++
      d.written (d.lasting xs) (d.endsWithSep (d.belowRoot xs) && !trim) := by
  rw [canonical_of_faultless trim hx h, rebuilt_eq_written]

/-- The canonical form by one pass over the non-empty pieces between separators. -/
def stackCanonical (d : Dialect) (trim : Bool) (xs : List α) : List α :=
  let kind := d.kind (Leniency.strict.allowSlashRuns) xs
  if xs.isEmpty || !kind.isValid then xs
  else
    let root := d.rootUnits xs
    let below := d.belowRoot xs
    let stack := stackOf kind.isRooted
      ((below.splitOnP d.isSep).filter (fun piece => !piece.isEmpty))
    let lone := stack.isEmpty && root.isEmpty
    root.map (fun a => if d.isSep a then d.sep else a)
      ++ (if lone then [ofByte dot] else [d.sep].intercalate stack)
      ++ (if d.endsWithSep below && !trim && (!stack.isEmpty || lone) then [d.sep] else [])

theorem stackCanonical_of_faultless (trim : Bool) {xs : List α} (hx : xs ≠ [])
    (h : d.Faultless xs) : d.stackCanonical trim xs = d.respelled (d.rootUnits xs) ++
      d.written (d.lasting xs) (d.endsWithSep (d.belowRoot xs) && !trim) := by
  have hs : stackOf (d.isRooted xs) ((List.splitOnP d.isSep (d.belowRoot xs)).filter
      (fun piece => !piece.isEmpty)) = d.survivors xs := by
    rw [survivors, settled_eq_stackOf, present_parts, parts_eq_splitOnP]
  have hm : (!(d.lasting xs).isEmpty) = (!(d.survivors xs).isEmpty ||
      ((d.survivors xs).isEmpty && (d.rootUnits xs).isEmpty)) := by
    rw [lasting, isEmpty_orDot]
    cases (d.survivors xs).isEmpty <;> cases (d.rootUnits xs).isEmpty <;> rfl
  have hv : (Kind.form (d.root xs).form).isValid = true := rfl
  simp only [stackCanonical, h.kind_eq, hv, Bool.not_true, Bool.or_false, List.isEmpty_iff, hx,
    if_false]
  rw [show (Kind.form (d.root xs).form).isRooted = d.isRooted xs from rfl, hs, written, lasting,
    intercalate_orDot, ← lasting, hm, List.append_assoc]
  rfl

theorem canonical_eq_stackCanonical (trim : Bool) (xs : List α) :
    d.canonical trim xs = d.stackCanonical trim xs := by
  by_cases hx : xs = []
  · rw [hx, canonical_nil]
    rfl
  by_cases h : d.Faultless xs
  · rw [canonical_eq_written trim hx h, stackCanonical_of_faultless trim hx h]
  · have hv : (d.kind (Leniency.strict.allowSlashRuns) xs).isValid = false := by
      simpa [Faultless] using h
    rw [canonical_of_not_faultless trim h]
    simp [stackCanonical, hv]

end Dialect

/-- Making a path canonical is one pass over its segments with a stack. -/
theorem Path.units_canonical_eq_stackCanonical {α : Type} [CodeUnit α] {d : Dialect}
    (p : Path α d) (trim : Bool) :
    (p.canonical trim).units = d.stackCanonical trim p.units := by
  rw [units_canonical, Dialect.canonical_eq_stackCanonical]

end PathForms
