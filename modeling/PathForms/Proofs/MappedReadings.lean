import Mathlib.Data.List.InsertIdx
import PathForms.Classification
import PathForms.Proofs.Components
import PathForms.Proofs.UnitMaps

/-!
# What is read off a path with other units

A map of units that keeps the rules of a dialect commutes with the classification of a path and with
the walk along it. Faults are found in the same order, slices are cut at the same places, and the
walk makes the same stops.
-/

set_option autoImplicit false

namespace PathForms

open CodeUnit

variable {α β γ : Type}

def Slices.map (f : α → β) (s : Slices α) : Slices β where
  root := s.root.map f
  location := s.location.map f
  directory := s.directory.map f
  entry := s.entry.map f
  stem := s.stem.map f
  extension := s.extension.map f
  partCount := s.partCount

def Classification.map (f : α → β) (c : Classification α) : Classification β :=
  ⟨c.kind, c.slices.map f⟩

def Cursor.map (f : α → β) (c : Cursor α) : Cursor β := ⟨c.passed, c.ahead.map f⟩

structure SameShape (c : Classification α) (c' : Classification β) : Prop where
  kind_eq : c.kind = c'.kind
  root : c.slices.root.length = c'.slices.root.length
  location : c.slices.location.length = c'.slices.location.length
  directory : c.slices.directory.length = c'.slices.directory.length
  entry : c.slices.entry.length = c'.slices.entry.length
  stem : c.slices.stem.length = c'.slices.stem.length
  extension : c.slices.extension.length = c'.slices.extension.length
  partCount_eq : c.slices.partCount = c'.slices.partCount

theorem sameShape_map (f : α → β) (c : Classification α) : SameShape c (c.map f) := by
  constructor <;> simp [Classification.map, Slices.map]

theorem SameShape.trans_symm {c : Classification α} {c' : Classification β} {e : Classification γ}
    (h : SameShape c e) (h' : SameShape c' e) : SameShape c c' where
  kind_eq := h.kind_eq.trans h'.kind_eq.symm
  root := h.root.trans h'.root.symm
  location := h.location.trans h'.location.symm
  directory := h.directory.trans h'.directory.symm
  entry := h.entry.trans h'.entry.symm
  stem := h.stem.trans h'.stem.symm
  extension := h.extension.trans h'.extension.symm
  partCount_eq := h.partCount_eq.trans h'.partCount_eq.symm

namespace Dialect.KeepsRules

variable [CodeUnit α] [CodeUnit β] {d : Dialect} {f : α → β} (hf : d.KeepsRules f)

include hf

theorem extension_map (xs : List α) : extension (xs.map f) = (extension xs).map f := by
  have ha : (xs.map f).all isDot = xs.all isDot := by
    rw [List.all_map, hf.isDot_comp]
  simp only [extension, ha, throughLast_map, hf.isDot_comp, List.length_map]
  split
  · rfl
  · rw [List.map_drop]

theorem any_isNul_map (xs : List α) : (xs.map f).any isNul = xs.any isNul := by
  simp only [List.any_map, Function.comp_def, hf.isNul_eq]

theorem hasReserved_map (form : Form) (xs : List α) :
    hasReserved form (xs.map f) = hasReserved form xs := by
  have h : ∀ ys : List α, (ys.map f).any isReserved = ys.any isReserved := by
    intro ys
    simp only [List.any_map, Function.comp_def, hf.isReserved_eq]
  unfold hasReserved
  split
  · rw [List.eraseIdx_map, h]
  · exact h xs

theorem namesDevices_map (xs : List α) : d.namesDevices (xs.map f) = d.namesDevices xs := by
  cases xs with
  | nil => rfl
  | cons a xs =>
    simp only [List.map_cons, namesDevices, hf.isDot_eq, List.isEmpty_map, hf.startsWithSep_map]

theorem hasSepPair_map (xs : List α) : d.hasSepPair (xs.map f) = d.hasSepPair xs := by
  induction xs with
  | nil => rfl
  | cons a xs ih =>
    cases xs with
    | nil => rfl
    | cons b xs =>
      rw [List.map_cons] at ih
      rw [List.map_cons, List.map_cons, hasSepPair, ih, hf.isSep_eq, hf.isSep_eq, hasSepPair]

theorem unitFault?_map (form : Form) (xs : List α) :
    d.unitFault? form (xs.map f) = d.unitFault? form xs := by
  simp only [unitFault?, hf.any_isNul_map, hf.hasReserved_map, ← List.map_drop,
    hf.namesDevices_map]

theorem fault?_map (l : Leniency) (xs : List α) : d.fault? l (xs.map f) = d.fault? l xs := by
  simp only [fault?, hf.root_map, hf.unitFault?_map, runFault?, ← List.map_drop,
    hf.hasSepPair_map]

theorem slices_map (xs : List α) : d.slices (xs.map f) = (d.slices xs).map f := by
  simp only [slices, Slices.map, hf.root_map, ← List.map_take, ← List.map_drop,
    hf.throughLast_isSep_map, hf.afterLast_isSep_map, hf.extension_map, hf.length_parts_map,
    List.length_map]

theorem classify_map (l : Leniency) (xs : List α) :
    d.classify l (xs.map f) = (d.classify l xs).map f := by
  unfold classify
  rw [hf.fault?_map, hf.root_map, hf.slices_map]
  cases d.fault? l xs <;> rfl

theorem kind_map (l : Leniency) (xs : List α) : d.kind l (xs.map f) = d.kind l xs := by
  rw [kind, hf.classify_map]
  rfl

theorem nextPart_map (c : Cursor α) : (c.map f).nextPart d =
    ((c.nextPart d).1.map (List.map f), (c.nextPart d).2.map f) := by
  have hd : ∀ xs : List α, (xs.map f).dropWhile d.isSep = (xs.dropWhile d.isSep).map f := by
    intro xs
    rw [List.dropWhile_map, hf.isSep_comp]
  simp only [Cursor.nextPart, Cursor.map, hd, hf.takeWhile_not_isSep_map, List.length_map,
    List.isEmpty_map]
  split
  · rfl
  · rw [← List.map_drop]
    rfl

theorem next_map (c : Cursor α) : (c.map f).next d =
    ((c.next d).1.map (List.map f), (c.next d).2.map f) := by
  have hr : (c.map f).rootAhead d = c.rootAhead d := by
    simp only [Cursor.rootAhead, Cursor.map, hf.root_map]
  rw [Cursor.next, hr, hf.nextPart_map, Cursor.next]
  split
  · simp [Cursor.map, List.map_take, List.map_drop]
  · rfl

theorem stops_map (c : Cursor α) : (c.map f).stops d =
    (c.stops d).map fun stop => (stop.1.map f, stop.2) := by
  -- the walk recurses on the cursor that `next` leaves, so the induction is on what lies ahead
  induction hn : c.ahead.length using Nat.strong_induction_on generalizing c with
  | _ n ih =>
    have hmap := hf.next_map c
    cases hc : c.next d with
    | mk found onward =>
      rw [hc] at hmap
      cases found with
      | none =>
        rw [Cursor.stops_of_none (by rw [hmap]; rfl), Cursor.stops_of_none (by rw [hc])]
        rfl
      | some part =>
        have hlt := Cursor.length_ahead_next_lt (congrArg Prod.fst hc)
        rw [hc, hn] at hlt
        rw [Cursor.stops_of_some hmap, Cursor.stops_of_some hc, ih _ hlt onward rfl]
        rfl

theorem components_map (xs : List α) :
    d.components (xs.map f) = (d.components xs).map (List.map f) := by
  have hs : Cursor.start (xs.map f) = (Cursor.start xs).map f := rfl
  rw [components, hs, hf.stops_map, components, List.map_map, List.map_map]
  rfl

theorem ancestors_map (xs : List α) :
    d.ancestors (xs.map f) = (d.ancestors xs).map (List.map f) := by
  have hs : Cursor.start (xs.map f) = (Cursor.start xs).map f := rfl
  rw [ancestors, hs, hf.stops_map, ancestors, List.map_map, List.map_map]
  refine List.map_congr_left fun stop _ => ?_
  simp [List.map_take]

end Dialect.KeepsRules

end PathForms
