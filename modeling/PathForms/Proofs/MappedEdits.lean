import PathForms.Canonical
import PathForms.Edit
import PathForms.Order
import PathForms.Path.Resolution
import PathForms.Proofs.MappedReadings

/-!
# Edits of a path with other units

A map of units that keeps the rules of a dialect commutes with every edit: an edit decides where to
cut, what to keep and which separator to add by the distinctions that the map keeps, and the units
that it adds of its own are dots and separators.
-/

set_option autoImplicit false

namespace PathForms

open CodeUnit

variable {α β : Type}

theorem intercalate_map (f : α → β) (sep : List α) (names : List (List α)) :
    (sep.map f).intercalate (names.map (List.map f)) = (sep.intercalate names).map f := by
  induction names with
  | nil => rfl
  | cons name names ih =>
    cases names with
    | nil => simp
    | cons next names =>
      rw [List.map_cons] at ih
      rw [List.map_cons, List.map_cons, List.intercalate_cons_cons, ih,
        List.intercalate_cons_cons, List.map_append, List.map_append]

namespace Dialect.KeepsRules

variable [CodeUnit α] [CodeUnit β] {d : Dialect} {f : α → β} (hf : d.KeepsRules f)

include hf

theorem isLive_map (part : List α) : isLive (part.map f) = isLive part := by
  rw [isLive, List.isEmpty_map, hf.isParent_map, isLive]

theorem cancelled?_map (seen : List (List α)) : cancelled? (seen.map (List.map f)) =
    (cancelled? seen).map (List.map (List.map f)) := by
  induction seen with
  | nil => rfl
  | cons part seen ih =>
    rw [List.map_cons, cancelled?, hf.isLive_map, ih, cancelled?]
    split
    · rfl
    · simp [Function.comp_def]

theorem settle_map (rooted : Bool) (seen : List (List α)) (part : List α) :
    settle rooted (seen.map (List.map f)) (part.map f) =
      (settle rooted seen part).map (List.map f) := by
  rw [settle, hf.isSelf_map, hf.isParent_map, hf.cancelled?_map, settle]
  split
  · rfl
  · split
    · cases cancelled? seen with
      | some seen => rfl
      | none => cases rooted <;> rfl
    · rfl

theorem foldl_settle_map (rooted : Bool) (seen parts : List (List α)) :
    (parts.map (List.map f)).foldl (settle rooted) (seen.map (List.map f)) =
      (parts.foldl (settle rooted) seen).map (List.map f) := by
  induction parts generalizing seen with
  | nil => rfl
  | cons part parts ih =>
    rw [List.map_cons, List.foldl_cons, hf.settle_map, ih, List.foldl_cons]

theorem settled_map (rooted : Bool) (parts : List (List α)) :
    settled rooted (parts.map (List.map f)) = (settled rooted parts).map (List.map f) := by
  have hfold : (parts.map (List.map f)).foldl (settle rooted) [] =
      (parts.foldl (settle rooted) []).map (List.map f) := hf.foldl_settle_map rooted [] parts
  have he : (fun part : List β => !part.isEmpty) ∘ List.map f = fun part => !part.isEmpty := by
    funext part
    simp
  rw [settled, hfold, ← List.map_reverse, List.filter_map, he, settled]

theorem rebuilt_map (r : Root) (trim : Bool) (xs : List α) :
    d.rebuilt r trim (xs.map f) = (d.rebuilt r trim xs).map f := by
  have hi : ∀ names : List (List α), ([d.sep] : List β).intercalate (names.map (List.map f)) =
      ([d.sep].intercalate names).map f := by
    intro names
    rw [← intercalate_map, List.map_singleton, hf.map_sep]
  have hb : ∀ (b : Bool) (xs : List α), (if b then [ofByte dot] else xs.map f) =
      (if b then [ofByte dot] else xs).map f := by
    intro b xs
    cases b with
    | false => rfl
    | true => rw [if_pos rfl, if_pos rfl, List.map_singleton, hf.map_dot]
  have hm : ∀ b : Bool, (if b then [d.sep] else []) = (if b then [d.sep] else []).map f := by
    intro b
    cases b with
    | false => rfl
    | true => rw [if_pos rfl, if_pos rfl, List.map_singleton, hf.map_sep]
  simp only [rebuilt, ← List.map_take, ← List.map_drop, hf.respelled_map, hf.piecesAt_isSep_map,
    hf.settled_map, hf.endsWithSep_map, List.isEmpty_map, hi, hb, hm, List.map_append]

theorem canonical_map (trim : Bool) (xs : List α) :
    d.canonical trim (xs.map f) = (d.canonical trim xs).map f := by
  rw [canonical, hf.kind_map, hf.root_map, hf.rebuilt_map, canonical]
  split <;> rfl

theorem isBareDrive_map (xs : List α) : d.isBareDrive (xs.map f) = d.isBareDrive xs := by
  rw [isBareDrive, hf.root_map, List.length_map, isBareDrive]

theorem volume_map (xs : List α) : d.volume (xs.map f) = (d.volume xs).map f := by
  rw [volume, hf.rootUnits_map, hf.trimSeps_map, volume]

theorem joined_map (xs segment : List α) :
    d.joined (xs.map f) (segment.map f) = (d.joined xs segment).map f := by
  simp only [joined, hf.root_map, hf.isAbsolute_map, hf.isBareDrive_map, hf.volume_map,
    hf.ensureSep_map, ← List.map_append]
  repeat' split
  all_goals rfl

theorem pushed_map (withSep : Bool) (xs segment : List α) :
    d.pushed withSep (xs.map f) (segment.map f) = (d.pushed withSep xs segment).map f := by
  rw [pushed, hf.joined_map, hf.ensureSep_map, pushed]
  cases withSep <;> rfl

theorem extended?_map (withSep : Bool) (xs ext : List α) :
    d.extended? withSep (xs.map f) (ext.map f) =
      (d.extended? withSep xs ext).map (List.map f) := by
  have hh : (ext.map f).head?.any isDot = ext.head?.any isDot := by
    simp only [List.head?_map, Option.any_map, hf.isDot_eq]
  have hd : (if ext.head?.any isDot then ext.map f else ofByte dot :: ext.map f) =
      (if ext.head?.any isDot then ext else ofByte dot :: ext).map f := by
    split
    · rfl
    · rw [List.map_cons, hf.map_dot]
  simp only [extended?, hf.root_map, hf.trimSeps_map, List.length_map, hh, hd, ← List.map_append,
    hf.ensureSep_map]
  split
  · rfl
  · cases withSep <;> rfl

theorem poppedLength_map (trim : Bool) (xs : List α) :
    d.poppedLength trim (xs.map f) = d.poppedLength trim xs := by
  simp only [poppedLength, hf.slices_map, Slices.map, List.length_map, List.isEmpty_map,
    ← List.map_take, ← List.map_drop, hf.trimSeps_map, hf.trimEnd_isSep_map,
    hf.throughLast_isSep_map]

theorem withoutSepsLength_map (xs : List α) :
    d.withoutSepsLength (xs.map f) = d.withoutSepsLength xs := by
  rw [withoutSepsLength, hf.root_map, hf.trimSeps_map, List.length_map, withoutSepsLength]

theorem withoutExtensionLength_map (xs : List α) :
    d.withoutExtensionLength (xs.map f) = d.withoutExtensionLength xs := by
  simp only [withoutExtensionLength, hf.slices_map, Slices.map, List.length_map]

theorem needsBase_map (xs : List α) : d.needsBase (xs.map f) = d.needsBase xs := by
  rw [needsBase, hf.kind_map, needsBase]

theorem map_collate_take_two {xs : List α} (hx : d.startsWithDrive xs = true) :
    ((xs.take 2).map f).map d.collate = (xs.take 2).map d.collate := by
  match xs with
  | [] => cases hx
  | [_] => cases hx
  | a :: b :: xs =>
    simp only [startsWithDrive, Bool.and_eq_true] at hx
    have ha := hf.collate_eq a (not_isSep_of_isDriveLetter hx.1.2)
    have hb := hf.collate_eq b (not_isSep_of_isByte_colon hx.2)
    simp [ha, hb]

theorem compareFirst_two_map {xs ys : List α} (hx : d.startsWithDrive xs = true)
    (hy : d.startsWithDrive ys = true) :
    d.compareFirst 2 (xs.map f) (ys.map f) = d.compareFirst 2 xs ys := by
  rw [compareFirst, compareUnits, ← List.map_take, ← List.map_take, hf.map_collate_take_two hx,
    hf.map_collate_take_two hy, compareFirst, compareUnits]

end Dialect.KeepsRules

end PathForms
