import PathForms.Order
import PathForms.Proofs.RootGrammar

/-!
# Maps of units

The rules of a dialect make few distinctions between units: which of them separate, which are dots,
colons, tildes, drive letters, reserved or the terminator. A map of units that keeps these
distinctions commutes with every reading of a path, since a reading only cuts the path at places
that they determine. Two paths that such maps send to the same units are therefore read alike.
-/

set_option autoImplicit false

namespace PathForms

open CodeUnit

variable {α β : Type}

theorem trimEnd_map (p : β → Bool) (f : α → β) (xs : List α) :
    trimEnd p (xs.map f) = (trimEnd (p ∘ f) xs).map f := by
  rw [trimEnd, ← List.map_reverse, List.dropWhile_map, ← List.map_reverse, trimEnd]

theorem throughLast_map (p : β → Bool) (f : α → β) (xs : List α) :
    throughLast p (xs.map f) = (throughLast (p ∘ f) xs).map f :=
  trimEnd_map _ f xs

theorem afterLast_map (p : β → Bool) (f : α → β) (xs : List α) :
    afterLast p (xs.map f) = (afterLast (p ∘ f) xs).map f := by
  rw [afterLast, ← List.map_reverse, List.takeWhile_map, ← List.map_reverse, afterLast]
  rfl

theorem piecesAt_cons (p : α → Bool) (a : α) (xs : List α) : piecesAt p (a :: xs) =
    if p a then [] :: piecesAt p xs
    else match piecesAt p xs with
      | [] => [[a]]
      | piece :: later => (a :: piece) :: later := rfl

theorem piecesAt_map (p : β → Bool) (f : α → β) (xs : List α) :
    piecesAt p (xs.map f) = (piecesAt (p ∘ f) xs).map (List.map f) := by
  induction xs with
  | nil => rfl
  | cons a xs ih =>
    rw [List.map_cons, piecesAt_cons, piecesAt_cons, ih, Function.comp_apply]
    by_cases ha : p (f a) = true
    · rw [if_pos ha, if_pos ha]
      rfl
    · rw [if_neg ha, if_neg ha]
      cases piecesAt (p ∘ f) xs <;> rfl

theorem eq_of_moves_within {f : α → α} {c p : α → Bool}
    (hf : ∀ a, f a = a ∨ c a = true ∧ c (f a) = true) (hp : ∀ a, c a = true → p a = false)
    (a : α) : p (f a) = p a := by
  rcases hf a with h | ⟨h, h'⟩
  · rw [h]
  · rw [hp a h, hp _ h']

namespace Dialect

variable [CodeUnit α] [CodeUnit β]

theorem code_of_isReserved {a : α} (h : isReserved a = true) :
    code a < 32 ∨ code a = 60 ∨ code a = 62 ∨ code a = 34 ∨ code a = 124 ∨ code a = 63 ∨
      code a = 42 ∨ code a = 58 := by
  simpa [isReserved] using h

/-- A map of units that keeps all that the rules of a dialect tell apart. What tells two drives
apart is the letter, so the comparison of units is kept for all units but separators. -/
structure KeepsRules (d : Dialect) (f : α → β) : Prop where
  isSep_eq (a : α) : d.isSep (f a) = d.isSep a
  map_sep : f d.sep = d.sep
  isByte_eq (b : UInt8) (hb : b ∈ [0, dot, colon, tilde]) (a : α) : isByte b (f a) = isByte b a
  isDriveLetter_eq (a : α) : isDriveLetter (f a) = isDriveLetter a
  isReserved_eq (a : α) : isReserved (f a) = isReserved a
  collate_eq (a : α) (ha : d.isSep a = false) : d.collate (f a) = d.collate a

namespace KeepsRules

variable {d : Dialect} {f : α → β} (hf : d.KeepsRules f)

include hf

theorem isSep_comp : d.isSep ∘ f = d.isSep := funext hf.isSep_eq

theorem not_isSep_comp : (fun a => !d.isSep a) ∘ f = fun a => !d.isSep a :=
  funext fun a => congrArg not (hf.isSep_eq a)

theorem isNul_eq (a : α) : isNul (f a) = isNul a := hf.isByte_eq 0 (by simp) a

theorem isDot_eq (a : α) : isDot (f a) = isDot a := hf.isByte_eq dot (by simp) a

theorem isDot_comp : isDot ∘ f = isDot := funext hf.isDot_eq

theorem isColon_eq (a : α) : isByte colon (f a) = isByte colon a :=
  hf.isByte_eq colon (by simp) a

theorem isTilde_eq (a : α) : isByte tilde (f a) = isByte tilde a :=
  hf.isByte_eq tilde (by simp) a

theorem map_dot : f (ofByte dot) = ofByte dot := by
  rw [← isByte_iff, ← isDot, hf.isDot_eq]
  exact isByte_iff.2 rfl

theorem startsWithSep_map (xs : List α) : d.startsWithSep (xs.map f) = d.startsWithSep xs := by
  simp only [startsWithSep, List.head?_map, Option.any_map, hf.isSep_eq]

theorem endsWithSep_map (xs : List α) : d.endsWithSep (xs.map f) = d.endsWithSep xs := by
  simp only [endsWithSep, List.getLast?_map, Option.any_map, hf.isSep_eq]

theorem trimEnd_isSep_map (xs : List α) :
    trimEnd d.isSep (xs.map f) = (trimEnd d.isSep xs).map f := by
  rw [trimEnd_map, hf.isSep_comp]

theorem throughLast_isSep_map (xs : List α) :
    throughLast d.isSep (xs.map f) = (throughLast d.isSep xs).map f := by
  rw [throughLast_map, hf.isSep_comp]

theorem afterLast_isSep_map (xs : List α) :
    afterLast d.isSep (xs.map f) = (afterLast d.isSep xs).map f := by
  rw [afterLast_map, hf.isSep_comp]

theorem piecesAt_isSep_map (xs : List α) :
    piecesAt d.isSep (xs.map f) = (piecesAt d.isSep xs).map (List.map f) := by
  rw [piecesAt_map, hf.isSep_comp]

theorem trimSeps_map (n : Nat) (xs : List α) :
    d.trimSeps n (xs.map f) = (d.trimSeps n xs).map f := by
  rw [trimSeps, ← List.map_take, ← List.map_drop, hf.trimEnd_isSep_map, ← List.map_append,
    trimSeps]

theorem sepLike_map (xs : List α) : d.sepLike (xs.map f) = f (d.sepLike xs) := by
  rw [sepLike, List.find?_map, hf.isSep_comp, sepLike]
  cases xs.find? d.isSep with
  | none => exact hf.map_sep.symm
  | some a => rfl

theorem ensureSep_map (xs : List α) : d.ensureSep (xs.map f) = (d.ensureSep xs).map f := by
  rw [ensureSep, List.isEmpty_map, hf.endsWithSep_map, hf.sepLike_map, ensureSep]
  split
  · rfl
  · rw [List.map_append, List.map_singleton]

theorem respell_eq (a : α) : d.respell (f a) = f (d.respell a) := by
  rw [respell, hf.isSep_eq, respell]
  split
  · exact hf.map_sep.symm
  · rfl

theorem respelled_map (xs : List α) : d.respelled (xs.map f) = (d.respelled xs).map f := by
  rw [respelled, respelled, List.map_map, List.map_map]
  exact List.map_congr_left fun a _ => hf.respell_eq a

theorem length_parts_map (xs : List α) : (d.parts (xs.map f)).length = (d.parts xs).length := by
  rw [parts, hf.piecesAt_isSep_map, List.filter_map, List.length_map, parts]
  congr 2
  funext piece
  simp

theorem isSelf_map (xs : List α) : isSelf (xs.map f) = isSelf xs := by
  match xs with
  | [] => rfl
  | [a] => exact hf.isDot_eq a
  | _ :: _ :: _ => rfl

theorem isParent_map (xs : List α) : isParent (xs.map f) = isParent xs := by
  match xs with
  | [] => rfl
  | [_] => rfl
  | [a, b] => simp [isParent, hf.isDot_eq]
  | _ :: _ :: _ :: _ => rfl

theorem startsWithDrive_map (xs : List α) :
    d.startsWithDrive (xs.map f) = d.startsWithDrive xs := by
  match xs with
  | [] => rfl
  | [_] => rfl
  | a :: b :: xs => simp [startsWithDrive, hf.isDriveLetter_eq, hf.isColon_eq]

theorem takeWhile_not_isSep_map (xs : List α) : (xs.map f).takeWhile (fun a => !d.isSep a) =
    (xs.takeWhile fun a => !d.isSep a).map f := by
  rw [List.takeWhile_map, hf.not_isSep_comp]

theorem dropWhile_not_isSep_map (xs : List α) : (xs.map f).dropWhile (fun a => !d.isSep a) =
    (xs.dropWhile fun a => !d.isSep a).map f := by
  rw [List.dropWhile_map, hf.not_isSep_comp]

theorem uncRoot_map (xs : List α) : d.uncRoot (xs.map f) = d.uncRoot xs := by
  simp only [uncRoot, hf.takeWhile_not_isSep_map, hf.dropWhile_not_isSep_map, List.length_map,
    List.isEmpty_map]
  cases xs.dropWhile (fun a => !d.isSep a) with
  | nil => rfl
  | cons c rest =>
    simp only [List.map_cons, hf.takeWhile_not_isSep_map, hf.dropWhile_not_isSep_map,
      List.length_map, List.isEmpty_map]
    cases rest.dropWhile (fun a => !d.isSep a) <;> rfl

theorem root_map (xs : List α) : d.root (xs.map f) = d.root xs := by
  cases xs with
  | nil => rfl
  | cons a xs =>
    have hd : d.startsWithDrive (f a :: xs.map f) = d.startsWithDrive (a :: xs) :=
      hf.startsWithDrive_map (a :: xs)
    simp only [List.map_cons, root, hd, ← List.map_drop, hf.isSep_eq, hf.uncRoot_map,
      hf.startsWithSep_map, hf.isTilde_eq, List.isEmpty_map]

theorem isAbsolute_map (xs : List α) : d.isAbsolute (xs.map f) = d.isAbsolute xs := by
  rw [isAbsolute, hf.root_map, isAbsolute]

theorem rootUnits_map (xs : List α) : d.rootUnits (xs.map f) = (d.rootUnits xs).map f := by
  rw [rootUnits, hf.root_map, ← List.map_take, rootUnits]

end KeepsRules

end Dialect

end PathForms
