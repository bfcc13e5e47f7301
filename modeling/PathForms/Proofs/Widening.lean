import PathForms.Proofs.MatchedRuns

/-!
# Narrow paths and wide paths

Every rule looks at a unit through its code, so a map of units that keeps codes keeps all rules. The
map that widens an octet to the 16-bit unit of the same value is one. A program on narrow paths can
then be followed on wide paths, step by step: the wide paths are the narrow ones widened, the errors
are the same, and so is all that is read off them.
-/

set_option autoImplicit false

namespace PathForms

open CodeUnit

namespace Dialect

variable {α β : Type} [CodeUnit α] [CodeUnit β]

theorem collate_eq_of_code_eq {f : α → β} (hf : ∀ a, code (f a) = code a) (d : Dialect) (a : α) :
    d.collate (f a) = d.collate a := by
  have hu : isUpper (f a) = isUpper a := by rw [isUpper, hf, isUpper]
  rw [collate, foldCase, hu, hf, collate, foldCase]
  split
  · exact hf a
  · split
    · rw [code_ofByte, code_ofByte]
    · exact hf a

theorem keepsRules_of_code_eq {f : α → β} (hf : ∀ a, code (f a) = code a) (d : Dialect) :
    d.KeepsRules f where
  isSep_eq a := by simp only [isSep, isByte, hf]
  map_sep := code_injective _ _ (by rw [hf, sep, code_ofByte, sep, code_ofByte])
  isByte_eq b _ a := by rw [isByte, hf, isByte]
  isDriveLetter_eq a := by simp only [isDriveLetter, isUpper, isLower, hf]
  isReserved_eq a := by simp only [isReserved, hf]
  collate_eq a _ := collate_eq_of_code_eq hf d a

end Dialect

def widened (xs : List UInt8) : List UInt16 := xs.map UInt8.toUInt16

def IsWidened (xs : List UInt8) (ys : List UInt16) : Prop := ys = widened xs

theorem code_toUInt16 (a : UInt8) : code a.toUInt16 = code a := UInt8.toNat_toUInt16 a

theorem isWidened_iff {xs : List UInt8} {ys : List UInt16} :
    IsWidened xs ys ↔ Matched UInt8.toUInt16 id xs ys := by
  rw [Matched, List.map_id, IsWidened, widened, eq_comm]

namespace Path

variable {d : Dialect}

/-- What is read off a narrow path becomes, widened, what is read off a wide path, and questions
about the two have the same answers. -/
structure SameReadings (p : Path UInt8 d) (q : Path UInt16 d) : Prop where
  classify (l : Leniency) : q.classify l = (p.classify l).map UInt8.toUInt16
  kind : q.kind = p.kind
  root : q.root = widened p.root
  location : q.location = widened p.location
  file : q.file = widened p.file
  stem : q.stem = widened p.stem
  extension : q.extension = widened p.extension
  components : q.components = p.components.map widened
  ancestors : q.ancestors = p.ancestors.map widened
  equal (xs : List UInt8) : q.equal (widened xs) = p.equal xs
  compare (p' : Path UInt8 d) (q' : Path UInt16 d) (h : Related IsWidened p' q') :
    q.compare q' = p.compare p'
  equivalentIn (xs : List UInt8) (base : Path UInt8 d) (base' : Path UInt16 d)
    (h : Related IsWidened base base') :
    q.equivalentIn (widened xs) base' = p.equivalentIn xs base

theorem sameReadings_of_widened {p : Path UInt8 d} {q : Path UInt16 d}
    (h : Related IsWidened p q) : SameReadings p q := by
  have hk : d.KeepsRules UInt8.toUInt16 := Dialect.keepsRules_of_code_eq code_toUInt16 d
  have hi : d.KeepsRules (id : UInt16 → UInt16) := Dialect.keepsRules_of_code_eq (fun _ => rfl) d
  have hc := Dialect.collate_eq_of_code_eq code_toUInt16 d
  have hm := isWidened_iff.1 h
  have hu : q.units = p.units.map UInt8.toUInt16 := h
  have hclass : ∀ l, q.classify l = (p.classify l).map UInt8.toUInt16 := by
    intro l
    rw [Path.classify, hu]
    exact hk.classify_map l p.units
  constructor
  case classify => exact hclass
  case kind =>
    rw [Path.kind, hu]
    exact hk.kind_map .strict p.units
  case root =>
    rw [Path.root, hu]
    exact hk.rootUnits_map p.units
  case location =>
    rw [Path.location, hclass]
    rfl
  case file =>
    rw [Path.file, hclass]
    rfl
  case stem =>
    rw [Path.stem, hclass]
    rfl
  case extension =>
    rw [Path.extension, hclass]
    rfl
  case components =>
    rw [Path.components, hu]
    exact hk.components_map p.units
  case ancestors =>
    rw [Path.ancestors, hu]
    exact hk.ancestors_map p.units
  case equal =>
    intro xs
    have hx : Matched UInt8.toUInt16 id xs (widened xs) := isWidened_iff.1 rfl
    exact congrArg Ordering.isEq (hm.compareUnits_eq hc (fun _ => rfl) hx).symm
  case compare =>
    intro p' q' h'
    exact (hm.compareUnits_eq hc (fun _ => rfl) (isWidened_iff.1 h')).symm
  case equivalentIn =>
    intro xs base base' h'
    have hx : Matched UInt8.toUInt16 id xs (widened xs) := isWidened_iff.1 rfl
    exact (equivalentIn_eq hk hi hm hc (fun _ => rfl) hx (isWidened_iff.1 h')).symm

/-- Any program on narrow paths is followed, step by step, by the same program on wide paths with
its arguments widened. After any number of steps the wide paths are the narrow ones widened and read
the same, and the next step does the same again or fails with the same error. -/
theorem run_widened {ops : List (Op UInt8)} {ops' : List (Op UInt16)}
    (ho : List.Forall₂ (Op.Alike IsWidened) ops ops') :
    let s : Session (Path UInt8 d) := run ops ⟨empty, empty⟩
    let t : Session (Path UInt16 d) := run ops' ⟨empty, empty⟩
    BothRelated IsWidened s t ∧
    (SameReadings s.current t.current ∧ SameReadings s.aside t.aside) ∧
    ∀ op op', Op.Alike IsWidened op op' →
      SameOutcome (BothRelated IsWidened) (step op s) (step op' t) := by
  intro s t
  have hr : IsWidened = Matched UInt8.toUInt16 id := by
    funext xs ys
    exact propext isWidened_iff
  have hk : d.KeepsRules UInt8.toUInt16 := Dialect.keepsRules_of_code_eq code_toUInt16 d
  have hi : d.KeepsRules (id : UInt16 → UInt16) := Dialect.keepsRules_of_code_eq (fun _ => rfl) d
  have hs : BothSound s := BothSound.run ops ⟨sound_empty, sound_empty⟩
  have ht : BothSound t := BothSound.run ops' ⟨sound_empty, sound_empty⟩
  rw [hr] at ho ⊢
  have h0 : Related (Matched UInt8.toUInt16 id) (empty : Path UInt8 d) (empty : Path UInt16 d) := rfl
  have hm : BothRelated (Matched UInt8.toUInt16 id) s t :=
    BothRelated.run hk hi ⟨sound_empty, sound_empty⟩ ⟨sound_empty, sound_empty⟩ ⟨h0, h0⟩ ho
  refine ⟨hm, ⟨?_, ?_⟩, fun op op' hop => ?_⟩
  · exact sameReadings_of_widened (isWidened_iff.2 hm.current)
  · exact sameReadings_of_widened (isWidened_iff.2 hm.aside)
  · exact sameOutcome_step hk hi hs.1.wellFormed ht.1.wellFormed hm hop

/-- A drive and a name of one accented letter, with one more pushed and its extension removed. -/
theorem run_widened_accented :
    let ops : List (Op UInt8) := [.set [67, 58, 92, 233], .push [200, 46, 255] true, .popSep,
      .popExtension]
    let ops' : List (Op UInt16) := [.set [67, 58, 92, 233], .push [200, 46, 255] true, .popSep,
      .popExtension]
    let s : Session (Path UInt8 .windows) := run ops ⟨empty, empty⟩
    let t : Session (Path UInt16 .windows) := run ops' ⟨empty, empty⟩
    s.current.units = [67, 58, 92, 233, 92, 200] ∧ t.current.units = [67, 58, 92, 233, 92, 200] ∧
      SameReadings s.current t.current := by
  intro ops ops' s t
  have ho : List.Forall₂ (Op.Alike IsWidened) ops ops' := by
    refine .cons (.set ?_) (.cons (.push ?_ true) (.cons .popSep (.cons .popExtension .nil)))
    · rfl
    · rfl
  have h := run_widened (d := .windows) ho
  have hs : s.current.units = [67, 58, 92, 233, 92, 200] := by decide
  exact ⟨hs, h.1.current.trans (congrArg widened hs), h.2.1.1⟩

end Path

end PathForms
