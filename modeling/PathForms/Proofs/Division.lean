import PathForms.Proofs.StrictValidity

/-!
# Dividing a path

Classification finds the root, the last separator behind it and the last dot behind that in three
searches of their own. The slices between these places are the whole path, each unit in one of them.
A fault keeps a path from being divided, and to overlook more faults never moves a slice.
-/

set_option autoImplicit false

namespace PathForms

open CodeUnit

variable {α : Type} [CodeUnit α]

instance : LE Leniency :=
  ⟨fun l l' => (l.slashRuns = true → l'.slashRuns = true) ∧ (l.units = true → l'.units = true)⟩

/-- How a name divides into a stem and an extension. -/
inductive NameDivision : List α → List α → Prop
  | whole {name : List α}
      (h : (∀ a ∈ name, isDot a = true) ∨ ∀ a ∈ name.drop 1, isDot a = false) :
      NameDivision name []
  | dotted {stem suffix : List α} {c : α} (hc : isDot c = true)
      (hlast : ∀ a ∈ suffix, isDot a = false) (hstem : stem ≠ [])
      (hname : ∃ a ∈ stem ++ c :: suffix, isDot a = false) : NameDivision stem (c :: suffix)

theorem extension_eq_nil {name : List α}
    (h : (∀ a ∈ name, isDot a = true) ∨ (throughLast isDot name).length ≤ 1) :
    extension name = [] := by
  refine if_pos ?_
  rw [Bool.or_eq_true, List.all_eq_true, decide_eq_true_eq]
  exact h

theorem extension_dotted {stem suffix : List α} {c : α} (hstem : stem ≠ [])
    (hname : ∃ a ∈ stem ++ c :: suffix, isDot a = false)
    (hthrough : throughLast isDot (stem ++ c :: suffix) = stem ++ [c]) :
    extension (stem ++ c :: suffix) = c :: suffix := by
  have hall : (stem ++ c :: suffix).all isDot = false := by
    obtain ⟨a, ha, hd⟩ := hname
    exact List.all_eq_false.2 ⟨a, ha, by simp [hd]⟩
  have hlen := List.length_pos_iff.2 hstem
  unfold extension
  rw [hthrough, hall]
  simp [Nat.not_le.2 hlen]

theorem exists_nameDivision (name : List α) :
    ∃ stem, name = stem ++ extension name ∧ NameDivision stem (extension name) := by
  by_cases hdots : ∀ a ∈ name, isDot a = true
  · rw [extension_eq_nil (Or.inl hdots)]
    exact ⟨name, (List.append_nil name).symm, .whole (Or.inl hdots)⟩
  have hname : ∃ a ∈ name, isDot a = false := by simpa using hdots
  have hx := throughLast_append_afterLast isDot name
  have hlast : ∀ a ∈ afterLast isDot name, isDot a = false := fun _ => not_of_mem_afterLast
  rcases throughLast_eq_nil_or_concat isDot name with hthrough | ⟨stem, c, hthrough, hc⟩
  · -- no dot at all
    rw [extension_eq_nil (Or.inr (by simp [hthrough]))]
    rw [hthrough, List.nil_append] at hx
    rw [hx] at hlast
    exact ⟨name, (List.append_nil name).symm,
      .whole (Or.inr fun a ha => hlast a (List.mem_of_mem_drop ha))⟩
  · generalize afterLast isDot name = suffix at hx hlast
    rw [hthrough, List.append_assoc, List.singleton_append] at hx
    by_cases hstem : stem = []
    · -- the last dot is the first unit
      subst hstem
      rw [extension_eq_nil (Or.inr (by simp [hthrough]))]
      refine ⟨name, (List.append_nil name).symm, .whole (Or.inr ?_)⟩
      rw [← hx]
      exact hlast
    · subst hx
      rw [extension_dotted hstem hname hthrough]
      exact ⟨stem, rfl, .dotted hc hlast hstem hname⟩

theorem take_append_extension (name : List α) :
    name.take (name.length - (extension name).length) ++ extension name = name ∧
      NameDivision (name.take (name.length - (extension name).length)) (extension name) := by
  obtain ⟨stem, hx, hd⟩ := exists_nameDivision name
  have htake : name.take (name.length - (extension name).length) = stem := by
    generalize extension name = ext at hx
    rw [hx, List.length_append, Nat.add_sub_cancel, List.take_left]
  rw [htake]
  exact ⟨hx.symm, hd⟩

namespace Dialect

variable {d : Dialect} {l l' : Leniency} {xs : List α}

theorem classify_of_fault?_eq_none (h : d.fault? l xs = none) :
    d.classify l xs = ⟨.form (d.root xs).form, d.slices xs⟩ := by
  rw [classify, h]

theorem fault?_eq_none_of_le (h : l ≤ l') (hx : d.fault? l xs = none) :
    d.fault? l' xs = none := by
  obtain ⟨hruns, hunits⟩ := h
  rw [fault?_eq_none_iff] at hx ⊢
  refine ⟨fun hl => hx.1 ?_, fun hl => hx.2 ?_⟩
  · exact Bool.eq_false_iff.2 fun he => Bool.eq_false_iff.1 hl (hunits he)
  · exact Bool.eq_false_iff.2 fun he => Bool.eq_false_iff.1 hl (hruns he)

theorem fault?_lenient (xs : List α) : d.fault? .lenient xs = none := rfl

/-- The slices of a path without faults: together they are the path, the entry lies behind the last
separator, and the extension at the last dot of the entry. -/
structure Divides (d : Dialect) (xs : List α) (c : Classification α) : Prop where
  kind_eq : c.kind = .form (d.root xs).form
  root_eq : c.slices.root = xs.take (d.root xs).length
  units_eq : c.slices.root ++ c.slices.directory ++ c.slices.entry = xs
  location_eq : c.slices.location = c.slices.root ++ c.slices.directory
  entry_eq : c.slices.stem ++ c.slices.extension = c.slices.entry
  directory : c.slices.directory = [] ∨ d.endsWithSep c.slices.directory = true
  entry : ∀ a ∈ c.slices.entry, d.isSep a = false
  name : NameDivision c.slices.stem c.slices.extension

theorem root_append_directory_append_entry (xs : List α) :
    (d.slices xs).root ++ (d.slices xs).directory ++ (d.slices xs).entry = xs := by
  have h := throughLast_append_afterLast d.isSep (xs.drop (d.root xs).length)
  calc xs.take (d.root xs).length ++ throughLast d.isSep (xs.drop (d.root xs).length) ++
        afterLast d.isSep (xs.drop (d.root xs).length)
      = xs.take (d.root xs).length ++ xs.drop (d.root xs).length := by rw [List.append_assoc, h]
    _ = xs := List.take_append_drop _ _

theorem location_slices (xs : List α) :
    (d.slices xs).location = (d.slices xs).root ++ (d.slices xs).directory := by
  have h : (xs.drop (d.root xs).length).take (d.slices xs).directory.length =
      (d.slices xs).directory := by
    rw [← throughLast_append_afterLast d.isSep (xs.drop (d.root xs).length)]
    exact List.take_left
  calc (d.slices xs).location
      = xs.take ((d.root xs).length + (d.slices xs).directory.length) := rfl
    _ = xs.take (d.root xs).length ++ (d.slices xs).directory := by rw [List.take_add, h]

theorem divides_slices (xs : List α) :
    d.Divides xs ⟨.form (d.root xs).form, d.slices xs⟩ where
  kind_eq := rfl
  root_eq := rfl
  units_eq := root_append_directory_append_entry xs
  location_eq := location_slices xs
  entry_eq := (take_append_extension _).1
  directory := throughLast_isSep _
  entry _ := not_of_mem_afterLast
  name := (take_append_extension _).2

/-- A valid path is divided without loss, and a path with a fault is not divided. A reader who
overlooks every fault finds none, and to overlook more changes nothing about a path that is valid
already. -/
theorem divides_classify (d : Dialect) (l : Leniency) (xs : List α) :
    ((d.kind l xs).isValid = true → d.Divides xs (d.classify l xs)) ∧
    ((d.kind l xs).isValid = false → (d.classify l xs).slices = {}) ∧
    (d.kind .lenient xs).isValid = true ∧
    ∀ l', l ≤ l' → (d.kind l xs).isValid = true → d.classify l' xs = d.classify l xs := by
  refine ⟨fun h => ?_, fun h => ?_, ?_, fun l' hl h => ?_⟩
  · rw [classify_of_fault?_eq_none (isValid_kind_iff.1 h)]
    exact divides_slices xs
  · have hf : d.fault? l xs ≠ none := by
      rw [← isValid_kind_iff.ne, h]
      exact Bool.false_ne_true
    obtain ⟨x, hx⟩ := Option.ne_none_iff_exists'.1 hf
    rw [classify, hx]
  · exact isValid_kind_iff.2 (fault?_lenient xs)
  · have hf := isValid_kind_iff.1 h
    rw [classify_of_fault?_eq_none hf, classify_of_fault?_eq_none (fault?_eq_none_of_le hl hf)]

/-- The name in `C:a\.b.c` begins with a dot, and `a\\b` has a run of separators. -/
theorem divides_classify_hidden :
    windows.Divides ([67, 58, 97, 92, 46, 98, 46, 99] : List UInt8)
      (windows.classify .strict [67, 58, 97, 92, 46, 98, 46, 99]) ∧
    windows.classify .lenient ([67, 58, 97, 92, 46, 98, 46, 99] : List UInt8) =
      windows.classify .strict [67, 58, 97, 92, 46, 98, 46, 99] ∧
    (windows.classify .strict ([97, 92, 92, 98] : List UInt8)).slices = {} := by
  have hname := divides_classify windows .strict ([67, 58, 97, 92, 46, 98, 46, 99] : List UInt8)
  have hrun := divides_classify windows .strict ([97, 92, 92, 98] : List UInt8)
  have hle : Leniency.strict ≤ .lenient := ⟨fun _ => rfl, fun _ => rfl⟩
  exact ⟨hname.1 (by decide), hname.2.2.2 .lenient hle (by decide), hrun.2.1 (by decide)⟩

end Dialect

end PathForms
