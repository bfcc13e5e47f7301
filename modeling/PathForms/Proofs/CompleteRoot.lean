import PathForms.Proofs.CanonicalRoot

/-!
# Complete roots

A complete root is a volume and the separator that ends it. A volume is a drive or a share, and
nothing at all where paths name no drives. What lies below a complete root has no part in how the
root is read, so units can be replaced there, and faults are looked for on either side apart.
-/

set_option autoImplicit false

namespace PathForms.Dialect

open CodeUnit

variable {α : Type} [CodeUnit α] {d : Dialect}

/-- Whether a path without faults has a complete root. -/
def hasCompleteRoot (d : Dialect) (xs : List α) : Bool :=
  match d.kind (Leniency.strict.allowSlashRuns) xs with
  | .form .slashRooted => !d.driveLetters
  | .form .driveRooted | .form .uncRooted => true
  | _ => false

inductive Volume (d : Dialect) : List α → Form → Prop
  | bare (hl : d.driveLetters = false) : Volume d [] .slashRooted
  | drive {a b : α} (hd : d.startsWithDrive [a, b] = true) : Volume d [a, b] .driveRooted
  | share {a b c : α} {s h : List α} (hn : d.networkShares = true) (ha : d.isSep a = true)
      (hb : d.isSep b = true) (hs : d.IsSegment s) (hc : d.isSep c = true) (hh : d.IsSegment h) :
      Volume d (a :: b :: (s ++ c :: h)) .uncRooted

def Allowed (d : Dialect) (a : α) : Prop :=
  isNul a = false ∧ (d.validates = true → isReserved a = false)

theorem allowed_of_isSep {a : α} (h : d.isSep a = true) : d.Allowed a := by
  have hc := code_of_isSep h
  have hn : isNul a = false := by
    rw [isNul, isByte, beq_eq_false_iff_ne]
    rcases hc with hc | hc <;> rw [hc] <;> decide
  have hr : isReserved a = false := by
    rcases hc with hc | hc <;> rw [isReserved, hc] <;> decide
  exact ⟨hn, fun _ => hr⟩

theorem trimEnd_concat {β : Type} {p : β → Bool} {v : List β} {e : β} (he : p e = true)
    (hv : v.getLast?.any p = false) : trimEnd p (v ++ [e]) = v := by
  rw [trimEnd, List.reverse_append, List.reverse_singleton, List.singleton_append,
    List.dropWhile_cons_of_pos he]
  rcases List.eq_nil_or_concat v with rfl | ⟨zs, c, rfl⟩
  · rfl
  · have hc : p c = false := by simpa using hv
    simp [hc]

theorem unitFault?_eq_none_iff {f : Form} {xs : List α} : d.unitFault? f xs = none ↔
    xs.any isNul = false ∧ (d.validates = true → hasReserved f xs = false ∧
      (f.isUnc && d.namesDevices (xs.drop 2)) = false) := by
  unfold unitFault?
  cases xs.any isNul <;> cases d.validates <;> cases hasReserved f xs <;>
    cases f.isUnc && d.namesDevices (xs.drop 2) <;> simp

theorem forall_allowed_iff {xs : List α} : (∀ a ∈ xs, d.Allowed a) ↔
    xs.any isNul = false ∧ (d.validates = true → xs.any isReserved = false) := by
  simp only [Allowed, List.any_eq_false, Bool.not_eq_true]
  constructor
  · exact fun h => ⟨fun a ha => (h a ha).1, fun hv a ha => (h a ha).2 hv⟩
  · exact fun h a ha => ⟨h.1 a ha, fun hv => h.2 hv a ha⟩

theorem unitFault?_drive {a b : α} (hd : d.startsWithDrive [a, b] = true) :
    d.unitFault? .driveRooted [a, b] = none := by
  simp only [startsWithDrive, Bool.and_eq_true] at hd
  have hb : code b = 58 := by simpa [isByte, colon] using hd.2
  have ha : 65 ≤ code a ∧ code a ≤ 122 := by
    have hl := hd.1.2
    simp only [isDriveLetter, isUpper, isLower, Bool.or_eq_true, decide_eq_true_eq] at hl
    omega
  have hn : [a, b].any isNul = false := by
    simp [isNul, isByte, hb]
    omega
  have hr : isReserved a = false := by
    simp [isReserved]
    omega
  rw [unitFault?_eq_none_iff]
  exact ⟨hn, fun _ => ⟨by simpa [hasReserved, Form.namesDrive] using hr, rfl⟩⟩

theorem Faultless.allowed_below {root below : List α} {f : Form} (h : d.Faultless (root ++ below))
    (hr : d.Reading root below f) : ∀ a ∈ below, d.Allowed a := by
  rw [faultless_iff, hr.root_eq, unitFault?_eq_none_iff, List.any_append,
    Bool.or_eq_false_iff] at h
  refine forall_allowed_iff.2 ⟨h.1.2, fun hv => ?_⟩
  have hres := (h.2 hv).1
  unfold hasReserved at hres
  split at hres
  · next hf =>
    have hlen : 1 < root.length := by
      cases hr with
      | driveRelative => simp
      | driveRooted => simp
      | unc => simp
      | _ => cases hf
    rw [List.eraseIdx_append_of_lt_length hlen, List.any_append, Bool.or_eq_false_iff] at hres
    exact hres.2
  · rw [List.any_append, Bool.or_eq_false_iff] at hres
    exact hres.2

theorem namesDevices_append {s : List α} (hs : d.IsSegment s) (c : α) (h xs : List α) :
    d.namesDevices ((s ++ c :: h) ++ xs) = d.namesDevices (s ++ c :: h) := by
  obtain ⟨a, s, rfl⟩ := List.exists_cons_of_ne_nil hs.1
  cases s <;> simp [namesDevices, startsWithSep]

namespace Volume

variable {v below xs : List α} {f : Form} {e : α}

theorem reading (h : d.Volume v f) (he : d.isSep e = true) (below : List α) :
    d.Reading (v ++ [e]) below f := by
  cases h with
  | bare hl =>
    refine .slash he (fun hn => ?_)
    rw [driveLetters_of_networkShares hn] at hl
    cases hl
  | drive hd => exact .driveRooted hd he
  | share hn ha hb hs hc hh =>
    have hr : d.ShareReading _ below _ := .complete hs hc hh he
    simpa using Reading.unc hn ha hb hr

theorem rootUnits_eq (h : d.Volume v f) (he : d.isSep e = true) (below : List α) :
    d.rootUnits (v ++ e :: below) = v ++ [e] := by
  rw [List.append_cons, rootUnits, (h.reading he below).root_eq, List.take_left']
  rfl

theorem belowRoot_eq (h : d.Volume v f) (he : d.isSep e = true) (below : List α) :
    d.belowRoot (v ++ e :: below) = below := by
  rw [List.append_cons, belowRoot, (h.reading he below).root_eq, List.drop_left']
  rfl

theorem form_eq (h : d.Volume v f) (he : d.isSep e = true) (below : List α) :
    (d.root (v ++ e :: below)).form = f := by
  rw [List.append_cons, (h.reading he below).root_eq]

theorem endsWithSep_eq (h : d.Volume v f) :
    d.endsWithSep v = false := by
  cases h with
  | bare => rfl
  | drive hd => exact not_isSep_colon_of_startsWithDrive hd
  | @share a b c s h _ _ _ _ _ hh =>
    rw [show a :: b :: (s ++ c :: h) = (a :: b :: (s ++ [c])) ++ h by simp,
      endsWithSep_append _ hh.1, endsWithSep_segment hh]

theorem hasReserved_append (h : d.Volume v f) (xs : List α) :
    hasReserved f (v ++ xs) = (hasReserved f v || xs.any isReserved) := by
  cases h with
  | bare => rfl
  | drive => simp [hasReserved, Form.namesDrive]
  | share => exact List.any_append

theorem namesDevices_append (h : d.Volume v f) (xs : List α) :
    (f.isUnc && d.namesDevices ((v ++ xs).drop 2)) = (f.isUnc && d.namesDevices (v.drop 2)) := by
  cases h with
  | bare => rfl
  | drive => rfl
  | share _ _ _ hs => exact Dialect.namesDevices_append hs _ _ xs

theorem faultless_iff (h : d.Volume v f) (he : d.isSep e = true) :
    d.Faultless (v ++ e :: below) ↔ d.unitFault? f v = none ∧ ∀ a ∈ below, d.Allowed a := by
  have hsep : ∀ a ∈ [e], d.Allowed a := by simpa using allowed_of_isSep he
  rw [forall_allowed_iff] at hsep ⊢
  rw [Dialect.faultless_iff, h.form_eq he, unitFault?_eq_none_iff, unitFault?_eq_none_iff,
    h.hasReserved_append, h.namesDevices_append, List.any_append, List.any_cons, List.any_cons]
  simp only [List.any_cons, List.any_nil, Bool.or_false] at hsep
  rw [hsep.1, Bool.false_or, Bool.or_eq_false_iff, Bool.or_eq_false_iff]
  constructor
  · rintro ⟨⟨hv, hb⟩, hr⟩
    refine ⟨⟨hv, fun hv => ⟨(hr hv).1.1, (hr hv).2⟩⟩, hb, fun hv => ?_⟩
    exact (Bool.or_eq_false_iff.1 (hr hv).1.2).2
  · rintro ⟨⟨hv, hr⟩, hb, hbr⟩
    refine ⟨⟨hv, hb⟩, fun hv => ⟨⟨(hr hv).1, ?_⟩, (hr hv).2⟩⟩
    rw [hsep.2 hv, hbr hv]
    rfl

end Volume

theorem hasCompleteRoot_iff {xs : List α} : d.hasCompleteRoot xs = true ↔
    ∃ v f e below, xs = v ++ e :: below ∧ d.Volume v f ∧ d.isSep e = true ∧ d.Faultless xs := by
  constructor
  · intro h
    unfold hasCompleteRoot at h
    obtain ⟨root, below, f, rfl, hr⟩ := exists_reading (d := d) xs
    have hf : d.Faultless (root ++ below) := by
      split at h <;> first | exact faultless_of_kind_eq ‹_› | cases h
    rw [hf.kind_eq, hr.root_eq] at h
    cases hr with
    | @slash a _ ha _ => exact ⟨[], _, a, below, rfl, .bare (by simpa using h), ha, hf⟩
    | @driveRooted a b c _ hd hc => exact ⟨[a, b], _, c, below, rfl, .drive hd, hc, hf⟩
    | unc hn ha hb hs =>
      cases hs with
      | complete hs hc hh he =>
        exact ⟨_, _, _, below, by simp, .share hn ha hb hs hc hh, he, hf⟩
      | _ => cases h
    | _ => cases h
  · rintro ⟨v, f, e, below, rfl, hv, he, hf⟩
    rw [hasCompleteRoot, hf.kind_eq, hv.form_eq he]
    cases hv with
    | bare hl => simp [hl]
    | drive => rfl
    | share => rfl

end PathForms.Dialect
