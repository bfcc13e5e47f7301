import PathForms.Proofs.JoinCanonical
import PathForms.Proofs.SeparatorSpelling
import PathForms.Proofs.StrictValidity

/-!
# Canonical paths are valid

The canonical form is written by one rule and judged by another, which reads its root anew. They
agree: what is written has single preferred separators, units that the path had or that are always
allowed, and no lone dot that could be taken for a server. So no fault is left, even if the root is
now read as another one.
-/

set_option autoImplicit false

namespace PathForms

namespace Dialect

open CodeUnit

variable {α : Type} [CodeUnit α] {d : Dialect} {xs ys root below : List α} {f : Form}

theorem Reading.hasSepPair_drop_one (h : d.Reading root below f) :
    d.hasSepPair (root.drop 1) = false := by
  cases h with
  | @driveRooted a b c _ hd =>
    have hb := not_isSep_colon_of_startsWithDrive hd
    simp [hasSepPair, hb]
  | @unc a b rest _ _ _ _ _ h => exact h.hasSepPair_cons b
  | _ => rfl

theorem startsWithPair_of_not_startsWithSep (h : d.startsWithSep xs = false) :
    d.startsWithPair xs = false := by
  cases xs with
  | nil => rfl
  | cons a xs =>
    have ha : d.isSep a = false := by simpa [startsWithSep] using h
    rw [startsWithPair_cons, ha, Bool.false_and]

theorem Reading.networkShares_of_startsWithPair (h : d.Reading root below f)
    (hs : d.startsWithSep ys = false) (hp : d.startsWithPair (d.respelled root ++ ys) = true) :
    d.networkShares = true := by
  have hother : ∀ {a : α} (zs : List α), d.isSep a = false →
      d.startsWithPair (d.respell a :: zs) = true → d.networkShares = true := by
    intro a zs ha hp
    rw [startsWithPair_cons, isSep_respell, ha] at hp
    cases hp
  cases h with
  | empty =>
    rw [respelled_nil, List.nil_append, startsWithPair_of_not_startsWithSep hs] at hp
    cases hp
  | relative =>
    rw [respelled_nil, List.nil_append, startsWithPair_of_not_startsWithSep hs] at hp
    cases hp
  | slash =>
    rw [respelled_cons, respelled_nil, List.singleton_append, startsWithPair_cons, hs,
      Bool.and_false] at hp
    cases hp
  | driveRelative hd => exact hother _ (not_isSep_of_startsWithDrive hd) hp
  | driveRooted hd => exact hother _ (not_isSep_of_startsWithDrive hd) hp
  | home _ ha => exact hother _ (not_isSep_of_isByte_tilde ha) hp
  | homeSep _ ha => exact hother _ (not_isSep_of_isByte_tilde ha) hp
  | unc hn => exact hn

theorem Faultless.valid_respelled_root (h : d.Faultless xs) :
    d.Valid (d.respelled (d.rootUnits xs)) := by
  have hk : d.KeepsRules (d.respell : α → α) := keepsRules_respell
  have hr := reading_root (d := d) xs
  rw [faultless_iff_allowed] at h
  rw [Valid, respelled, hk.kind_map, ← Valid, valid_iff]
  refine ⟨forall_allowed_shorten (List.take_prefix _ _) h.1, fun hv => ⟨hr.hasSepPair_drop_one, ?_⟩⟩
  rw [← Bool.not_eq_true, ← List.append_nil (d.rootUnits xs)]
  intro ho
  have ho' := hr.opensDevices_shorten List.nil_prefix ho
  rw [rootUnits_append_belowRoot, h.2 hv] at ho'
  cases ho'

theorem Faultless.allowed_lasting {s : List α} (h : d.Faultless xs) (hs : s ∈ d.lasting xs) :
    ∀ a ∈ s, d.Allowed a := by
  intro a ha
  rcases mem_belowRoot_of_mem_lasting hs ha with rfl | ha
  · exact allowed_dot
  · rw [← rootUnits_append_belowRoot (d := d) xs] at h
    exact h.allowed_below (reading_root xs) a ha

theorem Faultless.allowed_written (h : d.Faultless xs) (t : Bool) :
    ∀ a ∈ d.written (d.lasting xs) t, d.Allowed a := by
  intro a ha
  rcases mem_written ha with rfl | ⟨s, hs, ha⟩
  · exact allowed_of_isSep (isSep_sep d)
  · exact h.allowed_lasting hs a ha

theorem isSelf_of_namesDevices_written {names : List (List α)} {t : Bool}
    (h : ∀ s ∈ names, d.IsSegment s) (hd : d.namesDevices (d.written names t) = true) :
    ∃ s ∈ names, isSelf s = true := by
  cases names with
  | nil =>
    rw [written_nil] at hd
    cases hd
  | cons s names =>
    obtain ⟨rest, hw, hr⟩ := exists_written_cons (d := d) s names t
    have hs := h s List.mem_cons_self
    rw [hw] at hd
    refine ⟨s, List.mem_cons_self, ?_⟩
    obtain ⟨a, s, rfl⟩ := List.exists_cons_of_ne_nil hs.1
    rw [List.cons_append, namesDevices, Bool.and_eq_true] at hd
    cases s with
    | nil => exact hd.1
    | cons b s =>
      have hb : d.isSep b = false := hs.2 b (by simp)
      simp [startsWithSep, hb] at hd

theorem isSelf_of_mem_survivors {s : List α} (h : s ∈ d.survivors xs) : isSelf s = false :=
  (stable_settled (d.isRooted xs) (d.parts (d.belowRoot xs))).noSelf s (List.mem_reverse.2 h)

theorem hasSepPair_drop_one_canonical (trim : Bool) (hx : xs ≠ []) (h : d.Faultless xs) :
    d.hasSepPair ((d.canonical trim xs).drop 1) = false := by
  have hk : d.KeepsRules (d.respell : α → α) := keepsRules_respell
  have hseg : ∀ s ∈ d.lasting xs, d.IsSegment s := fun _ => isSegment_of_mem_lasting
  have hpair := (reading_root (d := d) xs).hasSepPair_drop_one
  rw [canonical_eq_written trim hx h]
  have hw := hasSepPair_written (d.endsWithSep (d.belowRoot xs) && !trim) hseg
  have hs := startsWithSep_written (d.endsWithSep (d.belowRoot xs) && !trim) hseg
  generalize d.written (d.lasting xs) _ = ys at hw hs ⊢
  generalize d.rootUnits xs = root at hpair ⊢
  cases root with
  | nil => exact hasSepPair_drop_one hw
  | cons a root =>
    rw [List.drop_succ_cons, List.drop_zero] at hpair
    rw [respelled_cons, List.cons_append, List.drop_succ_cons, List.drop_zero, hasSepPair_append,
      respelled, hk.hasSepPair_map, hpair, hs, hw, Bool.and_false]
    rfl

theorem valid_canonical (trim : Bool) (hx : xs ≠ []) (h : d.Faultless xs) :
    d.Valid (d.canonical trim xs) := by
  have hseg : ∀ s ∈ d.lasting xs, d.IsSegment s := fun _ => isSegment_of_mem_lasting
  rw [canonical_eq_written trim hx h]
  refine h.valid_respelled_root.append (h.allowed_written _) (fun _ => hasSepPair_written _ hseg)
    (by rw [startsWithSep_written _ hseg, Bool.and_false]) ?_
  rw [← Bool.not_eq_true]
  intro hm
  rw [Bool.and_eq_true] at hm
  obtain ⟨s, hs, hself⟩ := isSelf_of_namesDevices_written hseg hm.2
  have hroot : d.rootUnits xs ≠ [] := by
    intro hr
    rw [hr] at hm
    cases hm.1
  rw [lasting_eq_survivors hroot] at hs
  rw [isSelf_of_mem_survivors hs] at hself
  cases hself

theorem hasSepPair_drop_root_canonical (trim : Bool) (hx : xs ≠ []) (h : d.Faultless xs) :
    d.hasSepPair ((d.canonical trim xs).drop ((d.root (d.canonical trim xs)).length - 1)) =
      false := by
  have hseg : ∀ s ∈ d.lasting xs, d.IsSegment s := fun _ => isSegment_of_mem_lasting
  rw [hasSepPair_drop_root, hasSepPair_drop_one_canonical trim hx h, Bool.false_or]
  by_cases hp : d.startsWithPair (d.canonical trim xs) = true
  · rw [canonical_eq_written trim hx h] at hp
    rw [(reading_root xs).networkShares_of_startsWithPair (startsWithSep_written _ hseg) hp]
    rfl
  · rw [Bool.not_eq_true] at hp
    rw [hp, Bool.and_false]

theorem canonical_ne_nil (trim : Bool) (hx : xs ≠ []) (h : d.Faultless xs) :
    d.canonical trim xs ≠ [] := by
  rw [canonical_eq_written trim hx h, Ne, List.append_eq_nil_iff, respelled, List.map_eq_nil_iff,
    written_eq_nil_iff fun _ => isSegment_of_mem_lasting]
  exact fun hc => lasting_ne_nil hc.1 hc.2

theorem eq_sep_of_mem_canonical {trim : Bool} (h : d.Faultless xs) {a : α}
    (ha : a ∈ d.canonical trim xs) (hs : d.isSep a = true) : a = d.sep := by
  have hr : (d.canonical trim xs).map d.respell = (d.canonical trim xs).map id := by
    rw [List.map_id]
    exact respelled_canonical trim h
  have hra : d.respell a = a := List.map_inj_left.1 hr a ha
  rw [← hra, respell_of_isSep hs]

end Dialect

namespace Path

variable {α : Type} [CodeUnit α] {d : Dialect}

/-- Making a path canonical that has units, and no fault but runs of separators perhaps, leaves one
that has units, no fault and no such run, only preferred separators, and no greater length. -/
theorem valid_units_canonical (p : Path α d) (trim : Bool) (hp : p.units ≠ [])
    (h : d.Faultless p.units) :
    (p.canonical trim).units ≠ [] ∧ (p.canonical trim).kind.isValid = true ∧
    d.hasSepPair ((p.canonical trim).units.drop ((p.canonical trim).rootLength - 1)) = false ∧
    (∀ a ∈ (p.canonical trim).units, d.isSep a = true → a = d.sep) ∧
    (p.canonical trim).length ≤ p.length := by
  have hlen : (p.canonical trim).length ≤ p.units.length :=
    Dialect.length_canonical_le trim p.units
  have hle : p.units.length ≤ p.length := List.length_take_le _ _
  rw [kind, rootLength, units_canonical]
  exact ⟨Dialect.canonical_ne_nil trim hp h, Dialect.valid_canonical trim hp h,
    Dialect.hasSepPair_drop_root_canonical trim hp h,
    fun _ => Dialect.eq_sep_of_mem_canonical h, Nat.le_trans hlen hle⟩

/-- `\\\.\a//b`, whose first two separators mark a share with no server, becomes `\\a\b`. -/
theorem valid_units_canonical_share : ∃ p : Path UInt8 .windows,
    p.units = [92, 92, 92, 46, 92, 97, 47, 47, 98] ∧
      (p.canonical true).units = [92, 92, 97, 92, 98] ∧ (p.canonical true).kind.isValid = true := by
  have h := valid_units_canonical
    (⟨Buffer.exact [92, 92, 92, 46, 92, 97, 47, 47, 98]⟩ : Path UInt8 .windows) true (by decide) rfl
  exact ⟨_, rfl, by decide, h.2.1⟩

end Path

end PathForms
