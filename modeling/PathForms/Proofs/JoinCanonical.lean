import PathForms.Proofs.Equivalence

/-!
# Joining canonical paths

Where there are no drives, it makes no difference whether two paths are made canonical before they
are joined or only after. A step up that is kept at the front of the second path cancels a name of
the first once they are joined, and a lone dot that stands for nothing is skipped then. Canonical
paths join to no more units, so where the paths can be joined their canonical forms can be, too.
-/

set_option autoImplicit false

namespace PathForms

namespace Dialect

open CodeUnit

variable {α : Type} [CodeUnit α] {d : Dialect} {rooted : Bool} {stack : List (List α)}

theorem Stable.foldl_stackStep_step {kept : List (List α)} (h : Stable false kept) (part : List α) :
    (Dialect.stackStep false kept part).reverse.foldl (Dialect.stackStep rooted) stack =
      Dialect.stackStep rooted (kept.reverse.foldl (Dialect.stackStep rooted) stack) part := by
  by_cases hs : isSelf part = true
  · simp only [Dialect.stackStep, hs, if_true]
  rw [Bool.not_eq_true] at hs
  by_cases hn : isParent part = true ∧ kept.head?.any (fun top => !isParent top) = true
  · -- the name on top is gone from one stack and would be pushed onto the other only to be removed
    obtain ⟨hp, htop⟩ := hn
    cases kept with
    | nil => cases htop
    | cons top below =>
      have htop' : isParent top = false := by simpa using htop
      have hself : isSelf top = false := h.noSelf top List.mem_cons_self
      rw [List.reverse_cons, List.foldl_append]
      simp [Dialect.stackStep, hs, hp, hself, htop']
  · have hpush : Dialect.stackStep false kept part = part :: kept := by
      unfold Dialect.stackStep
      rw [hs, if_neg (by simp)]
      by_cases hp : isParent part = true
      · rw [if_pos hp, if_neg (fun htop => hn ⟨hp, htop⟩), if_neg (by simp)]
      · rw [if_neg hp]
    rw [hpush, List.reverse_cons, List.foldl_append]
    rfl

theorem Stable.foldl_stackStep_foldl {kept parts : List (List α)} (h : Stable false kept)
    (hp : ∀ s ∈ parts, s ≠ []) :
    (parts.foldl (Dialect.stackStep false) kept).reverse.foldl (Dialect.stackStep rooted) stack =
      parts.foldl (Dialect.stackStep rooted)
        (kept.reverse.foldl (Dialect.stackStep rooted) stack) := by
  induction parts generalizing kept with
  | nil => rfl
  | cons part parts ih =>
    have hk := h.stackStep (hp part List.mem_cons_self)
    rw [List.foldl_cons, ih hk (fun s hm => hp s (List.mem_cons_of_mem part hm)),
      h.foldl_stackStep_step part, List.foldl_cons]

theorem foldl_stackStep_settled {parts : List (List α)} (hp : ∀ s ∈ parts, s ≠ []) :
    (settled false parts).foldl (stackStep rooted) stack = parts.foldl (stackStep rooted) stack := by
  rw [settled_eq_stackOf_of_ne hp, stackOf, Stable.nil.foldl_stackStep_foldl hp]
  rfl

theorem foldl_stackStep_settled_nil {parts : List (List α)} (hp : ∀ s ∈ parts, s ≠ []) :
    (settled rooted parts).foldl (stackStep rooted) [] = parts.foldl (stackStep rooted) [] := by
  have hs : ∀ s ∈ settled rooted parts, s ≠ [] := fun s hm => hp s (mem_of_mem_settled hm)
  have hk := settled_of_stable (stable_settled rooted parts)
  rw [settled_eq_stackOf_of_ne hs, stackOf, List.reverse_eq_iff] at hk
  rw [hk, settled_eq_stackOf_of_ne hp, stackOf, List.reverse_reverse]

theorem foldl_stackStep_orDot (b : Bool) (names : List (List α)) :
    (orDot b names).foldl (stackStep rooted) stack = names.foldl (stackStep rooted) stack := by
  have hself : isSelf [(ofByte dot : α)] = true := isByte_iff.2 rfl
  unfold orDot
  split
  · next h =>
    rw [Bool.and_eq_true, List.isEmpty_iff] at h
    simp [h.1, stackStep, hself]
  · rfl

theorem settled_orDot_append (b b' : Bool) {parts more : List (List α)}
    (hp : ∀ s ∈ parts, d.IsSegment s) (hm : ∀ s ∈ more, d.IsSegment s) :
    settled rooted (orDot b (settled rooted parts) ++ orDot b' (settled false more)) =
      settled rooted (parts ++ more) := by
  have hne : ∀ names : List (List α), (∀ s ∈ names, d.IsSegment s) → ∀ s ∈ names, s ≠ [] :=
    fun names h s hs => (h s hs).1
  have hl : ∀ s ∈ orDot b (settled rooted parts), d.IsSegment s :=
    isSegment_of_mem_orDot fun s hs => hp s (mem_of_mem_settled hs)
  have hr : ∀ s ∈ orDot b' (settled false more), d.IsSegment s :=
    isSegment_of_mem_orDot fun s hs => hm s (mem_of_mem_settled hs)
  rw [settled_eq_stackOf_of_ne (hne _ (List.forall_mem_append.2 ⟨hl, hr⟩)),
    settled_eq_stackOf_of_ne (hne _ (List.forall_mem_append.2 ⟨hp, hm⟩)), stackOf, stackOf,
    List.foldl_append, List.foldl_append, foldl_stackStep_orDot, foldl_stackStep_orDot,
    foldl_stackStep_settled_nil (hne _ hp), foldl_stackStep_settled (hne _ hm)]

variable {xs ys : List α}

theorem parts_ensureSep_append (xs ys : List α) :
    d.parts (d.ensureSep xs ++ ys) = d.parts xs ++ d.parts ys := by
  rcases ensureSep_cases (d := d) xs with ⟨he, hx⟩ | ⟨c, he, hc, -⟩
  · rw [he, parts_append_of_endsWithSep hx]
  · rw [he, List.append_assoc, List.singleton_append, parts_append_cons xs ys hc]

theorem length_root_unix_le (xs : List α) : (unix.root xs).length ≤ 1 := by
  by_cases hx : xs = []
  · rw [hx]
    exact Nat.zero_le 1
  by_cases hs : unix.startsWithSep xs = true
  · obtain ⟨a, below, rfl, ha, hr⟩ := exists_slash (form_unix_of_sep hs)
    exact Nat.le_of_eq (congrArg Root.length hr.root_eq)
  · rw [← length_rootUnits, rootUnits_of_relative (form_unix_of_not_sep hx (by simpa using hs))]
    exact Nat.zero_le 1

theorem endsWithSep_belowRoot_unix (hx : xs ≠ []) (hy : ys ≠ []) :
    unix.endsWithSep (unix.belowRoot (xs ++ ys)) = unix.endsWithSep ys := by
  have hl := length_root_unix_le (xs ++ ys)
  have hpos := List.length_pos_iff.2 hx
  rw [belowRoot, List.drop_append_of_le_length (by omega), endsWithSep_append _ hy]

theorem isBareDrive_unix (xs : List α) : unix.isBareDrive xs = false := by
  rw [← Bool.not_eq_true]
  intro hb
  obtain ⟨a, b, rest, -, hd, -⟩ := exists_drive (form_of_isBareDrive hb)
  cases hd

theorem joined_unix (xs : List α) (hy : ys ≠ []) :
    unix.joined xs ys = if unix.startsWithSep ys then ys else unix.ensureSep xs ++ ys := by
  by_cases hs : unix.startsWithSep ys = true
  · rw [if_pos hs, joined, form_unix_of_sep hs]
    rfl
  · have hf := form_unix_of_not_sep hy (by simpa using hs)
    simp [joined, hf, isBareDrive_unix, hs, Form.isAbsolute]

theorem mem_canonical {trim : Bool} {a : α} (h : a ∈ d.canonical trim xs) :
    a ∈ xs ∨ a = d.sep ∨ a = ofByte dot := by
  by_cases hx : xs = []
  · rw [hx, canonical_nil] at h
    cases h
  by_cases hf : d.Faultless xs
  · rw [canonical_eq_written trim hx hf, List.mem_append] at h
    rcases h with h | h
    · obtain ⟨b, hb, rfl⟩ := List.mem_map.1 h
      unfold respell
      split
      · exact Or.inr (Or.inl rfl)
      · exact Or.inl (List.mem_of_mem_take hb)
    · rcases mem_written h with h | ⟨s, hs, ha⟩
      · exact Or.inr (Or.inl h)
      · rcases mem_of_mem_lasting hs ha with h | h
        · exact Or.inr (Or.inr h)
        · exact Or.inl h
  · rw [canonical_of_not_faultless trim hf] at h
    exact Or.inl h

theorem any_isNul_canonical (trim : Bool) (hn : xs.any isNul = false) :
    (d.canonical trim xs).any isNul = false := by
  rw [List.any_eq_false] at hn ⊢
  intro a ha
  rw [Bool.not_eq_true]
  rcases mem_canonical ha with h | rfl | rfl
  · simpa using hn a h
  · exact (allowed_of_isSep (isSep_sep d)).1
  · simp [isNul, isByte, code_ofByte, dot]

theorem lasting_unix (hx : xs ≠ []) : unix.lasting xs =
    orDot (!unix.startsWithSep xs) (settled (unix.startsWithSep xs) (unix.parts xs)) := by
  by_cases hs : unix.startsWithSep xs = true
  · obtain ⟨a, below, rfl, ha, hr⟩ := exists_slash (form_unix_of_sep hs)
    have hl := hr.lasting_eq
    rw [List.singleton_append] at hl
    rw [hl, hs, parts_cons_sep ha]
    rfl
  · rw [Bool.not_eq_true] at hs
    have hf := form_unix_of_not_sep hx hs
    have hb := belowRoot_of_rootUnits_eq_nil (rootUnits_of_relative hf)
    rw [lasting, rootUnits_of_relative hf, survivors, hb, isRooted, hf, hs]
    rfl

theorem canonical_unix (trim : Bool) (hx : xs ≠ []) (hn : xs.any isNul = false) :
    unix.canonical trim xs = (if unix.startsWithSep xs then [unix.sep] else []) ++
      unix.written (unix.lasting xs) (unix.endsWithSep (unix.belowRoot xs) && !trim) := by
  rw [canonical_eq_written trim hx (faultless_unix_iff.2 hn)]
  congr 1
  by_cases hs : unix.startsWithSep xs = true
  · obtain ⟨a, below, rfl, ha, hr⟩ := exists_slash (form_unix_of_sep hs)
    have hroot := hr.rootUnits_eq
    rw [List.singleton_append] at hroot
    rw [hroot, if_pos hs, respelled_cons, respell, if_pos ha]
    rfl
  · rw [if_neg hs, rootUnits_of_relative (form_unix_of_not_sep hx (by simpa using hs))]
    rfl

theorem lasting_ne_nil_unix (hx : xs ≠ []) (hs : unix.startsWithSep xs = false) :
    unix.lasting xs ≠ [] :=
  lasting_ne_nil (rootUnits_of_relative (form_unix_of_not_sep hx hs))

theorem canonical_unix_ne_nil (trim : Bool) (hx : xs ≠ []) (hn : xs.any isNul = false) :
    unix.canonical trim xs ≠ [] := by
  rw [canonical_unix trim hx hn]
  by_cases hs : unix.startsWithSep xs = true
  · rw [if_pos hs]
    simp
  · rw [if_neg hs, List.nil_append, Ne, written_eq_nil_iff (fun _ => isSegment_of_mem_lasting)]
    exact lasting_ne_nil_unix hx (by simpa using hs)

theorem startsWithSep_canonical_unix (trim : Bool) (hx : xs ≠ []) (hn : xs.any isNul = false) :
    unix.startsWithSep (unix.canonical trim xs) = unix.startsWithSep xs := by
  rw [canonical_unix trim hx hn]
  by_cases hs : unix.startsWithSep xs = true
  · rw [if_pos hs, hs]
    exact isSep_sep unix
  · rw [if_neg hs, List.nil_append, startsWithSep_written _ (fun _ => isSegment_of_mem_lasting)]
    simpa using hs

theorem parts_canonical_unix (trim : Bool) (hx : xs ≠ []) (hn : xs.any isNul = false) :
    unix.parts (unix.canonical trim xs) = unix.lasting xs := by
  have hseg : ∀ s ∈ unix.lasting xs, unix.IsSegment s := fun _ => isSegment_of_mem_lasting
  rw [canonical_unix trim hx hn]
  split
  · rw [List.singleton_append, parts_cons_sep (isSep_sep unix), parts_written _ hseg]
  · rw [List.nil_append, parts_written _ hseg]

theorem endsWithSep_canonical_unix (trim : Bool) (hx : xs ≠ []) (hn : xs.any isNul = false)
    (hs : unix.startsWithSep xs = false) :
    unix.endsWithSep (unix.canonical trim xs) = (unix.endsWithSep xs && !trim) := by
  have hb := belowRoot_of_rootUnits_eq_nil (rootUnits_of_relative (form_unix_of_not_sep hx hs))
  rw [canonical_unix trim hx hn, hs, if_neg (by simp), List.nil_append,
    endsWithSep_written _ (fun _ => isSegment_of_mem_lasting), hb]
  simp [lasting_ne_nil_unix hx hs]

theorem canonical_ensureSep_append (trim : Bool) (hx : xs ≠ []) (hy : ys ≠ [])
    (hn : (unix.ensureSep xs ++ ys).any isNul = false) :
    unix.canonical trim (unix.ensureSep xs ++ ys) =
      (if unix.startsWithSep xs then [unix.sep] else []) ++
        unix.written (orDot (!unix.startsWithSep xs)
          (settled (unix.startsWithSep xs) (unix.parts xs ++ unix.parts ys)))
          (unix.endsWithSep ys && !trim) := by
  obtain ⟨zs, hz⟩ := exists_ensureSep_eq (d := unix) xs
  have hne : unix.ensureSep xs ≠ [] := by
    rw [hz]
    simp [hx]
  have hs : unix.startsWithSep (unix.ensureSep xs ++ ys) = unix.startsWithSep xs := by
    obtain ⟨a, xs, rfl⟩ := List.exists_cons_of_ne_nil hx
    rw [hz]
    rfl
  rw [canonical_unix trim (by simp [hne]) hn, lasting_unix (by simp [hne]), hs,
    parts_ensureSep_append, endsWithSep_belowRoot_unix hne hy]

theorem any_isNul_ensureSep_append (hx : xs.any isNul = false) (hy : ys.any isNul = false) :
    (d.ensureSep xs ++ ys).any isNul = false := by
  rw [List.any_append, hy, Bool.or_false]
  rcases ensureSep_cases (d := d) xs with ⟨he, -⟩ | ⟨c, he, hc, -⟩
  · rw [he, hx]
  · simp [he, hx, (allowed_of_isSep hc).1]

theorem canonical_ensureSep_append_canonical (trim : Bool) (hx : xs ≠ []) (hy : ys ≠ [])
    (hs : unix.startsWithSep ys = false) (hxn : xs.any isNul = false)
    (hyn : ys.any isNul = false) :
    unix.canonical trim
        (unix.ensureSep (unix.canonical trim xs) ++ unix.canonical trim ys) =
      unix.canonical trim (unix.ensureSep xs ++ ys) := by
  have hx' := canonical_unix_ne_nil trim hx hxn
  have hy' := canonical_unix_ne_nil trim hy hyn
  have hn := any_isNul_ensureSep_append (d := unix) hxn hyn
  have hn' := any_isNul_ensureSep_append (d := unix) (any_isNul_canonical (d := unix) trim hxn)
    (any_isNul_canonical (d := unix) trim hyn)
  have hsettled : settled (unix.startsWithSep xs) (unix.lasting xs ++ unix.lasting ys) =
      settled (unix.startsWithSep xs) (unix.parts xs ++ unix.parts ys) := by
    rw [lasting_unix hx, lasting_unix hy, hs]
    exact settled_orDot_append _ _ (fun _ => isSegment_of_mem_parts)
      (fun _ => isSegment_of_mem_parts)
  rw [canonical_ensureSep_append trim hx hy hn, canonical_ensureSep_append trim hx' hy' hn',
    startsWithSep_canonical_unix trim hx hxn, parts_canonical_unix trim hx hxn,
    parts_canonical_unix trim hy hyn, endsWithSep_canonical_unix trim hy hyn hs, hsettled,
    Bool.and_assoc, Bool.and_self]

theorem endsWithSep_belowRoot (h : d.belowRoot xs ≠ []) :
    d.endsWithSep (d.belowRoot xs) = d.endsWithSep xs := by
  rw [← endsWithSep_append (d.rootUnits xs) h, rootUnits_append_belowRoot]

theorem length_canonical_lt_unix {trim : Bool} (hx : xs ≠ []) (hn : xs.any isNul = false)
    (he : unix.endsWithSep xs = true)
    (hc : unix.endsWithSep (unix.canonical trim xs) = false) :
    (unix.canonical trim xs).length < xs.length := by
  have hseg : ∀ s ∈ unix.lasting xs, unix.IsSegment s := fun _ => isSegment_of_mem_lasting
  have hl : unix.lasting xs ≠ [] := by
    intro hl
    by_cases hs : unix.startsWithSep xs = true
    · rw [canonical_unix trim hx hn, hl, written_nil, if_pos hs] at hc
      simp [endsWithSep, isSep_sep] at hc
    · exact lasting_ne_nil_unix hx (by simpa using hs) hl
  have hb : unix.endsWithSep (unix.belowRoot xs) = true := by
    rw [← he]
    apply endsWithSep_belowRoot
    intro hb
    by_cases hr : unix.rootUnits xs = []
    · exact hx (by rw [← belowRoot_of_rootUnits_eq_nil hr, hb])
    · exact hl (by rw [lasting_eq_survivors hr, survivors_of_below_eq_nil hb])
  cases trim with
  | false =>
    rw [canonical_unix false hx hn, hb, endsWithSep_append _ (mt (written_eq_nil_iff hseg).1 hl),
      endsWithSep_written _ hseg] at hc
    simp [hl] at hc
  | true =>
    have hlen := length_canonical_le (d := unix) false xs
    have hkeep := length_written (d := unix) true hl
    have hdrop := length_written (d := unix) false hl
    rw [canonical_unix false hx hn, hb, List.length_append] at hlen
    rw [canonical_unix true hx hn, hb, List.length_append]
    simp only [Bool.not_true, Bool.not_false, Bool.and_false, Bool.and_true, if_true,
      Bool.false_eq_true, if_false] at hlen hkeep hdrop ⊢
    omega

theorem length_ensureSep_canonical_le (trim : Bool) (hx : xs ≠ []) (hn : xs.any isNul = false) :
    (unix.ensureSep (unix.canonical trim xs)).length ≤ (unix.ensureSep xs).length := by
  have hle := length_canonical_le (d := unix) trim xs
  obtain ⟨zs, hz⟩ := exists_ensureSep_eq (d := unix) xs
  rcases ensureSep_cases (d := unix) (unix.canonical trim xs) with ⟨hc, -⟩ | ⟨c, hc, -, hce⟩
  · rw [hc, hz, List.length_append]
    omega
  · rw [hc, List.length_append, List.length_singleton]
    rcases ensureSep_cases (d := unix) xs with ⟨he, hxe⟩ | ⟨e, he, -, -⟩
    · rw [he]
      exact length_canonical_lt_unix hx hn (hxe.resolve_left hx) hce
    · rw [he, List.length_append, List.length_singleton]
      exact Nat.add_le_add_right hle 1

theorem canonical_joined_canonical (trim : Bool) (hy : ys ≠ []) (hxn : xs.any isNul = false)
    (hyn : ys.any isNul = false) :
    unix.canonical trim (unix.joined (unix.canonical trim xs) (unix.canonical trim ys)) =
      unix.canonical trim (unix.joined xs ys) := by
  rw [joined_unix xs hy, joined_unix _ (canonical_unix_ne_nil trim hy hyn),
    startsWithSep_canonical_unix trim hy hyn]
  by_cases hs : unix.startsWithSep ys = true
  · rw [if_pos hs, if_pos hs, canonical_canonical]
  rw [if_neg hs, if_neg hs]
  by_cases hx : xs = []
  · rw [hx, canonical_nil]
    exact canonical_canonical trim ys
  · exact canonical_ensureSep_append_canonical trim hx hy (by simpa using hs) hxn hyn

theorem length_joined_canonical_le (trim : Bool) (hy : ys ≠ []) (hxn : xs.any isNul = false)
    (hyn : ys.any isNul = false) :
    (unix.joined (unix.canonical trim xs) (unix.canonical trim ys)).length ≤
      (unix.joined xs ys).length := by
  have hle := length_canonical_le (d := unix) trim ys
  rw [joined_unix xs hy, joined_unix _ (canonical_unix_ne_nil trim hy hyn),
    startsWithSep_canonical_unix trim hy hyn]
  by_cases hs : unix.startsWithSep ys = true
  · rw [if_pos hs, if_pos hs]
    exact hle
  rw [if_neg hs, if_neg hs, List.length_append, List.length_append]
  by_cases hx : xs = []
  · rw [hx, canonical_nil]
    exact Nat.add_le_add_left hle _
  · exact Nat.add_le_add (length_ensureSep_canonical_le trim hx hxn) hle

end Dialect

namespace Path

open CodeUnit

variable {α : Type} [CodeUnit α] {p q r : Path α .unix} {trim : Bool}

theorem push_eq_ok_iff {d : Dialect} {p r : Path α d} {xs : List α} (withSep : Bool)
    (hx : xs ≠ []) : p.push xs withSep = .ok r ↔
      (d.pushed withSep p.units xs).length ≤ d.maxLength ∧
        r = ⟨Buffer.exact (d.pushed withSep p.units xs)⟩ := by
  have hp : p.push xs withSep = ofUnits (d.pushed withSep p.units xs) := if_neg (by simpa using hx)
  rw [hp]
  unfold ofUnits
  split
  · next h => simp [Nat.not_le.2 h]
  · next h => simp [Nat.not_lt.1 h, eq_comm]

theorem join_eq_ok_iff {d : Dialect} {p r : Path α d} {xs : List α} (hx : xs ≠ []) :
    p.join xs = .ok r ↔ (d.joined p.units xs).length ≤ d.maxLength ∧
      r = ⟨Buffer.exact (d.joined p.units xs)⟩ :=
  push_eq_ok_iff false hx

/-- Where there are no drives, two paths may be made canonical before they are joined: if their join
is within the limit, so is that of their canonical forms, and the joins have one canonical form. -/
theorem units_canonical_join (hp : p.units.any isNul = false) (hq : q.units.any isNul = false)
    (h : p.join q.units = .ok r) :
    ∃ r', (p.canonical trim).join (q.canonical trim).units = .ok r' ∧
      (r'.canonical trim).units = (r.canonical trim).units := by
  simp only [units_canonical]
  by_cases hx : q.units = []
  · rw [hx] at h ⊢
    obtain rfl : p = r := Except.ok.inj h
    refine ⟨p.canonical trim, by rw [Dialect.canonical_nil]; rfl, ?_⟩
    rw [units_canonical, Dialect.canonical_canonical]
  · have hx' := Dialect.canonical_unix_ne_nil trim hx hq
    have hlen := Dialect.length_joined_canonical_le trim hx hp hq
    obtain ⟨hl, rfl⟩ := (join_eq_ok_iff hx).1 h
    refine ⟨_, (join_eq_ok_iff hx').2 ⟨?_, rfl⟩, ?_⟩
    · rw [units_canonical]
      exact Nat.le_trans hlen hl
    · simp only [units_exact, units_canonical]
      exact Dialect.canonical_joined_canonical trim hx hp hq

/-- `a/./` and `../../b` join to what is canonically `../b`, and so do `a` and `../../b`. -/
theorem units_canonical_join_parent : ∃ p q r r' : Path UInt8 .unix,
    p.units = [97, 47, 46, 47] ∧ q.units = [46, 46, 47, 46, 46, 47, 98] ∧
      p.join q.units = .ok r ∧ (p.canonical true).join (q.canonical true).units = .ok r' ∧
      (r'.canonical true).units = (r.canonical true).units ∧
      (r'.canonical true).units = [46, 46, 47, 98] := by
  have h : Path.join (⟨Buffer.exact [97, 47, 46, 47]⟩ : Path UInt8 .unix)
      [46, 46, 47, 46, 46, 47, 98] =
        .ok ⟨Buffer.exact [97, 47, 46, 47, 46, 46, 47, 46, 46, 47, 98]⟩ := by
    decide
  obtain ⟨r', hr', he⟩ := units_canonical_join (q := ⟨Buffer.exact [46, 46, 47, 46, 46, 47, 98]⟩)
    (by decide) (by decide) h
  exact ⟨_, _, _, r', rfl, rfl, h, hr', he, he.trans (by decide)⟩

end Path

end PathForms
