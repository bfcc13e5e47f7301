import Mathlib.Data.List.Infix
import PathForms.Proofs.CompleteRoot
import PathForms.Proofs.Popping

/-!
# Strict validity

What makes a path valid can be said without naming its root: the units behind a drive are allowed
one by one, no two separators follow each other behind the first unit, and the path does not open
the device namespace. Each part of this is local, so it is easily followed through a cut at the end
of a path and through what is put behind it.
-/

set_option autoImplicit false

namespace PathForms.Dialect

open CodeUnit

variable {α : Type} [CodeUnit α] {d : Dialect} {xs ys zs root below cut seps : List α} {f : Form}

/-- No fault is found in the path by a reader who overlooks none. -/
def Valid (d : Dialect) (xs : List α) : Prop := (d.kind .strict xs).isValid = true

def startsWithPair (d : Dialect) : List α → Bool
  | a :: b :: _ => d.isSep a && d.isSep b
  | _ => false

def isShareMark (d : Dialect) : List α → Bool
  | [a, b] => d.networkShares && (d.isSep a && d.isSep b)
  | _ => false

def opensDevices (d : Dialect) (xs : List α) : Bool :=
  d.networkShares && d.startsWithPair xs && d.namesDevices (xs.drop 2)

def afterDrive (d : Dialect) (xs : List α) : List α :=
  if d.startsWithDrive xs then xs.drop 2 else xs

theorem startsWithPair_cons (a : α) (xs : List α) :
    d.startsWithPair (a :: xs) = (d.isSep a && d.startsWithSep xs) := by
  cases xs <;> simp [startsWithPair, startsWithSep]

theorem hasSepPair_cons (a : α) (xs : List α) :
    d.hasSepPair (a :: xs) = (d.isSep a && d.startsWithSep xs || d.hasSepPair xs) := by
  cases xs <;> simp [hasSepPair, startsWithSep]

theorem hasSepPair_eq (xs : List α) :
    d.hasSepPair xs = (d.startsWithPair xs || d.hasSepPair (xs.drop 1)) := by
  cases xs with
  | nil => rfl
  | cons a xs => rw [hasSepPair_cons, startsWithPair_cons, List.drop_succ_cons, List.drop_zero]

theorem hasSepPair_append (xs ys : List α) : d.hasSepPair (xs ++ ys) =
    (d.hasSepPair xs || d.endsWithSep xs && d.startsWithSep ys || d.hasSepPair ys) := by
  induction xs with
  | nil => rfl
  | cons a xs ih =>
    by_cases hx : xs = []
    · rw [hx, List.singleton_append, hasSepPair_cons]
      rfl
    · have he : d.endsWithSep (a :: xs) = d.endsWithSep xs := endsWithSep_append [a] hx
      rw [List.cons_append, hasSepPair_cons, hasSepPair_cons, ih, startsWithSep_append ys hx, he,
        Bool.or_assoc, Bool.or_assoc, Bool.or_assoc]

theorem hasSepPair_of_forall_not_isSep (h : ∀ a ∈ xs, d.isSep a = false) :
    d.hasSepPair xs = false := by
  induction xs with
  | nil => rfl
  | cons a xs ih =>
    rw [hasSepPair_cons, h a List.mem_cons_self, ih fun b hb => h b (List.mem_cons_of_mem a hb)]
    rfl

theorem hasSepPair_of_startsWithPair (h : d.startsWithPair xs = true) :
    d.hasSepPair xs = true := by
  rw [hasSepPair_eq, h, Bool.true_or]

theorem hasSepPair_shorten (h : cut <+: xs) (hx : d.hasSepPair xs = false) :
    d.hasSepPair cut = false := by
  obtain ⟨rest, rfl⟩ := h
  rw [hasSepPair_append, Bool.or_eq_false_iff, Bool.or_eq_false_iff] at hx
  exact hx.1.1

theorem hasSepPair_drop_one (h : d.hasSepPair xs = false) : d.hasSepPair (xs.drop 1) = false := by
  rw [hasSepPair_eq, Bool.or_eq_false_iff] at h
  exact h.2

theorem hasSepPair_segment_append {s : List α} (h : d.IsSegment s) (xs : List α) :
    d.hasSepPair (s ++ xs) = d.hasSepPair xs := by
  rw [hasSepPair_append, hasSepPair_of_forall_not_isSep h.2, endsWithSep_segment h]
  rfl

theorem hasSepPair_cons_segment_append {s : List α} (h : d.IsSegment s) (c : α) (xs : List α) :
    d.hasSepPair (c :: (s ++ xs)) = d.hasSepPair xs := by
  rw [hasSepPair_cons, startsWithSep_segment_append h, Bool.and_false, Bool.false_or,
    hasSepPair_segment_append h]

theorem hasSepPair_written {names : List (List α)} (t : Bool) (h : ∀ s ∈ names, d.IsSegment s) :
    d.hasSepPair (d.written names t) = false := by
  induction names with
  | nil =>
    rw [written_nil]
    rfl
  | cons s names ih =>
    have hs := h s List.mem_cons_self
    have hnames : ∀ s' ∈ names, d.IsSegment s' := fun s' h' => h s' (List.mem_cons_of_mem s h')
    by_cases hn : names = []
    · rw [hn, written_singleton, hasSepPair_segment_append hs]
      cases t <;> rfl
    · rw [written_cons s t hn, hasSepPair_segment_append hs, hasSepPair_cons, ih hnames,
        startsWithSep_written t hnames, Bool.and_false, Bool.or_self]

theorem ShareReading.hasSepPair_cons {rest : List α} (h : d.ShareReading rest below f) (b : α) :
    d.hasSepPair (b :: rest) = false := by
  cases h with
  | bare => rfl
  | server hs =>
    rw [← List.append_nil rest, hasSepPair_cons_segment_append hs]
    rfl
  | serverSep hs =>
    rw [hasSepPair_cons_segment_append hs]
    rfl
  | @share _ h _ hs _ hh =>
    rw [hasSepPair_cons_segment_append hs, ← List.append_nil h, hasSepPair_cons_segment_append hh]
    rfl
  | complete hs _ hh =>
    rw [hasSepPair_cons_segment_append hs, hasSepPair_cons_segment_append hh]
    rfl

theorem hasSepPair_drop_append (hx : xs ≠ []) (h : d.hasSepPair xs = false) (ys : List α) :
    d.hasSepPair ((xs ++ ys).drop (xs.length - 1)) = d.hasSepPair (xs ++ ys) := by
  obtain ⟨zs, c, rfl⟩ := (List.eq_nil_or_concat xs).resolve_left hx
  rw [List.concat_eq_append] at h ⊢
  have hd : (zs ++ [c] ++ ys).drop ((zs ++ [c]).length - 1) = c :: ys := by simp
  rw [hd, hasSepPair_cons, hasSepPair_append, h, endsWithSep_append zs (by simp)]
  rfl

theorem hasSepPair_drop_root (xs : List α) : d.hasSepPair (xs.drop ((d.root xs).length - 1)) =
    (d.hasSepPair (xs.drop 1) || !d.networkShares && d.startsWithPair xs) := by
  obtain ⟨root, below, f, rfl, hr⟩ := exists_reading (d := d) xs
  rw [hr.root_eq]
  cases hr with
  | empty => simp [hasSepPair, startsWithPair]
  | relative hne hsep =>
    obtain ⟨a, below, rfl⟩ := List.exists_cons_of_ne_nil hne
    have ha : d.isSep a = false := by simpa [startsWithSep] using hsep
    simp [hasSepPair_cons, startsWithPair_cons, ha]
  | @slash a _ ha hb =>
    simp only [List.singleton_append, List.length_singleton, List.drop_succ_cons, List.drop_zero,
      hasSepPair_cons, startsWithPair_cons, ha, Nat.sub_self, Bool.true_and]
    cases hn : d.networkShares with
    | false => simp [Bool.or_comm]
    | true => simp [hb hn]
  | @driveRelative a b _ hd =>
    have ha := not_isSep_of_startsWithDrive hd
    simp [startsWithPair, ha]
  | @driveRooted a b c _ hd =>
    have ha := not_isSep_of_startsWithDrive hd
    have hb := not_isSep_colon_of_startsWithDrive hd
    simp [startsWithPair, hasSepPair_cons b, ha, hb]
  | home => simp [hasSepPair, startsWithPair]
  | @homeSep a b _ _ ha =>
    have hs : d.isSep a = false := not_isSep_of_isByte_tilde ha
    simp [startsWithPair, hs]
  | @unc a b rest _ _ hn _ _ h =>
    have hd := hasSepPair_drop_append (by simp) (h.hasSepPair_cons b) below
    rw [hn, Bool.not_true, Bool.false_and, Bool.or_false]
    exact hd

theorem networkShares_of_validates (h : d.validates = true) : d.networkShares = true := by
  cases d with
  | unix => cases h
  | windows => rfl

theorem ShareReading.isUnc {rest : List α} (h : d.ShareReading rest below f) :
    f.isUnc = true ∧ f.namesDrive = false := by
  cases h <;> exact ⟨rfl, rfl⟩

theorem form_front (xs : List α) : (d.root xs).form.namesDrive = d.startsWithDrive xs ∧
    (d.root xs).form.isUnc = (d.networkShares && d.startsWithPair xs) := by
  obtain ⟨root, below, f, rfl, hr⟩ := exists_reading (d := d) xs
  rw [hr.root_eq]
  cases hr with
  | empty => simp [Form.namesDrive, Form.isUnc, startsWithDrive, startsWithPair]
  | relative hne hs hd =>
    obtain ⟨a, below, rfl⟩ := List.exists_cons_of_ne_nil hne
    have ha : d.isSep a = false := by simpa [startsWithSep] using hs
    exact ⟨hd.symm, by simp [startsWithPair_cons, ha, Form.isUnc]⟩
  | @slash a _ ha hb =>
    refine ⟨(not_startsWithDrive_of_isSep ha _).symm, ?_⟩
    rw [List.singleton_append, startsWithPair_cons]
    cases hn : d.networkShares with
    | false => rfl
    | true => simp [hb hn, Form.isUnc]
  | driveRelative hd =>
    exact ⟨hd.symm, by simp [startsWithPair, not_isSep_of_startsWithDrive hd, Form.isUnc]⟩
  | driveRooted hd =>
    exact ⟨hd.symm, by simp [startsWithPair, not_isSep_of_startsWithDrive hd, Form.isUnc]⟩
  | home => simp [Form.namesDrive, Form.isUnc, startsWithDrive, startsWithPair]
  | @homeSep a b _ _ ha =>
    have hs : d.isSep a = false := not_isSep_of_isByte_tilde ha
    simp [Form.namesDrive, Form.isUnc, startsWithDrive, not_isDriveLetter_of_isByte_tilde ha,
      startsWithPair, hs]
  | unc hn ha hb h =>
    rw [h.isUnc.1, h.isUnc.2]
    exact ⟨(not_startsWithDrive_of_isSep ha _).symm, by simp [hn, startsWithPair, ha, hb]⟩

theorem allowed_of_isDriveLetter {a : α} (h : isDriveLetter a = true) : d.Allowed a := by
  simp only [isDriveLetter, isUpper, isLower, Bool.or_eq_true, decide_eq_true_eq] at h
  refine ⟨?_, fun _ => ?_⟩
  · rw [isNul, isByte, beq_eq_false_iff_ne]
    intro hc
    have : code a = 0 := hc
    omega
  · simp [isReserved]
    omega

theorem allowed_dot : d.Allowed (ofByte dot : α) := by
  simp [Allowed, isNul, isByte, isReserved, code_ofByte, dot]

theorem exists_cons_of_startsWithDrive (h : d.startsWithDrive xs = true) :
    ∃ a b rest, xs = a :: b :: rest ∧ isDriveLetter a = true ∧ isByte colon b = true := by
  match xs, h with
  | a :: b :: rest, h =>
    simp only [startsWithDrive, Bool.and_eq_true] at h
    exact ⟨a, b, rest, rfl, h.1.2, h.2⟩

theorem forall_allowed_afterDrive_iff (xs : List α) : (∀ a ∈ d.afterDrive xs, d.Allowed a) ↔
    xs.any isNul = false ∧ (d.validates = true → hasReserved (d.root xs).form xs = false) := by
  rw [forall_allowed_iff, afterDrive, hasReserved, (form_front xs).1]
  by_cases hd : d.startsWithDrive xs = true
  · obtain ⟨a, b, rest, rfl, ha, hb⟩ := exists_cons_of_startsWithDrive hd
    have hallow : d.Allowed a := allowed_of_isDriveLetter ha
    have hcolon : isNul b = false := by
      have hc : code b = 58 := by simpa [isByte, colon] using hb
      simp [isNul, isByte, hc]
    rw [hd]
    simp only [if_true, List.drop_succ_cons, List.drop_zero, List.eraseIdx_cons_succ,
      List.eraseIdx_cons_zero, List.any_cons, hallow.1, hcolon, Bool.false_or]
    refine and_congr_right fun _ => forall_congr' fun hv => ?_
    rw [hallow.2 hv, Bool.false_or]
  · rw [if_neg hd, if_neg hd]

theorem runFault?_eq_none_iff {n : Nat} : d.runFault? n xs = none ↔
    (d.validates = true → d.hasSepPair (xs.drop (n - 1)) = false) := by
  unfold runFault?
  cases d.validates <;> cases d.hasSepPair (xs.drop (n - 1)) <;> simp

theorem faultless_iff_allowed : d.Faultless xs ↔ (∀ a ∈ d.afterDrive xs, d.Allowed a) ∧
    (d.validates = true → d.opensDevices xs = false) := by
  rw [faultless_iff, unitFault?_eq_none_iff, forall_allowed_afterDrive_iff, (form_front xs).2,
    and_assoc]
  refine and_congr_right fun _ => ?_
  exact forall_and

theorem valid_iff_faultless : d.Valid xs ↔ d.Faultless xs ∧
    d.runFault? (d.root xs).length xs = none := by
  rw [Valid, isValid_kind_iff, fault?_eq_none_iff, faultless_iff]
  simp [Leniency.strict]

theorem valid_iff : d.Valid xs ↔ (∀ a ∈ d.afterDrive xs, d.Allowed a) ∧
    (d.validates = true → d.hasSepPair (xs.drop 1) = false ∧ d.opensDevices xs = false) := by
  rw [valid_iff_faultless, faultless_iff_allowed, runFault?_eq_none_iff, hasSepPair_drop_root,
    and_assoc]
  refine and_congr_right fun _ => ?_
  cases hv : d.validates with
  | false => simp
  | true => simp [networkShares_of_validates hv, and_comm]

theorem afterDrive_of_not_drive (h : d.startsWithDrive xs = false) : d.afterDrive xs = xs := by
  rw [afterDrive, h, if_neg (by simp)]

theorem Valid.allowed (h : d.Valid xs) (hd : d.startsWithDrive xs = false) :
    ∀ a ∈ xs, d.Allowed a := by
  have ha := (valid_iff.1 h).1
  rwa [afterDrive_of_not_drive hd] at ha

theorem mem_of_mem_afterDrive {a : α} (h : a ∈ d.afterDrive xs) : a ∈ xs := by
  unfold afterDrive at h
  split at h
  · exact List.mem_of_mem_drop h
  · exact h

theorem afterDrive_append (ys : List α) (h : d.startsWithDrive xs = true) :
    d.afterDrive (xs ++ ys) = d.afterDrive xs ++ ys := by
  obtain ⟨a, b, rest, rfl, -⟩ := exists_cons_of_startsWithDrive h
  have h' : d.startsWithDrive (a :: b :: rest ++ ys) = true := h
  rw [afterDrive, afterDrive, if_pos h, if_pos h']
  rfl

theorem forall_allowed_append (hx : ∀ a ∈ d.afterDrive xs, d.Allowed a)
    (hy : ∀ a ∈ ys, d.Allowed a) : ∀ a ∈ d.afterDrive (xs ++ ys), d.Allowed a := by
  by_cases hd : d.startsWithDrive xs = true
  · rw [afterDrive_append ys hd]
    exact List.forall_mem_append.2 ⟨hx, hy⟩
  · rw [afterDrive_of_not_drive (by simpa using hd)] at hx
    exact fun a ha => List.forall_mem_append.2 ⟨hx, hy⟩ a (mem_of_mem_afterDrive ha)

theorem opensDevices_iff : d.opensDevices xs = true ↔ d.networkShares = true ∧
    ∃ a b rest, xs = a :: b :: rest ∧ d.isSep a = true ∧ d.isSep b = true ∧
      d.namesDevices rest = true := by
  constructor
  · intro h
    rw [opensDevices, Bool.and_eq_true, Bool.and_eq_true] at h
    obtain ⟨⟨hn, hp⟩, hd⟩ := h
    match xs, hp, hd with
    | a :: b :: rest, hp, hd =>
      obtain ⟨ha, hb⟩ := Bool.and_eq_true_iff.1 hp
      exact ⟨hn, a, b, rest, rfl, ha, hb, hd⟩
  · rintro ⟨hn, a, b, rest, rfl, ha, hb, hd⟩
    have hp : d.startsWithPair (a :: b :: rest) = true := Bool.and_eq_true_iff.2 ⟨ha, hb⟩
    rw [opensDevices, hn, hp]
    exact hd

theorem opensDevices_append (hx : xs ≠ []) (h : d.opensDevices xs = false)
    (hb : (d.endsWithSep xs && d.startsWithSep ys) = false) :
    d.opensDevices (xs ++ ys) = (d.isShareMark xs && d.namesDevices ys) := by
  match xs, hx with
  | [a], _ =>
    have hp : d.startsWithPair ([a] ++ ys) = false := (startsWithPair_cons a ys).trans hb
    rw [opensDevices, hp, Bool.and_false, Bool.false_and]
    rfl
  | [a, b], _ => rfl
  | a :: b :: c :: zs, _ =>
    have hm : d.isShareMark (a :: b :: c :: zs) = false := rfl
    rw [hm, Bool.false_and, ← Bool.not_eq_true]
    intro ho
    obtain ⟨hn, a', b', rest, he, ha, hb', hd⟩ := opensDevices_iff.1 ho
    obtain ⟨rfl, rfl, rfl⟩ : a = a' ∧ b = b' ∧ c :: zs ++ ys = rest := by simpa using he
    have hc : d.namesDevices (c :: zs) = true := by
      cases zs with
      | nil => simp_all [namesDevices]
      | cons e zs => exact hd
    rw [opensDevices_iff.2 ⟨hn, a, b, c :: zs, rfl, ha, hb', hc⟩] at h
    cases h

theorem Valid.append (hx : d.Valid xs) (ha : ∀ a ∈ ys, d.Allowed a)
    (hp : d.validates = true → d.hasSepPair ys = false)
    (hb : (d.endsWithSep xs && d.startsWithSep ys) = false)
    (hm : (d.isShareMark xs && d.namesDevices ys) = false) : d.Valid (xs ++ ys) := by
  rw [valid_iff] at hx ⊢
  refine ⟨forall_allowed_append hx.1 ha, fun hv => ?_⟩
  obtain ⟨hpair, hdev⟩ := hx.2 hv
  have hpy := hp hv
  by_cases hne : xs = []
  · have hdev' : d.opensDevices ys = false := by
      rw [← Bool.not_eq_true]
      intro ho
      rw [opensDevices, Bool.and_eq_true, Bool.and_eq_true] at ho
      rw [hasSepPair_of_startsWithPair ho.1.2] at hpy
      cases hpy
    rw [hne, List.nil_append]
    exact ⟨hasSepPair_drop_one hpy, hdev'⟩
  · rw [opensDevices_append hne hdev hb, hm]
    obtain ⟨a, zs, rfl⟩ := List.exists_cons_of_ne_nil hne
    have hends : (d.endsWithSep zs && d.startsWithSep ys) = false := by
      cases zs with
      | nil => rfl
      | cons b zs => exact hb
    rw [List.drop_succ_cons, List.drop_zero] at hpair
    rw [List.cons_append, List.drop_succ_cons, List.drop_zero, hasSepPair_append, hpair, hends, hpy]
    exact ⟨rfl, rfl⟩

theorem forall_allowed_shorten (hc : cut <+: xs) (h : ∀ a ∈ d.afterDrive xs, d.Allowed a) :
    ∀ a ∈ d.afterDrive cut, d.Allowed a := by
  obtain ⟨rest, rfl⟩ := hc
  by_cases hd : d.startsWithDrive cut = true
  · rw [afterDrive_append rest hd] at h
    exact (List.forall_mem_append.1 h).1
  rw [Bool.not_eq_true] at hd
  rw [afterDrive_of_not_drive hd]
  by_cases hd' : d.startsWithDrive (cut ++ rest) = true
  · -- at most the letter of the drive is left
    obtain ⟨a, b, tail, hx, ha, -⟩ := exists_cons_of_startsWithDrive hd'
    match cut, hx with
    | [], _ => simp
    | [c], hx =>
      obtain ⟨rfl, -⟩ := List.cons.inj hx
      simpa using allowed_of_isDriveLetter ha
    | c :: e :: cut, _ =>
      have he : d.startsWithDrive (c :: e :: cut ++ rest) = d.startsWithDrive (c :: e :: cut) := rfl
      rw [he, hd] at hd'
      cases hd'
  · rw [afterDrive_of_not_drive (by simpa using hd')] at h
    exact (List.forall_mem_append.1 h).1

theorem Valid.shorten (h : d.Valid xs) (hc : cut <+: xs)
    (hd : d.opensDevices cut = true → d.opensDevices xs = true) : d.Valid cut := by
  rw [valid_iff] at h ⊢
  refine ⟨forall_allowed_shorten hc h.1, fun hv => ?_⟩
  obtain ⟨hpair, hdev⟩ := h.2 hv
  refine ⟨hasSepPair_shorten (hc.drop 1) hpair, ?_⟩
  rw [← Bool.not_eq_true] at hdev ⊢
  exact mt hd hdev

theorem not_isDot_of_isSep {a : α} (h : d.isSep a = true) : isDot a = false := by
  have hc := code_of_isSep h
  simp [isDot, isByte, dot]
  omega

theorem not_isSep_of_isDot {a : α} (h : isDot a = true) : d.isSep a = false := by
  rw [← Bool.not_eq_true]
  intro hs
  rw [not_isDot_of_isSep hs] at h
  cases h

theorem NameEnds.not_namesDevices (h : d.NameEnds xs) : d.namesDevices xs = false := by
  cases xs with
  | nil => rfl
  | cons a xs =>
    have ha := nameEnds_cons_iff.1 h
    rw [namesDevices, not_isDot_of_isSep ha, Bool.false_and]

theorem ShareReading.namesDevices_shorten {rest : List α} (h : d.ShareReading rest below f)
    (hc : cut <+: below) : d.namesDevices (rest ++ cut) = d.namesDevices (rest ++ below) := by
  cases h with
  | bare hb => exact (hb.shorten hc).not_namesDevices.trans hb.not_namesDevices.symm
  | server => rw [List.prefix_nil.1 hc]
  | serverSep hs =>
    rw [Dialect.namesDevices_append hs, Dialect.namesDevices_append hs]
  | share => rw [List.prefix_nil.1 hc]
  | complete hs =>
    rw [Dialect.namesDevices_append hs, Dialect.namesDevices_append hs]

theorem Reading.opensDevices_shorten (hr : d.Reading root below f) (hc : cut <+: below)
    (ho : d.opensDevices (root ++ cut) = true) : d.opensDevices (root ++ below) = true := by
  obtain ⟨hn, a, b, rest, he, ha, hb, hd⟩ := opensDevices_iff.1 ho
  have hf : f ≠ .relative := by
    rintro rfl
    obtain ⟨rfl, hs, -⟩ := hr.relative_inv
    have hcut := startsWithSep_shorten hc hs
    rw [← List.nil_append cut, he, startsWithSep] at hcut
    simp [ha] at hcut
  have hu := (form_front (d := d) (root ++ cut)).2
  rw [(hr.shorten_below hf hc).root_eq, he, startsWithPair, hn, ha, hb] at hu
  cases hr with
  | @unc a' b' rest' _ _ hn' ha' hb' hs =>
    have he' : a' = a ∧ b' = b ∧ rest' ++ cut = rest := by simpa using he
    rw [← he'.2.2, hs.namesDevices_shorten hc] at hd
    exact opensDevices_iff.2 ⟨hn, a', b', rest' ++ below, rfl, ha', hb', hd⟩
  | _ => cases hu

theorem Valid.shorten_below (h : d.Valid (root ++ below)) (hr : d.Reading root below f)
    (hc : cut <+: below) : d.Valid (root ++ cut) :=
  h.shorten ((List.prefix_append_right_inj root).2 hc) (hr.opensDevices_shorten hc)

theorem namesDevices_append_seps (h : d.namesDevices xs = true)
    (hs : ∀ a ∈ seps, d.isSep a = true) : d.namesDevices (xs ++ seps) = true := by
  match xs, h with
  | [a], h =>
    cases seps with
    | nil => exact h
    | cons c seps => simp_all [namesDevices, startsWithSep]
  | a :: b :: xs, h => exact h

theorem Valid.of_append_seps (h : d.Valid (xs ++ seps)) (hs : ∀ a ∈ seps, d.isSep a = true) :
    d.Valid xs := by
  refine h.shorten (List.prefix_append xs seps) fun ho => ?_
  obtain ⟨hn, a, b, rest, rfl, ha, hb, hd⟩ := opensDevices_iff.1 ho
  exact opensDevices_iff.2 ⟨hn, a, b, rest ++ seps, rfl, ha, hb, namesDevices_append_seps hd hs⟩

theorem Valid.trimEnd (h : d.Valid xs) : d.Valid (trimEnd d.isSep xs) := by
  obtain ⟨seps, hx, hs⟩ := exists_trimEnd_append d.isSep xs
  rw [hx] at h
  exact h.of_append_seps hs

end PathForms.Dialect
