import PathForms.Proofs.CanonicalValid

/-!
# Runs of edits keep paths valid

Every edit of a valid path with a valid argument leaves a valid path, with one exception: a segment
that begins with a lone dot, put behind the bare mark of a share, is read as a server then, and the
server with that name is the device namespace. So valid paths stay valid along a run up to the
first such step, and no further.
-/

set_option autoImplicit false

namespace PathForms

namespace Dialect

open CodeUnit

variable {α : Type} [CodeUnit α] {d : Dialect} {xs ys root below seps : List α} {f : Form}

theorem Valid.faultless (h : d.Valid xs) : d.Faultless xs := (valid_iff_faultless.1 h).1

theorem isShareMark_iff : d.isShareMark xs = true ↔ d.networkShares = true ∧
    ∃ a b, xs = [a, b] ∧ d.isSep a = true ∧ d.isSep b = true := by
  constructor
  · intro h
    unfold isShareMark at h
    split at h
    · next a b =>
      rw [Bool.and_eq_true, Bool.and_eq_true] at h
      exact ⟨h.1, a, b, rfl, h.2⟩
    · cases h
  · rintro ⟨hn, a, b, rfl, ha, hb⟩
    simp [isShareMark, hn, ha, hb]

theorem endsWithSep_of_isShareMark (h : d.isShareMark xs = true) : d.endsWithSep xs = true := by
  obtain ⟨-, a, b, rfl, -, hb⟩ := isShareMark_iff.1 h
  exact hb

theorem reading_of_isShareMark (h : d.isShareMark xs = true) :
    d.Reading xs [] .uncIncomplete := by
  obtain ⟨hn, a, b, rfl, ha, hb⟩ := isShareMark_iff.1 h
  exact .unc hn ha hb (.bare (Or.inl rfl))

theorem Valid.ensureSep (h : d.Valid xs) : d.Valid (d.ensureSep xs) := by
  rcases ensureSep_cases (d := d) xs with ⟨he, -⟩ | ⟨c, he, hc, hn⟩
  · rwa [he]
  · have hends : d.NameEnds [c] := Or.inr hc
    rw [he]
    refine h.append (by simpa using allowed_of_isSep hc) (fun _ => rfl) (by rw [hn]; rfl) ?_
    rw [hends.not_namesDevices, Bool.and_false]

theorem isShareMark_ensureSep (xs : List α) :
    d.isShareMark (d.ensureSep xs) = d.isShareMark xs := by
  rcases ensureSep_cases (d := d) xs with ⟨he, -⟩ | ⟨c, he, -, hn⟩
  · rw [he]
  · have hx : d.isShareMark xs = false := by
      rw [← Bool.not_eq_true]
      intro hm
      rw [endsWithSep_of_isShareMark hm] at hn
      cases hn
    rw [he, hx, ← Bool.not_eq_true]
    intro hm
    obtain ⟨-, a, b, hab, ha, -⟩ := isShareMark_iff.1 hm
    obtain rfl : xs = [a] := List.append_inj_left' (show xs ++ [c] = [a] ++ [b] from hab) rfl
    simp [endsWithSep, ha] at hn

theorem Valid.not_hasSepPair (h : d.Valid ys) (hp : d.startsWithPair ys = false)
    (hv : d.validates = true) : d.hasSepPair ys = false := by
  rw [hasSepPair_eq, hp, ((valid_iff.1 h).2 hv).1]
  rfl

theorem not_startsWithPair_of_form (hf : (d.root xs).form.isUnc = false)
    (hv : d.validates = true) : d.startsWithPair xs = false := by
  rw [(form_front xs).2, networkShares_of_validates hv] at hf
  exact hf

theorem Valid.append_valid (hx : d.Valid xs) (hy : d.Valid ys)
    (hd : d.startsWithDrive ys = false) (hf : (d.root ys).form.isUnc = false)
    (hb : (d.endsWithSep xs && d.startsWithSep ys) = false)
    (hm : (d.isShareMark xs && d.namesDevices ys) = false) : d.Valid (xs ++ ys) :=
  hx.append (hy.allowed hd)
    (fun hv => hy.not_hasSepPair (not_startsWithPair_of_form hf hv) hv) hb hm

theorem front_of_relative (hf : (d.root xs).form = .relative) :
    d.startsWithSep xs = false ∧ d.startsWithDrive xs = false := by
  obtain ⟨-, hs, hd, -⟩ := (reading_of_relative hf).relative_inv
  exact ⟨hs, hd⟩

theorem Valid.volume (h : d.Valid xs) : d.Valid (d.volume xs) := by
  obtain ⟨root, below, f, rfl, hr⟩ := exists_reading (d := d) xs
  have hroot := h.shorten_below hr List.nil_prefix
  rw [List.append_nil] at hroot
  rw [volume_eq hr]
  exact hroot.trimEnd

theorem not_endsWithSep_volume (xs : List α) : d.endsWithSep (d.volume xs) = false := by
  obtain ⟨root, below, f, rfl, hr⟩ := exists_reading (d := d) xs
  rw [volume_eq hr]
  exact getLast?_trimEnd d.isSep root

theorem Valid.volume_append (hx : d.Valid xs) (hy : d.Valid ys)
    (hf : (d.root ys).form = .slashRooted) : d.Valid (d.volume xs ++ ys) := by
  have he := not_endsWithSep_volume (d := d) xs
  have hm : d.isShareMark (d.volume xs) = false := by
    rw [← Bool.not_eq_true]
    intro hm
    rw [endsWithSep_of_isShareMark hm] at he
    cases he
  have hd : d.startsWithDrive ys = false := by
    rw [← (form_front ys).1, hf]
    rfl
  exact hx.volume.append_valid hy hd (by rw [hf]; rfl) (by rw [he]; rfl) (by rw [hm]; rfl)

theorem Valid.append_relative (hx : d.Valid xs) (hy : d.Valid ys)
    (hf : (d.root ys).form = .relative) (hm : (d.isShareMark xs && d.namesDevices ys) = false) :
    d.Valid (xs ++ ys) := by
  obtain ⟨hs, hd⟩ := front_of_relative hf
  exact hx.append_valid hy hd (by rw [hf]; rfl) (by rw [hs, Bool.and_false]) hm

theorem Valid.joined (hx : d.Valid xs) (hy : d.Valid ys) (hne : ys ≠ [])
    (hm : (d.isShareMark xs && d.namesDevices ys) = false) : d.Valid (d.joined xs ys) := by
  cases hf : (d.root ys).form with
  | empty => exact absurd (form_eq_empty_iff.1 hf) hne
  | relative =>
    rw [joined_relative xs hf]
    split
    · exact hx.append_relative hy hf hm
    · exact hx.ensureSep.append_relative hy hf (by rwa [isShareMark_ensureSep])
  | slashRooted =>
    simp only [Dialect.joined, hf, beq_self_eq_true, if_true]
    split
    · exact hy
    · split
      · exact hx.volume_append hy hf
      · exact hy
  | _ =>
    simp only [Dialect.joined, hf]
    exact hy

theorem Valid.pushed (withSep : Bool) (hx : d.Valid xs) (hy : d.Valid ys) (hne : ys ≠ [])
    (hm : (d.isShareMark xs && d.namesDevices ys) = false) : d.Valid (d.pushed withSep xs ys) := by
  cases withSep with
  | false => exact hx.joined hy hne hm
  | true => exact (hx.joined hy hne hm).ensureSep

theorem form_of_namesDevices (h : d.namesDevices ys = true) : (d.root ys).form = .relative := by
  cases ys with
  | nil => cases h
  | cons a ys =>
    have hdot : isDot a = true := (Bool.and_eq_true_iff.1 h).1
    have hc : code a = 46 := by simpa [isDot, isByte, dot] using hdot
    have hs : d.isSep a = false := not_isSep_of_isDot hdot
    have hd : d.startsWithDrive (a :: ys) = false := by
      cases ys <;> simp [startsWithDrive, isDriveLetter, isUpper, isLower, hc]
    have hh : d.startsWithHome (a :: ys) = false := by
      simp [startsWithHome, isByte, hc, tilde]
    have hr : d.Reading [] (a :: ys) .relative := .relative (by simp) hs hd hh
    exact congrArg Root.form hr.root_eq

theorem not_valid_pushed (withSep : Bool) (hm : d.isShareMark xs = true)
    (hd : d.namesDevices ys = true) : ¬ d.Valid (d.pushed withSep xs ys) := by
  have hj : d.joined xs ys = xs ++ ys := by
    have he := ensureSep_of_endsWithSep (endsWithSep_of_isShareMark hm)
    rw [joined_relative xs (form_of_namesDevices hd), he, ite_self]
  obtain ⟨seps, hp, hs⟩ : ∃ seps, d.pushed withSep xs ys = xs ++ (ys ++ seps) ∧
      ∀ a ∈ seps, d.isSep a = true := by
    cases withSep with
    | false => exact ⟨[], by rw [List.append_nil, ← hj]; rfl, by simp⟩
    | true =>
      rcases ensureSep_cases (d := d) (xs ++ ys) with ⟨he, -⟩ | ⟨c, he, hc, -⟩
      · exact ⟨[], by rw [List.append_nil, pushed, if_pos rfl, hj, he], by simp⟩
      · exact ⟨[c], by rw [pushed, if_pos rfl, hj, he, List.append_assoc], by simpa using hc⟩
  obtain ⟨hn, a, b, rfl, ha, hb⟩ := isShareMark_iff.1 hm
  have ho : d.opensDevices (a :: b :: (ys ++ seps)) = true :=
    opensDevices_iff.2 ⟨hn, a, b, _, rfl, ha, hb, namesDevices_append_seps hd hs⟩
  intro hv
  rw [hp, valid_iff] at hv
  have hval := validates_of_driveLetters (driveLetters_of_networkShares hn)
  exact Bool.false_ne_true ((hv.2 hval).2.symm.trans ho)

theorem Valid.popped (h : d.Valid xs) (trim : Bool) :
    d.Valid (xs.take (d.poppedLength trim xs)) := by
  have hp := pops_take (d := d) trim xs
  generalize xs.take (d.poppedLength trim xs) = ys at hp ⊢
  cases hp with
  | nothing => exact h
  | @segment root before name seps f hr hl =>
    obtain ⟨cut, hc, -⟩ := exists_leftBefore_append (d := d) trim before
    refine h.shorten_below hr ⟨cut ++ name ++ seps, ?_⟩
    rw [← List.append_assoc _ (cut ++ name), ← List.append_assoc _ cut, ← hc]

theorem Valid.withoutSeps (h : d.Valid xs) : d.Valid (xs.take (d.withoutSepsLength xs)) := by
  obtain ⟨root, below, f, rfl, hr⟩ := exists_reading (d := d) xs
  obtain ⟨seps, hb, -⟩ := exists_trimEnd_append d.isSep below
  rw [take_withoutSepsLength hr]
  exact h.shorten_below hr ⟨seps, hb.symm⟩

theorem length_extension_le (entry : List α) : (extension entry).length ≤ entry.length := by
  unfold extension
  dsimp only
  split
  · exact Nat.zero_le _
  · rw [List.length_drop]
    exact Nat.sub_le _ _

theorem Valid.withoutExtension (h : d.Valid xs) :
    d.Valid (xs.take (d.withoutExtensionLength xs)) := by
  obtain ⟨root, below, f, rfl, hr⟩ := exists_reading (d := d) xs
  have hlen : ((d.slices (root ++ below)).extension).length ≤ below.length := by
    have hle := length_extension_le (afterLast d.isSep below)
    have hb := congrArg List.length (throughLast_append_afterLast d.isSep below)
    rw [List.length_append] at hb
    simp only [slices, hr.root_eq, List.drop_left]
    omega
  rw [withoutExtensionLength, List.length_append, Nat.add_sub_assoc hlen,
    List.take_length_add_append]
  exact h.shorten_below hr (List.take_prefix _ _)

theorem Valid.respelled (h : d.Valid xs) : d.Valid (d.respelled xs) := by
  have hk : d.KeepsRules (d.respell : α → α) := keepsRules_respell
  rwa [Valid, Dialect.respelled, hk.kind_map]

theorem Valid.canonical (h : d.Valid xs) (trim : Bool) : d.Valid (d.canonical trim xs) := by
  by_cases hx : xs = []
  · rwa [hx, canonical_nil, ← hx]
  · exact valid_canonical trim hx h.faultless

theorem Reading.not_isShareMark (hr : d.Reading root below f) {left : List α}
    (hc : left <+: below) (hne : left ≠ []) : d.isShareMark (root ++ left) = false := by
  rw [← Bool.not_eq_true]
  intro hm
  have hmark := (reading_of_isShareMark hm).root_eq
  rw [List.append_nil] at hmark
  by_cases hf : f = .relative
  · subst hf
    obtain ⟨rfl, hs, -⟩ := hr.relative_inv
    have hleft := startsWithSep_shorten hc hs
    rw [List.nil_append] at hm
    obtain ⟨-, a, b, rfl, ha, -⟩ := isShareMark_iff.1 hm
    simp [startsWithSep, ha] at hleft
  · rw [(hr.shorten_below hf hc).root_eq, Root.mk.injEq, List.length_append] at hmark
    have := List.length_pos_iff.2 hne
    omega

theorem Valid.append_extension {ext : List α} (hx : d.Valid xs) (hm : d.isShareMark xs = false)
    (hv : d.Valid ext) (hf : (d.root ext).form = .relative) (hs : ∀ a ∈ ext, d.isSep a = false) :
    d.Valid (xs ++ (if ext.head?.any isDot then ext else ofByte dot :: ext)) := by
  split
  · exact hx.append_relative hv hf (by rw [hm]; rfl)
  · have hdot : d.isSep (ofByte dot : α) = false := isSegment_dot.2 _ (List.mem_singleton.2 rfl)
    refine hx.append ?_ (fun _ => ?_) ?_ (by rw [hm]; rfl)
    · exact List.forall_mem_cons.2 ⟨allowed_dot, hv.allowed (front_of_relative hf).2⟩
    · exact hasSepPair_of_forall_not_isSep (List.forall_mem_cons.2 ⟨hdot, hs⟩)
    · have hstart : d.startsWithSep (ofByte dot :: ext) = false := hdot
      rw [hstart, Bool.and_false]

theorem Valid.extended {withSep : Bool} {ext : List α} (h : d.Valid xs) (hv : d.Valid ext)
    (hf : (d.root ext).form = .relative) (hs : ∀ a ∈ ext, d.isSep a = false)
    (he : d.extended? withSep xs ext = some ys) : d.Valid ys := by
  obtain ⟨root, below, f, rfl, hr⟩ := exists_reading (d := d) xs
  obtain ⟨seps, hb, -⟩ := exists_trimEnd_append d.isSep below
  have hbase := h.shorten_below hr ⟨seps, hb.symm⟩
  unfold extended? at he
  simp only [hr.root_eq, trimSeps_append] at he
  split at he
  · cases he
  · next hlen =>
    have hne : PathForms.trimEnd d.isSep below ≠ [] := by
      intro hn
      rw [hn, List.append_nil] at hlen
      exact hlen rfl
    have hdotted := hbase.append_extension (hr.not_isShareMark ⟨seps, hb.symm⟩ hne) hv hf hs
    cases withSep with
    | false =>
      cases he
      exact hdotted
    | true =>
      cases he
      exact hdotted.ensureSep

end Dialect

namespace Path

open Dialect

variable {α : Type} {d : Dialect}

variable [TextUnit α] {p q : Path α d} {s t : Session (Path α d)}

theorem isValid_of_units_eq {xs : List α} (h : p.units = xs) (hv : d.Valid xs) :
    p.kind.isValid = true := by
  rw [kind, h]
  exact hv

def BothValid (s : Session (Path α d)) : Prop :=
  s.current.kind.isValid = true ∧ s.aside.kind.isValid = true

/-- The edits whose arguments are valid: any segment, and an extension that is a relative path with
no separator in it. -/
inductive Tidy (d : Dialect) : Op α → Prop
  | push {segment : List α} (withSep : Bool) (h : (d.kind .strict segment).isValid = true) :
      Tidy d (.push segment withSep)
  | join {segment : List α} (h : (d.kind .strict segment).isValid = true) :
      Tidy d (.join segment)
  | pushExtension {ext : List α} (withSep : Bool) (h : d.kind .strict ext = .form .relative)
      (hs : ∀ a ∈ ext, d.isSep a = false) : Tidy d (.pushExtension ext withSep)
  | pushSep : Tidy d .pushSep
  | pop (trim : Bool) : Tidy d (.pop trim)
  | popSep : Tidy d .popSep
  | popExtension : Tidy d .popExtension
  | respell : Tidy d .respell
  | canonical (trim : Bool) : Tidy d (.canonical trim)
  | save : Tidy d .save
  | swap : Tidy d .swap

/-- The segment names a device behind the path, which is the bare mark of a share, and what that
gives is within the limit. -/
def MeetsDevice (p : Path α d) (segment : List α) (withSep : Bool) : Prop :=
  d.isShareMark p.units = true ∧ d.namesDevices segment = true ∧
    (d.pushed withSep p.units segment).length ≤ d.maxLength

def NamesDevice (op : Op α) (s : Session (Path α d)) : Prop :=
  match op with
  | .push segment withSep => s.current.MeetsDevice segment withSep
  | .join segment => s.current.MeetsDevice segment false
  | _ => False

theorem valid_of_push {segment : List α} {withSep : Bool} (hp : d.Valid p.units)
    (hv : d.Valid segment) (hm : ¬ p.MeetsDevice segment withSep)
    (hq : p.push segment withSep = .ok q) : d.Valid q.units := by
  by_cases hne : segment = []
  · rw [hne] at hq
    obtain rfl : p = q := Except.ok.inj hq
    exact hp
  obtain ⟨hl, rfl⟩ := (push_eq_ok_iff withSep hne).1 hq
  rw [units_exact]
  refine hp.pushed withSep hv hne ?_
  rw [← Bool.not_eq_true, Bool.and_eq_true]
  exact fun h => hm ⟨h.1, h.2, hl⟩

theorem MeetsDevice.exists_push_eq {segment : List α} {withSep : Bool}
    (hm : p.MeetsDevice segment withSep) :
    ∃ q, p.push segment withSep = .ok q ∧ ¬ d.Valid q.units := by
  obtain ⟨hmark, hd, hl⟩ := hm
  have hne : segment ≠ [] := by
    rintro rfl
    cases hd
  refine ⟨_, (push_eq_ok_iff withSep hne).2 ⟨hl, rfl⟩, ?_⟩
  rw [units_exact]
  exact not_valid_pushed withSep hmark hd

theorem valid_of_pushExtension {ext : List α} {withSep : Bool} (hp : d.Valid p.units)
    (hk : d.kind .strict ext = .form .relative) (hs : ∀ a ∈ ext, d.isSep a = false)
    (hq : p.pushExtension ext withSep = .ok q) : d.Valid q.units := by
  have hv : d.Valid ext := by
    rw [Valid, hk]
    rfl
  unfold pushExtension at hq
  split at hq
  · cases hq
    exact hp
  · split at hq
    · cases hq
      exact hp
    · next ys he =>
      rw [units_of_ofUnits hq]
      exact hp.extended hv (kind_eq_form hk).symm hs he

theorem BothValid.step {op : Op α} (hv : BothValid s) (hs : BothSound s) (ho : Tidy d op)
    (hn : ¬ NamesDevice op s) (ht : step op s = .ok t) : BothValid t := by
  have hp : d.Valid s.current.units := hv.1
  have hput : ∀ {x : Except PathError (Path α d)}, (∀ q, x = .ok q → d.Valid q.units) →
      x.map s.put = .ok t → BothValid t := by
    intro x hx hm
    obtain ⟨q, hq, rfl⟩ := map_eq_ok.1 hm
    exact ⟨hx q hq, hv.2⟩
  cases ho with
  | push withSep h => exact hput (fun _ => valid_of_push hp h hn) ht
  | join h =>
    obtain ⟨q, hq, rfl⟩ := map_eq_ok.1 ht
    exact ⟨hp, valid_of_push hp h hn hq⟩
  | pushExtension withSep h hsep => exact hput (fun _ => valid_of_pushExtension hp h hsep) ht
  | pushSep =>
    refine hput (fun q hq => ?_) ht
    rw [hs.1.checked_pushSep.units_eq hq]
    exact hp.ensureSep
  | pop trim =>
    cases ht
    exact ⟨isValid_of_units_eq (units_pop s.current trim) (hp.popped trim), hv.2⟩
  | popSep =>
    cases ht
    exact ⟨isValid_of_units_eq (units_popSep s.current) hp.withoutSeps, hv.2⟩
  | popExtension =>
    cases ht
    exact ⟨isValid_of_units_eq (units_popExtension s.current) hp.withoutExtension, hv.2⟩
  | respell =>
    cases ht
    exact ⟨isValid_of_units_eq (units_respell s.current) hp.respelled, hv.2⟩
  | canonical trim =>
    cases ht
    exact ⟨isValid_of_units_eq (units_canonical s.current trim) (hp.canonical trim), hv.2⟩
  | save =>
    cases ht
    exact ⟨hp, hp⟩
  | swap =>
    cases ht
    exact ⟨hv.2, hp⟩

theorem BothValid.after {op : Op α} (hv : BothValid s) (hs : BothSound s) (ho : Tidy d op)
    (hn : ¬ NamesDevice op s) : BothValid (after op s) := by
  rw [Path.after]
  cases ht : Path.step op s with
  | error e => rwa [Session.after_of_error ht]
  | ok t =>
    rw [Session.after_of_ok ht]
    exact hv.step hs ho hn ht

theorem not_bothValid_after {op : Op α} (hn : NamesDevice op s) : ¬ BothValid (after op s) := by
  cases op with
  | push segment withSep =>
    obtain ⟨q, hq, hinv⟩ := MeetsDevice.exists_push_eq hn
    have ha : Path.after (.push segment withSep) s = s.put q :=
      Session.after_of_ok (congrArg (Except.map s.put) hq)
    rw [ha]
    exact fun hv => hinv hv.1
  | join segment =>
    obtain ⟨q, hq, hinv⟩ := MeetsDevice.exists_push_eq hn
    have ha : Path.after (.join segment) s = s.keep q :=
      Session.after_of_ok (congrArg (Except.map s.keep) hq)
    rw [ha]
    exact fun hv => hinv hv.2
  | _ => cases hn

/-- Along a run of edits with valid arguments, paths that are valid at first are valid after every
step if and only if no step puts a segment that begins with a lone dot behind the bare mark of a
share, within the limit. The paths are terminated and within the limit at first, as all paths are
that edits can make. -/
theorem bothValid_run_iff {ops : List (Op α)} (hs : BothSound s) (hv : BothValid s)
    (ho : ∀ op ∈ ops, Tidy d op) : (∀ n, BothValid (run (ops.take n) s)) ↔
      ∀ n op, ops[n]? = some op → ¬ NamesDevice op (run (ops.take n) s) := by
  induction ops generalizing s with
  | nil => simpa [run, Session.run] using hv
  | cons op ops ih =>
    have hop := ho op List.mem_cons_self
    have hops : ∀ o ∈ ops, Tidy d o := fun o hm => ho o (List.mem_cons_of_mem op hm)
    have hs' : BothSound (after op s) := hs.after op
    constructor
    · intro h n o hn
      cases n with
      | zero =>
        obtain rfl : op = o := Option.some.inj hn
        exact fun hd => not_bothValid_after hd (h 1)
      | succ n => exact (ih hs' (h 1) hops).1 (fun m => h (m + 1)) n o hn
    · intro h n
      cases n with
      | zero => exact hv
      | succ n =>
        have hv' := hv.after hs hop (h 0 op rfl)
        exact (ih hs' hv' hops).2 (fun m o hm => h (m + 1) o hm) n

/-- `.` pushed onto `C:\` leaves a valid path, and popping after that does. -/
theorem bothValid_run_drive : ∃ s : Session (Path UInt8 .windows), ∃ ops : List (Op UInt8),
    ops = [.push [46] false, .pop true] ∧ s.current.units = [67, 58, 92] ∧ BothSound s ∧
      BothValid s ∧ ∀ n, BothValid (run (ops.take n) s) := by
  have hs : BothSound (⟨⟨Buffer.exact [67, 58, 92]⟩, empty⟩ : Session (Path UInt8 .windows)) :=
    ⟨sound_of_holds (Buffer.holds_exact _) (by decide), sound_empty⟩
  have hv : BothValid (⟨⟨Buffer.exact [67, 58, 92]⟩, empty⟩ : Session (Path UInt8 .windows)) :=
    ⟨rfl, rfl⟩
  have ho : ∀ op ∈ [Op.push [(46 : UInt8)] false, .pop true], Tidy .windows op := by
    simpa using ⟨Tidy.push (d := .windows) false rfl, Tidy.pop true⟩
  refine ⟨_, _, rfl, rfl, hs, hv, (bothValid_run_iff hs hv ho).2 fun n op hn hd => ?_⟩
  match n, hn with
  | 0, hn =>
    cases hn
    exact absurd hd.1 (by decide)
  | 1, hn =>
    cases hn
    exact hd

/-- Valid paths do not stay valid under every such run: `.` pushed onto `\\` gives the mark of the
device namespace. -/
theorem not_forall_bothValid_run : ¬ ∀ (s : Session (Path UInt8 .windows)) (ops : List (Op UInt8)),
    BothSound s → BothValid s → (∀ op ∈ ops, Tidy .windows op) → BothValid (run ops s) := by
  intro h
  have hs : BothSound (⟨⟨Buffer.exact [92, 92]⟩, empty⟩ : Session (Path UInt8 .windows)) :=
    ⟨sound_of_holds (Buffer.holds_exact _) (by decide), sound_empty⟩
  have ho : ∀ op ∈ [Op.push [(46 : UInt8)] false], Tidy .windows op := by
    simpa using Tidy.push (d := .windows) false rfl
  have hv := (h _ _ hs ⟨rfl, rfl⟩ ho).1
  revert hv
  decide

end Path

end PathForms
