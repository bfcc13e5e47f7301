import PathForms.Proofs.BufferRuns
import PathForms.Proofs.CanonicalLength
import PathForms.Proofs.PathWork

/-!
# Runs of edits keep paths within their limit

Every path that edits can make is terminated and within the limit of its dialect. Edits that add
units check the length of what they are going to leave; the others leave no more units than there
were. An edit that is refused has not touched the paths.
-/

set_option autoImplicit false

namespace PathForms

/-- What an edit that adds units makes of a path where there is no limit. -/
def Dialect.unlimited? {α : Type} [CodeUnit α] (d : Dialect) :
    Path.Op α → List α → Option (List α)
  | .push segment withSep, xs => some (if segment.isEmpty then xs else d.pushed withSep xs segment)
  | .pushExtension ext withSep, xs =>
    some (if ext.isEmpty then xs else (d.extended? withSep xs ext).getD xs)
  | .pushSep, xs => some (d.ensureSep xs)
  | _, _ => none

namespace Path

variable {α : Type} {d : Dialect}

section

variable [CodeUnit α] {p q : Path α d} {xs : List α}

/-- The path is terminated and within the limit of its dialect. -/
structure Sound (p : Path α d) : Prop where
  wellFormed : p.buffer.WellFormed
  length_le : p.length ≤ d.maxLength

theorem Sound.holds (h : p.Sound) : p.buffer.Holds p.units := h.wellFormed.holds

theorem Sound.length_units (h : p.Sound) : p.units.length ≤ d.maxLength := by
  rw [← h.holds.length_eq]
  exact h.length_le

theorem Sound.withNul_eq (h : p.Sound) : p.withNul = p.units ++ [CodeUnit.nul] :=
  h.holds.withNul_eq

theorem sound_of_holds {b : Buffer α} (h : b.Holds xs) (hl : xs.length ≤ d.maxLength) :
    (⟨b⟩ : Path α d).Sound :=
  ⟨h.wellFormed, by rw [← h.length_eq] at hl; exact hl⟩

theorem sound_empty : (empty : Path α d).Sound :=
  sound_of_holds Buffer.holds_empty (Nat.zero_le _)

theorem ofUnits_eq_error_iff {e : PathError} : (ofUnits xs : Except PathError (Path α d)) = .error e
    ↔ e = .tooLong xs.length d.maxLength ∧ d.maxLength < xs.length := by
  unfold ofUnits
  split
  · next h => simp [h, eq_comm]
  · next h => simp [h]

theorem sound_of_ofUnits (h : ofUnits xs = .ok p) : p.Sound := by
  unfold ofUnits at h
  split at h
  · cases h
  · cases h
    exact sound_of_holds (Buffer.holds_exact xs) (by omega)

theorem Sound.truncate (h : p.Sound) (n : Nat) : (⟨p.buffer.truncate n⟩ : Path α d).Sound := by
  have hl := h.length_units
  have ht := List.length_take_le' n p.units
  exact sound_of_holds (h.holds.truncate n) (by omega)

theorem Sound.respell (h : p.Sound) : p.respell.Sound := by
  refine sound_of_holds (h.holds.modify _) ?_
  rw [List.length_mapIdx]
  exact h.length_units

theorem Sound.canonical (h : p.Sound) (trim : Bool) : (p.canonical trim).Sound :=
  sound_of_holds (Buffer.holds_exact _)
    (Nat.le_trans (Dialect.length_canonical_le trim p.units) h.length_units)

theorem Sound.push {segment : List α} {withSep : Bool} (h : p.Sound)
    (hq : p.push segment withSep = .ok q) : q.Sound := by
  unfold Path.push at hq
  split at hq
  · cases hq
    exact h
  · exact sound_of_ofUnits hq

theorem Sound.pushExtension {ext : List α} {withSep : Bool} (h : p.Sound)
    (hq : p.pushExtension ext withSep = .ok q) : q.Sound := by
  unfold Path.pushExtension at hq
  split at hq
  · cases hq
    exact h
  · split at hq
    · cases hq
      exact h
    · exact sound_of_ofUnits hq

theorem Sound.pushSep (h : p.Sound) (hq : p.pushSep = .ok q) : q.Sound := by
  unfold Path.pushSep at hq
  split at hq
  · cases hq
    exact h
  · split at hq
    · cases hq
    · next hl =>
      obtain ⟨b, hb, rfl⟩ := map_eq_ok.1 (mapError_eq_ok.1 hq)
      refine sound_of_holds (h.holds.push hb) ?_
      rw [List.length_append, ← h.holds.length_eq]
      exact Nat.le_of_not_lt hl

theorem Sound.resolve {base : Path α d} {trim : Bool} (h : p.Sound)
    (hq : p.resolve base trim = .ok q) : q.Sound := by
  unfold Path.resolve at hq
  split at hq
  · cases hq
    exact h
  · split at hq
    · cases hq
    · obtain ⟨r, -, hr⟩ := bind_eq_ok.1 hq
      exact sound_of_ofUnits hr

/-- An edit gives the units asked for, unless they are too many. -/
structure Checked (x : Except PathError (Path α d)) (xs : List α) : Prop where
  eq_error_iff (e : PathError) :
    x = .error e ↔ e = .tooLong xs.length d.maxLength ∧ d.maxLength < xs.length
  exists_eq_ok (h : xs.length ≤ d.maxLength) : ∃ q, x = .ok q ∧ q.units = xs

omit [CodeUnit α] in
theorem Checked.length_le {x : Except PathError (Path α d)} (h : Checked x xs) (hq : x = .ok q) :
    xs.length ≤ d.maxLength := by
  by_contra hl
  have he := (h.eq_error_iff _).2 ⟨rfl, Nat.lt_of_not_le hl⟩
  rw [hq] at he
  cases he

omit [CodeUnit α] in
theorem Checked.units_eq {x : Except PathError (Path α d)} (h : Checked x xs) (hq : x = .ok q) :
    q.units = xs := by
  obtain ⟨r, hr, hu⟩ := h.exists_eq_ok (h.length_le hq)
  obtain rfl : q = r := Except.ok.inj (hq.symm.trans hr)
  exact hu

omit [CodeUnit α] in
theorem checked_ok (hl : p.units.length ≤ d.maxLength) : Checked (.ok p) p.units := by
  refine ⟨fun e => ?_, fun _ => ⟨p, rfl, rfl⟩⟩
  simp only [reduceCtorEq, false_iff, not_and]
  omega

theorem Sound.checked (h : p.Sound) : Checked (.ok p) p.units := checked_ok h.length_units

theorem checked_ofUnits (xs : List α) : Checked (ofUnits xs : Except PathError (Path α d)) xs :=
  ⟨fun _ => ofUnits_eq_error_iff, fun h => ⟨_, ofUnits_of_le h, Buffer.contents_exact xs⟩⟩

theorem Sound.exists_push_eq (h : p.Sound) (a : α) : ∃ b, p.buffer.push a = .ok b := by
  have hl : p.buffer.length ≤ 32766 := Nat.le_trans h.length_le (by cases d <;> decide)
  have hg : p.buffer.growth 1 ≤ 65536 := by
    unfold Buffer.growth Buffer.minSlots
    split <;> omega
  have hw := Nat.mul_le_mul hg (CodeUnit.width_le (α := α))
  cases hb : p.buffer.push a with
  | ok b => exact ⟨b, rfl⟩
  | error e =>
    have ho := Buffer.reserve_eq_error_iff.1 (bind_ok_eq_error.1 hb)
    have := ho.2
    rw [maxOctets] at this
    omega

theorem Sound.checked_pushSep (h : p.Sound) : Checked p.pushSep (d.ensureSep p.units) := by
  have hl : p.units.length = p.length := h.holds.length_eq.symm
  have he : p.isEmpty = p.units.isEmpty := by
    rw [Path.isEmpty, Buffer.isEmpty, h.holds.length_eq]
    cases p.units <;> rfl
  unfold Path.pushSep Dialect.ensureSep
  rw [he, endsWithSep]
  split
  · exact h.checked
  · have hlen : (p.units ++ [d.sepLike p.units]).length = p.length + 1 := by
      rw [List.length_append, hl]
      rfl
    refine ⟨fun e => ?_, fun hle => ?_⟩
    · rw [hlen]
      split
      · next hlt => simp [hlt, eq_comm]
      · next hlt =>
        obtain ⟨b, hb⟩ := h.exists_push_eq (d.sepLike p.units)
        rw [hb]
        show Except.ok _ = _ ↔ _
        simp [hlt]
    · rw [hlen] at hle
      obtain ⟨b, hb⟩ := h.exists_push_eq (d.sepLike p.units)
      rw [if_neg (Nat.not_lt.2 hle), hb]
      exact ⟨⟨b⟩, rfl, (h.holds.push hb).contents_eq⟩

end

variable [TextUnit α] {p q : Path α d}

theorem Sound.resolveHere {here : WorkingDirectory} {trim : Bool} (h : p.Sound)
    (hq : p.resolveHere here trim = .ok q) : q.Sound := by
  unfold Path.resolveHere at hq
  split at hq
  · cases hq
    exact h
  · obtain ⟨b, -, hb⟩ := bind_eq_ok.1 hq
    exact h.resolve hb

theorem sound_of_ofOctets {octets : List UInt8} (h : ofOctets octets = .ok p) : p.Sound := by
  obtain ⟨b, hb, hp⟩ := bind_eq_ok.1 h
  have hw := TextUnit.wellFormed_ofOctets octets b (mapError_eq_ok.1 hb)
  split at hp
  · cases hp
  · cases hp
    exact ⟨hw, Nat.le_of_not_lt ‹_›⟩

def BothSound (s : Session (Path α d)) : Prop := s.current.Sound ∧ s.aside.Sound

variable {s t : Session (Path α d)}

theorem BothSound.map_put {x : Except PathError (Path α d)} (h : BothSound s)
    (hx : ∀ q, x = .ok q → q.Sound) (ht : x.map s.put = .ok t) : BothSound t := by
  obtain ⟨q, hq, rfl⟩ := map_eq_ok.1 ht
  exact ⟨hx q hq, h.2⟩

theorem BothSound.step {op : Op α} (h : BothSound s) (ht : step op s = .ok t) : BothSound t := by
  have hp := h.1
  cases op with
  | set xs => exact h.map_put (fun _ => sound_of_ofUnits) ht
  | setText octets => exact h.map_put (fun _ => sound_of_ofOctets) ht
  | push segment withSep => exact h.map_put (fun _ => hp.push) ht
  | join segment =>
    obtain ⟨q, hq, rfl⟩ := map_eq_ok.1 ht
    exact ⟨hp, hp.push hq⟩
  | pushExtension ext withSep => exact h.map_put (fun _ => hp.pushExtension) ht
  | pushSep => exact h.map_put (fun _ => hp.pushSep) ht
  | pop trim => cases ht; exact ⟨hp.truncate _, h.2⟩
  | popSep => cases ht; exact ⟨hp.truncate _, h.2⟩
  | popExtension => cases ht; exact ⟨hp.truncate _, h.2⟩
  | respell => cases ht; exact ⟨hp.respell, h.2⟩
  | canonical trim => cases ht; exact ⟨hp.canonical trim, h.2⟩
  | resolveHere here trim => exact h.map_put (fun _ => hp.resolveHere) ht
  | resolve base trim =>
    obtain ⟨b, -, hb⟩ := bind_eq_ok.1 ht
    obtain ⟨q, hq, hs⟩ := bind_eq_ok.1 hb
    cases hs
    exact ⟨hp.resolve hq, h.2⟩
  | clear => cases ht; exact ⟨hp.truncate 0, h.2⟩
  | save => cases ht; exact ⟨hp, hp⟩
  | swap => cases ht; exact ⟨h.2, hp⟩

theorem BothSound.after (op : Op α) (h : BothSound s) : BothSound (after op s) :=
  Session.after_invariant (fun h => h.step) op h

theorem BothSound.run (ops : List (Op α)) (h : BothSound s) : BothSound (run ops s) :=
  Session.run_invariant (fun h => h.step) ops h

theorem Sound.exists_step_eq {op : Op α} {xs : List α} (h : s.current.Sound)
    (hx : d.unlimited? op s.current.units = some xs) :
    ∃ x, step op s = x.map s.put ∧ Checked x xs := by
  cases op with
  | push segment withSep =>
    cases hx
    refine ⟨_, rfl, ?_⟩
    unfold Path.push
    split
    · exact h.checked
    · exact checked_ofUnits _
  | pushExtension ext withSep =>
    cases hx
    refine ⟨_, rfl, ?_⟩
    unfold Path.pushExtension
    split
    · exact h.checked
    · cases d.extended? withSep s.current.units ext with
      | none => exact h.checked
      | some ys => exact checked_ofUnits ys
  | pushSep =>
    cases hx
    exact ⟨_, rfl, h.checked_pushSep⟩
  | _ => cases hx

/-- Whatever has been done to two paths that were empty at first, both are within the limit of their
dialect and terminated. In place each further edit comes to what its step comes to, or is refused
and has changed neither path. One that adds units is refused if and only if the path that it would
give is too long. -/
theorem run_within_limit (ops : List (Op α)) :
    let s := run ops (⟨empty, empty⟩ : Session (Path α d))
    (∀ p ∈ [s.current, s.aside],
      p.length ≤ d.maxLength ∧ p.withNul = p.units ++ [CodeUnit.nul]) ∧
    (∀ op, (∀ t, PathWork.perform op s = .ok () t ↔ step op s = .ok t) ∧
      ∀ e t, PathWork.perform op s = .error e t ↔ t = s ∧ step op s = .error e) ∧
    ∀ op xs, d.unlimited? op s.current.units = some xs →
      (∀ e, step op s = .error e ↔
        e = .tooLong xs.length d.maxLength ∧ d.maxLength < xs.length) ∧
      (xs.length ≤ d.maxLength → ∃ q : Path α d, step op s = .ok (s.put q) ∧ q.units = xs) := by
  intro s
  have h0 : BothSound (⟨empty, empty⟩ : Session (Path α d)) := ⟨sound_empty, sound_empty⟩
  have hs : BothSound s := h0.run ops
  refine ⟨?_, ?_, ?_⟩
  · intro p hp
    have hsound : p.Sound := by
      rcases List.mem_cons.1 hp with rfl | hp
      · exact hs.1
      · exact List.mem_singleton.1 hp ▸ hs.2
    exact ⟨hsound.length_le, hsound.withNul_eq⟩
  · intro op
    rw [PathWork.perform_apply op hs.1.wellFormed]
    cases step op s with
    | ok t' => simp [Work.outcome, Except.map]
    | error e' => simp [Work.outcome, Except.map, and_comm, eq_comm]
  · intro op xs hx
    obtain ⟨x, hstep, hc⟩ := hs.1.exists_step_eq hx
    rw [hstep]
    refine ⟨fun e => map_eq_error.trans (hc.eq_error_iff e), fun hl => ?_⟩
    obtain ⟨q, rfl, hq⟩ := hc.exists_eq_ok hl
    exact ⟨q, rfl, hq⟩

end Path

end PathForms
