import PathForms.Proofs.BufferWork

/-!
# Runs of buffer operations are runs on lists

Whatever the order of its operations, a run on buffers answers what the same operations answer on
plain lists, and ends in buffers that hold those lists. Only an operation that overflows is left out
of the comparison; which one does is told by the number of slots it allocates.
-/

set_option autoImplicit false

namespace PathForms.Buffer

variable {α : Type} [CodeUnit α]

/-- One operation on plain lists. What is asked of the storage alone changes nothing. -/
def plainStep (op : Op α) (l : Session (List α)) : Session (List α) × Option α :=
  let xs := l.current
  match op with
  | .new | .withCapacity _ | .clear => (l.put [], none)
  | .ofUnits ys => (l.put ys, none)
  | .push a => (l.put (xs ++ [a]), none)
  | .extend ys => (l.put (xs ++ ys), none)
  | .pop => (l.put xs.dropLast, xs.getLast?)
  | .truncate n => (l.put (xs.take n), none)
  | .resize n => (l.put (xs.take n ++ List.replicate (n - xs.length) CodeUnit.nul), none)
  | .reserve _ | .shrink => (l, none)
  | .modify f => (l.put (xs.mapIdx f), none)
  | .save => (l.keep xs, none)
  | .swap => (l.swap, none)

def plainRun : List (Op α) → Session (List α) → Session (List α) × List (Option α)
  | [], l => (l, [])
  | op :: ops, l =>
    let (m, answer) := plainStep op l
    let (n, answers) := plainRun ops m
    (n, answer :: answers)

/-- The operations of a run that succeed, each with what it answers. -/
def log : List (Op α) → Session (Buffer α) → List (Op α × Option α)
  | [], _ => []
  | op :: ops, s =>
    match step op s with
    | .ok (t, answer) => (op, answer) :: log ops t
    | .error _ => log ops s

structure Follows (s : Session (Buffer α)) (l : Session (List α)) : Prop where
  current : s.current.Holds l.current
  aside : s.aside.Holds l.aside

/-- All that a buffer shows agrees with a list, and one terminator stands behind its units. -/
structure Shows (b : Buffer α) (xs : List α) : Prop where
  contents : b.contents = xs
  length : b.length = xs.length
  terminated : b.storage.size = 0 ∧ b.length = 0 ∨
    b.length + 1 ≤ b.storage.size ∧ b.storage.get? b.length = some CodeUnit.nul
  withNul : b.withNul = xs ++ [CodeUnit.nul]
  room : b.length ≤ b.capacity

theorem Holds.shows {b : Buffer α} {xs : List α} (h : b.Holds xs) : b.Shows xs := by
  have hw := h.wellFormed
  refine ⟨h.contents_eq, h.length_eq, ?_, h.withNul_eq, ?_⟩
  · rcases hw with ⟨hs, hl⟩ | hn
    · exact .inl ⟨by simp [Storage.size, hs], hl⟩
    · exact .inr ⟨(List.getElem?_eq_some_iff.1 hn).1, hn⟩
  · rw [capacity]
    by_cases hs : b.storage.size = 0
    · have := hw.length_le_size
      omega
    · have := hw.length_lt_size hs
      omega

variable {s t : Session (Buffer α)} {l : Session (List α)} {r : Option α}

theorem Follows.put {b : Buffer α} {xs : List α} (h : Follows s l) (hb : b.Holds xs) :
    Follows (s.put b) (l.put xs) :=
  ⟨hb, h.aside⟩

theorem Follows.map_put {x : Except BufferError (Buffer α)} {xs : List α} (h : Follows s l)
    (hx : ∀ b, x = .ok b → b.Holds xs) (hs : x.map (fun b => (s.put b, none)) = .ok (t, r)) :
    Follows t (l.put xs) ∧ r = none := by
  obtain ⟨b, hb, he⟩ := map_eq_ok.1 hs
  cases he
  exact ⟨h.put (hx b hb), rfl⟩

theorem Follows.step {op : Op α} (h : Follows s l) (hs : step op s = .ok (t, r)) :
    Follows t (plainStep op l).1 ∧ r = (plainStep op l).2 := by
  have hc := h.current
  cases op with
  | new =>
    cases hs
    exact ⟨h.put holds_empty, rfl⟩
  | withCapacity n => exact h.map_put (fun _ => holds_withCapacity) hs
  | ofUnits xs => exact h.map_put (fun _ => holds_ofUnits) hs
  | push a => exact h.map_put (fun _ => hc.push) hs
  | extend xs => exact h.map_put (fun _ => hc.extend) hs
  | pop =>
    cases hs
    refine ⟨h.put ?_, congrArg List.getLast? hc.contents_eq⟩
    rw [List.dropLast_eq_take, ← hc.length_eq]
    exact hc.truncate _
  | truncate n =>
    cases hs
    exact ⟨h.put (hc.truncate n), rfl⟩
  | resize n => exact h.map_put (fun _ => hc.resize) hs
  | reserve n => exact h.map_put (fun _ hb => (hc.reserve hb).1) hs
  | clear =>
    cases hs
    exact ⟨h.put (hc.truncate 0), rfl⟩
  | shrink => exact h.map_put (fun _ => hc.shrink) hs
  | modify f =>
    cases hs
    exact ⟨h.put (hc.modify f), rfl⟩
  | save =>
    obtain ⟨b, hb, he⟩ := map_eq_ok.1 hs
    cases he
    rw [copy, hc.contents_eq] at hb
    exact ⟨⟨hc, holds_ofUnits hb⟩, rfl⟩
  | swap =>
    cases hs
    exact ⟨⟨h.aside, hc⟩, rfl⟩

def growth (b : Buffer α) (n : Nat) : Nat :=
  if b.length + n + 1 ≤ b.storage.size then 0
  else max (max (b.length + n + 1) (2 * b.storage.size)) minSlots

def allocated (b : Buffer α) : Op α → Nat
  | .withCapacity n => n + 1
  | .ofUnits xs => xs.length + 1
  | .push _ => b.growth 1
  | .extend xs => if xs.isEmpty then 0 else b.growth xs.length
  | .resize n => if n ≤ b.length then 0 else b.growth (n - b.length)
  | .reserve n => b.growth n
  | .shrink => if b.storage.size = 0 then 0 else b.length + 1
  | .save => b.contents.length + 1
  | .new | .pop | .truncate _ | .clear | .modify _ | .swap => 0

def Overflows (α : Type) [CodeUnit α] (e : BufferError) (n : Nat) : Prop :=
  e = .capacityOverflow ∧ maxOctets < n * CodeUnit.width α

variable {b : Buffer α} {e : BufferError}

theorem not_overflows_zero : ¬ Overflows α e 0 := by simp [Overflows]

theorem reserve_eq_error_iff {n : Nat} : b.reserve n = .error e ↔ Overflows α e (b.growth n) := by
  unfold Buffer.reserve growth
  dsimp only
  split
  · simp [not_overflows_zero]
  · rw [bind_ok_eq_error, Storage.realloc_eq_error_iff, Overflows]

theorem withCapacity_eq_error_iff {n : Nat} :
    (withCapacity n : Except BufferError (Buffer α)) = .error e ↔ Overflows α e (n + 1) := by
  unfold withCapacity Storage.blank
  rw [bind_ok_eq_error, Storage.realloc_eq_error_iff, Overflows]

theorem extend_eq_error_iff {xs : List α} : b.extend xs = .error e ↔
    Overflows α e (if xs.isEmpty then 0 else b.growth xs.length) := by
  unfold Buffer.extend
  split
  · simp [not_overflows_zero]
  · rw [bind_ok_eq_error, reserve_eq_error_iff]

theorem growth_withCapacity {n : Nat} (h : withCapacity n = .ok b) : b.growth n = 0 := by
  obtain ⟨s, hs, hb⟩ := bind_eq_ok.1 h
  cases hb
  have hn : 0 + n + 1 ≤ s.size := by
    rw [Storage.eq_resized_of_realloc hs, Storage.size_resized]
    omega
  exact if_pos hn

theorem ofUnits_eq_error_iff {xs : List α} :
    ofUnits xs = .error e ↔ Overflows α e (xs.length + 1) := by
  unfold ofUnits
  rw [← withCapacity_eq_error_iff]
  cases hc : (withCapacity xs.length : Except BufferError (Buffer α)) with
  | error e' => rfl
  | ok c =>
    have hn : ¬ c.extend xs = .error e := by
      rw [extend_eq_error_iff, growth_withCapacity hc, ite_self]
      exact not_overflows_zero
    simp [bind, Except.bind, hn]

theorem resize_eq_error_iff {n : Nat} : b.resize n = .error e ↔
    Overflows α e (if n ≤ b.length then 0 else b.growth (n - b.length)) := by
  unfold Buffer.resize
  split
  · simp [not_overflows_zero]
  · rw [bind_ok_eq_error, reserve_eq_error_iff]

theorem shrink_eq_error_iff : b.shrink = .error e ↔
    Overflows α e (if b.storage.size = 0 then 0 else b.length + 1) := by
  unfold Buffer.shrink
  split
  · simp [not_overflows_zero]
  · rw [bind_ok_eq_error, Storage.realloc_eq_error_iff, Overflows]

theorem step_eq_error_iff (op : Op α) :
    step op s = .error e ↔ Overflows α e (s.current.allocated op) := by
  cases op with
  | withCapacity n => exact map_eq_error.trans withCapacity_eq_error_iff
  | ofUnits xs => exact map_eq_error.trans ofUnits_eq_error_iff
  | push a => exact map_eq_error.trans (bind_ok_eq_error.trans reserve_eq_error_iff)
  | extend xs => exact map_eq_error.trans extend_eq_error_iff
  | resize n => exact map_eq_error.trans resize_eq_error_iff
  | reserve n => exact map_eq_error.trans reserve_eq_error_iff
  | shrink => exact map_eq_error.trans shrink_eq_error_iff
  | save => exact map_eq_error.trans ofUnits_eq_error_iff
  | _ => simp [step, allocated, not_overflows_zero]

theorem Follows.run (ops : List (Op α)) (h : Follows s l) :
    Follows (run ops s) (plainRun ((log ops s).map Prod.fst) l).1 ∧
      (log ops s).map Prod.snd = (plainRun ((log ops s).map Prod.fst) l).2 := by
  induction ops generalizing s l with
  | nil => exact ⟨h, rfl⟩
  | cons op ops ih =>
    rw [run_cons, log]
    cases hs : Buffer.step op s with
    | error e =>
      rw [after_of_error hs]
      exact ih h
    | ok p =>
      rw [after_of_ok hs]
      obtain ⟨hf, hr⟩ := h.step hs
      obtain ⟨hrun, hlog⟩ := ih hf
      exact ⟨hrun, by simp only [List.map_cons, plainRun, hlog, hr]⟩

/-- A run of buffer operations, in any order and from new buffers, answers what the operations that
succeed answer on plain lists, and its buffers show the lists that these end in. In place each
further operation then comes to what its step comes to, or overflows and has changed nothing. -/
theorem run_shows_plainRun (ops : List (Op α)) :
    let s := run ops ⟨{}, {}⟩
    let done := log ops ⟨{}, {}⟩
    let plain := plainRun (done.map Prod.fst) ⟨[], []⟩
    done.map Prod.snd = plain.2 ∧ s.current.Shows plain.1.current ∧ s.aside.Shows plain.1.aside ∧
      ∀ op, (∀ t r, BufferWork.perform op s = .ok r t ↔ step op s = .ok (t, r)) ∧
        ∀ e t, BufferWork.perform op s = .error e t ↔
          t = s ∧ e = .capacityOverflow ∧
            maxOctets < s.current.allocated op * CodeUnit.width α := by
  intro s done plain
  have h0 : Follows (⟨{}, {}⟩ : Session (Buffer α)) ⟨[], []⟩ := ⟨holds_empty, holds_empty⟩
  obtain ⟨hf, hlog⟩ := h0.run ops
  refine ⟨hlog, hf.current.shows, hf.aside.shows, fun op => ?_⟩
  have hp := BufferWork.perform_apply op hf.current.wellFormed
  have he := fun e => step_eq_error_iff (s := s) (e := e) op
  simp only [Overflows] at he
  change BufferWork.perform op s = Work.outcome (step op s) s at hp
  rw [hp]
  cases hs : step op s with
  | ok p => simp [Work.outcome, ← he, hs, and_comm, Prod.ext_iff]
  | error e' => simp [Work.outcome, ← he, hs, and_comm, eq_comm]

end PathForms.Buffer
