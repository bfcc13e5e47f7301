import Mathlib.Algebra.Group.Nat.Defs
import PathForms.Proofs.BufferRuns

/-!
# Room and growth

An append finds room or makes it, and then makes at least twice what there was. So a run of appends
reallocates no more often than the logarithm of its length tells, and never asks for more than twice
the slots that it needs. Room that was reserved stays: appends that need no more than was asked for
never reallocate.
-/

set_option autoImplicit false

namespace PathForms.Buffer

variable {α : Type} {b c : Buffer α} {n k : Nat}

section

variable [CodeUnit α]

theorem reserve_of_le {n : Nat} (h : b.length + n + 1 ≤ b.storage.size) : b.reserve n = .ok b :=
  if_pos h

theorem size_write {xs : List α} (h : b.length + xs.length < b.storage.size) :
    (b.write xs).storage.size = b.storage.size := by
  have hs : b.length ≤ b.storage.slots.length := by
    have : b.storage.size = b.storage.slots.length := rfl
    omega
  simp only [write, Storage.size, List.length_append, List.length_cons, List.length_take,
    List.length_drop] at h ⊢
  omega

theorem extend_cons {a : α} {xs : List α} (h : b.length + xs.length + 1 < b.storage.size) :
    b.extend (a :: xs) = .ok (b.write (a :: xs)) := by
  rw [extend, reserve_of_le (by rw [List.length_cons]; omega)]
  rfl

theorem exists_extend_eq {xs : List α} (h : b.length + xs.length < b.storage.size) :
    ∃ c, b.extend xs = .ok c ∧ c.storage.size = b.storage.size := by
  cases xs with
  | nil => exact ⟨b, rfl, rfl⟩
  | cons a xs =>
    have hroom : b.length + xs.length + 1 < b.storage.size := by
      rw [List.length_cons] at h
      omega
    exact ⟨_, extend_cons hroom, size_write h⟩

end

def appended? : Op α → Option (List α)
  | .push a => some [a]
  | .extend xs => some xs
  | _ => none

def OnlyAppends (ops : List (Op α)) : Prop := ∀ op ∈ ops, (appended? op).isSome = true

def appendedUnits (ops : List (Op α)) : List α := ops.flatMap fun op => (appended? op).getD []

/-- All that an append of `n` units can do to the room in a buffer: use what is there, or make more. -/
inductive Grows (b : Buffer α) (n : Nat) (c : Buffer α) : Prop
  | inPlace (hn : b.length + n < b.storage.size) (hl : c.length = b.length + n)
      (hs : c.storage.size = b.storage.size)
  | realloc (hn : b.storage.size ≤ b.length + n) (hl : c.length = b.length + n)
      (hs : c.storage.size = max (max (b.length + n + 1) (2 * b.storage.size)) minSlots)

theorem Grows.doubles (h : Grows b n c) : c.storage.size = b.storage.size ∨
    b.storage.size < c.storage.size ∧ minSlots ≤ c.storage.size ∧
      2 * b.storage.size ≤ c.storage.size := by
  cases h with
  | inPlace _ _ hs => exact Or.inl hs
  | realloc hn _ hs => exact Or.inr (by omega)

theorem Grows.size_le (h : Grows b n c) (hn : 0 < n)
    (hb : b.storage.size ≤ max minSlots (2 * b.length)) :
    c.storage.size ≤ max minSlots (2 * c.length) := by
  cases h with
  | inPlace _ hl hs => omega
  | realloc hsize hl hs => omega

/-- What `k` reallocations by appends come to: the first one gave no less than the least number of
slots, and each later one doubled it at least. -/
structure GrownIn (k : Nat) (b : Buffer α) : Prop where
  size_le : b.storage.size ≤ max minSlots (2 * b.length)
  reallocated : k = 0 ∧ b.storage.size = 0 ∨ ∃ j, k = j + 1 ∧ minSlots * 2 ^ j ≤ b.storage.size

theorem grownIn_empty : GrownIn 0 ({} : Buffer α) := ⟨Nat.zero_le _, Or.inl ⟨rfl, rfl⟩⟩

theorem GrownIn.pow_le (h : GrownIn k b) :
    minSlots * 2 ^ (k - 1) ≤ max minSlots (2 * b.length) := by
  rcases h.reallocated with ⟨rfl, -⟩ | ⟨j, rfl, hj⟩
  · exact Nat.le_max_left _ _
  · exact Nat.le_trans hj h.size_le

theorem GrownIn.eq_zero_or_le (h : GrownIn k b) :
    b.storage.size = 0 ∨ minSlots ≤ b.storage.size := by
  rcases h.reallocated with ⟨-, h0⟩ | ⟨j, rfl, hj⟩
  · exact Or.inl h0
  · exact Or.inr (Nat.le_trans (Nat.le_mul_of_pos_right _ (Nat.two_pow_pos j)) hj)

variable [CodeUnit α] {s : Session (Buffer α)} {op : Op α} {ops : List (Op α)} {xs : List α}

theorem reserve_cases (h : b.reserve n = .ok c) :
    b.length + n < b.storage.size ∧ c = b ∨
    b.storage.size ≤ b.length + n ∧ c.length = b.length ∧
      c.storage.size = max (max (b.length + n + 1) (2 * b.storage.size)) minSlots := by
  unfold reserve at h
  dsimp only at h
  split at h
  · next hn =>
    cases h
    exact Or.inl ⟨hn, rfl⟩
  · next hn =>
    obtain ⟨s, hs, hc⟩ := bind_eq_ok.1 h
    cases hc
    rw [Storage.eq_resized_of_realloc hs]
    exact Or.inr ⟨by omega, rfl, Storage.size_resized _ _⟩

theorem extend_cases (h : b.extend xs = .ok c) :
    xs = [] ∧ c = b ∨ 0 < xs.length ∧ Grows b xs.length c := by
  unfold extend at h
  split at h
  · next hx =>
    cases h
    exact Or.inl ⟨List.isEmpty_iff.1 hx, rfl⟩
  · next hx =>
    obtain ⟨r, hr, hc⟩ := bind_eq_ok.1 h
    cases hc
    refine Or.inr ⟨List.length_pos_iff.2 (mt List.isEmpty_iff.2 hx), ?_⟩
    rcases reserve_cases hr with ⟨hn, rfl⟩ | ⟨hn, hl, hs⟩
    · exact .inPlace hn rfl (size_write hn)
    · have hroom : r.length + xs.length < r.storage.size := by omega
      refine .realloc hn (by rw [← hl]; rfl) ?_
      rw [size_write hroom, hs]

theorem step_append (h : appended? op = some xs) (s : Session (Buffer α)) :
    step op s = (s.current.extend xs).map fun b => (s.put b, none) := by
  cases op <;> cases h <;> rfl

theorem after_append_of_ok (h : appended? op = some xs) (hc : s.current.extend xs = .ok c) :
    after op s = s.put c :=
  after_of_ok ((step_append h s).trans (congrArg (Except.map _) hc))

theorem after_append_of_error {e : BufferError} (h : appended? op = some xs)
    (hc : s.current.extend xs = .error e) : after op s = s :=
  after_of_error ((step_append h s).trans (congrArg (Except.map _) hc))

theorem after_append_cases (hop : (appended? op).isSome = true) (s : Session (Buffer α)) :
    (after op s).current = s.current ∨
      ∃ n, 0 < n ∧ Grows s.current n (after op s).current := by
  obtain ⟨xs, hx⟩ := Option.isSome_iff_exists.1 hop
  cases hc : s.current.extend xs with
  | error e => exact Or.inl (by rw [after_append_of_error hx hc])
  | ok c =>
    rw [after_append_of_ok hx hc]
    exact (extend_cases hc).imp (fun h => h.2) (fun h => ⟨xs.length, h⟩)

/-- The number of steps of a run that change how many slots the buffer has. -/
def reallocations : List (Op α) → Session (Buffer α) → Nat
  | [], _ => 0
  | op :: ops, s =>
    (if (after op s).current.storage.size = s.current.storage.size then 0 else 1) +
      reallocations ops (after op s)

theorem GrownIn.after (h : GrownIn k s.current) (hop : (appended? op).isSome = true) :
    GrownIn (k + if (after op s).current.storage.size = s.current.storage.size then 0 else 1)
      (after op s).current := by
  rcases after_append_cases hop s with he | ⟨n, hn, hg⟩
  · rw [he, if_pos rfl]
    exact h
  have hsize := hg.size_le hn h.size_le
  rcases hg.doubles with hs | ⟨hlt, hmin, hdouble⟩
  · rw [if_pos hs]
    exact ⟨hsize, hs ▸ h.reallocated⟩
  · rw [if_neg (Nat.ne_of_gt hlt)]
    refine ⟨hsize, Or.inr ?_⟩
    -- The first reallocation starts from no slots, where twice as many is nothing.
    rcases h.reallocated with ⟨rfl, -⟩ | ⟨j, rfl, hj⟩
    · exact ⟨0, rfl, by rwa [Nat.pow_zero, Nat.mul_one]⟩
    · refine ⟨j + 1, rfl, ?_⟩
      rw [Nat.pow_succ, ← Nat.mul_assoc]
      omega

theorem GrownIn.run (h : GrownIn k s.current) (hops : OnlyAppends ops) :
    GrownIn (k + reallocations ops s) (run ops s).current := by
  induction ops generalizing k s with
  | nil => exact h
  | cons op ops ih =>
    rw [reallocations, ← Nat.add_assoc]
    exact ih (h.after (hops op List.mem_cons_self))
      (fun op' h' => hops op' (List.mem_cons_of_mem op h'))

theorem doubles_after (hop : (appended? op).isSome = true) (s : Session (Buffer α)) :
    (after op s).current.storage.size = s.current.storage.size ∨
      2 * s.current.storage.size ≤ (after op s).current.storage.size := by
  rcases after_append_cases hop s with he | ⟨n, -, hg⟩
  · exact Or.inl (by rw [he])
  · exact hg.doubles.imp_right fun h => h.2.2

theorem after_append_of_room {ys : List α} (h : appended? op = some ys) (hs : s.current.Holds xs)
    (hroom : s.current.length + ys.length < s.current.storage.size) :
    (after op s).current.Holds (xs ++ ys) ∧
      (after op s).current.storage.size = s.current.storage.size := by
  obtain ⟨c, hc, hsize⟩ := exists_extend_eq hroom
  rw [after_append_of_ok h hc]
  exact ⟨hs.extend hc, hsize⟩

theorem run_appends_of_room (hs : s.current.Holds xs) (hops : OnlyAppends ops)
    (hroom : s.current.length + (appendedUnits ops).length < s.current.storage.size) :
    (run ops s).current.Holds (xs ++ appendedUnits ops) ∧
      (run ops s).current.storage.size = s.current.storage.size := by
  induction ops generalizing s xs with
  | nil =>
    rw [appendedUnits, List.flatMap_nil, List.append_nil]
    exact ⟨hs, rfl⟩
  | cons op ops ih =>
    obtain ⟨ys, hy⟩ := Option.isSome_iff_exists.1 (hops op List.mem_cons_self)
    have hunits : appendedUnits (op :: ops) = ys ++ appendedUnits ops := by
      rw [appendedUnits, List.flatMap_cons, hy]
      rfl
    rw [hunits, List.length_append] at hroom
    obtain ⟨hafter, hsize⟩ := after_append_of_room hy hs (by omega)
    have hrest : OnlyAppends ops := fun op' h' => hops op' (List.mem_cons_of_mem op h')
    have hlen : (after op s).current.length = s.current.length + ys.length := by
      rw [hafter.length_eq, List.length_append, hs.length_eq]
    obtain ⟨hrun, hkept⟩ := ih hafter hrest (by omega)
    rw [hunits, ← List.append_assoc]
    exact ⟨hrun, hkept.trans hsize⟩

theorem exists_holds_run (ops : List (Op α)) : ∃ xs, (run ops ⟨{}, {}⟩).current.Holds xs := by
  have h0 : Follows (⟨{}, {}⟩ : Session (Buffer α)) ⟨[], []⟩ := ⟨holds_empty, holds_empty⟩
  exact ⟨_, (h0.run ops).1.current⟩

/-- After a run of appends on a new buffer there are no slots, or eight at least and then no more than
eight or twice the length. A step that changes their number doubles it at least, and the length bounds
how often that was. And whatever was done to a buffer, once room for `n` units was reserved in it,
appends of no more units than that are all made and leave the capacity as it is. -/
theorem run_appends :
    (∀ ops : List (Op α), OnlyAppends ops →
      let s := run ops ⟨{}, {}⟩
      let size := s.current.storage.size
      let bound := max 8 (2 * s.current.length)
      (size = 0 ∨ 8 ≤ size ∧ size ≤ bound) ∧
      (∀ op, (appended? op).isSome = true →
        (after op s).current.storage.size = size ∨
          2 * size ≤ (after op s).current.storage.size) ∧
      8 * 2 ^ (reallocations ops ⟨{}, {}⟩ - 1) ≤ bound) ∧
    ∀ (ops : List (Op α)) (n : Nat) (t : Session (Buffer α)) (r : Option α),
      step (.reserve n) (run ops ⟨{}, {}⟩) = .ok (t, r) →
      ∀ appends : List (Op α), OnlyAppends appends → (appendedUnits appends).length ≤ n →
        (run appends t).current.capacity = t.current.capacity ∧
        (run appends t).current.contents = t.current.contents ++ appendedUnits appends := by
  refine ⟨fun ops hops => ?_, fun ops n t r ht appends hops hn => ?_⟩
  · have h0 : GrownIn 0 ({} : Buffer α) := grownIn_empty
    have h := GrownIn.run (s := ⟨{}, {}⟩) h0 hops
    rw [Nat.zero_add] at h
    exact ⟨h.eq_zero_or_le.imp_right fun hle => ⟨hle, h.size_le⟩,
      fun op hop => doubles_after hop _, h.pow_le⟩
  · obtain ⟨xs, hs⟩ := exists_holds_run ops
    obtain ⟨c, hc, he⟩ := map_eq_ok.1 ht
    cases he
    obtain ⟨hheld, hlen, hroom⟩ := hs.reserve hc
    have hroom' : c.length + (appendedUnits appends).length < c.storage.size := by omega
    obtain ⟨hrun, hsize⟩ := run_appends_of_room (s := Session.put _ c) hheld hops hroom'
    refine ⟨congrArg (· - 1) hsize, ?_⟩
    rw [hrun.contents_eq]
    exact congrArg (· ++ _) hheld.contents_eq.symm

/-- Eleven units in two appends take two reallocations; six more that were reserved take none. -/
theorem run_appends_twice :
    let ops : List (Op UInt8) := [.push 97, .extend (List.replicate 10 98)]
    let s := run ops ⟨{}, {}⟩
    OnlyAppends ops ∧ reallocations ops ⟨{}, {}⟩ = 2 ∧ 8 * 2 ^ (2 - 1) ≤ 2 * s.current.length ∧
      ∃ t r, step (.reserve 6) s = .ok (t, r) ∧
        (run [.push 99, .extend [100, 101]] t).current.capacity = t.current.capacity := by
  intro ops s
  have hops : OnlyAppends ops := by simp [OnlyAppends, ops, appended?]
  have hmore : OnlyAppends ([.push 99, .extend [100, 101]] : List (Op UInt8)) := by
    simp [OnlyAppends, appended?]
  have hcount : reallocations ops ⟨{}, {}⟩ = 2 := by decide
  have hgrown : 8 * 2 ^ (reallocations ops ⟨{}, {}⟩ - 1) ≤ max 8 (2 * s.current.length) :=
    (run_appends.1 ops hops).2.2
  rw [hcount] at hgrown
  refine ⟨hops, hcount, ?_, _, _, rfl, (run_appends.2 ops 6 _ _ rfl _ hmore (by decide)).1⟩
  omega

end PathForms.Buffer
