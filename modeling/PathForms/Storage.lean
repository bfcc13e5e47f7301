import PathForms.CodeUnit

/-!
# Storage

Storage is a run of slots whose number is fixed until it is reallocated. Every slot always holds a
unit: those that a reallocation adds hold the terminator. Reallocation fails, and changes nothing,
if the slots would take more octets than an object may have.
-/

set_option autoImplicit false

namespace PathForms

inductive BufferError where
  | indexOutOfBounds (index length : Nat)
  | capacityOverflow
  deriving DecidableEq, Repr

namespace BufferError

def message : BufferError → String
  | indexOutOfBounds index length =>
    s!"index {index} out of bounds for path buffer with {length} characters"
  | capacityOverflow => "capacity overflow"

end BufferError

theorem bind_eq_ok {ε β γ : Type} {x : Except ε β} {f : β → Except ε γ} {c : γ} :
    x >>= f = .ok c ↔ ∃ b, x = .ok b ∧ f b = .ok c := by
  cases x <;> simp [bind, Except.bind]

theorem bind_ok_eq_error {ε β γ : Type} {x : Except ε β} {f : β → γ} {e : ε} :
    (x >>= fun b => .ok (f b)) = .error e ↔ x = .error e := by
  cases x <;> simp [bind, Except.bind]

theorem map_eq_ok {ε β γ : Type} {x : Except ε β} {f : β → γ} {c : γ} :
    x.map f = .ok c ↔ ∃ b, x = .ok b ∧ f b = c := by
  cases x <;> simp [Except.map]

theorem mapError_eq_ok {ε ε' β : Type} {x : Except ε β} {f : ε → ε'} {b : β} :
    x.mapError f = .ok b ↔ x = .ok b := by
  cases x with
  | error e => exact ⟨nofun, nofun⟩
  | ok a =>
    constructor
    · intro h
      cases h
      rfl
    · intro h
      cases h
      rfl

theorem map_eq_error {ε β γ : Type} {x : Except ε β} {f : β → γ} {e : ε} :
    x.map f = .error e ↔ x = .error e := by
  cases x <;> simp [Except.map]

structure Storage (α : Type) where
  slots : List α := []
  deriving DecidableEq, Repr

def maxOctets : Nat := 0x7FFFFFFFFFFFFFFF

namespace Storage

variable {α : Type}

def size (s : Storage α) : Nat := s.slots.length

def get? (s : Storage α) (i : Nat) : Option α := s.slots[i]?

def set (s : Storage α) (i : Nat) (a : α) : Storage α := ⟨s.slots.set i a⟩

theorem get?_eq_none {s : Storage α} {i : Nat} (h : s.size ≤ i) : s.get? i = none :=
  List.getElem?_eq_none h

variable [CodeUnit α]

/-- The storage with `n` slots: those that there are up to `n`, then terminators. -/
def resized (n : Nat) (s : Storage α) : Storage α :=
  ⟨s.slots.take n ++ List.replicate (n - s.size) CodeUnit.nul⟩

def realloc (n : Nat) (s : Storage α) : Except BufferError (Storage α) :=
  if maxOctets < n * CodeUnit.width α then .error .capacityOverflow else .ok (s.resized n)

def blank (n : Nat) : Except BufferError (Storage α) := realloc n {}

theorem realloc_eq_ok_iff {n : Nat} {s t : Storage α} :
    s.realloc n = .ok t ↔ n * CodeUnit.width α ≤ maxOctets ∧ t = s.resized n := by
  unfold realloc
  split
  · next h => simp [Nat.not_le.2 h]
  · next h => simp [Nat.not_lt.1 h, eq_comm]

theorem eq_resized_of_realloc {n : Nat} {s t : Storage α} (h : s.realloc n = .ok t) :
    t = s.resized n :=
  (realloc_eq_ok_iff.1 h).2

theorem realloc_eq_error_iff {n : Nat} {s : Storage α} {e : BufferError} :
    s.realloc n = .error e ↔ e = .capacityOverflow ∧ maxOctets < n * CodeUnit.width α := by
  unfold realloc
  split
  · next h => simp [h, eq_comm]
  · next h => simp [h]

theorem size_resized (n : Nat) (s : Storage α) : (s.resized n).size = n := by
  simp only [size, resized, List.length_append, List.length_take, List.length_replicate]
  omega

theorem resized_size (s : Storage α) : s.resized s.size = s := by
  simp [resized, size]

theorem get?_resized (n i : Nat) (s : Storage α) :
    (s.resized n).get? i =
      if i < n then some ((s.get? i).getD CodeUnit.nul) else none := by
  simp only [get?, resized, size, List.getElem?_append, List.getElem?_take,
    List.getElem?_replicate, List.length_take]
  by_cases hn : i < n
  · by_cases hs : i < s.slots.length
    · simp [hn, hs, Nat.lt_min.2 ⟨hn, hs⟩]
    · have hm : min n s.slots.length = s.slots.length := by omega
      simp only [hm, hs, if_false, hn, if_true]
      rw [if_pos (by omega), List.getElem?_eq_none (by omega)]
      rfl
  · have hm : ¬ i < min n s.slots.length := by omega
    simp only [hm, hn, if_false]
    rw [if_neg (by omega)]

def describe (s : Storage α) : String :=
  "CharArray \x7b contents: " ++ toString (s.slots.map CodeUnit.code) ++ ", size: " ++
    toString s.size ++ " \x7d"

end Storage

end PathForms
