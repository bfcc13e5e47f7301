import PathForms.Storage

/-!
# Buffers

A buffer keeps a run of units at the front of its storage, with a terminator right behind it, and
room to grow. It grows to what is asked for, to twice its size or to eight slots, whichever is the
most, so that a long run of appends reallocates seldom. Slots behind the terminator may hold stale
units; no operation shows them.
-/

set_option autoImplicit false

namespace PathForms

structure Buffer (α : Type) where
  storage : Storage α := {}
  length : Nat := 0
  deriving DecidableEq, Repr

namespace Buffer

variable {α : Type}

def contents (b : Buffer α) : List α := b.storage.slots.take b.length

def isEmpty (b : Buffer α) : Bool := b.length == 0

/-- The number of units that fit without reallocation. One slot is left for the terminator. -/
def capacity (b : Buffer α) : Nat := b.storage.size - 1

def modify (f : Nat → α → α) (b : Buffer α) : Buffer α :=
  { b with storage := ⟨b.contents.mapIdx f ++ b.storage.slots.drop b.length⟩ }

theorem contents_modify (f : Nat → α → α) (b : Buffer α) :
    (b.modify f).contents = b.contents.mapIdx f := by
  simp only [modify, contents, List.take_append, List.length_mapIdx, List.length_take]
  rw [List.take_of_length_le (by simp only [List.length_mapIdx, List.length_take]; omega)]
  by_cases h : b.length ≤ b.storage.slots.length
  · simp [Nat.min_eq_left h]
  · simp [List.drop_eq_nil_of_le (Nat.le_of_lt (Nat.not_le.1 h))]

theorem contents_modify_map (g : α → α) (b : Buffer α) :
    (b.modify (fun _ => g)).contents = b.contents.map g := by
  rw [contents_modify]
  exact List.ext_getElem (by simp) (by simp)

variable [CodeUnit α]

/-- What every buffer that the operations below can make is like: it has no storage and no units,
or a terminator stands right behind its units. -/
def WellFormed (b : Buffer α) : Prop :=
  (b.storage.slots = [] ∧ b.length = 0) ∨ b.storage.slots[b.length]? = some CodeUnit.nul

def exact (xs : List α) : Buffer α := ⟨⟨xs ++ [CodeUnit.nul]⟩, xs.length⟩

/-- The contents and the terminator. A buffer without storage has a terminator all the same. -/
def withNul (b : Buffer α) : List α :=
  if b.storage.size = 0 then [CodeUnit.nul] else b.storage.slots.take (b.length + 1)

def get (b : Buffer α) (i : Nat) : Except BufferError α :=
  match b.contents[i]? with
  | some a => .ok a
  | none => .error (.indexOutOfBounds i b.length)

def write (xs : List α) (b : Buffer α) : Buffer α :=
  let slots := b.storage.slots
  { storage := ⟨slots.take b.length ++ xs ++ CodeUnit.nul :: slots.drop (b.length + xs.length + 1)⟩
    length := b.length + xs.length }

def minSlots : Nat := 8

def reserve (n : Nat) (b : Buffer α) : Except BufferError (Buffer α) :=
  let required := b.length + n + 1
  if required ≤ b.storage.size then .ok b
  else do
    let storage ← b.storage.realloc (max (max required (2 * b.storage.size)) minSlots)
    .ok { b with storage }

def push (a : α) (b : Buffer α) : Except BufferError (Buffer α) := do
  .ok ((← b.reserve 1).write [a])

def extend (xs : List α) (b : Buffer α) : Except BufferError (Buffer α) :=
  if xs.isEmpty then .ok b else do .ok ((← b.reserve xs.length).write xs)

def withCapacity (n : Nat) : Except BufferError (Buffer α) := do
  .ok { storage := ← Storage.blank (n + 1) }

def ofUnits (xs : List α) : Except BufferError (Buffer α) := do
  (← withCapacity xs.length).extend xs

/-- A copy has room for its contents alone, whatever room the buffer has. -/
def copy (b : Buffer α) : Except BufferError (Buffer α) := ofUnits b.contents

def truncate (n : Nat) (b : Buffer α) : Buffer α :=
  if n < b.length then { storage := b.storage.set n CodeUnit.nul, length := n } else b

def clear (b : Buffer α) : Buffer α := b.truncate 0

def pop (b : Buffer α) : Option α × Buffer α :=
  (b.contents.getLast?, b.truncate (b.length - 1))

def resize (n : Nat) (b : Buffer α) : Except BufferError (Buffer α) :=
  if n ≤ b.length then .ok (b.truncate n)
  else do
    let extra := n - b.length
    .ok ((← b.reserve extra).write (List.replicate extra CodeUnit.nul))

def shrink (b : Buffer α) : Except BufferError (Buffer α) :=
  if b.storage.size = 0 then .ok b
  else do
    let storage ← b.storage.realloc (b.length + 1)
    .ok { b with storage }

theorem contents_exact (xs : List α) : (exact xs).contents = xs := by
  simp [contents, exact]

theorem wellFormed_exact (xs : List α) : (exact xs).WellFormed :=
  .inr (by simp [exact])

theorem contents_write (xs : List α) {b : Buffer α} (h : b.length ≤ b.storage.size) :
    (b.write xs).contents = b.contents ++ xs := by
  have hlen : (b.storage.slots.take b.length ++ xs).length = b.length + xs.length := by
    simp [Nat.min_eq_left (show b.length ≤ b.storage.slots.length from h)]
  simp only [contents, write]
  rw [← hlen, List.take_left]

theorem contents_truncate (n : Nat) (b : Buffer α) :
    (b.truncate n).contents = b.contents.take n := by
  unfold truncate
  split
  · next h =>
    simp only [contents, Storage.set, List.take_take, Nat.min_eq_left (Nat.le_of_lt h)]
    exact List.take_set_of_le (Nat.le_refl n)
  · next h =>
    have := List.length_take_le b.length b.storage.slots
    exact (List.take_of_length_le (by simp only [contents]; omega)).symm

def sameContents (b c : Buffer α) : Bool :=
  b.contents.map CodeUnit.code == c.contents.map CodeUnit.code

def describe (b : Buffer α) : String :=
  "PathBuffer \x7b contents: " ++ toString (b.contents.map CodeUnit.code) ++ ", len: " ++
    toString b.length ++ ", cap: " ++ toString b.capacity ++ " \x7d"

end Buffer

end PathForms
