import PathForms.Storage
import PathForms.Work

/-!
# Storage reallocated in place

How a reallocation goes about its work. It gets a block of memory for its slots, which holds what was
moved there and, in any other slot, whatever was left in memory. Terminators are written over the
slots that are new, and only then does the storage take the block for its own.
-/

set_option autoImplicit false

namespace PathForms.StorageWork

variable {α : Type}

/-- A block of `n` slots that some units were moved to. In a slot `i` without such a unit it holds
`left i`, which nothing is known about. -/
def block (left : Nat → α) (n : Nat) (moved : List α) : List α :=
  (List.range n).map fun i => moved[i]?.getD (left i)

variable [CodeUnit α]

def cleared (i n : Nat) (slots : List α) : List α :=
  (List.range' i (n - i)).foldl (fun slots i => slots.set i CodeUnit.nul) slots

def checkSize (n : Nat) : Work BufferError (Storage α) Unit :=
  if maxOctets < n * CodeUnit.width α then throw .capacityOverflow else pure ()

def allocate (left : Nat → α) (n : Nat) : Work BufferError (Storage α) (List α) := do
  checkSize n
  pure (block left n [])

def release : Work BufferError (Storage α) (List α) := do
  checkSize (← get).size
  pure []

def move (left : Nat → α) (n : Nat) : Work BufferError (Storage α) (List α) := do
  let s ← get
  checkSize s.size
  checkSize n
  pure (block left n s.slots)

def newBlock (left : Nat → α) (n : Nat) : Work BufferError (Storage α) (List α) := do
  let s ← get
  if s.size = 0 then allocate left n
  else if n = 0 then release
  else move left n

def realloc (left : Nat → α) (n : Nat) : Work BufferError (Storage α) Unit := do
  let s ← get
  if s.size = n then pure ()
  else
    let slots ← newBlock left n
    set (⟨cleared s.size n slots⟩ : Storage α)

end PathForms.StorageWork
