import PathForms.Buffer.Program
import PathForms.Work

/-!
# Buffers changed in place

How the operations on buffers go about their work: slot by slot, with the length kept apart from the
slots. A slot that is not there cannot be written, so an operation has to make room before it writes
anything.
-/

set_option autoImplicit false

namespace PathForms.BufferWork

open Work

variable {α : Type}

def put (i : Nat) (a : α) : Work BufferError (Buffer α) Unit :=
  modify fun b => { b with storage := b.storage.set i a }

def setLength (n : Nat) : Work BufferError (Buffer α) Unit := modify fun b => { b with length := n }

def fill (i : Nat) : List α → Work BufferError (Buffer α) Unit
  | [] => pure ()
  | a :: xs => do
    put i a
    fill (i + 1) xs

variable [CodeUnit α]

def realloc (n : Nat) : Work BufferError (Buffer α) Unit := fun b =>
  match b.storage.realloc n with
  | .ok storage => .ok () { b with storage }
  | .error e => .error e b

def reserve (n : Nat) : Work BufferError (Buffer α) Unit := do
  let b ← get
  let required := b.length + n + 1
  if required ≤ b.storage.size then pure ()
  else realloc (max (max required (2 * b.storage.size)) Buffer.minSlots)

def append (xs : List α) : Work BufferError (Buffer α) Unit := do
  let n := (← get).length
  fill n xs
  setLength (n + xs.length)
  put (n + xs.length) CodeUnit.nul

def push (a : α) : Work BufferError (Buffer α) Unit := do
  reserve 1
  append [a]

def extend (xs : List α) : Work BufferError (Buffer α) Unit := do
  if xs.isEmpty then pure ()
  else
    reserve xs.length
    append xs

def truncate (n : Nat) : Work BufferError (Buffer α) Unit := do
  if n < (← get).length then
    setLength n
    put n CodeUnit.nul
  else pure ()

def pop : Work BufferError (Buffer α) (Option α) := do
  let n := (← get).length
  if n = 0 then pure none
  else
    setLength (n - 1)
    let last := (← get).storage.get? (n - 1)
    put (n - 1) CodeUnit.nul
    pure last

def resize (n : Nat) : Work BufferError (Buffer α) Unit := do
  let old := (← get).length
  if n ≤ old then truncate n
  else
    reserve (n - old)
    fill old (List.replicate (n - old + 1) CodeUnit.nul)
    setLength n

def shrink : Work BufferError (Buffer α) Unit := do
  let b ← get
  if b.storage.size = 0 then pure () else realloc (b.length + 1)

def overwrite (f : Nat → α → α) : Work BufferError (Buffer α) Unit := do
  fill 0 ((← get).contents.mapIdx f)

def withCapacity (n : Nat) : Work BufferError (Buffer α) Unit := realloc (n + 1)

def ofUnits (xs : List α) : Work BufferError (Buffer α) Unit := do
  withCapacity xs.length
  extend xs

def perform (op : Buffer.Op α) : Work BufferError (Session (Buffer α)) (Option α) :=
  let replace := fun (w : Work BufferError (Buffer α) Unit) => do
    let b ← apart {} w
    modify fun s => s.put b
    pure none
  let change := fun (w : Work BufferError (Buffer α) Unit) => do
    onCurrent w
    pure none
  match op with
  | .new => replace (pure ())
  | .withCapacity n => replace (withCapacity n)
  | .ofUnits xs => replace (ofUnits xs)
  | .push a => change (push a)
  | .extend xs => change (extend xs)
  | .pop => onCurrent pop
  | .truncate n => change (truncate n)
  | .resize n => change (resize n)
  | .reserve n => change (reserve n)
  | .clear => change (truncate 0)
  | .shrink => change shrink
  | .modify f => change (overwrite f)
  | .save => do
    let b ← apart {} (ofUnits (← get).current.contents)
    modify fun s => s.keep b
    pure none
  | .swap => do
    modify Session.swap
    pure none

end PathForms.BufferWork
