import PathForms.Buffer.Work
import PathForms.Path.Program

/-!
# Paths edited in place

How the edits of paths go about their work: which of them change the buffer that is there, which of
them put a buffer of their own in its place, and when the length is checked.
-/

set_option autoImplicit false

namespace PathForms.PathWork

open Work

variable {α : Type} {d : Dialect}

def onBuffer (w : Work BufferError (Buffer α) Unit) : Work PathError (Path α d) Unit := fun p =>
  match w p.buffer with
  | .ok _ b => .ok () ⟨b⟩
  | .error e b => .error (.buffer e) ⟨b⟩

def checkLength (n : Nat) : Work PathError (Path α d) Unit :=
  if d.maxLength < n then throw (.tooLong n d.maxLength) else pure ()

section

variable [CodeUnit α]

def commit (xs : List α) : Work PathError (Path α d) Unit := do
  checkLength xs.length
  set (⟨Buffer.exact xs⟩ : Path α d)

def push (segment : List α) (withSep : Bool) : Work PathError (Path α d) Unit := do
  let p ← get
  if segment.isEmpty then pure () else commit (d.pushed withSep p.units segment)

def pushExtension (ext : List α) (withSep : Bool) : Work PathError (Path α d) Unit := do
  let p ← get
  if ext.isEmpty then pure ()
  else match d.extended? withSep p.units ext with
    | none => pure ()
    | some xs => commit xs

def pushSep : Work PathError (Path α d) Unit := do
  let p ← get
  if p.isEmpty || p.endsWithSep then pure ()
  else
    checkLength (p.length + 1)
    onBuffer (BufferWork.push (d.sepLike p.units))

def cut (length : List α → Nat) : Work PathError (Path α d) Unit := do
  let p ← get
  onBuffer (BufferWork.truncate (length p.units))

def respell : Work PathError (Path α d) Unit := onBuffer (BufferWork.overwrite fun _ => d.respell)

def canonical (trim : Bool) : Work PathError (Path α d) Unit :=
  modify fun p => ⟨Buffer.exact (d.canonical trim p.units)⟩

def resolve (base : Path α d) (trim : Bool) : Work PathError (Path α d) Unit := do
  let p ← get
  if !d.needsBase p.units then pure ()
  else if !base.isAbsolute then throw .relativeBase
  else
    let resolved ← give (p.onto base)
    commit (resolved.canonical trim).units

end

variable [TextUnit α]

def resolveHere (here : WorkingDirectory) (trim : Bool) : Work PathError (Path α d) Unit := do
  let p ← get
  if !d.needsBase p.units then pure ()
  else
    let base ← give here.buffer
    resolve ⟨base⟩ trim

def perform (op : Path.Op α) : Work PathError (Session (Path α d)) Unit :=
  match op with
  | .set xs => do
    let p ← give (Path.ofUnits xs)
    modify fun s => s.put p
  | .setText octets => do
    let p ← give (Path.ofOctets octets)
    modify fun s => s.put p
  | .push segment withSep => onCurrent (push segment withSep)
  | .join segment => do
    let p ← apart (← get).current (push segment false)
    modify fun s => s.keep p
  | .pushExtension ext withSep => onCurrent (pushExtension ext withSep)
  | .pushSep => onCurrent pushSep
  | .pop trim => onCurrent (cut (d.poppedLength trim))
  | .popSep => onCurrent (cut d.withoutSepsLength)
  | .popExtension => onCurrent (cut d.withoutExtensionLength)
  | .respell => onCurrent respell
  | .canonical trim => onCurrent (canonical trim)
  | .resolveHere here trim => onCurrent (resolveHere here trim)
  | .resolve base trim => do
    let b ← give (Path.ofUnits base)
    onCurrent (resolve b trim)
  | .clear => onCurrent (cut fun _ => 0)
  | .save => modify fun s => s.keep s.current
  | .swap => modify Session.swap

end PathForms.PathWork
