import PathForms.Buffer
import PathForms.Canonical
import PathForms.Edit
import PathForms.Order
import PathForms.PathError
import PathForms.Walk

/-!
# Paths

A path owns its units, exactly as they were given, in a terminated buffer, and reads them under its
dialect. Nothing is normalised until that is asked for. An edit works out its result first and then
checks its length, so an edit that fails leaves the path as it was.
-/

set_option autoImplicit false

namespace PathForms

/-- A path in units of type `α` under the dialect `d`. -/
structure Path (α : Type) (d : Dialect) where
  buffer : Buffer α := {}
  deriving DecidableEq, Repr

namespace Path

variable {α : Type} {d : Dialect}

def empty : Path α d := {}

def units (p : Path α d) : List α := p.buffer.contents

def length (p : Path α d) : Nat := p.buffer.length

def isEmpty (p : Path α d) : Bool := p.buffer.isEmpty

variable [CodeUnit α]

/-- The path with the given units, which must not be more than the dialect allows. -/
def ofUnits (xs : List α) : Except PathError (Path α d) :=
  if d.maxLength < xs.length then .error (.tooLong xs.length d.maxLength)
  else .ok ⟨Buffer.exact xs⟩

def withNul (p : Path α d) : List α := p.buffer.withNul

def terminatedLength (p : Path α d) : Nat :=
  (p.withNul.takeWhile (fun a => !CodeUnit.isNul a)).length

def get (p : Path α d) (i : Nat) : Except PathError α := (p.buffer.get i).mapError .buffer

def classify (p : Path α d) (l : Leniency) : Classification α := d.classify l p.units

def kind (p : Path α d) : Kind := d.kind .strict p.units

def isRooted (p : Path α d) : Bool := d.isRooted p.units

def isAbsolute (p : Path α d) : Bool := d.isAbsolute p.units

def isUnc (p : Path α d) : Bool := d.isUnc p.units

def endsWithSep (p : Path α d) : Bool := d.endsWithSep p.units

def rootLength (p : Path α d) : Nat := (d.root p.units).length

def root (p : Path α d) : List α := d.rootUnits p.units

def location (p : Path α d) : List α := (p.classify .lenient).slices.location

def file (p : Path α d) : List α := (p.classify .lenient).slices.entry

def extension (p : Path α d) : List α := (p.classify .lenient).slices.extension

def stem (p : Path α d) : List α := (p.classify .lenient).slices.stem

def components (p : Path α d) : List (List α) := d.components p.units

def ancestors (p : Path α d) : List (List α) := d.ancestors p.units

def compare (p q : Path α d) : Ordering := d.compareUnits p.units q.units

def equal (p : Path α d) (xs : List α) : Bool := d.sameSpelling p.units xs

def push (p : Path α d) (segment : List α) (withSep : Bool) : Except PathError (Path α d) :=
  if segment.isEmpty then .ok p else ofUnits (d.pushed withSep p.units segment)

def join (p : Path α d) (segment : List α) : Except PathError (Path α d) := p.push segment false

def pushExtension (p : Path α d) (ext : List α) (withSep : Bool) :
    Except PathError (Path α d) :=
  if ext.isEmpty then .ok p
  else match d.extended? withSep p.units ext with
    | none => .ok p
    | some xs => ofUnits xs

def pushSep (p : Path α d) : Except PathError (Path α d) :=
  if p.isEmpty || p.endsWithSep then .ok p
  else if d.maxLength < p.length + 1 then .error (.tooLong (p.length + 1) d.maxLength)
  else ((p.buffer.push (d.sepLike p.units)).map Path.mk).mapError .buffer

def pop (p : Path α d) (trim : Bool) : Path α d :=
  ⟨p.buffer.truncate (d.poppedLength trim p.units)⟩

def popSep (p : Path α d) : Path α d := ⟨p.buffer.truncate (d.withoutSepsLength p.units)⟩

def popExtension (p : Path α d) : Path α d :=
  ⟨p.buffer.truncate (d.withoutExtensionLength p.units)⟩

def clear (p : Path α d) : Path α d := ⟨p.buffer.clear⟩

def respell (p : Path α d) : Path α d := ⟨p.buffer.modify (fun _ => d.respell)⟩

def canonical (p : Path α d) (trim : Bool) : Path α d :=
  ⟨Buffer.exact (d.canonical trim p.units)⟩

theorem units_exact (xs : List α) : (⟨Buffer.exact xs⟩ : Path α d).units = xs :=
  Buffer.contents_exact xs

theorem ofUnits_of_le {xs : List α} (h : xs.length ≤ d.maxLength) :
    (ofUnits xs : Except PathError (Path α d)) = .ok ⟨Buffer.exact xs⟩ :=
  if_neg (Nat.not_lt.2 h)

theorem units_pop (p : Path α d) (trim : Bool) :
    (p.pop trim).units = p.units.take (d.poppedLength trim p.units) :=
  Buffer.contents_truncate _ _

theorem units_popSep (p : Path α d) :
    p.popSep.units = p.units.take (d.withoutSepsLength p.units) :=
  Buffer.contents_truncate _ _

theorem units_popExtension (p : Path α d) :
    p.popExtension.units = p.units.take (d.withoutExtensionLength p.units) :=
  Buffer.contents_truncate _ _

theorem units_clear (p : Path α d) : p.clear.units = [] :=
  (Buffer.contents_truncate 0 p.buffer).trans (List.take_zero ..)

theorem units_respell (p : Path α d) : p.respell.units = d.respelled p.units :=
  Buffer.contents_modify_map _ _

theorem units_canonical (p : Path α d) (trim : Bool) :
    (p.canonical trim).units = d.canonical trim p.units :=
  Buffer.contents_exact _

end Path

end PathForms
