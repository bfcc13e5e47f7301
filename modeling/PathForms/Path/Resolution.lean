import PathForms.Path.Basic
import PathForms.WorkingDirectory

/-!
# Resolution

A path that is not absolute is resolved against a base directory: it is joined to the base and made
canonical. Where there are drives, a path below the bare separator takes the drive or share of the
base, and a path relative to a drive is resolved against the base if the base is on that drive and
against the root of the drive otherwise. Paths that name a home directory, and paths with a fault,
stay as they are.
-/

set_option autoImplicit false

namespace PathForms

/-- Whether a path has to be resolved to be located. -/
def Dialect.needsBase {α : Type} [CodeUnit α] (d : Dialect) (xs : List α) : Bool :=
  match d.kind (Leniency.strict.allowSlashRuns) xs with
  | .fault _ | .form .empty | .form .homeRooted => false
  | .form f => !f.isAbsolute d

namespace Path

variable {α : Type} {d : Dialect}

section

variable [CodeUnit α]

def onto (p base : Path α d) : Except PathError (Path α d) :=
  if (d.root p.units).form = .driveRelative then
    let drive := p.units.take 2
    let rest := p.units.drop 2
    if d.startsWithDrive base.units && (d.compareFirst 2 drive base.units).isEq then
      base.join rest
    else Path.join ⟨Buffer.exact (drive ++ [d.sep])⟩ rest
  else base.join p.units

/-- A path resolved against a base directory. A base that is not absolute locates nothing. -/
def resolve (p base : Path α d) (trim : Bool) : Except PathError (Path α d) :=
  if !d.needsBase p.units then .ok p
  else if !base.isAbsolute then .error .relativeBase
  else do ofUnits ((← p.onto base).canonical trim).units

/-- Whether two paths resolve to the same place. -/
def equivalentIn (p : Path α d) (xs : List α) (base : Path α d) : Except PathError Bool := do
  let q ← ofUnits (d := d) xs
  let left := (← p.resolve base true).canonical true
  let right := (← q.resolve base true).canonical true
  return left.equal right.units

end

variable [TextUnit α]

def resolveHere (p : Path α d) (here : WorkingDirectory) (trim : Bool) :
    Except PathError (Path α d) :=
  if !d.needsBase p.units then .ok p
  else do p.resolve ⟨← here.buffer⟩ trim

def equivalent (p : Path α d) (xs : List α) (here : WorkingDirectory) :
    Except PathError Bool := do
  let q ← ofUnits (d := d) xs
  let left := (← p.resolveHere here true).canonical true
  let right := (← q.resolveHere here true).canonical true
  return left.equal right.units

end Path

end PathForms
