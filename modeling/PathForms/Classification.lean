import PathForms.Root

/-!
# Classification

Reading a path divides it: a root, then a directory that ends in a separator, then an entry, and in
the entry a stem and an extension. A path with a fault is not divided at all. Which faults count is
a matter of leniency; leniency never moves a boundary, it only keeps a fault from being reported.
-/

set_option autoImplicit false

namespace PathForms

/-- The faults that a reader is willing to overlook: runs of separators, and those that lie in single
units. -/
structure Leniency where
  slashRuns : Bool := false
  units : Bool := false
  deriving DecidableEq, Repr, Inhabited

namespace Leniency

def strict : Leniency := {}

def lenient : Leniency := { slashRuns := true, units := true }

def allowSlashRuns (l : Leniency) : Leniency := { l with slashRuns := true }

def allowUnits (l : Leniency) : Leniency := { l with units := true }

end Leniency

/-- The parts of a path. The location is the root and the directory, the entry is empty if the path
ends in a separator, and the parts that are counted are those of the directory. -/
structure Slices (α : Type) where
  root : List α := []
  location : List α := []
  directory : List α := []
  entry : List α := []
  stem : List α := []
  extension : List α := []
  partCount : Nat := 0
  deriving DecidableEq, Repr

structure Classification (α : Type) where
  kind : Kind
  slices : Slices α
  deriving DecidableEq, Repr

variable {α : Type} [CodeUnit α]

open CodeUnit

/-- The extension of a name: from the last dot on, unless that dot is the first unit. A name of
dots alone has none. -/
def extension (entry : List α) : List α :=
  let through := throughLast isDot entry
  if entry.all isDot || through.length ≤ 1 then [] else entry.drop (through.length - 1)

namespace Dialect

def isReserved (a : α) : Bool :=
  code a < 32 || ['<', '>', '"', '|', '?', '*', ':'].any (fun c => code a == c.toNat)

def hasReserved (form : Form) (xs : List α) : Bool :=
  (if form.namesDrive then xs.eraseIdx 1 else xs).any isReserved

def namesDevices (d : Dialect) : List α → Bool
  | [] => false
  | a :: xs => isDot a && (xs.isEmpty || d.startsWithSep xs)

def hasSepPair (d : Dialect) : List α → Bool
  | a :: b :: xs => d.isSep a && d.isSep b || d.hasSepPair (b :: xs)
  | _ => false

/-- The first fault that lies in single units. A terminator is a fault in every dialect. -/
def unitFault? (d : Dialect) (form : Form) (xs : List α) : Option Fault :=
  if xs.any isNul then some .embeddedNul
  else if !d.validates then none
  else if hasReserved form xs then some .reservedUnit
  else if form.isUnc && d.namesDevices (xs.drop 2) then some .deviceNamespace
  else none

/-- A run of separators counts from the last unit of the root on, so that a separator right after
a root that ends in one is a run too. -/
def runFault? (d : Dialect) (rootLength : Nat) (xs : List α) : Option Fault :=
  if d.validates && d.hasSepPair (xs.drop (rootLength - 1)) then some .slashRun else none

/-- The fault to report: one in the units before a run of separators. -/
def fault? (d : Dialect) (l : Leniency) (xs : List α) : Option Fault :=
  let r := d.root xs
  (if l.units then none else d.unitFault? r.form xs) <|>
    (if l.slashRuns then none else d.runFault? r.length xs)

def slices (d : Dialect) (xs : List α) : Slices α :=
  let rootLength := (d.root xs).length
  let rest := xs.drop rootLength
  let directory := throughLast d.isSep rest
  let entry := afterLast d.isSep rest
  let ext := extension entry
  { root := xs.take rootLength
    location := xs.take (rootLength + directory.length)
    directory := directory
    entry := entry
    stem := entry.take (entry.length - ext.length)
    extension := ext
    partCount := (d.parts directory).length }

/-- The kind of a path, and its slices unless it has a fault. -/
def classify (d : Dialect) (l : Leniency) (xs : List α) : Classification α :=
  match d.fault? l xs with
  | some x => ⟨.fault x, {}⟩
  | none => ⟨.form (d.root xs).form, d.slices xs⟩

def kind (d : Dialect) (l : Leniency) (xs : List α) : Kind := (d.classify l xs).kind

end Dialect

end PathForms
