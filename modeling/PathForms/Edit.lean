import PathForms.Classification

/-!
# Edits

What an edit makes of the units of a path, with no regard to how long a path may be. Edits at the
end of a path never cut into its root, so those that only shorten it are given by the length that
they leave.
-/

set_option autoImplicit false

namespace PathForms.Dialect

open CodeUnit

variable {α : Type} [CodeUnit α]

/-- Whether a path is a drive and nothing else. What is pushed onto it follows the colon directly,
since a separator there would mean the root of the drive. -/
def isBareDrive (d : Dialect) (xs : List α) : Bool := d.root xs == ⟨.driveRelative, xs.length⟩

def volume (d : Dialect) (xs : List α) : List α := d.trimSeps 0 (d.rootUnits xs)

/-- A path followed by a segment, or the segment alone if it stands on its own. A segment rooted by
a separator keeps the drive or share of an absolute path and replaces all below it. -/
def joined (d : Dialect) (xs segment : List α) : List α :=
  let form := (d.root segment).form
  if form.isAbsolute d || form == .driveRelative || form == .homeRooted then segment
  else if form == .slashRooted then
    if d.isAbsolute xs then d.volume xs ++ segment else segment
  else if d.isBareDrive xs then xs ++ segment
  else d.ensureSep xs ++ segment

def pushed (d : Dialect) (withSep : Bool) (xs segment : List α) : List α :=
  if withSep then d.ensureSep (d.joined xs segment) else d.joined xs segment

/-- A path with an extension added to its last name, behind a dot; separators at the end go first.
A path of which nothing would be left below the root has no name to extend. -/
def extended? (d : Dialect) (withSep : Bool) (xs ext : List α) : Option (List α) :=
  let rootLength := (d.root xs).length
  let base := d.trimSeps rootLength xs
  if base.length = rootLength then none
  else
    let dotted := if ext.head?.any isDot then ext else ofByte dot :: ext
    some (if withSep then d.ensureSep (base ++ dotted) else base ++ dotted)

/-- The length that is left when the last component below the root is removed, with or without the
separator before it. With nothing below the root but separators, the path stays as it is. -/
def poppedLength (d : Dialect) (trim : Bool) (xs : List α) : Nat :=
  let s := d.slices xs
  let rootLength := s.root.length
  let cut := fun n => if trim then (d.trimSeps rootLength (xs.take n)).length else n
  if s.entry.isEmpty then
    let names := trimEnd d.isSep (xs.drop rootLength)
    if names.isEmpty then xs.length
    else cut (rootLength + (throughLast d.isSep names).length)
  else cut s.location.length

def withoutSepsLength (d : Dialect) (xs : List α) : Nat :=
  (d.trimSeps (d.root xs).length xs).length

def withoutExtensionLength (d : Dialect) (xs : List α) : Nat :=
  xs.length - (d.slices xs).extension.length

end PathForms.Dialect
