import PathForms.Dialect

/-!
# Kinds of paths

The form of a path says how it is rooted. A path like `a\b` or `..` is relative and one like `\a` is
rooted by a separator. `C:a` is relative to the working directory of a drive, and `C:\a` is rooted on
the drive. In `\\`, `\\server` and `\\server\share` the notation of a share has not ended, as it has in
`\\server\share\a`. The home directory is the root of `~` and of `~\a`.

Reading a path can also end in a fault: two separators in a row behind the root, a unit that no name
may hold or a colon out of its place, a server named by a dot, which is the notation of the device
namespace, or a terminator inside the path. The kind of a path is its form, or the fault that was
found first. Unix paths only ever have the forms `empty`, `relative` and `slashRooted`, and of the
faults only `embeddedNul`.
-/

set_option autoImplicit false

namespace PathForms

inductive Form where
  | empty
  | relative
  | slashRooted
  | driveRelative
  | driveRooted
  | uncIncomplete
  | uncRooted
  | homeRooted
  deriving DecidableEq, Repr

inductive Fault where
  | slashRun
  | reservedUnit
  | deviceNamespace
  | embeddedNul
  deriving DecidableEq, Repr

inductive Kind where
  | form (f : Form)
  | fault (x : Fault)
  deriving DecidableEq, Repr

namespace Form

def isRooted : Form → Bool
  | slashRooted | driveRooted | uncIncomplete | uncRooted | homeRooted => true
  | empty | relative | driveRelative => false

def isUnc : Form → Bool
  | uncIncomplete | uncRooted => true
  | _ => false

def namesDrive : Form → Bool
  | driveRelative | driveRooted => true
  | _ => false

/-- Whether a path of this form is located without a working directory. A leading separator is
enough only where there are no drives to choose from. -/
def isAbsolute (d : Dialect) : Form → Bool
  | slashRooted => !d.driveLetters
  | driveRooted | uncIncomplete | uncRooted => true
  | empty | relative | driveRelative | homeRooted => false

end Form

namespace Kind

def isValid : Kind → Bool
  | form _ => true
  | fault _ => false

def isRooted : Kind → Bool
  | form f => f.isRooted
  | fault _ => false

def isAbsolute (d : Dialect) : Kind → Bool
  | form f => f.isAbsolute d
  | fault _ => false

end Kind

end PathForms
