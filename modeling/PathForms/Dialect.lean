import PathForms.CodeUnit

/-!
# Dialects

A dialect is the set of conventions under which a run of units is read as a path: which units
separate, whether drives, network shares and the home directory have a notation, whether letter
case tells two names apart, and how long a path may be. Every rule of the grammar takes the dialect
as a value, so both sets of conventions are at hand on any system.
-/

set_option autoImplicit false

namespace PathForms

inductive Dialect where
  | unix
  | windows
  deriving DecidableEq, Repr

namespace Dialect

open CodeUnit

def name : Dialect → String
  | unix => "unix"
  | windows => "windows"

def preferred : Dialect → UInt8
  | unix => slash
  | windows => backslash

def alternative? : Dialect → Option UInt8
  | unix => none
  | windows => some slash

def caseSensitive : Dialect → Bool
  | unix => true
  | windows => false

def driveLetters : Dialect → Bool
  | unix => false
  | windows => true

def networkShares : Dialect → Bool
  | unix => false
  | windows => true

def homeRoot : Dialect → Bool
  | unix => false
  | windows => true

def validates : Dialect → Bool
  | unix => false
  | windows => true

/-- The greatest number of units in a path, its terminator not counted. -/
def maxLength : Dialect → Nat
  | unix => 4095
  | windows => 32766

theorem driveLetters_of_networkShares {d : Dialect} (h : d.networkShares = true) :
    d.driveLetters = true := by
  cases d with
  | unix => cases h
  | windows => rfl

theorem validates_of_driveLetters {d : Dialect} (h : d.driveLetters = true) :
    d.validates = true := by
  cases d with
  | unix => cases h
  | windows => rfl

variable {α : Type} [CodeUnit α]

def isSep (d : Dialect) (a : α) : Bool :=
  isByte d.preferred a || d.alternative?.any (isByte · a)

def sep (d : Dialect) : α := ofByte d.preferred

def respell (d : Dialect) (a : α) : α := if d.isSep a then d.sep else a

theorem isSep_sep (d : Dialect) : d.isSep (d.sep : α) = true := by
  simp [isSep, sep, isByte, code_ofByte]

theorem isSep_respell (d : Dialect) (a : α) : d.isSep (d.respell a) = d.isSep a := by
  unfold respell
  split
  · next h => rw [isSep_sep, h]
  · rfl

end Dialect

end PathForms
