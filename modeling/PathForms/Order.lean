import PathForms.Dialect

/-!
# The order of paths

Paths are compared as a file system would compare their names: unit by unit, a path before those
that extend it, and without regard to the case of ASCII letters where the dialect ignores it.
-/

set_option autoImplicit false

namespace PathForms.Dialect

open CodeUnit

variable {α : Type} [CodeUnit α]

/-- What a unit counts as in a comparison. -/
def collate (d : Dialect) (a : α) : Nat := code (if d.caseSensitive then a else foldCase a)

def compareUnits (d : Dialect) (xs ys : List α) : Ordering :=
  compare (xs.map d.collate) (ys.map d.collate)

def compareFirst (d : Dialect) (n : Nat) (xs ys : List α) : Ordering :=
  d.compareUnits (xs.take n) (ys.take n)

/-- Whether two paths are spelled the same, case apart where the dialect ignores it. -/
def sameSpelling (d : Dialect) (xs ys : List α) : Bool := (d.compareUnits xs ys).isEq

theorem isEq_compareUnits {d : Dialect} {xs ys : List α} :
    (d.compareUnits xs ys).isEq = true ↔ xs.map d.collate = ys.map d.collate := by
  rw [compareUnits, Ordering.isEq_iff_eq_eq, Std.compare_eq_iff_eq]

end PathForms.Dialect
