import PathForms.Dialect

/-!
# Separators

How a run of units is searched, cut and divided at its separators. The cuts keep every unit: what
lies up to the last separator followed by what lies after it is the whole run.
-/

set_option autoImplicit false

namespace PathForms

variable {α : Type}

def trimEnd (p : α → Bool) (xs : List α) : List α := (xs.reverse.dropWhile p).reverse

def throughLast (p : α → Bool) (xs : List α) : List α := trimEnd (fun a => !p a) xs

def afterLast (p : α → Bool) (xs : List α) : List α :=
  (xs.reverse.takeWhile (fun a => !p a)).reverse

/-- Divides a run at each unit that satisfies `p`: `n` such units leave `n + 1` pieces, some of
which may be empty. -/
def piecesAt (p : α → Bool) (xs : List α) : List (List α) :=
  xs.foldr (fun a pieces =>
    if p a then [] :: pieces
    else match pieces with
      | [] => [[a]]
      | piece :: later => (a :: piece) :: later) [[]]

theorem throughLast_append_afterLast (p : α → Bool) (xs : List α) :
    throughLast p xs ++ afterLast p xs = xs := by
  rw [throughLast, trimEnd, afterLast, ← List.reverse_append, List.takeWhile_append_dropWhile,
    List.reverse_reverse]

theorem not_of_mem_afterLast {p : α → Bool} {xs : List α} {a : α} (h : a ∈ afterLast p xs) :
    p a = false := by
  have := List.all_takeWhile (p := fun a => !p a) (l := xs.reverse)
  rw [List.all_eq_true] at this
  simpa using this a (by simpa [afterLast] using h)

namespace Dialect

open CodeUnit

variable [CodeUnit α]

def nextSep? (d : Dialect) (xs : List α) : Option Nat := xs.findIdx? d.isSep

def lastSep? (d : Dialect) (xs : List α) : Option Nat :=
  match (throughLast d.isSep xs).length with
  | 0 => none
  | n + 1 => some n

def nextSepWithin? (d : Dialect) (n : Nat) (xs : List α) : Option Nat := d.nextSep? (xs.take n)

def lastSepWithin? (d : Dialect) (n : Nat) (xs : List α) : Option Nat := d.lastSep? (xs.take n)

def startsWithSep (d : Dialect) (xs : List α) : Bool := xs.head?.any d.isSep

def endsWithSep (d : Dialect) (xs : List α) : Bool := xs.getLast?.any d.isSep

def trimSeps (d : Dialect) (floor : Nat) (xs : List α) : List α :=
  xs.take floor ++ trimEnd d.isSep (xs.drop floor)

/-- The separator to add to a run: the first one it has already, else the preferred one. -/
def sepLike (d : Dialect) (xs : List α) : α := (xs.find? d.isSep).getD d.sep

/-- Ends a run in a separator. The empty run stays empty: a separator there would root it. -/
def ensureSep (d : Dialect) (xs : List α) : List α :=
  if xs.isEmpty || d.endsWithSep xs then xs else xs ++ [d.sepLike xs]

def respelled (d : Dialect) (xs : List α) : List α := xs.map d.respell

def parts (d : Dialect) (xs : List α) : List (List α) :=
  (piecesAt d.isSep xs).filter (fun piece => !piece.isEmpty)

end Dialect

def isSelf [CodeUnit α] : List α → Bool
  | [a] => CodeUnit.isDot a
  | _ => false

def isParent [CodeUnit α] : List α → Bool
  | [a, b] => CodeUnit.isDot a && CodeUnit.isDot b
  | _ => false

/-- Whether a name is one of the two that walk the tree instead of naming something in it. -/
def isDots [CodeUnit α] (xs : List α) : Bool := isSelf xs || isParent xs

end PathForms
