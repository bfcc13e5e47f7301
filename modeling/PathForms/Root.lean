import PathForms.Kind
import PathForms.Separator

/-!
# Roots

The root of a path is the part of it that no edit removes: a leading separator, a drive with or
without its separator, a server and share, or a tilde. `Dialect.root` reads the root off the front
of a path and reports its form and its length; only the front is looked at, so the units after the
root are never judged here.
-/

set_option autoImplicit false

namespace PathForms

structure Root where
  form : Form
  length : Nat
  deriving DecidableEq, Repr

namespace Dialect

open CodeUnit

variable {α : Type} [CodeUnit α]

def startsWithDrive (d : Dialect) : List α → Bool
  | a :: b :: _ => d.driveLetters && isDriveLetter a && isByte colon b
  | _ => false

/-- The root of a path that begins with two separators and goes on with `tail`. It is complete only
once a separator follows a non-empty server and a non-empty share. -/
def uncRoot (d : Dialect) (tail : List α) : Root :=
  let inName := fun a => !d.isSep a
  let server := tail.takeWhile inName
  match tail.dropWhile inName with
  | [] => ⟨.uncIncomplete, tail.length + 2⟩
  | _ :: afterServer =>
    if server.isEmpty then ⟨.uncIncomplete, 2⟩
    else
      let share := afterServer.takeWhile inName
      match afterServer.dropWhile inName with
      | [] => ⟨.uncIncomplete, tail.length + 2⟩
      | _ :: _ =>
        if share.isEmpty then ⟨.uncIncomplete, server.length + 3⟩
        else ⟨.uncRooted, server.length + share.length + 4⟩

/-- The form and length of the root at the front of a path. A relative path has a root of
length 0. -/
def root (d : Dialect) : List α → Root
  | [] => ⟨.empty, 0⟩
  | a :: xs =>
    if d.isSep a then
      if d.networkShares && d.startsWithSep xs then d.uncRoot (xs.drop 1) else ⟨.slashRooted, 1⟩
    else if d.startsWithDrive (a :: xs) then
      if d.startsWithSep (xs.drop 1) then ⟨.driveRooted, 3⟩ else ⟨.driveRelative, 2⟩
    else if d.homeRoot && isByte tilde a then
      if xs.isEmpty then ⟨.homeRooted, 1⟩
      else if d.startsWithSep xs then ⟨.homeRooted, 2⟩
      else ⟨.relative, 0⟩
    else ⟨.relative, 0⟩

def rootUnits (d : Dialect) (xs : List α) : List α := xs.take (d.root xs).length

def belowRoot (d : Dialect) (xs : List α) : List α := xs.drop (d.root xs).length

def isRooted (d : Dialect) (xs : List α) : Bool := (d.root xs).form.isRooted

def isAbsolute (d : Dialect) (xs : List α) : Bool := (d.root xs).form.isAbsolute d

def isUnc (d : Dialect) (xs : List α) : Bool := (d.root xs).form.isUnc

/-- Whether a path is a complete root and nothing else: one separator, a drive with its separator,
or a server and share with theirs. -/
def isBareRoot (d : Dialect) (xs : List α) : Bool :=
  let isShare := d.root xs == ⟨.uncRooted, xs.length⟩
  match xs with
  | [a] => d.isSep a
  | [_, _, c] => if d.startsWithDrive xs then d.isSep c else isShare
  | _ => isShare

end Dialect

end PathForms
