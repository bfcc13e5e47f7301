import PathForms.Classification

/-!
# Canonical paths

The canonical form of a path has its root and separators in their preferred spelling, single
separators between its parts, no part that stands for the directory itself, and no part that stands
for the directory above unless the path is relative and begins with it. Parts are settled from left
to right, and each step up cancels the nearest name that is still there.
-/

set_option autoImplicit false

namespace PathForms.Dialect

open CodeUnit

variable {α : Type} [CodeUnit α]

def isLive (part : List α) : Bool := !part.isEmpty && !isParent part

def cancelled? : List (List α) → Option (List (List α))
  | [] => none
  | part :: seen =>
    if isLive part then some ([] :: seen) else (cancelled? seen).map (part :: ·)

/-- Settles one more part, given the parts seen so far with the nearest first. Parts are removed in
their place. With no name left to cancel, a step up is removed below a root, which nothing lies
above, and kept otherwise. -/
def settle (rooted : Bool) (seen : List (List α)) (part : List α) : List (List α) :=
  if isSelf part then [] :: seen
  else if isParent part then
    match cancelled? seen with
    | some seen => [] :: seen
    | none => if rooted then [] :: seen else part :: seen
  else part :: seen

def settled (rooted : Bool) (parts : List (List α)) : List (List α) :=
  (parts.foldl (settle rooted) []).reverse.filter (fun part => !part.isEmpty)

/-- The canonical form of a path without faults whose root is of the given form and length. A
relative path of which nothing is left becomes a lone dot. -/
def rebuilt (d : Dialect) (r : Root) (trim : Bool) (xs : List α) : List α :=
  let base := d.respelled (xs.take r.length)
  let rest := xs.drop r.length
  let names := settled r.form.isRooted (piecesAt d.isSep rest)
  let body := if names.isEmpty && base.isEmpty then [ofByte dot] else [d.sep].intercalate names
  let mark := d.endsWithSep rest && !trim && !body.isEmpty
  base ++ body ++ (if mark then [d.sep] else [])

/-- The canonical form of a path, with or without a separator at its end. The empty path and paths
with a fault stay as they are; a run of separators is no fault here, since it is removed. -/
def canonical (d : Dialect) (trim : Bool) (xs : List α) : List α :=
  match d.kind (Leniency.strict.allowSlashRuns) xs with
  | .fault _ | .form .empty => xs
  | .form _ => d.rebuilt (d.root xs) trim xs

end PathForms.Dialect
