import PathForms.Root

/-!
# Walking along a path

A cursor walks along a path from its front. Its first stop is the root, if there is one; each later
stop is the next part, whatever separators lie before it. Once the path is used up the cursor stays
where it is. The components of a path are the stretches walked, and its ancestors the path up to
each stop.
-/

set_option autoImplicit false

namespace PathForms

/-- A place in a path: the number of units passed, and the units ahead. -/
structure Cursor (α : Type) where
  passed : Nat
  ahead : List α
  deriving DecidableEq, Repr

namespace Cursor

variable {α : Type} [CodeUnit α]

def start (xs : List α) : Cursor α := ⟨0, xs⟩

/-- The length of the root that lies ahead. Only a cursor that has passed nothing can have one: a
root has at least one unit, and a path without a root does not begin with a separator. -/
def rootAhead (d : Dialect) (c : Cursor α) : Nat :=
  if c.passed = 0 then (d.root c.ahead).length else 0

def nextPart (d : Dialect) (c : Cursor α) : Option (List α) × Cursor α :=
  let here := c.ahead.dropWhile d.isSep
  let part := here.takeWhile (fun a => !d.isSep a)
  let passed := c.passed + (c.ahead.length - here.length)
  if part.isEmpty then (none, ⟨passed, here⟩)
  else (some part, ⟨passed + part.length, here.drop part.length⟩)

def next (d : Dialect) (c : Cursor α) : Option (List α) × Cursor α :=
  let n := c.rootAhead d
  if 0 < n then (some (c.ahead.take n), ⟨n, c.ahead.drop n⟩) else c.nextPart d

theorem length_ahead_nextPart_lt {d : Dialect} {c : Cursor α} {part : List α}
    (h : (c.nextPart d).1 = some part) : (c.nextPart d).2.ahead.length < c.ahead.length := by
  simp only [nextPart] at h ⊢
  split
  · next he => simp [he] at h
  · next he =>
    have hpart := List.length_pos_iff.2 (mt List.isEmpty_iff.2 he)
    have hle := (List.dropWhile_sublist (l := c.ahead) d.isSep).length_le
    have htake := (List.takeWhile_sublist (l := c.ahead.dropWhile d.isSep)
      (fun a => !d.isSep a)).length_le
    simp only [List.length_drop]
    omega

theorem length_ahead_next_lt {d : Dialect} {c : Cursor α} {part : List α}
    (h : (c.next d).1 = some part) : (c.next d).2.ahead.length < c.ahead.length := by
  simp only [next] at h ⊢
  split
  · next hn =>
    have hne : c.ahead ≠ [] := by
      intro he
      simp [rootAhead, he, Dialect.root] at hn
    have := List.length_pos_iff.2 hne
    simp only [List.length_drop]
    omega
  · next hn =>
    rw [if_neg hn] at h
    exact length_ahead_nextPart_lt h

/-- Every later stop: its component, and the number of units passed there. -/
def stops (d : Dialect) (c : Cursor α) : List (List α × Nat) :=
  match _h : c.next d with
  | (none, _) => []
  | (some part, onward) => (part, onward.passed) :: onward.stops d
  termination_by c.ahead.length
  decreasing_by
    have := length_ahead_next_lt (c := c) (d := d) (congrArg Prod.fst _h)
    rwa [_h] at this

end Cursor

namespace Dialect

variable {α : Type} [CodeUnit α]

def components (d : Dialect) (xs : List α) : List (List α) :=
  ((Cursor.start xs).stops d).map Prod.fst

def ancestors (d : Dialect) (xs : List α) : List (List α) :=
  ((Cursor.start xs).stops d).map (fun stop => xs.take stop.2)

end Dialect

end PathForms
