import PathForms.Path.Display
import PathForms.Path.Resolution
import PathForms.Session

/-!
# Programs on paths

The edits of paths as data, so that one can speak of every order in which they may be made. A path
is joined with a segment aside, and saving sets a copy of it aside. What it is resolved against has
to be a path itself.
-/

set_option autoImplicit false

namespace PathForms.Path

inductive Op (α : Type) where
  | set (xs : List α)
  | setText (octets : List UInt8)
  | push (segment : List α) (withSep : Bool)
  | join (segment : List α)
  | pushExtension (ext : List α) (withSep : Bool)
  | pushSep
  | pop (trim : Bool)
  | popSep
  | popExtension
  | respell
  | canonical (trim : Bool)
  | resolveHere (here : WorkingDirectory) (trim : Bool)
  | resolve (base : List α) (trim : Bool)
  | clear
  | save
  | swap

variable {α : Type} [TextUnit α] {d : Dialect}

def step (op : Op α) (s : Session (Path α d)) : Except PathError (Session (Path α d)) :=
  let p := s.current
  match op with
  | .set xs => (ofUnits xs).map s.put
  | .setText octets => (ofOctets octets).map s.put
  | .push segment withSep => (p.push segment withSep).map s.put
  | .join segment => (p.join segment).map s.keep
  | .pushExtension ext withSep => (p.pushExtension ext withSep).map s.put
  | .pushSep => p.pushSep.map s.put
  | .pop trim => .ok (s.put (p.pop trim))
  | .popSep => .ok (s.put p.popSep)
  | .popExtension => .ok (s.put p.popExtension)
  | .respell => .ok (s.put p.respell)
  | .canonical trim => .ok (s.put (p.canonical trim))
  | .resolveHere here trim => (p.resolveHere here trim).map s.put
  | .resolve base trim => do return s.put (← p.resolve (← ofUnits base) trim)
  | .clear => .ok (s.put p.clear)
  | .save => .ok (s.keep p)
  | .swap => .ok s.swap

def after : Op α → Session (Path α d) → Session (Path α d) := Session.after step

def run : List (Op α) → Session (Path α d) → Session (Path α d) := Session.run step

end PathForms.Path
