import PathForms.Path.Basic
import PathForms.Text.Quoted
import PathForms.Text.Unit

/-!
# Showing paths

A path is shown as the text that its units carry, with replacements for what cannot be read, in its
own spelling or with every separator in the preferred one.
-/

set_option autoImplicit false

namespace PathForms.Path

variable {α : Type} [TextUnit α] {d : Dialect}

def ofOctets (octets : List UInt8) : Except PathError (Path α d) := do
  let b ← (TextUnit.ofOctets octets).mapError .buffer
  if d.maxLength < b.length then .error (.tooLong b.length d.maxLength) else .ok ⟨b⟩

def display (p : Path α d) : List Char := TextUnit.decode p.units

def displayPreferred (p : Path α d) : List Char := p.respell.display

def describe (p : Path α d) : List Char :=
  "BasicPath \x7b dialect: ".toList ++ Text.quoted d.name.toList ++ ", path: ".toList ++
    Text.quoted p.display ++ " \x7d".toList

end PathForms.Path
