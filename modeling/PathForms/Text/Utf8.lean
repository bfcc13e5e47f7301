/-!
# Text in octets

Octets are read as UTF-8, and what cannot be read is replaced: each longest run of octets that
begins a well-formed sequence but does not end one, and each octet that begins none, becomes one
replacement character. The reader takes one octet at a time and remembers the sequence under way,
with the bounds that its next octet has to keep. Bounds narrower than those of a tail octet rule
out overlong sequences, surrogates and numbers past the last code point.
-/

set_option autoImplicit false

namespace PathForms.Text

def replacement : Char := '\uFFFD'

namespace Utf8

/-- A sequence under way: the bits read so far, the number of octets still owed, and the bounds of
the next one. -/
structure Pending where
  bits : Nat
  owed : Nat
  low : Nat
  high : Nat
  deriving DecidableEq, Repr

def start (octet : UInt8) : List Char × Option Pending :=
  let n := octet.toNat
  if n < 0x80 then ([Char.ofNat n], none)
  else if n < 0xC2 then ([replacement], none)
  else if n < 0xE0 then ([], some ⟨n - 0xC0, 1, 0x80, 0xBF⟩)
  else if n = 0xE0 then ([], some ⟨0, 2, 0xA0, 0xBF⟩)
  else if n = 0xED then ([], some ⟨0xD, 2, 0x80, 0x9F⟩)
  else if n < 0xF0 then ([], some ⟨n - 0xE0, 2, 0x80, 0xBF⟩)
  else if n = 0xF0 then ([], some ⟨0, 3, 0x90, 0xBF⟩)
  else if n < 0xF4 then ([], some ⟨n - 0xF0, 3, 0x80, 0xBF⟩)
  else if n = 0xF4 then ([], some ⟨4, 3, 0x80, 0x8F⟩)
  else ([replacement], none)

/-- Reads an octet of the sequence under way. One that is out of bounds ends the sequence too soon
and begins another. -/
def step (p : Pending) (octet : UInt8) : List Char × Option Pending :=
  let n := octet.toNat
  if p.low ≤ n ∧ n ≤ p.high then
    let bits := p.bits * 64 + (n - 0x80)
    if p.owed ≤ 1 then ([Char.ofNat bits], none)
    else ([], some ⟨bits, p.owed - 1, 0x80, 0xBF⟩)
  else
    let (text, pending) := start octet
    (replacement :: text, pending)

def decodeFrom : Option Pending → List UInt8 → List Char
  | none, [] => []
  | some _, [] => [replacement]
  | none, octet :: octets =>
    let (text, pending) := start octet
    text ++ decodeFrom pending octets
  | some p, octet :: octets =>
    let (text, pending) := step p octet
    text ++ decodeFrom pending octets

def decode (octets : List UInt8) : List Char := decodeFrom none octets

def size : List Char → Nat
  | [] => 0
  | c :: text => c.utf8Size + size text

end Utf8

end PathForms.Text
