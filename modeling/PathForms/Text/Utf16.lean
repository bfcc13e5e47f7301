import PathForms.Text.Utf8

/-!
# Text in 16-bit units

Code points below 2^16 are units as they are; each later one is a pair of surrogates, a high one
and a low one. A surrogate outside a pair cannot be read, and is replaced.
-/

set_option autoImplicit false

namespace PathForms.Text.Utf16

def isHigh (unit : UInt16) : Bool := decide (0xD800 ≤ unit.toNat ∧ unit.toNat < 0xDC00)

def isLow (unit : UInt16) : Bool := decide (0xDC00 ≤ unit.toNat ∧ unit.toNat < 0xE000)

def paired (high low : UInt16) : Char :=
  Char.ofNat (0x10000 + (high.toNat - 0xD800) * 0x400 + (low.toNat - 0xDC00))

def start (unit : UInt16) : List Char × Option UInt16 :=
  if isHigh unit then ([], some unit)
  else if isLow unit then ([replacement], none)
  else ([Char.ofNat unit.toNat], none)

def step (high unit : UInt16) : List Char × Option UInt16 :=
  if isLow unit then ([paired high unit], none)
  else
    let (text, waiting) := start unit
    (replacement :: text, waiting)

def decodeFrom : Option UInt16 → List UInt16 → List Char
  | none, [] => []
  | some _, [] => [replacement]
  | none, unit :: units =>
    let (text, waiting) := start unit
    text ++ decodeFrom waiting units
  | some high, unit :: units =>
    let (text, waiting) := step high unit
    text ++ decodeFrom waiting units

def decode (units : List UInt16) : List Char := decodeFrom none units

def encodeChar (c : Char) : List UInt16 :=
  let n := c.toNat
  if n < 0x10000 then [UInt16.ofNat n]
  else
    let offset := n - 0x10000
    [UInt16.ofNat (0xD800 + offset / 0x400), UInt16.ofNat (0xDC00 + offset % 0x400)]

def encode (text : List Char) : List UInt16 := text.flatMap encodeChar

end PathForms.Text.Utf16
