import PathForms.Buffer.Holds
import PathForms.Text.Utf16

/-!
# Code units as text

What a path of each width shows to a reader, and how the octets that a system reports become a path
of that width. Octets stay as they are in a narrow path. In a wide one they are read as text and
written again in 16-bit units, into a buffer with room for as many units as the text has octets;
no text has more units than octets, so that room is never too small.
-/

set_option autoImplicit false

namespace PathForms

class TextUnit (α : Type) extends CodeUnit α where
  decode : List α → List Char
  ofOctets : List UInt8 → Except BufferError (Buffer α)
  wellFormed_ofOctets : ∀ octets b, ofOctets octets = .ok b → b.WellFormed

instance : TextUnit UInt8 where
  decode := Text.Utf8.decode
  ofOctets := Buffer.ofUnits
  wellFormed_ofOctets _ _ h := (Buffer.holds_ofUnits h).wellFormed

instance : TextUnit UInt16 where
  decode := Text.Utf16.decode
  ofOctets octets := do
    let text := Text.Utf8.decode octets
    (← Buffer.withCapacity (Text.Utf8.size text)).extend (Text.Utf16.encode text)
  wellFormed_ofOctets _ _ h := by
    obtain ⟨c, hc, hb⟩ := bind_eq_ok.1 h
    exact ((Buffer.holds_withCapacity hc).extend hb).wellFormed

end PathForms
