import PathForms.PathError
import PathForms.Text.Unit

/-!
# The working directory

What the system answers when it is asked where a process stands: the octets of an absolute path, or
the code of an error. The answer is in octets whatever the width of the paths that ask for it.
-/

set_option autoImplicit false

namespace PathForms

inductive WorkingDirectory where
  | known (octets : List UInt8)
  | unknown (code : Nat)
  deriving DecidableEq, Repr

namespace WorkingDirectory

def buffer {α : Type} [TextUnit α] : WorkingDirectory → Except PathError (Buffer α)
  | known octets => (TextUnit.ofOctets octets).mapError .buffer
  | unknown code => .error (.noWorkingDirectory code)

end WorkingDirectory

end PathForms
