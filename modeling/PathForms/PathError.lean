import PathForms.Storage

/-!
# Errors of path operations

Each error names a cause, and `PathError.message` gives its wording.
-/

set_option autoImplicit false

namespace PathForms

inductive PathError where
  | tooLong (length max : Nat)
  | noWorkingDirectory (code : Nat)
  | relativeBase
  | buffer (e : BufferError)
  deriving DecidableEq, Repr

namespace PathError

def message : PathError → String
  | tooLong length max => s!"path of {length} characters exceeds the maximum of {max}"
  | noWorkingDirectory code =>
    s!"unable to determine the current directory, OS error code: {code}"
  | relativeBase => "the current directory isn't absolute under the path's dialect"
  | buffer e => e.message

end PathError

end PathForms
