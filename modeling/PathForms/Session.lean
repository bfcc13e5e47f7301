/-!
# Sessions

A session holds the value being edited and one set aside. It is edited in steps that may fail: a step
that fails changes nothing, and the steps after it are run all the same.
-/

set_option autoImplicit false

namespace PathForms

structure Session (β : Type) where
  current : β
  aside : β
  deriving DecidableEq, Repr

namespace Session

variable {β ε ω : Type}

def put (s : Session β) (b : β) : Session β := { s with current := b }

def keep (s : Session β) (b : β) : Session β := { s with aside := b }

def swap (s : Session β) : Session β := ⟨s.aside, s.current⟩

/-- The session after a step, which is the session before it if the step fails. -/
def after (step : ω → Session β → Except ε (Session β)) (op : ω) (s : Session β) : Session β :=
  match step op s with
  | .ok t => t
  | .error _ => s

def run (step : ω → Session β → Except ε (Session β)) : List ω → Session β → Session β
  | [], s => s
  | op :: ops, s => run step ops (after step op s)

variable {step : ω → Session β → Except ε (Session β)} {P : Session β → Prop} {s t : Session β}

theorem after_of_ok {op : ω} (h : step op s = .ok t) : after step op s = t := by
  rw [after, h]

theorem after_of_error {op : ω} {e : ε} (h : step op s = .error e) : after step op s = s := by
  rw [after, h]

theorem after_invariant (hstep : ∀ {op s t}, P s → step op s = .ok t → P t) (op : ω) (h : P s) :
    P (after step op s) := by
  cases hs : step op s with
  | error e => rwa [after_of_error hs]
  | ok t =>
    rw [after_of_ok hs]
    exact hstep h hs

theorem run_invariant (hstep : ∀ {op s t}, P s → step op s = .ok t → P t) (ops : List ω)
    (h : P s) : P (run step ops s) := by
  induction ops generalizing s with
  | nil => exact h
  | cons op ops ih => exact ih (after_invariant hstep op h)

end Session

end PathForms
