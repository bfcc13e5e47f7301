import PathForms.Buffer
import PathForms.Session

/-!
# Programs on buffers

The operations on buffers as data, so that one can speak of every order in which they may be run. A
step answers with the unit that a `pop` takes off, and saving sets a copy of the buffer aside.
-/

set_option autoImplicit false

namespace PathForms.Buffer

inductive Op (α : Type) where
  | new
  | withCapacity (n : Nat)
  | ofUnits (xs : List α)
  | push (a : α)
  | extend (xs : List α)
  | pop
  | truncate (n : Nat)
  | resize (n : Nat)
  | reserve (n : Nat)
  | clear
  | shrink
  | modify (f : Nat → α → α)
  | save
  | swap

variable {α : Type} [CodeUnit α]

def step (op : Op α) (s : Session (Buffer α)) :
    Except BufferError (Session (Buffer α) × Option α) :=
  let b := s.current
  let done := fun (b : Buffer α) => (s.put b, none)
  match op with
  | .new => .ok (done {})
  | .withCapacity n => (withCapacity n).map done
  | .ofUnits xs => (ofUnits xs).map done
  | .push a => (b.push a).map done
  | .extend xs => (b.extend xs).map done
  | .pop => .ok (s.put b.pop.2, b.pop.1)
  | .truncate n => .ok (done (b.truncate n))
  | .resize n => (b.resize n).map done
  | .reserve n => (b.reserve n).map done
  | .clear => .ok (done b.clear)
  | .shrink => b.shrink.map done
  | .modify f => .ok (done (b.modify f))
  | .save => b.copy.map (fun c => (s.keep c, none))
  | .swap => .ok (s.swap, none)

def after : Op α → Session (Buffer α) → Session (Buffer α) :=
  Session.after fun op s => (step op s).map Prod.fst

def run : List (Op α) → Session (Buffer α) → Session (Buffer α) :=
  Session.run fun op s => (step op s).map Prod.fst

theorem run_cons (op : Op α) (ops : List (Op α)) (s : Session (Buffer α)) :
    run (op :: ops) s = run ops (after op s) := rfl

theorem after_of_ok {op : Op α} {s t : Session (Buffer α)} {r : Option α}
    (h : step op s = .ok (t, r)) : after op s = t :=
  Session.after_of_ok (congrArg (Except.map Prod.fst) h)

theorem after_of_error {op : Op α} {s : Session (Buffer α)} {e : BufferError}
    (h : step op s = .error e) : after op s = s :=
  Session.after_of_error (congrArg (Except.map Prod.fst) h)

end PathForms.Buffer
