import PathForms.Session

/-!
# Work in place

Work on a value goes step by step and changes the value where it is. What has been done before a
step fails stays done, so that failing work changes nothing is something to be proved of it.
-/

set_option autoImplicit false

namespace PathForms

/-- Work on a value of type `β` that is changed in place. Work that fails leaves the value as it is
at that moment. -/
abbrev Work (ε β γ : Type) := EStateM ε β γ

namespace Work

variable {ε β γ δ : Type}

def give (x : Except ε γ) : Work ε β γ := fun s =>
  match x with
  | .ok r => .ok r s
  | .error e => .error e s

def onCurrent (w : Work ε β γ) : Work ε (Session β) γ := fun s =>
  match w s.current with
  | .ok r b => .ok r (s.put b)
  | .error e b => .error e (s.put b)

def apart (b : β) (w : Work ε β Unit) : Work ε (Session β) β := fun s =>
  match w b with
  | .ok _ c => .ok c s
  | .error e _ => .error e s

def outcome (x : Except ε (β × γ)) (s : β) : EStateM.Result ε β γ :=
  match x with
  | .ok (t, r) => .ok r t
  | .error e => .error e s

theorem bind_apply (w : Work ε β γ) (f : γ → Work ε β δ) (s : β) :
    (w >>= f) s = match w s with
      | .ok r t => f r t
      | .error e t => .error e t := by
  show EStateM.bind w f s = _
  unfold EStateM.bind
  cases w s <;> rfl

theorem get_apply (s : β) : (get : Work ε β β) s = .ok s s := rfl

theorem pure_apply (r : γ) (s : β) : (pure r : Work ε β γ) s = .ok r s := rfl

theorem onCurrent_apply {s : Session β} {w : Work ε β Unit} {x : Except ε β}
    (h : w s.current = outcome (x.map (·, ())) s.current) :
    onCurrent w s = outcome ((x.map s.put).map (·, ())) s := by
  rw [onCurrent, h]
  cases x <;> rfl

theorem apart_apply {s : Session β} {w : Work ε β Unit} {x : Except ε β} {b c : β}
    (h : w b = outcome (x.map (·, ())) c) :
    apart b w s = outcome (x.map fun b => (s, b)) s := by
  rw [apart, h]
  cases x <;> rfl

theorem bind_modify_apply {s : Session β} {w : Work ε (Session β) γ} {x : Except ε γ}
    {f : γ → Session β → Session β} (h : w s = outcome (x.map fun r => (s, r)) s) :
    (w >>= fun r => modify (f r)) s = outcome ((x.map fun r => f r s).map (·, ())) s := by
  rw [bind_apply, h]
  cases x <;> rfl

theorem give_apply (x : Except ε γ) (s : β) :
    give x s = outcome (x.map fun r => (s, r)) s := by
  cases x <;> rfl

end Work

end PathForms
