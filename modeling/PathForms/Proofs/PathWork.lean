import PathForms.Path.Work
import PathForms.Proofs.BufferWork

/-!
# A refused edit leaves the paths alone

In place an edit comes to what the edit of paths as values comes to. Whatever can refuse an edit,
whether the length of its result, the base or the working directory, is asked before the path is
touched, so a refused edit leaves the path as it found it.
-/

set_option autoImplicit false

namespace PathForms.PathWork

open Work

variable {α : Type} {d : Dialect}

theorem onBuffer_apply {p : Path α d} {w : Work BufferError (Buffer α) Unit}
    {x : Except BufferError (Buffer α)} (h : w p.buffer = outcome (x.map (·, ())) p.buffer) :
    onBuffer w p = outcome (((x.map Path.mk).mapError .buffer).map (·, ())) p := by
  rw [onBuffer, h]
  cases x <;> rfl

theorem checkLength_bind_apply {n : Nat} {p : Path α d} {w : Work PathError (Path α d) Unit}
    {x : Except PathError (Path α d)} (h : w p = outcome (x.map (·, ())) p) :
    (checkLength n >>= fun _ => w) p = outcome ((if d.maxLength < n then
      .error (.tooLong n d.maxLength) else x).map (·, ())) p := by
  rw [bind_apply, checkLength]
  by_cases hn : d.maxLength < n
  · rw [if_pos hn, if_pos hn]
    rfl
  · rw [if_neg hn, if_neg hn, pure_apply]
    exact h

section

variable [CodeUnit α]

theorem commit_apply (xs : List α) (p : Path α d) :
    commit xs p = outcome ((Path.ofUnits xs).map (·, ())) p :=
  checkLength_bind_apply (x := .ok ⟨Buffer.exact xs⟩) rfl

theorem push_apply (segment : List α) (withSep : Bool) (p : Path α d) :
    push segment withSep p = outcome ((p.push segment withSep).map (·, ())) p := by
  rw [push, bind_apply, get_apply]
  unfold Path.push
  dsimp only
  split
  · rfl
  · exact commit_apply _ p

theorem pushExtension_apply (ext : List α) (withSep : Bool) (p : Path α d) :
    pushExtension ext withSep p = outcome ((p.pushExtension ext withSep).map (·, ())) p := by
  rw [pushExtension, bind_apply, get_apply]
  unfold Path.pushExtension
  dsimp only
  split
  · rfl
  · cases d.extended? withSep p.units ext with
    | none => rfl
    | some xs => exact commit_apply xs p

theorem pushSep_apply {p : Path α d} (h : p.buffer.WellFormed) :
    pushSep p = outcome (p.pushSep.map (·, ())) p := by
  rw [pushSep, bind_apply, get_apply]
  unfold Path.pushSep
  dsimp only
  split
  · rfl
  · exact checkLength_bind_apply (onBuffer_apply (BufferWork.push_apply _ h))

theorem cut_apply (length : List α → Nat) (p : Path α d) :
    cut length p = .ok () ⟨p.buffer.truncate (length p.units)⟩ := by
  rw [cut, bind_apply, get_apply]
  dsimp only
  rw [onBuffer, BufferWork.truncate_apply]

theorem respell_apply {p : Path α d} (h : p.buffer.WellFormed) : respell p = .ok () p.respell := by
  rw [respell, onBuffer, BufferWork.overwrite_apply _ h]
  rfl

theorem resolve_apply (base : Path α d) (trim : Bool) (p : Path α d) :
    resolve base trim p = outcome ((p.resolve base trim).map (·, ())) p := by
  rw [resolve, bind_apply, get_apply]
  unfold Path.resolve
  dsimp only
  split
  · rfl
  · split
    · rfl
    · rw [bind_apply]
      cases p.onto base with
      | error e => rfl
      | ok q => exact commit_apply _ p

end

variable [TextUnit α]

theorem resolveHere_apply (here : WorkingDirectory) (trim : Bool) (p : Path α d) :
    resolveHere here trim p = outcome ((p.resolveHere here trim).map (·, ())) p := by
  rw [resolveHere, bind_apply, get_apply]
  unfold Path.resolveHere
  dsimp only
  split
  · rfl
  · rw [bind_apply]
    cases (here.buffer : Except PathError (Buffer α)) with
    | error e => rfl
    | ok b => exact resolve_apply ⟨b⟩ trim p

/-- An edit in place comes to what the step on values comes to; if it is refused, nothing is
changed. -/
theorem perform_apply {s : Session (Path α d)} (op : Path.Op α)
    (h : s.current.buffer.WellFormed) :
    perform op s = outcome ((Path.step op s).map (·, ())) s := by
  cases op with
  | set xs => exact bind_modify_apply (give_apply _ s)
  | setText octets => exact bind_modify_apply (give_apply _ s)
  | push segment withSep => exact onCurrent_apply (push_apply segment withSep _)
  | join segment => exact bind_modify_apply (apart_apply (push_apply segment false _))
  | pushExtension ext withSep => exact onCurrent_apply (pushExtension_apply ext withSep _)
  | pushSep => exact onCurrent_apply (pushSep_apply h)
  | pop trim => exact onCurrent_apply (x := .ok (s.current.pop trim)) (cut_apply _ _)
  | popSep => exact onCurrent_apply (x := .ok s.current.popSep) (cut_apply _ _)
  | popExtension => exact onCurrent_apply (x := .ok s.current.popExtension) (cut_apply _ _)
  | respell => exact onCurrent_apply (x := .ok s.current.respell) (respell_apply h)
  | canonical trim => rfl
  | resolveHere here trim => exact onCurrent_apply (resolveHere_apply here trim _)
  | resolve base trim =>
    rw [perform, bind_apply]
    unfold Path.step
    dsimp only
    cases (Path.ofUnits base : Except PathError (Path α d)) with
    | error e => rfl
    | ok b =>
      refine (onCurrent_apply (resolve_apply b trim s.current)).trans ?_
      show _ = outcome (((s.current.resolve b trim >>= fun q => .ok (s.put q))).map (·, ())) s
      cases s.current.resolve b trim <;> rfl
  | clear => exact onCurrent_apply (x := .ok s.current.clear) (cut_apply _ _)
  | save => rfl
  | swap => rfl

end PathForms.PathWork
