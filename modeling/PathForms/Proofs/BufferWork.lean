import PathForms.Buffer.Holds
import PathForms.Buffer.Work

/-!
# Work in place leaves nothing half done

On a well-formed buffer the work in place gives what the operation on buffers as values gives. Each
operation reserves room first, which is all that can fail, and only then writes, into slots that are
there; so work that fails leaves the buffer as it found it.
-/

set_option autoImplicit false

namespace PathForms.BufferWork

open Work

section

variable {α : Type}

theorem put_apply (i : Nat) (a : α) (b : Buffer α) :
    put i a b = .ok () { b with storage := b.storage.set i a } := rfl

theorem setLength_apply (n : Nat) (b : Buffer α) : setLength n b = .ok () { b with length := n } :=
  rfl

theorem take_set_succ (xs : List α) {i : Nat} (a : α) (h : i < xs.length) :
    (xs.set i a).take (i + 1) = xs.take i ++ [a] := by
  have hl : (xs.take i).length = i := List.length_take_of_le (Nat.le_of_lt h)
  rw [List.take_set, List.take_add_one, List.getElem?_eq_getElem h,
    List.set_append_right _ _ (Nat.le_of_eq hl), hl, Nat.sub_self]
  rfl

theorem fill_apply (i : Nat) (xs : List α) (b : Buffer α) (h : i + xs.length ≤ b.storage.size) :
    fill i xs b = .ok () { b with storage :=
      ⟨b.storage.slots.take i ++ xs ++ b.storage.slots.drop (i + xs.length)⟩ } := by
  induction xs generalizing i b with
  | nil => simp [fill, pure_apply]
  | cons a xs ih =>
    rw [List.length_cons] at h
    have hi : i < b.storage.slots.length := by
      rw [Storage.size] at h
      omega
    have hs : (b.storage.set i a).size = b.storage.size := List.length_set
    have hd : (b.storage.slots.set i a).drop (i + 1 + xs.length) =
        b.storage.slots.drop (i + (a :: xs).length) := by
      rw [List.drop_set_of_lt (by omega), List.length_cons]
      congr 1
      omega
    rw [fill, bind_apply, put_apply]
    show fill (i + 1) xs { b with storage := b.storage.set i a } = _
    rw [ih (i + 1) _ (by rw [hs]; omega)]
    simp only [Storage.set, take_set_succ _ a hi, hd, List.append_assoc, List.singleton_append]

theorem apart_bind_apply {s : Session (Buffer α)} {w : Work BufferError (Buffer α) Unit}
    {x : Except BufferError (Buffer α)} {b c : Buffer α}
    {f : Buffer α → Session (Buffer α) → Session (Buffer α)}
    (h : w b = outcome (x.map (·, ())) c) :
    (apart b w >>= fun b => modify (f b) >>= fun _ => pure none :
      Work BufferError (Session (Buffer α)) (Option α)) s =
        outcome (x.map fun b => (f b s, none)) s := by
  rw [bind_apply, apart_apply h]
  cases x <;> rfl

theorem onCurrent_bind_apply {s : Session (Buffer α)} {w : Work BufferError (Buffer α) Unit}
    {x : Except BufferError (Buffer α)}
    (h : w s.current = outcome (x.map (·, ())) s.current) :
    (onCurrent w >>= fun _ => pure none :
      Work BufferError (Session (Buffer α)) (Option α)) s =
        outcome (x.map fun b => (s.put b, none)) s := by
  rw [bind_apply, onCurrent_apply h]
  cases x <;> rfl

end

variable {α : Type} [CodeUnit α]

theorem realloc_apply (n : Nat) (b : Buffer α) : realloc n b =
    outcome ((b.storage.realloc n).map fun storage => ({ b with storage }, ())) b := by
  unfold realloc
  cases b.storage.realloc n <;> rfl

theorem reserve_apply (n : Nat) (b : Buffer α) :
    reserve n b = outcome ((b.reserve n).map (·, ())) b := by
  rw [reserve, bind_apply, get_apply]
  unfold Buffer.reserve
  dsimp only
  split
  · rfl
  · rw [realloc_apply]
    cases b.storage.realloc _ <;> rfl

theorem append_apply (xs : List α) (b : Buffer α) (h : b.length + xs.length < b.storage.size) :
    append xs b = .ok () (b.write xs) := by
  have hs : b.length + xs.length < b.storage.slots.length := h
  have hl : (b.storage.slots.take b.length ++ xs).length = b.length + xs.length := by
    rw [List.length_append, List.length_take, Nat.min_eq_left (by omega)]
  have hset : (b.storage.slots.take b.length ++ xs ++
      b.storage.slots.drop (b.length + xs.length)).set (b.length + xs.length) CodeUnit.nul =
        b.storage.slots.take b.length ++ xs ++
          CodeUnit.nul :: b.storage.slots.drop (b.length + xs.length + 1) := by
    rw [List.drop_eq_getElem_cons hs, List.set_append_right _ _ (Nat.le_of_eq hl), hl,
      Nat.sub_self]
    rfl
  rw [append, bind_apply, get_apply]
  dsimp only
  rw [bind_apply, fill_apply _ _ _ (Nat.le_of_lt h)]
  dsimp only
  rw [bind_apply, setLength_apply]
  dsimp only
  rw [put_apply, Storage.set, hset]
  rfl

theorem reserve_bind_apply {n : Nat} {b : Buffer α} {w : Work BufferError (Buffer α) Unit}
    {f : Buffer α → Buffer α} (h : ∀ c, b.reserve n = .ok c → w c = .ok () (f c)) :
    (reserve n >>= fun _ => w) b = outcome ((b.reserve n).map fun c => (f c, ())) b := by
  rw [bind_apply, reserve_apply]
  cases hr : b.reserve n with
  | error e => rfl
  | ok c => exact h c hr

theorem push_apply (a : α) {b : Buffer α} (h : b.WellFormed) :
    push a b = outcome ((b.push a).map (·, ())) b := by
  have hw : ∀ c, b.reserve 1 = .ok c → append [a] c = .ok () (c.write [a]) := by
    intro c hc
    obtain ⟨-, hl, hs⟩ := h.holds.reserve hc
    exact append_apply [a] c (by rw [hl]; exact hs)
  rw [push, reserve_bind_apply hw]
  unfold Buffer.push
  cases b.reserve 1 <;> rfl

theorem extend_apply (xs : List α) {b : Buffer α} (h : b.WellFormed) :
    extend xs b = outcome ((b.extend xs).map (·, ())) b := by
  unfold extend Buffer.extend
  split
  · rfl
  · have hw : ∀ c, b.reserve xs.length = .ok c → append xs c = .ok () (c.write xs) := by
      intro c hc
      obtain ⟨-, hl, hs⟩ := h.holds.reserve hc
      exact append_apply xs c (by rw [hl]; exact hs)
    rw [reserve_bind_apply hw]
    cases b.reserve xs.length <;> rfl

theorem truncate_apply (n : Nat) (b : Buffer α) : truncate n b = .ok () (b.truncate n) := by
  rw [truncate, bind_apply, get_apply]
  unfold Buffer.truncate
  dsimp only
  split <;> rfl

theorem clear_slots_apply {n : Nat} {b : Buffer α} (h : b.length < n) (hs : n < b.storage.size) :
    (fill b.length (List.replicate (n - b.length + 1) CodeUnit.nul) >>= fun _ => setLength n) b =
      .ok () (b.write (List.replicate (n - b.length) CodeUnit.nul)) := by
  have hl : (List.replicate (n - b.length + 1) (CodeUnit.nul : α)).length = n - b.length + 1 :=
    List.length_replicate
  rw [bind_apply, fill_apply _ _ _ (by rw [hl]; omega)]
  dsimp only
  rw [setLength_apply, hl, List.replicate_succ', Buffer.write, List.length_replicate]
  simp only [List.append_assoc, List.singleton_append, Nat.add_assoc]
  congr 2
  omega

theorem resize_apply (n : Nat) {b : Buffer α} (h : b.WellFormed) :
    resize n b = outcome ((b.resize n).map (·, ())) b := by
  rw [resize, bind_apply, get_apply]
  unfold Buffer.resize
  dsimp only
  split
  · exact truncate_apply n b
  · next hn =>
    have hw : ∀ c, b.reserve (n - b.length) = .ok c →
        (fill b.length (List.replicate (n - b.length + 1) CodeUnit.nul) >>= fun _ => setLength n) c
          = .ok () (c.write (List.replicate (n - b.length) CodeUnit.nul)) := by
      intro c hc
      obtain ⟨-, hl, hs⟩ := h.holds.reserve hc
      rw [← hl]
      exact clear_slots_apply (by omega) (by omega)
    rw [reserve_bind_apply hw]
    cases b.reserve (n - b.length) <;> rfl

theorem shrink_apply (b : Buffer α) : shrink b = outcome (b.shrink.map (·, ())) b := by
  rw [shrink, bind_apply, get_apply]
  unfold Buffer.shrink
  dsimp only
  split
  · rfl
  · rw [realloc_apply]
    cases b.storage.realloc _ <;> rfl

theorem withCapacity_apply (n : Nat) : (withCapacity n : Work BufferError (Buffer α) Unit) {} =
    outcome ((Buffer.withCapacity n).map (·, ())) {} := by
  rw [withCapacity, realloc_apply]
  unfold Buffer.withCapacity Storage.blank
  cases Storage.realloc (n + 1) ({} : Storage α) <;> rfl

theorem pop_apply {b : Buffer α} (h : b.WellFormed) : pop b = .ok b.pop.1 b.pop.2 := by
  rw [pop, bind_apply, get_apply]
  unfold Buffer.pop
  dsimp only
  split
  · next hn => simp [pure_apply, Buffer.truncate, Buffer.contents, hn]
  · next hn =>
    have hl := h.length_le_size
    have hlt : b.length - 1 < b.storage.slots.length := by
      rw [Storage.size] at hl
      omega
    have hlast : b.contents.getLast? = b.storage.get? (b.length - 1) := by
      rw [Buffer.contents, List.getLast?_take, if_neg hn, List.getElem?_eq_getElem hlt,
        Option.some_or, Storage.get?, List.getElem?_eq_getElem hlt]
    rw [hlast, Buffer.truncate, if_pos (by omega)]
    rfl

theorem overwrite_apply (f : Nat → α → α) {b : Buffer α} (h : b.WellFormed) :
    overwrite f b = .ok () (b.modify f) := by
  have hl : (b.contents.mapIdx f).length = b.length := by
    rw [List.length_mapIdx, ← h.holds.length_eq]
  rw [overwrite, bind_apply, get_apply]
  dsimp only
  rw [fill_apply _ _ _ (by rw [hl, Nat.zero_add]; exact h.length_le_size), hl]
  simp [Buffer.modify]

theorem ofUnits_apply (xs : List α) : ∃ c, (ofUnits xs : Work BufferError (Buffer α) Unit) {} =
    outcome ((Buffer.ofUnits xs).map (·, ())) c := by
  rw [ofUnits, bind_apply, withCapacity_apply]
  unfold Buffer.ofUnits
  cases hc : (Buffer.withCapacity xs.length : Except BufferError (Buffer α)) with
  | error e => exact ⟨{}, rfl⟩
  | ok c => exact ⟨c, extend_apply xs (Buffer.holds_withCapacity hc).wellFormed⟩

/-- Work in place comes to what the step on values comes to; if it fails, nothing is changed. -/
theorem perform_apply {s : Session (Buffer α)} (op : Buffer.Op α) (h : s.current.WellFormed) :
    perform op s = outcome (Buffer.step op s) s := by
  cases op with
  | new => rfl
  | withCapacity n => exact apart_bind_apply (withCapacity_apply n)
  | ofUnits xs =>
    obtain ⟨c, hc⟩ := ofUnits_apply xs
    exact apart_bind_apply hc
  | push a => exact onCurrent_bind_apply (push_apply a h)
  | extend xs => exact onCurrent_bind_apply (extend_apply xs h)
  | pop =>
    show onCurrent pop s = .ok s.current.pop.1 (s.put s.current.pop.2)
    rw [onCurrent, pop_apply h]
  | truncate n =>
    exact onCurrent_bind_apply (x := .ok (s.current.truncate n)) (truncate_apply n _)
  | resize n => exact onCurrent_bind_apply (resize_apply n h)
  | reserve n => exact onCurrent_bind_apply (reserve_apply n s.current)
  | clear => exact onCurrent_bind_apply (x := .ok s.current.clear) (truncate_apply 0 _)
  | shrink => exact onCurrent_bind_apply (shrink_apply s.current)
  | modify f => exact onCurrent_bind_apply (x := .ok (s.current.modify f)) (overwrite_apply f h)
  | save =>
    obtain ⟨c, hc⟩ := ofUnits_apply s.current.contents
    exact apart_bind_apply hc
  | swap => rfl

end PathForms.BufferWork
