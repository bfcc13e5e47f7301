import PathForms.Proofs.Division

/-!
# Asking a cursor again and again

A cursor that is asked for the next component again and again answers with the root, if there is
one, then with each segment below it, and from then on with nothing. Classification counts the same
segments in the directory of a path and keeps the last one apart where nothing follows it.
-/

set_option autoImplicit false

namespace PathForms

variable {α : Type} [CodeUnit α] {d : Dialect} {xs : List α}

namespace Cursor

variable {c : Cursor α}

/-- The answer to the call with the number `n`, the first one having the number 0. -/
def answer (d : Dialect) : Nat → Cursor α → Option (List α)
  | 0, c => (c.next d).1
  | n + 1, c => answer d n (c.next d).2

theorem next_of_ahead_eq_nil (h : c.ahead = []) : (c.next d).1 = none := by
  obtain ⟨n, ahead⟩ := c
  obtain rfl : ahead = [] := h
  have hroot : (⟨n, []⟩ : Cursor α).rootAhead d = 0 := by
    rw [rootAhead]
    split <;> rfl
  rw [next, hroot]
  rfl

theorem ahead_of_next_eq_none (h : (c.next d).1 = none) : (c.next d).2.ahead = [] := by
  rw [next] at h ⊢
  split at h
  · cases h
  · next hn =>
    rw [if_neg hn]
    have hd := dropWhile_eq_nil_of_nextPart h
    simp [nextPart, hd]

theorem answer_of_next_eq_none (h : (c.next d).1 = none) (n : Nat) : c.answer d n = none := by
  induction n generalizing c with
  | zero => exact h
  | succ n ih => exact ih (next_of_ahead_eq_nil (ahead_of_next_eq_none h))

theorem answer_eq_getElem? (c : Cursor α) (n : Nat) :
    c.answer d n = ((c.stops d).map Prod.fst)[n]? := by
  induction n generalizing c with
  | zero =>
    cases hc : c.next d with
    | mk found onward =>
      cases found with
      | none =>
        rw [stops_of_none (by rw [hc]), answer, hc]
        rfl
      | some part =>
        rw [stops_of_some hc, answer, hc]
        rfl
  | succ n ih =>
    cases hc : c.next d with
    | mk found onward =>
      cases found with
      | none =>
        have hnone : (c.next d).1 = none := by rw [hc]
        rw [stops_of_none hnone, answer_of_next_eq_none hnone]
        rfl
      | some part => rw [stops_of_some hc, List.map_cons, List.getElem?_cons_succ, answer, hc, ih]

end Cursor

namespace Dialect

theorem parts_belowRoot (xs : List α) : d.parts (d.belowRoot xs) =
    d.parts (d.slices xs).directory ++
      (if (d.slices xs).entry = [] then [] else [(d.slices xs).entry]) := by
  have hx : d.belowRoot xs = (d.slices xs).directory ++ (d.slices xs).entry :=
    (throughLast_append_afterLast d.isSep _).symm
  have hd := divides_slices (d := d) xs
  rw [hx, parts_append_of_endsWithSep hd.directory]
  split
  · next h => rw [h, parts_nil]
  · next h => rw [parts_segment ⟨h, hd.entry⟩]

/-- A cursor answers with the components of a path and then with nothing. These are the root and the
pieces between the separators below it, without those that are empty; classification counts all of
them but the root and the entry, and the entry is the last one, unless it is empty. -/
theorem answer_start (d : Dialect) (xs : List α) :
    let s := (d.classify .lenient xs).slices
    (∀ n, (Cursor.start xs).answer d n = (d.components xs)[n]?) ∧
    d.components xs = (if s.root = [] then [] else [s.root]) ++
      ((xs.drop s.root.length).splitOnP d.isSep).filter (fun piece => !piece.isEmpty) ∧
    (d.components xs).length =
      s.partCount + (if s.root = [] then 0 else 1) + (if s.entry = [] then 0 else 1) ∧
    (s.entry ≠ [] → (d.components xs).getLast? = some s.entry) := by
  have hs : (d.classify .lenient xs).slices = d.slices xs := by
    rw [classify_of_fault?_eq_none (fault?_lenient xs)]
  have hroot : (d.slices xs).root = d.rootUnits xs := rfl
  have hbelow : xs.drop (d.rootUnits xs).length = d.belowRoot xs := by
    rw [length_rootUnits, belowRoot]
  have hc : d.components xs = (if d.rootUnits xs = [] then [] else [d.rootUnits xs]) ++
      d.parts (d.belowRoot xs) := by
    simpa only [List.isEmpty_iff] using components_eq xs
  have hcount : (d.slices xs).partCount = (d.parts (d.slices xs).directory).length := rfl
  dsimp only
  rw [hs, hroot]
  refine ⟨fun n => Cursor.answer_eq_getElem? _ n, ?_, ?_, fun he => ?_⟩
  · rw [hc, hbelow, parts_eq_splitOnP]
  · rw [hc, parts_belowRoot, hcount, List.length_append, List.length_append]
    split <;> split <;> simp <;> omega
  · rw [hc, parts_belowRoot, if_neg he, ← List.append_assoc, List.getLast?_concat]

/-- `C:\a\\b` has three components, the last of which is its entry. -/
theorem answer_start_drive :
    (∀ n, 3 ≤ n →
      (Cursor.start ([67, 58, 92, 97, 92, 92, 98] : List UInt8)).answer windows n = none) ∧
    (windows.components ([67, 58, 92, 97, 92, 92, 98] : List UInt8)).getLast? = some [98] := by
  obtain ⟨hanswer, -, hcount, hlast⟩ :=
    answer_start windows ([67, 58, 92, 97, 92, 92, 98] : List UInt8)
  refine ⟨fun n hn => ?_, hlast (by decide)⟩
  rw [hanswer, List.getElem?_eq_none_iff, hcount]
  exact hn

end Dialect

end PathForms
