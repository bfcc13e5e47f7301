import PathForms.Path.Basic
import PathForms.Proofs.LetterCase

/-!
# The order of paths

Comparing two paths compares what their units count as, one after the other, so the laws of that
order are those of the order of numbers. To compare no more than a front of each path is to stop
early: as long as the fronts agree nothing is decided, and once they differ the outcome stands, no
matter what follows.
-/

set_option autoImplicit false

namespace PathForms

namespace Dialect

variable {α : Type} [CodeUnit α] {d : Dialect} {xs ys zs : List α} {m n : Nat}

instance : Std.TransCmp (d.compareUnits : List α → List α → Ordering) :=
  inferInstanceAs (Std.TransCmp (compareOn (List.map d.collate)))

theorem compareUnits_trans {o : Ordering} (hxy : d.compareUnits xs ys = o)
    (hyz : d.compareUnits ys zs = o) : d.compareUnits xs zs = o := by
  cases o with
  | lt => exact Std.TransCmp.lt_trans hxy hyz
  | eq => exact Std.TransCmp.eq_trans hxy hyz
  | gt => exact Std.TransCmp.gt_trans hxy hyz

theorem compareUnits_eq_iff : d.compareUnits xs ys = .eq ↔ xs.length = ys.length ∧
    ∀ i (hx : i < xs.length) (hy : i < ys.length), d.CollateAlike xs[i] ys[i] := by
  rw [← Ordering.isEq_iff_eq_eq, isEq_compareUnits, List.ext_getElem_iff]
  simp only [List.length_map, List.getElem_map, collate_eq_iff]

theorem compareUnits_cons (a b : α) (xs ys : List α) : d.compareUnits (a :: xs) (b :: ys) =
    (compare (d.collate a) (d.collate b)).then (d.compareUnits xs ys) :=
  List.compare_cons_cons

theorem compareFirst_zero (xs ys : List α) : d.compareFirst 0 xs ys = .eq := rfl

theorem compareFirst_cons (n : Nat) (a b : α) (xs ys : List α) :
    d.compareFirst (n + 1) (a :: xs) (b :: ys) =
      (compare (d.collate a) (d.collate b)).then (d.compareFirst n xs ys) :=
  compareUnits_cons a b (xs.take n) (ys.take n)

theorem compareFirst_of_length_le (hx : xs.length ≤ n) (hy : ys.length ≤ n) :
    d.compareFirst n xs ys = d.compareUnits xs ys := by
  rw [compareFirst, List.take_of_length_le hx, List.take_of_length_le hy]

theorem compareUnits_eq_compareFirst (h : d.compareFirst n xs ys ≠ .eq) :
    d.compareUnits xs ys = d.compareFirst n xs ys := by
  induction n generalizing xs ys with
  | zero => exact absurd (compareFirst_zero xs ys) h
  | succ n ih =>
    cases xs with
    | nil => cases ys <;> rfl
    | cons a xs =>
      cases ys with
      | nil => rfl
      | cons b ys =>
        rw [compareFirst_cons] at h ⊢
        rw [compareUnits_cons]
        cases hab : compare (d.collate a) (d.collate b) with
        | lt => rfl
        | gt => rfl
        | eq =>
          -- the first units agree, so the difference lies in the fronts behind them
          rw [hab] at h
          exact ih h

theorem compareFirst_eq_compareFirst (h : d.compareFirst n xs ys ≠ .eq) (hm : n ≤ m) :
    d.compareFirst m xs ys = d.compareFirst n xs ys := by
  have hfront : d.compareFirst n (xs.take m) (ys.take m) = d.compareFirst n xs ys := by
    rw [compareFirst, List.take_take, List.take_take, Nat.min_eq_left hm, compareFirst]
  rw [← hfront] at h ⊢
  exact compareUnits_eq_compareFirst h

theorem forall_compareFirst_eq_iff :
    (∀ n, d.compareFirst n xs ys = .eq) ↔ d.compareUnits xs ys = .eq := by
  constructor
  · intro h
    rw [← compareFirst_of_length_le (Nat.le_max_left xs.length ys.length)
      (Nat.le_max_right xs.length ys.length)]
    exact h _
  · intro h n
    refine Decidable.byContradiction fun hn => hn ?_
    rw [← compareUnits_eq_compareFirst hn]
    exact h

/-- Comparing paths is a total order in which two paths are level if and only if they are spelled
the same, case apart where the dialect ignores it, which is when they are equal as paths. Paths that
are level agree on fronts of every length; the first front on which two paths differ decides, and
every longer one says the same. -/
theorem compareUnits_total_order (d : Dialect) (xs ys zs : List α) :
    d.compareUnits xs ys = (d.compareUnits ys xs).swap ∧
    ((d.compareUnits xs ys).isLE = true → (d.compareUnits ys zs).isLE = true →
      (d.compareUnits xs zs).isLE = true) ∧
    (∀ o, d.compareUnits xs ys = o → d.compareUnits ys zs = o → d.compareUnits xs zs = o) ∧
    (d.compareUnits xs ys = .eq ↔ xs.length = ys.length ∧
      ∀ i (hx : i < xs.length) (hy : i < ys.length), d.CollateAlike xs[i] ys[i]) ∧
    (∀ p q : Path α d, p.units = xs → q.units = ys →
      p.compare q = d.compareUnits xs ys ∧
      (p.equal q.units = true ↔ d.compareUnits xs ys = .eq)) ∧
    ((∀ n, d.compareFirst n xs ys = .eq) ↔ d.compareUnits xs ys = .eq) ∧
    ∀ n, d.compareFirst n xs ys ≠ .eq →
      d.compareUnits xs ys = d.compareFirst n xs ys ∧
      ∀ m, n ≤ m → d.compareFirst m xs ys = d.compareFirst n xs ys := by
  refine ⟨Std.OrientedCmp.eq_swap, Std.TransCmp.isLE_trans, fun _ => compareUnits_trans,
    compareUnits_eq_iff, ?_, forall_compareFirst_eq_iff, fun n hn => ?_⟩
  · rintro p q rfl rfl
    exact ⟨rfl, Ordering.isEq_iff_eq_eq⟩
  · exact ⟨compareUnits_eq_compareFirst hn, fun m hm => compareFirst_eq_compareFirst hn hm⟩

end Dialect

end PathForms
