import PathForms.Storage.Work

/-!
# Runs of reallocations

In place a reallocation comes to what it comes to on storage as a value, whatever was left in memory:
no unit shows that was not put there. In a run of reallocations a slot keeps its unit until it is cut
off, and then holds the terminator, however often the storage grows again.
-/

set_option autoImplicit false

namespace PathForms

open Work

variable {α : Type}

theorem foldl_min_le (sizes : List Nat) (n : Nat) : sizes.foldl min n ≤ n := by
  induction sizes generalizing n with
  | nil => exact Nat.le_refl n
  | cons m sizes ih => exact Nat.le_trans (ih (min n m)) (Nat.min_le_left n m)

variable [CodeUnit α]

namespace Storage

variable {s t : Storage α} {n : Nat} {sizes : List Nat}

/-- The storage is no larger an object than there may be. -/
def Fits (s : Storage α) : Prop := s.size * CodeUnit.width α ≤ maxOctets

instance : Decidable s.Fits := inferInstanceAs (Decidable (_ ≤ _))

def reallocAll : List Nat → Storage α → Except BufferError (Storage α)
  | [], s => .ok s
  | n :: sizes, s => do reallocAll sizes (← s.realloc n)

theorem fits_of_realloc (h : s.realloc n = .ok t) : t.Fits := by
  obtain ⟨hn, rfl⟩ := realloc_eq_ok_iff.1 h
  rw [Fits, size_resized]
  exact hn

theorem reallocAll_cons_eq_ok_iff : s.reallocAll (n :: sizes) = .ok t ↔
    n * CodeUnit.width α ≤ maxOctets ∧ (s.resized n).reallocAll sizes = .ok t := by
  rw [reallocAll, bind_eq_ok]
  simp only [realloc_eq_ok_iff]
  constructor
  · rintro ⟨_, ⟨hn, rfl⟩, ht⟩
    exact ⟨hn, ht⟩
  · rintro ⟨hn, ht⟩
    exact ⟨_, ⟨hn, rfl⟩, ht⟩

theorem exists_reallocAll_iff :
    (∃ t, s.reallocAll sizes = .ok t) ↔ ∀ n ∈ sizes, n * CodeUnit.width α ≤ maxOctets := by
  induction sizes generalizing s with
  | nil => simp [reallocAll]
  | cons n sizes ih => simp [reallocAll_cons_eq_ok_iff, ih]

theorem Fits.reallocAll (hs : s.Fits) (ht : s.reallocAll sizes = .ok t) : t.Fits := by
  induction sizes generalizing s with
  | nil =>
    cases ht
    exact hs
  | cons n sizes ih =>
    obtain ⟨u, hu, ht⟩ := bind_eq_ok.1 ht
    exact ih (fits_of_realloc hu) ht

theorem size_reallocAll (ht : s.reallocAll sizes = .ok t) : t.size = sizes.getLastD s.size := by
  induction sizes generalizing s with
  | nil =>
    cases ht
    rfl
  | cons n sizes ih =>
    rw [ih (reallocAll_cons_eq_ok_iff.1 ht).2, size_resized, List.getLastD_cons]

theorem get?_reallocAll (ht : s.reallocAll sizes = .ok t) {i : Nat} (hi : i < t.size) :
    t.get? i = if i < sizes.foldl min s.size then s.get? i else some CodeUnit.nul := by
  induction sizes generalizing s with
  | nil =>
    cases ht
    rw [List.foldl_nil, if_pos hi]
  | cons n sizes ih =>
    rw [ih (reallocAll_cons_eq_ok_iff.1 ht).2, size_resized, List.foldl_cons, List.foldl_assoc]
    -- The rest of the run keeps what is below `n` and its sizes, of which only the slots that there
    -- were before hold units of `s`.
    have hle := foldl_min_le sizes n
    by_cases hn : i < sizes.foldl min n
    · rw [if_pos hn, get?_resized, if_pos (Nat.lt_of_lt_of_le hn hle)]
      by_cases hs : i < s.size
      · rw [if_pos (Nat.lt_min.2 ⟨hs, hn⟩), get?, List.getElem?_eq_getElem hs, Option.getD_some]
      · rw [if_neg (fun h => hs (Nat.lt_min.1 h).1), get?_eq_none (Nat.not_lt.1 hs),
          Option.getD_none]
    · rw [if_neg hn, if_neg (fun h => hn (Nat.lt_min.1 h).2)]

end Storage

namespace StorageWork

variable {s : Storage α} {left : Nat → α} {n : Nat}

omit [CodeUnit α] in
theorem getElem?_block (left : Nat → α) (n : Nat) (moved : List α) (i : Nat) :
    (block left n moved)[i]? = if i < n then some (moved[i]?.getD (left i)) else none := by
  by_cases h : i < n <;> simp [block, h]

theorem getElem?_cleared (i n : Nat) (slots : List α) (j : Nat) :
    (cleared i n slots)[j]? =
      if i ≤ j ∧ j < n then slots[j]?.map (fun _ => CodeUnit.nul) else slots[j]? := by
  unfold cleared
  -- By induction on the number of slots that are still to be written over.
  generalize hk : n - i = k
  induction k generalizing i slots with
  | zero =>
    rw [if_neg (by omega)]
    rfl
  | succ k ih =>
    rw [List.range'_succ, List.foldl_cons, ih (i + 1) _ (by omega)]
    by_cases hj : i = j
    · subst hj
      rw [if_neg (by omega), if_pos (by omega), List.getElem?_set_self']
      rfl
    · rw [List.getElem?_set_ne hj]
      exact ite_congr (propext (by omega)) (fun _ => rfl) (fun _ => rfl)

theorem cleared_block (left : Nat → α) (n : Nat) (s : Storage α) :
    cleared s.size n (block left n s.slots) = (s.resized n).slots := by
  refine List.ext_getElem? fun j => ?_
  have hslot := s.get?_resized n j
  rw [Storage.get?] at hslot
  rw [hslot, getElem?_cleared, getElem?_block]
  by_cases hn : j < n
  · rw [if_pos hn, if_pos hn]
    by_cases hs : s.size ≤ j
    · rw [if_pos ⟨hs, hn⟩, Storage.get?_eq_none hs]
      rfl
    · rw [if_neg (fun h => hs h.1), Storage.get?,
        List.getElem?_eq_getElem (Nat.not_le.1 hs)]
      rfl
  · rw [if_neg hn, if_neg hn, if_neg (fun h => hn h.2)]

theorem checkSize_bind_apply {β : Type} (n : Nat) (w : Work BufferError (Storage α) β)
    (s : Storage α) : (checkSize n >>= fun _ => w) s =
      if maxOctets < n * CodeUnit.width α then .error .capacityOverflow s else w s := by
  rw [bind_apply, checkSize]
  by_cases hn : maxOctets < n * CodeUnit.width α
  · rw [if_pos hn, if_pos hn]
    rfl
  · rw [if_neg hn, if_neg hn]
    rfl

theorem checkSize_size_bind_apply {β : Type} (hs : s.Fits) (w : Work BufferError (Storage α) β) :
    (checkSize s.size >>= fun _ => w) s = w s := by
  rw [checkSize_bind_apply, if_neg (Nat.not_lt.2 hs)]

theorem newBlock_apply (left : Nat → α) (n : Nat) (hs : s.Fits) : newBlock left n s =
    if maxOctets < n * CodeUnit.width α then .error .capacityOverflow s
    else .ok (block left n s.slots) s := by
  rw [newBlock, bind_apply, get_apply]
  dsimp only
  by_cases h0 : s.size = 0
  · have hslots : s.slots = [] := List.length_eq_zero_iff.1 h0
    rw [if_pos h0, allocate, checkSize_bind_apply, hslots]
    rfl
  by_cases hn : n = 0
  · subst hn
    rw [if_neg h0, if_pos rfl, release, bind_apply, get_apply]
    dsimp only
    rw [checkSize_size_bind_apply hs, Nat.zero_mul, if_neg (Nat.not_lt_zero _)]
    rfl
  · rw [if_neg h0, if_neg hn, move, bind_apply, get_apply]
    dsimp only
    rw [checkSize_size_bind_apply hs, checkSize_bind_apply]
    rfl

/-- In place a reallocation comes to the storage that it gives as a value; if it fails, nothing is
changed. -/
theorem realloc_apply (left : Nat → α) (n : Nat) (hs : s.Fits) :
    realloc left n s = outcome ((s.realloc n).map (·, ())) s := by
  rw [realloc, bind_apply, get_apply]
  dsimp only
  by_cases hn : s.size = n
  · subst hn
    rw [if_pos rfl, Storage.realloc, if_neg (Nat.not_lt.2 hs), Storage.resized_size]
    rfl
  · rw [if_neg hn, bind_apply, newBlock_apply left n hs, Storage.realloc]
    by_cases hover : maxOctets < n * CodeUnit.width α
    · rw [if_pos hover, if_pos hover]
      rfl
    · rw [if_neg hover, if_neg hover]
      dsimp only
      rw [cleared_block]
      rfl

end StorageWork

namespace Storage

/-- Storage that is reallocated again and again, through whatever sizes, ends with the last of them,
if none is too large. A slot below all sizes keeps its unit, and any other holds the terminator. In
place a reallocation gives the same storage, whatever was left in memory, or it overflows and has
changed nothing. -/
theorem slots_reallocAll {s : Storage α} (hs : s.Fits) (sizes : List Nat) :
    ((∃ t, s.reallocAll sizes = .ok t) ↔ ∀ n ∈ sizes, n * CodeUnit.width α ≤ maxOctets) ∧
    (∀ t, s.reallocAll sizes = .ok t → t.Fits ∧ t.size = sizes.getLastD s.size ∧
      ∀ i < t.size, t.get? i =
        if i < sizes.foldl min s.size then s.get? i else some CodeUnit.nul) ∧
    ∀ (n : Nat) (left : Nat → α),
      (∀ t, StorageWork.realloc left n s = .ok () t ↔ s.realloc n = .ok t) ∧
      ∀ e t, StorageWork.realloc left n s = .error e t ↔
        t = s ∧ e = .capacityOverflow ∧ maxOctets < n * CodeUnit.width α := by
  refine ⟨exists_reallocAll_iff, fun t ht => ⟨hs.reallocAll ht, size_reallocAll ht,
    fun i hi => get?_reallocAll ht hi⟩, fun n left => ?_⟩
  have he := fun e => realloc_eq_error_iff (n := n) (s := s) (e := e)
  rw [StorageWork.realloc_apply left n hs]
  cases hr : s.realloc n with
  | ok u => simp [Except.map, outcome, ← he, hr]
  | error e' => simp [Except.map, outcome, ← he, hr, and_comm, eq_comm]

/-- Of three slots the second keeps its unit through four, two and five slots, and the third is
cut off on the way. -/
theorem slots_reallocAll_regrown :
    let s : Storage UInt8 := ⟨[1, 2, 3]⟩
    s.Fits ∧ ∃ t, s.reallocAll [4, 2, 5] = .ok t ∧ t.size = 5 ∧ t.get? 1 = some 2 ∧
      t.get? 2 = some CodeUnit.nul := by
  intro s
  have hs : s.Fits := by decide
  have h := slots_reallocAll hs [4, 2, 5]
  obtain ⟨t, ht⟩ := h.1.2 (by decide)
  obtain ⟨-, hsize, hslots⟩ := h.2.1 t ht
  have hlen : t.size = 5 := hsize
  exact ⟨hs, t, ht, hlen, hslots 1 (by omega), hslots 2 (by omega)⟩

end Storage

end PathForms
