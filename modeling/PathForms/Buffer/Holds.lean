import PathForms.Buffer

/-!
# What a buffer holds

A buffer holds a run of units if it is well-formed and the run is its contents. Each operation that
succeeds takes a buffer that holds a run to one that holds what the operation makes of the run.
-/

set_option autoImplicit false

namespace PathForms.Buffer

variable {α : Type} [CodeUnit α]

/-- The buffer is well-formed and its contents are `xs`. -/
structure Holds (b : Buffer α) (xs : List α) : Prop where
  wellFormed : b.WellFormed
  contents_eq : b.contents = xs

variable {b c : Buffer α} {xs : List α}

theorem WellFormed.length_le_size (h : b.WellFormed) : b.length ≤ b.storage.size := by
  rcases h with ⟨-, hl⟩ | hn
  · omega
  · exact Nat.le_of_lt (List.getElem?_eq_some_iff.1 hn).1

theorem WellFormed.length_lt_size (h : b.WellFormed) (hs : b.storage.size ≠ 0) :
    b.length < b.storage.size := by
  rcases h with ⟨hs', -⟩ | hn
  · simp [Storage.size, hs'] at hs
  · exact (List.getElem?_eq_some_iff.1 hn).1

theorem WellFormed.get?_getD (h : b.WellFormed) :
    (b.storage.get? b.length).getD CodeUnit.nul = CodeUnit.nul := by
  rcases h with ⟨hs, -⟩ | hn
  · simp [Storage.get?, hs]
  · simp [Storage.get?, hn]

theorem Holds.length_eq (h : b.Holds xs) : b.length = xs.length := by
  have hl := h.wellFormed.length_le_size
  rw [← h.contents_eq, contents, List.length_take]
  exact (Nat.min_eq_left hl).symm

theorem WellFormed.holds (h : b.WellFormed) : b.Holds b.contents := ⟨h, rfl⟩

theorem holds_empty : ({} : Buffer α).Holds [] := ⟨.inl ⟨rfl, rfl⟩, rfl⟩

theorem holds_exact (xs : List α) : (exact xs).Holds xs :=
  ⟨wellFormed_exact xs, contents_exact xs⟩

theorem Holds.withNul_eq (h : b.Holds xs) : b.withNul = xs ++ [CodeUnit.nul] := by
  have hw := h.wellFormed
  rw [← h.contents_eq]
  unfold withNul
  split
  · next hs =>
    have hl : b.storage.slots = [] := List.length_eq_zero_iff.1 hs
    simp [contents, hl]
  · next hs =>
    have hn := hw.resolve_left (fun h0 => hs (by simp [Storage.size, h0.1]))
    rw [List.take_add_one, hn]
    rfl

theorem Holds.resized {n : Nat} (h : b.Holds xs) (hn : b.length < n) :
    ({ b with storage := b.storage.resized n } : Buffer α).Holds xs := by
  constructor
  · right
    have hg := Storage.get?_resized n b.length b.storage
    rw [if_pos hn, h.wellFormed.get?_getD] at hg
    exact hg
  · have hl := h.wellFormed.length_le_size
    have hm : b.length ≤ (b.storage.slots.take n).length := by
      rw [List.length_take]
      exact Nat.le_min.2 ⟨Nat.le_of_lt hn, hl⟩
    rw [← h.contents_eq]
    show (b.storage.slots.take n ++ _).take b.length = _
    rw [List.take_append_of_le_length hm, List.take_take, Nat.min_eq_left (Nat.le_of_lt hn),
      contents]

theorem Holds.write (h : b.Holds xs) (ys : List α) : (b.write ys).Holds (xs ++ ys) := by
  constructor
  · right
    have hl : (b.storage.slots.take b.length ++ ys).length = b.length + ys.length := by
      rw [List.length_append, List.length_take,
        Nat.min_eq_left (show b.length ≤ b.storage.slots.length from h.wellFormed.length_le_size)]
    show (b.storage.slots.take b.length ++ ys ++ CodeUnit.nul :: _)[b.length + ys.length]? = _
    rw [List.getElem?_append_right (by omega), hl, Nat.sub_self]
    rfl
  · rw [contents_write ys h.wellFormed.length_le_size, h.contents_eq]

theorem Holds.truncate (h : b.Holds xs) (n : Nat) : (b.truncate n).Holds (xs.take n) := by
  constructor
  · have hl := h.wellFormed.length_le_size
    unfold Buffer.truncate
    split
    · next hn =>
      right
      exact List.getElem?_set_self (show n < b.storage.slots.length by
        rw [Storage.size] at hl
        omega)
    · exact h.wellFormed
  · rw [contents_truncate, h.contents_eq]

theorem Holds.modify (h : b.Holds xs) (f : Nat → α → α) : (b.modify f).Holds (xs.mapIdx f) := by
  constructor
  · rcases h.wellFormed with ⟨hs, hl⟩ | hn
    · exact .inl ⟨by simp [Buffer.modify, contents, hs], hl⟩
    · right
      have hm : (b.contents.mapIdx f).length = b.length := by
        rw [List.length_mapIdx, h.contents_eq, h.length_eq]
      show (b.contents.mapIdx f ++ b.storage.slots.drop b.length)[b.length]? = _
      rw [List.getElem?_append_right (by omega), hm, Nat.sub_self, List.getElem?_drop,
        Nat.add_zero, hn]
  · rw [contents_modify, h.contents_eq]

theorem Holds.reserve {n : Nat} (h : b.Holds xs) (hc : b.reserve n = .ok c) :
    c.Holds xs ∧ c.length = b.length ∧ b.length + n < c.storage.size := by
  unfold Buffer.reserve at hc
  dsimp only at hc
  split at hc
  · cases hc
    exact ⟨h, rfl, by omega⟩
  · obtain ⟨s, hs, hw⟩ := bind_eq_ok.1 hc
    cases hw
    rw [Storage.eq_resized_of_realloc hs]
    refine ⟨h.resized (by omega), rfl, ?_⟩
    rw [Storage.size_resized]
    omega

theorem Holds.push {a : α} (h : b.Holds xs) (hc : b.push a = .ok c) : c.Holds (xs ++ [a]) := by
  obtain ⟨r, hr, hw⟩ := bind_eq_ok.1 hc
  cases hw
  exact (h.reserve hr).1.write [a]

theorem Holds.extend {ys : List α} (h : b.Holds xs) (hc : b.extend ys = .ok c) :
    c.Holds (xs ++ ys) := by
  unfold Buffer.extend at hc
  split at hc
  · next hy =>
    cases hc
    rw [List.isEmpty_iff.1 hy, List.append_nil]
    exact h
  · obtain ⟨r, hr, hw⟩ := bind_eq_ok.1 hc
    cases hw
    exact (h.reserve hr).1.write ys

theorem Holds.resize {n : Nat} (h : b.Holds xs) (hc : b.resize n = .ok c) :
    c.Holds (xs.take n ++ List.replicate (n - xs.length) CodeUnit.nul) := by
  have hx := h.length_eq
  unfold Buffer.resize at hc
  split at hc
  · cases hc
    rw [Nat.sub_eq_zero_of_le (by omega), List.replicate_zero, List.append_nil]
    exact h.truncate n
  · obtain ⟨r, hr, hw⟩ := bind_eq_ok.1 hc
    cases hw
    rw [List.take_of_length_le (by omega), ← hx]
    exact (h.reserve hr).1.write _

theorem Holds.shrink (h : b.Holds xs) (hc : b.shrink = .ok c) : c.Holds xs := by
  unfold Buffer.shrink at hc
  split at hc
  · cases hc
    exact h
  · obtain ⟨s, hs, hw⟩ := bind_eq_ok.1 hc
    cases hw
    rw [Storage.eq_resized_of_realloc hs]
    exact h.resized (Nat.lt_succ_self _)

theorem holds_withCapacity {n : Nat} (hc : withCapacity n = .ok c) : c.Holds [] := by
  obtain ⟨s, hs, hw⟩ := bind_eq_ok.1 hc
  cases hw
  rw [Storage.eq_resized_of_realloc hs]
  exact holds_empty.resized (Nat.succ_pos n)

theorem holds_ofUnits (hc : ofUnits xs = .ok c) : c.Holds xs := by
  obtain ⟨r, hr, hw⟩ := bind_eq_ok.1 hc
  exact (holds_withCapacity hr).extend hw

end PathForms.Buffer
