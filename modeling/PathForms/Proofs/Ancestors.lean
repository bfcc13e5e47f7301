import PathForms.Proofs.Popping

/-!
# Ancestors

A cursor finds the ancestors of a path from its front, and popping finds them from its end. The last
stop of a cursor is the end of the last segment, and the stops before it are those of what popping
leaves. So the ancestors are the paths that popping passes through, shortest first.
-/

set_option autoImplicit false

namespace PathForms

variable {α : Type} [CodeUnit α] {d : Dialect}

namespace Dialect

variable {xs before name seps root below : List α} {f : Form}

theorem exists_segment_append (hx : xs ≠ []) (hs : d.startsWithSep xs = false) :
    ∃ s rest, xs = s ++ rest ∧ d.IsSegment s ∧ d.NameEnds rest := by
  obtain ⟨a, xs, rfl⟩ := List.exists_cons_of_ne_nil hx
  have ha : d.isSep a = false := hs
  have hne : (a :: xs).takeWhile (fun a => !d.isSep a) ≠ [] := by simp [ha]
  exact ⟨_, _, List.takeWhile_append_dropWhile.symm, isSegment_takeWhile hne,
    nameEnds_dropWhile (a :: xs)⟩

theorem exists_firstSegment (xs : List α) : (∀ a ∈ xs, d.isSep a = true) ∨
    ∃ seps s rest, xs = seps ++ (s ++ rest) ∧ (∀ a ∈ seps, d.isSep a = true) ∧ d.IsSegment s ∧
      d.NameEnds rest := by
  induction xs with
  | nil => exact Or.inl (by simp)
  | cons a xs ih =>
    by_cases ha : d.isSep a = true
    · rcases ih with h | ⟨seps, s, rest, rfl, hseps, hs, hr⟩
      · exact Or.inl (by simpa [ha] using h)
      · exact Or.inr ⟨a :: seps, s, rest, rfl, by simpa [ha] using hseps, hs, hr⟩
    · obtain ⟨s, rest, hx, hs, hr⟩ :=
        exists_segment_append (List.cons_ne_nil a xs) (by simpa [startsWithSep] using ha)
      exact Or.inr ⟨[], s, rest, hx, by simp, hs, hr⟩

theorem LastSegment.behind_segment {front s rest : List α}
    (h : d.LastSegment (front ++ (s ++ rest)) name seps) (hs : d.IsSegment s) :
    rest ≠ [] ∧ d.LastSegment rest name seps := by
  have hends := h.before.resolve_left (by simp [hs.1])
  have hrest : rest ≠ [] := by
    rintro rfl
    rw [List.append_nil, endsWithSep_append _ hs.1, endsWithSep_segment hs] at hends
    cases hends
  rw [← List.append_assoc, endsWithSep_append _ hrest] at hends
  exact ⟨hrest, Or.inr hends, h.name, h.seps⟩

end Dialect

namespace Cursor

open Dialect

variable {before name seps front s rest : List α} {n : Nat}

theorem nextPart_of_forall_isSep (n : Nat) (h : ∀ a ∈ seps, d.isSep a = true) :
    ((⟨n, seps⟩ : Cursor α).nextPart d).1 = none := by
  have hd : seps.dropWhile d.isSep = [] := List.dropWhile_eq_nil_iff.2 h
  simp [nextPart, hd]

theorem nextPart_segment (n : Nat) (hseps : ∀ a ∈ seps, d.isSep a = true) (hs : d.IsSegment s)
    (hr : d.NameEnds rest) : (⟨n, seps ++ (s ++ rest)⟩ : Cursor α).nextPart d =
      (some s, ⟨n + (seps ++ s).length, rest⟩) := by
  have hfront : (s ++ rest).dropWhile d.isSep = s ++ rest := by
    obtain ⟨a, s', rfl⟩ := List.exists_cons_of_ne_nil hs.1
    simp [hs.2 a List.mem_cons_self]
  have hpart : (s ++ rest).takeWhile (fun a => !d.isSep a) = s := by
    rw [List.takeWhile_append_of_pos (by simpa using hs.2), takeWhile_of_nameEnds hr,
      List.append_nil]
  have hne : s.isEmpty = false := by simpa using hs.1
  simp only [nextPart, List.dropWhile_append_of_pos hseps, hfront, hpart, hne, List.drop_left,
    List.length_append, Bool.false_eq_true, if_false]
  congr 2
  omega

theorem stops_of_forall_isSep (h0 : (⟨n, seps⟩ : Cursor α).rootAhead d = 0)
    (h : ∀ a ∈ seps, d.isSep a = true) : (⟨n, seps⟩ : Cursor α).stops d = [] := by
  apply stops_of_none
  rw [next, h0]
  exact nextPart_of_forall_isSep n h

theorem stops_segment (h0 : (⟨n, seps ++ (s ++ rest)⟩ : Cursor α).rootAhead d = 0)
    (hseps : ∀ a ∈ seps, d.isSep a = true) (hs : d.IsSegment s) (hr : d.NameEnds rest) :
    (⟨n, seps ++ (s ++ rest)⟩ : Cursor α).stops d = (s, n + (seps ++ s).length) ::
      (⟨n + (seps ++ s).length, rest⟩ : Cursor α).stops d := by
  have hnext : (⟨n, seps ++ (s ++ rest)⟩ : Cursor α).next d =
      (some s, ⟨n + (seps ++ s).length, rest⟩) := by
    rw [next, h0]
    exact nextPart_segment n hseps hs hr
  exact stops_of_some hnext

theorem rootAhead_behind_segment (n : Nat) (front : List α) (hs : d.IsSegment s) (xs : List α) :
    (⟨n + (front ++ s).length, xs⟩ : Cursor α).rootAhead d = 0 := by
  have hpos : 0 < n + (front ++ s).length := by
    have := List.length_pos_iff.2 hs.1
    rw [List.length_append]
    omega
  exact if_neg (Nat.ne_of_gt hpos)

theorem stops_of_lastSegment (h : d.LastSegment before name seps)
    (h0 : (⟨n, before ++ name ++ seps⟩ : Cursor α).rootAhead d = 0)
    (hb : (⟨n, before⟩ : Cursor α).rootAhead d = 0) :
    (⟨n, before ++ name ++ seps⟩ : Cursor α).stops d =
      (⟨n, before⟩ : Cursor α).stops d ++ [(name, n + (before ++ name).length)] := by
  -- a cursor goes on from the end of a segment, so the induction is on what it still has in front
  -- of the last one
  induction hn : before.length using Nat.strong_induction_on generalizing n before with
  | _ k ih =>
    rcases exists_firstSegment (d := d) before with hall | ⟨front, s, rest, rfl, hf, hs, hr⟩
    · rw [List.append_assoc] at h0 ⊢
      rw [stops_of_forall_isSep hb hall, List.nil_append,
        stops_segment h0 hall h.name (nameEnds_of_forall_isSep h.seps),
        stops_of_forall_isSep (rootAhead_behind_segment n before h.name seps) h.seps]
    · obtain ⟨hrest, hlast⟩ := h.behind_segment hs
      have hmore : d.NameEnds (rest ++ name ++ seps) := by
        rw [List.append_assoc]
        exact hr.lengthen hrest _
      have hx : front ++ (s ++ rest) ++ name ++ seps =
          front ++ (s ++ (rest ++ name ++ seps)) := by
        simp
      have hlen : rest.length < k := by
        have hpos := List.length_pos_iff.2 hs.1
        rw [← hn, List.length_append, List.length_append]
        omega
      rw [hx] at h0 ⊢
      rw [stops_segment h0 hf hs hmore, stops_segment hb hf hs hr,
        ih _ hlen hlast (rootAhead_behind_segment n front hs _)
          (rootAhead_behind_segment n front hs _) rfl]
      simp [Nat.add_assoc]

theorem le_of_mem_stops {stop : List α × Nat} (c : Cursor α) (h0 : c.rootAhead d = 0)
    (h : stop ∈ c.stops d) : stop.2 ≤ c.passed + c.ahead.length := by
  induction hn : c.ahead.length using Nat.strong_induction_on generalizing c with
  | _ k ih =>
    obtain ⟨n, xs⟩ := c
    dsimp only at hn
    subst hn
    rcases exists_firstSegment (d := d) xs with hall | ⟨front, s, rest, rfl, hf, hs, hr⟩
    · rw [stops_of_forall_isSep h0 hall] at h
      cases h
    · have hpos := List.length_pos_iff.2 hs.1
      rw [stops_segment h0 hf hs hr] at h
      simp only [List.length_append] at ih ⊢
      rcases List.mem_cons.1 h with rfl | h
      · rw [List.length_append]
        omega
      · have hle := ih rest.length (by omega) _ (rootAhead_behind_segment n front hs rest) h rfl
        simp only [List.length_append] at hle
        omega

end Cursor

namespace Dialect

variable {xs before name seps root below : List α} {f : Form}

theorem ancestors_reading (h : d.Reading root below f) : d.ancestors (root ++ below) =
    (if root.isEmpty then [] else [root]) ++
      ((⟨root.length, below⟩ : Cursor α).stops d).map (fun stop => (root ++ below).take stop.2) := by
  have hb := h.belowRoot_eq
  have hu := h.rootUnits_eq
  rw [ancestors, Cursor.stops_start, hb, hu, h.root_eq, List.map_append]
  split
  · rfl
  · simp

theorem Reading.rootAhead_eq (h : d.Reading root below f) :
    (⟨root.length, below⟩ : Cursor α).rootAhead d = 0 := by
  have ha := Cursor.rootAhead_belowRoot (d := d) (root ++ below)
  rwa [h.root_eq, h.belowRoot_eq] at ha

theorem ancestors_of_forall_isSep (h : d.Reading root seps f) (hs : ∀ a ∈ seps, d.isSep a = true) :
    d.ancestors (root ++ seps) = if root.isEmpty then [] else [root] := by
  rw [ancestors_reading h, Cursor.stops_of_forall_isSep h.rootAhead_eq hs, List.map_nil,
    List.append_nil]

theorem ancestors_of_lastSegment (hr : d.Reading root (before ++ name ++ seps) f)
    (h : d.LastSegment before name seps) : d.ancestors (root ++ (before ++ name ++ seps)) =
      d.ancestors (root ++ before) ++ [root ++ (before ++ name)] := by
  obtain ⟨g, hb⟩ := h.exists_reading hr
  have hname : (root ++ (before ++ name ++ seps)).take (root.length + (before ++ name).length) =
      root ++ (before ++ name) := by
    rw [← List.length_append, ← List.append_assoc root (before ++ name), List.take_left]
  have hbefore : ∀ stop ∈ (⟨root.length, before⟩ : Cursor α).stops d,
      (root ++ (before ++ name ++ seps)).take stop.2 = (root ++ before).take stop.2 := by
    intro stop hstop
    have hle := Cursor.le_of_mem_stops _ hb.rootAhead_eq hstop
    rw [List.append_assoc before, ← List.append_assoc root]
    exact List.take_append_of_le_length (by simpa using hle)
  rw [ancestors_reading hr, ancestors_reading hb,
    Cursor.stops_of_lastSegment h hr.rootAhead_eq hb.rootAhead_eq, List.map_append,
    List.map_singleton, hname, List.map_congr_left hbefore, List.append_assoc]

theorem ancestors_trimEnd (h : d.Reading root below f) :
    d.ancestors (root ++ trimEnd d.isSep below) = d.ancestors (root ++ below) := by
  obtain ⟨g, ht⟩ := h.exists_trimEnd
  rcases exists_lastSegment (d := d) below with hs | ⟨before, name, seps, rfl, hl⟩
  · rw [trimEnd_eq_nil hs] at ht ⊢
    rw [ancestors_of_forall_isSep ht (by simp), ancestors_of_forall_isSep h hs]
  · rw [hl.trimEnd_eq, ← List.append_nil (before ++ name)] at ht
    have hlast := ancestors_of_lastSegment ht ⟨hl.before, hl.name, by simp⟩
    rw [List.append_nil] at hlast
    rw [hl.trimEnd_eq, hlast, ancestors_of_lastSegment h hl]

end Dialect

namespace Path

open Dialect

variable {p : Path α d}

theorem length_units_pop_lt (h : (p.pop true).units ≠ p.units) :
    (p.pop true).units.length < p.units.length := by
  have hlt : d.poppedLength true p.units < p.units.length := by
    apply Nat.not_le.1
    intro hle
    exact h ((units_pop p true).trans (List.take_of_length_le hle))
  rw [units_pop, List.length_take]
  omega

/-- A path and those that popping makes of it in turn, until popping changes nothing. -/
def popChain [DecidableEq α] (p : Path α d) : List (Path α d) :=
  if (p.pop true).units = p.units then [p] else p :: (p.pop true).popChain
  termination_by p.units.length
  decreasing_by exact length_units_pop_lt ‹_›

def Trimmed (p : Path α d) : Prop := d.endsWithSep (d.belowRoot p.units) = false

theorem trimmed_of_units_eq {root below : List α} {f : Form}
    (hp : p.units = root ++ trimEnd d.isSep below) (hr : d.Reading root (trimEnd d.isSep below) f) :
    p.Trimmed := by
  rw [Trimmed, hp, hr.belowRoot_eq]
  exact getLast?_trimEnd d.isSep below

theorem trimmed_popSep (p : Path α d) : p.popSep.Trimmed ∧ p.popSep.ancestors = p.ancestors := by
  obtain ⟨root, below, f, hp, hr⟩ := exists_reading (d := d) p.units
  obtain ⟨g, ht⟩ := hr.exists_trimEnd
  have hq := units_popSep_of_reading hp hr
  constructor
  · exact trimmed_of_units_eq hq ht
  · rw [ancestors, ancestors, hq, hp]
    exact ancestors_trimEnd hr

theorem Trimmed.pop_cases (h : p.Trimmed) :
    (p.pop true).units = p.units ∧ p.ancestors = (if p.units.isEmpty then [] else [p.units]) ∨
      (p.pop true).units ≠ p.units ∧ p.units ≠ [] ∧ (p.pop true).Trimmed ∧
        p.ancestors = (p.pop true).ancestors ++ [p.units] := by
  obtain ⟨root, below, f, hp, hr⟩ := exists_reading (d := d) p.units
  rw [Trimmed, hp, hr.belowRoot_eq] at h
  rcases exists_lastSegment (d := d) below with hs | ⟨before, name, seps, rfl, hl⟩
  · -- separators alone, and none at the end: the path is its root
    have hb : below = [] := by
      rw [← trimEnd_eq_self h, trimEnd_eq_nil hs]
    subst hb
    left
    constructor
    · rw [units_pop_of_forall_isSep true hp hr hs, hp]
    · rw [ancestors, hp, ancestors_of_forall_isSep hr hs, List.append_nil]
  · have hseps : seps = [] := by
      have ht := hl.trimEnd_eq
      rw [trimEnd_eq_self h] at ht
      simpa using ht
    subst hseps
    have hq : (p.pop true).units = root ++ trimEnd d.isSep before :=
      units_pop_of_lastSegment true hp hr hl
    obtain ⟨g, hb⟩ := hl.exists_reading hr
    obtain ⟨g', ht⟩ := hb.exists_trimEnd
    have hname := List.length_pos_iff.2 hl.name.1
    right
    refine ⟨?_, ?_, trimmed_of_units_eq hq ht, ?_⟩
    · intro he
      have hlen := congrArg List.length (hq.symm.trans (he.trans hp))
      have hle := length_trimEnd_le d.isSep before
      simp only [List.length_append] at hlen
      omega
    · rw [hp]
      simp [hl.name.1]
    · rw [ancestors, ancestors, hp, hq, ancestors_trimEnd hb, ancestors_of_lastSegment hr hl,
        List.append_nil]

theorem Trimmed.ancestors_eq [DecidableEq α] (h : p.Trimmed) : p.ancestors =
    ((p.popChain.map units).filter (fun xs => !xs.isEmpty)).reverse := by
  induction hn : p.units.length using Nat.strong_induction_on generalizing p with
  | _ k ih =>
    rw [popChain]
    rcases h.pop_cases with ⟨he, ha⟩ | ⟨hne, hx, ht, ha⟩
    · rw [if_pos he, ha]
      cases hx : p.units.isEmpty <;> simp [hx]
    · have hlt : (p.pop true).units.length < k := by
        rw [← hn]
        exact length_units_pop_lt hne
      rw [if_neg hne, ha, ih _ hlt ht rfl, List.map_cons,
        List.filter_cons_of_pos (by simpa using hx), List.reverse_cons]

/-- The ancestors of a path are the paths that popping passes through on the way to its root,
shortest first, the empty path left out. -/
theorem ancestors_eq_reverse_popChain [DecidableEq α] (p : Path α d) : p.ancestors =
    ((p.popSep.popChain.map units).filter (fun xs => !xs.isEmpty)).reverse := by
  obtain ⟨ht, ha⟩ := trimmed_popSep p
  rw [← ha, ht.ancestors_eq]

end Path

end PathForms
