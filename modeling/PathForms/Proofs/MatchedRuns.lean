import Mathlib.Data.List.Forall2
import PathForms.Proofs.MappedEdits
import PathForms.Proofs.PathRuns
import PathForms.Proofs.Resolution

/-!
# Runs of edits on matched paths

Two runs of units match under a pair of maps if the maps send them to the same units. If both maps
keep the rules of the dialect, what is true of the common image is true of both sides, and so every
edit of one path comes out like the same edit of the other: with paths that match again, or with the
same error. A run of edits then keeps two sessions matched, whatever its length.
-/

set_option autoImplicit false

namespace PathForms

open CodeUnit

variable {α β γ : Type}

/-- Two computations give results that are related, or the same error. -/
inductive SameOutcome {ε : Type} (r : β → γ → Prop) : Except ε β → Except ε γ → Prop
  | ok {b : β} {c : γ} (h : r b c) : SameOutcome r (.ok b) (.ok c)
  | error (e : ε) : SameOutcome r (.error e) (.error e)

namespace SameOutcome

variable {ε β' γ' : Type} {r : β → γ → Prop} {r' : β' → γ' → Prop} {x : Except ε β}
  {y : Except ε γ}

theorem map {f : β → β'} {g : γ → γ'} (h : SameOutcome r x y)
    (hr : ∀ b c, r b c → r' (f b) (g c)) : SameOutcome r' (x.map f) (y.map g) := by
  cases h with
  | ok h => exact .ok (hr _ _ h)
  | error e => exact .error e

theorem map_left {r' : β' → γ → Prop} {f : β → β'} (h : SameOutcome r x y)
    (hr : ∀ b c, r b c → r' (f b) c) : SameOutcome r' (x.map f) y := by
  cases h with
  | ok h => exact .ok (hr _ _ h)
  | error e => exact .error e

theorem bind {f : β → Except ε β'} {g : γ → Except ε γ'} (h : SameOutcome r x y)
    (hr : ∀ b c, r b c → SameOutcome r' (f b) (g c)) : SameOutcome r' (x >>= f) (y >>= g) := by
  cases h with
  | ok h => exact hr _ _ h
  | error e => exact .error e

theorem eq {x' : Except ε β} (h : SameOutcome Eq x x') : x = x' := by
  cases h with
  | ok h => rw [h]
  | error e => rfl

end SameOutcome

/-- Two runs of units that a pair of maps sends to the same units. -/
def Matched (f : α → γ) (g : β → γ) (xs : List α) (ys : List β) : Prop := xs.map f = ys.map g

namespace Matched

variable {f : α → γ} {g : β → γ} {xs : List α} {ys : List β} (h : Matched f g xs ys)

include h

theorem length_eq : xs.length = ys.length := by
  simpa using congrArg List.length h

theorem isEmpty_eq : xs.isEmpty = ys.isEmpty := by
  rw [← List.isEmpty_map, h, List.isEmpty_map]

theorem take (n : Nat) : Matched f g (xs.take n) (ys.take n) := by
  rw [Matched, List.map_take, h, List.map_take]

theorem drop (n : Nat) : Matched f g (xs.drop n) (ys.drop n) := by
  rw [Matched, List.map_drop, h, List.map_drop]

theorem append {xs' : List α} {ys' : List β} (h' : Matched f g xs' ys') :
    Matched f g (xs ++ xs') (ys ++ ys') := by
  rw [Matched, List.map_append, h, h', List.map_append]

theorem eq_of_map {δ : Type} {F : List α → δ} {G : List β → δ} {H : List γ → δ}
    (hF : ∀ xs, H (xs.map f) = F xs) (hG : ∀ ys, H (ys.map g) = G ys) : F xs = G ys := by
  rw [← hF, h, hG]

theorem of_map {F : List α → List α} {G : List β → List β} {H : List γ → List γ}
    (hF : ∀ xs, H (xs.map f) = (F xs).map f) (hG : ∀ ys, H (ys.map g) = (G ys).map g) :
    Matched f g (F xs) (G ys) := by
  rw [Matched, ← hF, h, hG]

end Matched

variable {d : Dialect} {f : α → γ} {g : β → γ}

namespace Matched

variable [CodeUnit α] [CodeUnit β] [CodeUnit γ] {xs xs' : List α} {ys ys' : List β}

theorem pushed (hf : d.KeepsRules f) (hg : d.KeepsRules g) (h : Matched f g xs ys)
    (h' : Matched f g xs' ys') (withSep : Bool) :
    Matched f g (d.pushed withSep xs xs') (d.pushed withSep ys ys') := by
  rw [Matched, ← hf.pushed_map, h, h', hg.pushed_map]

theorem extended? (hf : d.KeepsRules f) (hg : d.KeepsRules g) (h : Matched f g xs ys)
    (h' : Matched f g xs' ys') (withSep : Bool) :
    (d.extended? withSep xs xs').map (List.map f) =
      (d.extended? withSep ys ys').map (List.map g) := by
  rw [← hf.extended?_map, h, h', hg.extended?_map]

theorem onDrive_eq (hf : d.KeepsRules f) (hg : d.KeepsRules g) (h : Matched f g xs ys)
    (h' : Matched f g xs' ys') (hx : d.startsWithDrive xs = true) :
    (d.startsWithDrive xs' && (d.compareFirst 2 xs xs').isEq) =
      (d.startsWithDrive ys' && (d.compareFirst 2 ys ys').isEq) := by
  have hy := (h.eq_of_map hf.startsWithDrive_map hg.startsWithDrive_map).symm.trans hx
  have hd' := h'.eq_of_map hf.startsWithDrive_map hg.startsWithDrive_map
  cases hx' : d.startsWithDrive xs' with
  | false => rw [← hd', hx', Bool.false_and, Bool.false_and]
  | true =>
    rw [← hf.compareFirst_two_map hx hx', h, h', hg.compareFirst_two_map hy (hd' ▸ hx'), ← hd', hx']

theorem sameShape (hf : d.KeepsRules f) (hg : d.KeepsRules g) (h : Matched f g xs ys)
    (l : Leniency) : SameShape (d.classify l xs) (d.classify l ys) := by
  have hx := sameShape_map f (d.classify l xs)
  have hy := sameShape_map g (d.classify l ys)
  rw [← hf.classify_map, h, hg.classify_map] at hx
  exact hx.trans_symm hy

theorem compareUnits_eq (hf : ∀ a, d.collate (f a) = d.collate a)
    (hg : ∀ a, d.collate (g a) = d.collate a) (h : Matched f g xs ys)
    (h' : Matched f g xs' ys') : d.compareUnits xs xs' = d.compareUnits ys ys' := by
  have hc : ∀ {xs : List α} {ys : List β}, Matched f g xs ys →
      xs.map d.collate = ys.map d.collate := by
    intro xs ys h
    have hF : d.collate ∘ f = d.collate := funext hf
    have hG : d.collate ∘ g = d.collate := funext hg
    rw [← hF, ← List.map_map, h, List.map_map, hG]
  rw [Dialect.compareUnits, hc h, hc h', Dialect.compareUnits]

end Matched

namespace Path

def Related (r : List α → List β → Prop) (p : Path α d) (q : Path β d) : Prop := r p.units q.units

structure BothRelated (r : List α → List β → Prop) (s : Session (Path α d))
    (t : Session (Path β d)) : Prop where
  current : Related r s.current t.current
  aside : Related r s.aside t.aside

/-- Two steps do the same with arguments that are related. Text in octets and the working directory
are read in a way of its own for each width of units; steps that take them are not among these. -/
inductive Op.Alike (r : List α → List β → Prop) : Op α → Op β → Prop
  | set {xs ys} (h : r xs ys) : Alike r (.set xs) (.set ys)
  | push {xs ys} (h : r xs ys) (withSep : Bool) : Alike r (.push xs withSep) (.push ys withSep)
  | join {xs ys} (h : r xs ys) : Alike r (.join xs) (.join ys)
  | pushExtension {xs ys} (h : r xs ys) (withSep : Bool) :
    Alike r (.pushExtension xs withSep) (.pushExtension ys withSep)
  | pushSep : Alike r .pushSep .pushSep
  | pop (trim : Bool) : Alike r (.pop trim) (.pop trim)
  | popSep : Alike r .popSep .popSep
  | popExtension : Alike r .popExtension .popExtension
  | respell : Alike r .respell .respell
  | canonical (trim : Bool) : Alike r (.canonical trim) (.canonical trim)
  | resolve {xs ys} (h : r xs ys) (trim : Bool) : Alike r (.resolve xs trim) (.resolve ys trim)
  | clear : Alike r .clear .clear
  | save : Alike r .save .save
  | swap : Alike r .swap .swap

section

variable {p p' : Path α d} {q q' : Path β d} {xs : List α} {ys : List β}

theorem Checked.sameOutcome {x : Except PathError (Path α d)} {y : Except PathError (Path β d)}
    (hx : Checked x xs) (hy : Checked y ys) (h : Matched f g xs ys) :
    SameOutcome (Related (Matched f g)) x y := by
  have hl := h.length_eq
  by_cases hle : xs.length ≤ d.maxLength
  · obtain ⟨p, rfl, rfl⟩ := hx.exists_eq_ok hle
    obtain ⟨q, rfl, rfl⟩ := hy.exists_eq_ok (hl ▸ hle)
    exact .ok h
  · have hlt := Nat.lt_of_not_le hle
    rw [(hx.eq_error_iff _).2 ⟨rfl, hlt⟩, (hy.eq_error_iff _).2 ⟨rfl, hl ▸ hlt⟩, hl]
    exact .error _

variable [TextUnit α] [TextUnit β]

theorem sameOutcome_ofUnits (h : Matched f g xs ys) : SameOutcome (Related (Matched f g))
    (ofUnits xs : Except PathError (Path α d)) (ofUnits ys : Except PathError (Path β d)) :=
  (checked_ofUnits xs).sameOutcome (checked_ofUnits ys) h

variable [CodeUnit γ] (hf : d.KeepsRules f) (hg : d.KeepsRules g)
  (h : Related (Matched f g) p q)

include hf hg h

theorem sameOutcome_push (hx : Matched f g xs ys) (withSep : Bool) :
    SameOutcome (Related (Matched f g)) (p.push xs withSep) (q.push ys withSep) := by
  unfold Path.push
  rw [hx.isEmpty_eq]
  split
  · exact .ok h
  · exact sameOutcome_ofUnits (Matched.pushed hf hg h hx withSep)

theorem sameOutcome_pushExtension (hx : Matched f g xs ys) (withSep : Bool) :
    SameOutcome (Related (Matched f g)) (p.pushExtension xs withSep)
      (q.pushExtension ys withSep) := by
  have he := Matched.extended? hf hg h hx withSep
  unfold Path.pushExtension
  rw [hx.isEmpty_eq]
  split
  · exact .ok h
  · revert he
    cases d.extended? withSep p.units xs <;> cases d.extended? withSep q.units ys <;> intro he
    · exact .ok h
    · cases he
    · cases he
    · exact sameOutcome_ofUnits (Option.some.inj he)

theorem sameOutcome_pushSep (hp : p.buffer.WellFormed) (hq : q.buffer.WellFormed) :
    SameOutcome (Related (Matched f g)) p.pushSep q.pushSep := by
  have hl : p.length = q.length := by
    rw [Path.length, hp.holds.length_eq, Path.length, hq.holds.length_eq]
    exact h.length_eq
  have hs : p.endsWithSep = q.endsWithSep := h.eq_of_map hf.endsWithSep_map hg.endsWithSep_map
  have he : p.isEmpty = q.isEmpty := congrArg (· == 0) hl
  have hm := h.of_map hf.ensureSep_map hg.ensureSep_map
  by_cases hle : p.length ≤ d.maxLength
  · have hp' : p.Sound := ⟨hp, hle⟩
    have hq' : q.Sound := ⟨hq, hl ▸ hle⟩
    exact hp'.checked_pushSep.sameOutcome hq'.checked_pushSep hm
  · have hlt : d.maxLength < q.length + 1 := by omega
    unfold Path.pushSep
    rw [he, hs, hl, if_pos hlt, if_pos hlt]
    split
    · exact .ok h
    · exact .error _

theorem related_pop (trim : Bool) : Related (Matched f g) (p.pop trim) (q.pop trim) := by
  rw [Related, units_pop, units_pop,
    h.eq_of_map (hf.poppedLength_map trim) (hg.poppedLength_map trim)]
  exact h.take _

theorem related_popSep : Related (Matched f g) p.popSep q.popSep := by
  rw [Related, units_popSep, units_popSep,
    h.eq_of_map hf.withoutSepsLength_map hg.withoutSepsLength_map]
  exact h.take _

theorem related_popExtension : Related (Matched f g) p.popExtension q.popExtension := by
  rw [Related, units_popExtension, units_popExtension,
    h.eq_of_map hf.withoutExtensionLength_map hg.withoutExtensionLength_map]
  exact h.take _

theorem related_respell : Related (Matched f g) p.respell q.respell := by
  rw [Related, units_respell, units_respell]
  exact h.of_map hf.respelled_map hg.respelled_map

theorem related_canonical (trim : Bool) :
    Related (Matched f g) (p.canonical trim) (q.canonical trim) := by
  rw [Related, units_canonical, units_canonical]
  exact h.of_map (hf.canonical_map trim) (hg.canonical_map trim)

theorem sameOutcome_onto (hb : Related (Matched f g) p' q') :
    SameOutcome (Related (Matched f g)) (p.onto p') (q.onto q') := by
  have hr : d.root p.units = d.root q.units := h.eq_of_map hf.root_map hg.root_map
  have hsep : Matched f g [d.sep] [d.sep] := by
    rw [Matched, List.map_singleton, hf.map_sep, List.map_singleton, hg.map_sep]
  unfold Path.onto
  by_cases hform : (d.root p.units).form = .driveRelative
  · obtain ⟨a, b, rest, hp, hd, -⟩ := Dialect.exists_drive hform
    -- drives are compared unit by unit, by units that do not separate, so both maps keep the answer
    have hc := Matched.onDrive_eq hf hg (h.take 2) hb (by rw [hp]; exact hd)
    simp only [if_pos hform, if_pos (hr ▸ hform), hc]
    split
    · exact sameOutcome_push hf hg hb (h.drop 2) false
    · refine sameOutcome_push hf hg ?_ (h.drop 2) false
      rw [Related, units_exact, units_exact]
      exact (h.take 2).append hsep
  · rw [if_neg hform, if_neg (hr ▸ hform)]
    exact sameOutcome_push hf hg hb h false

theorem sameOutcome_resolve (hb : Related (Matched f g) p' q') (trim : Bool) :
    SameOutcome (Related (Matched f g)) (p.resolve p' trim) (q.resolve q' trim) := by
  have hn := h.eq_of_map hf.needsBase_map hg.needsBase_map
  have ha : p'.isAbsolute = q'.isAbsolute := hb.eq_of_map hf.isAbsolute_map hg.isAbsolute_map
  unfold Path.resolve
  rw [hn, ha]
  split
  · exact .ok h
  · split
    · exact .error _
    · exact (sameOutcome_onto hf hg h hb).bind fun _ _ ho =>
        sameOutcome_ofUnits (related_canonical hf hg ho trim)

theorem equivalentIn_eq (hcf : ∀ a, d.collate (f a) = d.collate a)
    (hcg : ∀ a, d.collate (g a) = d.collate a) (hx : Matched f g xs ys)
    (hb : Related (Matched f g) p' q') : p.equivalentIn xs p' = q.equivalentIn ys q' := by
  apply SameOutcome.eq
  refine (sameOutcome_ofUnits hx).bind fun _ _ ho => ?_
  refine (sameOutcome_resolve hf hg h hb true).bind fun _ _ hl => ?_
  refine (sameOutcome_resolve hf hg ho hb true).bind fun _ _ hr => ?_
  exact .ok (congrArg Ordering.isEq (Matched.compareUnits_eq hcf hcg
    (related_canonical hf hg hl true) (related_canonical hf hg hr true)))

end

variable {r : List α → List β → Prop} {s : Session (Path α d)} {t : Session (Path β d)}

theorem BothRelated.put {x : Except PathError (Path α d)} {y : Except PathError (Path β d)}
    (h : BothRelated r s t) (hx : SameOutcome (Related r) x y) :
    SameOutcome (BothRelated r) (x.map s.put) (y.map t.put) :=
  hx.map fun _ _ hp => ⟨hp, h.aside⟩

variable [TextUnit α] [TextUnit β]

theorem BothRelated.after {op : Op α} {op' : Op β} (h : BothRelated r s t)
    (hstep : SameOutcome (BothRelated r) (step op s) (step op' t)) :
    BothRelated r (after op s) (after op' t) := by
  unfold Path.after Session.after
  generalize step op s = x at hstep
  generalize step op' t = y at hstep
  cases hstep with
  | ok h' => exact h'
  | error e => exact h

variable [CodeUnit γ]

/-- What a step does to matched sessions. Only the one edit that adds to the buffer that is there
asks for terminated paths. -/
theorem sameOutcome_step (hf : d.KeepsRules f) (hg : d.KeepsRules g)
    (hs : s.current.buffer.WellFormed) (ht : t.current.buffer.WellFormed)
    (h : BothRelated (Matched f g) s t) {op : Op α} {op' : Op β}
    (ho : Op.Alike (Matched f g) op op') :
    SameOutcome (BothRelated (Matched f g)) (step op s) (step op' t) := by
  have hc := h.current
  cases ho with
  | set hx => exact h.put (sameOutcome_ofUnits hx)
  | push hx withSep => exact h.put (sameOutcome_push hf hg hc hx withSep)
  | join hx => exact (sameOutcome_push hf hg hc hx false).map fun _ _ hp => ⟨hc, hp⟩
  | pushExtension hx withSep => exact h.put (sameOutcome_pushExtension hf hg hc hx withSep)
  | pushSep => exact h.put (sameOutcome_pushSep hf hg hc hs ht)
  | pop trim => exact .ok ⟨related_pop hf hg hc trim, h.aside⟩
  | popSep => exact .ok ⟨related_popSep hf hg hc, h.aside⟩
  | popExtension => exact .ok ⟨related_popExtension hf hg hc, h.aside⟩
  | respell => exact .ok ⟨related_respell hf hg hc, h.aside⟩
  | canonical trim => exact .ok ⟨related_canonical hf hg hc trim, h.aside⟩
  | resolve hx trim =>
    refine (sameOutcome_ofUnits hx).bind fun _ _ hb => ?_
    exact (sameOutcome_resolve hf hg hc hb trim).bind fun _ _ hp => .ok ⟨hp, h.aside⟩
  | clear =>
    refine .ok ⟨?_, h.aside⟩
    show Matched f g s.current.clear.units t.current.clear.units
    rw [units_clear, units_clear]
    rfl
  | save => exact .ok ⟨hc, hc⟩
  | swap => exact .ok ⟨h.aside, hc⟩

theorem BothRelated.run (hf : d.KeepsRules f) (hg : d.KeepsRules g) (hs : BothSound s)
    (ht : BothSound t) (h : BothRelated (Matched f g) s t) {ops : List (Op α)}
    {ops' : List (Op β)} (ho : List.Forall₂ (Op.Alike (Matched f g)) ops ops') :
    BothRelated (Matched f g) (run ops s) (run ops' t) := by
  induction ho generalizing s t with
  | nil => exact h
  | @cons op op' _ _ hop _ ih =>
    -- both runs stay sound, so that the next `pushSep` finds terminated buffers
    have hstep := sameOutcome_step hf hg hs.1.wellFormed ht.1.wellFormed h hop
    exact ih (hs.after op) (ht.after op') (h.after hstep)

end Path

end PathForms
