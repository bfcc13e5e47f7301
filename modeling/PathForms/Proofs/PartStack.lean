import PathForms.Canonical

/-!
# Settling parts on a stack

Parts are removed in their place, and a step up cancels the nearest live part, wherever it stands.
The parts that are still there form a stack: steps up that are kept lie below all names, so the
nearest live part is always on top or there is none. What a stack keeps is stable, which means that
settling it again changes nothing.
-/

set_option autoImplicit false

namespace PathForms.Dialect

open CodeUnit

variable {α : Type} [CodeUnit α] {rooted : Bool} {stack : List (List α)}

/-- The rule of a stack, with its top first. A step up removes a name from the top. On any other
top, or on an empty stack, it is dropped below a root and pushed elsewhere. -/
def stackStep (rooted : Bool) (stack : List (List α)) (part : List α) : List (List α) :=
  if isSelf part then stack
  else if isParent part then
    if stack.head?.any (fun top => !isParent top) then stack.tail
    else if rooted then stack
    else part :: stack
  else part :: stack

def stackOf (rooted : Bool) (parts : List (List α)) : List (List α) :=
  (parts.foldl (stackStep rooted) []).reverse

def present (parts : List (List α)) : List (List α) := parts.filter (fun part => !part.isEmpty)

/-- What a stack may hold, with its top first. -/
structure Stable (rooted : Bool) (stack : List (List α)) : Prop where
  noEmpty : ∀ s ∈ stack, s ≠ []
  noSelf : ∀ s ∈ stack, isSelf s = false
  noParent : rooted = true → ∀ s ∈ stack, isParent s = false
  parentsBelow : stack.Pairwise (fun s t => isParent s = true → isParent t = true)

theorem Stable.nil : Stable rooted ([] : List (List α)) :=
  ⟨by simp, by simp, by simp, List.Pairwise.nil⟩

theorem Stable.sublist {rest : List (List α)} (h : Stable rooted stack)
    (hs : rest.Sublist stack) : Stable rooted rest :=
  ⟨fun s hm => h.noEmpty s (hs.mem hm), fun s hm => h.noSelf s (hs.mem hm),
    fun hr s hm => h.noParent hr s (hs.mem hm), h.parentsBelow.sublist hs⟩

theorem Stable.cons_name {part : List α} (h : Stable rooted stack) (he : part ≠ [])
    (hs : isSelf part = false) (hp : isParent part = false) : Stable rooted (part :: stack) := by
  refine ⟨?_, ?_, ?_, ?_⟩
  · simpa [he] using h.noEmpty
  · simpa [hs] using h.noSelf
  · intro hr
    simpa [hp] using h.noParent hr
  · rw [List.pairwise_cons]
    exact ⟨fun t _ ht => by simp [hp] at ht, h.parentsBelow⟩

theorem Stable.cons_parent {part : List α} (h : Stable false stack) (he : part ≠ [])
    (hs : isSelf part = false) (hn : stack.head?.any (fun top => !isParent top) = false) :
    Stable false (part :: stack) := by
  refine ⟨?_, ?_, by simp, ?_⟩
  · simpa [he] using h.noEmpty
  · simpa [hs] using h.noSelf
  · rw [List.pairwise_cons]
    refine ⟨fun t ht _ => ?_, h.parentsBelow⟩
    cases stack with
    | nil => cases ht
    | cons top below =>
      have htop : isParent top = true := by simpa using hn
      rcases List.mem_cons.1 ht with rfl | hb
      · exact htop
      · exact (List.pairwise_cons.1 h.parentsBelow).1 t hb htop

theorem Stable.stackStep {part : List α} (h : Stable rooted stack) (he : part ≠ []) :
    Stable rooted (stackStep rooted stack part) := by
  unfold Dialect.stackStep
  by_cases hs : isSelf part = true
  · rwa [if_pos hs]
  rw [if_neg hs]
  rw [Bool.not_eq_true] at hs
  by_cases hp : isParent part = true
  · rw [if_pos hp]
    by_cases hn : stack.head?.any (fun top => !isParent top) = true
    · rw [if_pos hn]
      exact h.sublist (List.tail_sublist stack)
    · rw [if_neg hn]
      cases rooted with
      | true => exact h
      | false => exact h.cons_parent he hs (by simpa using hn)
  · rw [if_neg hp]
    exact h.cons_name he hs (by simpa using hp)

theorem present_nil_cons {β : Type} (seen : List (List β)) :
    present ([] :: seen) = present seen := rfl

theorem present_cons {β : Type} {part : List β} (he : part ≠ []) (seen : List (List β)) :
    present (part :: seen) = part :: present seen := by
  simp [present, he]

theorem map_present_cancelled {seen : List (List α)} (h : Stable rooted (present seen)) :
    (cancelled? seen).map present =
      if (present seen).head?.any (fun top => !isParent top) then some (present seen).tail
      else none := by
  induction seen with
  | nil => rfl
  | cons part seen ih =>
    by_cases he : part = []
    · subst he
      have hm : (present ∘ fun seen => ([] : List α) :: seen) = present := rfl
      rw [present_nil_cons] at h ⊢
      rw [← ih h, cancelled?, if_neg (by simp [isLive]), Option.map_map, hm]
    rw [present_cons he] at h ⊢
    by_cases hp : isParent part = true
    · -- Only steps up are left behind a step up.
      have hb : (present seen).head?.any (fun top => !isParent top) = false := by
        rw [Option.any_eq_false]
        intro top ht
        simpa using (List.pairwise_cons.1 h.parentsBelow).1 top (List.mem_of_mem_head? ht) hp
      have hs := ih (h.sublist (List.sublist_cons_self _ _))
      rw [hb, if_neg (by simp), Option.map_eq_none_iff] at hs
      simp [cancelled?, isLive, hp, hs]
    · simp [cancelled?, isLive, hp, he, present_nil_cons]

theorem Stable.present_settle {seen : List (List α)} {part : List α}
    (h : Stable rooted (present seen)) (he : part ≠ []) :
    present (settle rooted seen part) = Dialect.stackStep rooted (present seen) part := by
  unfold settle Dialect.stackStep
  by_cases hs : isSelf part = true
  · rw [if_pos hs, if_pos hs, present_nil_cons]
  rw [if_neg hs, if_neg hs]
  by_cases hp : isParent part = true
  · have hc := map_present_cancelled h
    rw [if_pos hp, if_pos hp]
    cases hk : cancelled? seen with
    | some rest =>
      rw [hk, Option.map_some] at hc
      split at hc
      · next hn => rw [if_pos hn, present_nil_cons, Option.some.inj hc]
      · cases hc
    | none =>
      rw [hk, Option.map_none] at hc
      split at hc
      · cases hc
      · next hn =>
        rw [if_neg hn]
        cases rooted with
        | true => exact present_nil_cons seen
        | false => exact present_cons he seen
  · rw [if_neg hp, if_neg hp, present_cons he]

theorem settle_nil (rooted : Bool) (seen : List (List α)) :
    settle rooted seen [] = [] :: seen := rfl

theorem Stable.foldl_settle {seen : List (List α)} (h : Stable rooted (present seen))
    (parts : List (List α)) : Stable rooted (present (parts.foldl (settle rooted) seen)) ∧
      present (parts.foldl (settle rooted) seen) =
        (present parts).foldl (Dialect.stackStep rooted) (present seen) := by
  induction parts generalizing seen with
  | nil => exact ⟨h, rfl⟩
  | cons part parts ih =>
    by_cases he : part = []
    · subst he
      rw [List.foldl_cons, settle_nil, present_nil_cons]
      exact ih h
    · have hs := h.present_settle he
      rw [List.foldl_cons, present_cons he, List.foldl_cons, ← hs]
      exact ih (hs ▸ h.stackStep he)

theorem settled_eq_reverse_present (rooted : Bool) (parts : List (List α)) :
    settled rooted parts = (present (parts.foldl (settle rooted) [])).reverse :=
  List.filter_reverse ..

/-- Settling is the one-pass rule of a stack. -/
theorem settled_eq_stackOf (rooted : Bool) (parts : List (List α)) :
    settled rooted parts = stackOf rooted (present parts) := by
  rw [settled_eq_reverse_present, (Stable.nil.foldl_settle parts).2]
  rfl

theorem settled_eq_stackOf_of_ne {parts : List (List α)} (hp : ∀ s ∈ parts, s ≠ []) :
    settled rooted parts = stackOf rooted parts := by
  have hn : present parts = parts := by
    rw [present, List.filter_eq_self]
    simpa using hp
  rw [settled_eq_stackOf, hn]

theorem stable_settled (rooted : Bool) (parts : List (List α)) :
    Stable rooted (settled rooted parts).reverse := by
  rw [settled_eq_reverse_present, List.reverse_reverse]
  exact (Stable.nil.foldl_settle parts).1

theorem stackStep_sublist (rooted : Bool) (stack : List (List α)) (part : List α) :
    (stackStep rooted stack part).Sublist (part :: stack) := by
  unfold stackStep
  repeat' split
  · exact List.sublist_cons_self part stack
  · exact (List.tail_sublist stack).trans (List.sublist_cons_self part stack)
  · exact List.sublist_cons_self part stack
  · exact List.Sublist.refl _
  · exact List.Sublist.refl _

theorem foldl_stackStep_sublist (rooted : Bool) (parts stack : List (List α)) :
    (parts.foldl (stackStep rooted) stack).reverse.Sublist (stack.reverse ++ parts) := by
  induction parts generalizing stack with
  | nil => simp
  | cons part parts ih =>
    have hs := (stackStep_sublist rooted stack part).reverse.append_right parts
    rw [List.reverse_cons, List.append_assoc, List.singleton_append] at hs
    exact (ih _).trans hs

theorem settled_sublist (rooted : Bool) (parts : List (List α)) :
    (settled rooted parts).Sublist parts := by
  rw [settled_eq_stackOf]
  exact (foldl_stackStep_sublist rooted (present parts) []).trans List.filter_sublist

theorem mem_of_mem_settled {parts : List (List α)} {s : List α}
    (h : s ∈ settled rooted parts) : s ∈ parts :=
  (settled_sublist rooted parts).mem h

theorem Stable.stackStep_head {part : List α} (h : Stable rooted (part :: stack)) :
    Dialect.stackStep rooted stack part = part :: stack := by
  have hs : isSelf part = false := h.noSelf part List.mem_cons_self
  by_cases hp : isParent part = true
  · have hr : rooted = false := by
      rw [← Bool.not_eq_true]
      intro hr
      simp [h.noParent hr part List.mem_cons_self] at hp
    have hn : stack.head?.any (fun top => !isParent top) = false := by
      rw [Option.any_eq_false]
      intro top ht
      simpa using (List.pairwise_cons.1 h.parentsBelow).1 top (List.mem_of_mem_head? ht) hp
    simp [Dialect.stackStep, hs, hp, hr, hn]
  · simp [Dialect.stackStep, hs, hp]

theorem Stable.foldl_stackStep_append {names : List (List α)}
    (h : Stable rooted (names.reverse ++ stack)) :
    names.foldl (Dialect.stackStep rooted) stack = names.reverse ++ stack := by
  induction names generalizing stack with
  | nil => rfl
  | cons s names ih =>
    rw [List.reverse_cons, List.append_assoc, List.singleton_append] at h
    have hs : Stable rooted (s :: stack) := h.sublist (List.sublist_append_right _ _)
    rw [List.foldl_cons, hs.stackStep_head, ih h, List.reverse_cons, List.append_assoc,
      List.singleton_append]

theorem settled_of_stable {names : List (List α)} (h : Stable rooted names.reverse) :
    settled rooted names = names := by
  have hk : Stable rooted (names.reverse ++ []) := by simpa using h
  have hne : ∀ s ∈ names, s ≠ [] := fun s hs => h.noEmpty s (List.mem_reverse.2 hs)
  rw [settled_eq_stackOf_of_ne hne, stackOf, hk.foldl_stackStep_append, List.append_nil,
    List.reverse_reverse]

end PathForms.Dialect
