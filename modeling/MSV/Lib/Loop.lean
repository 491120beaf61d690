import Mathlib.Data.List.Basic

/-!
# Loops that may stop at an error

A loop whose body checks its element and then updates the state. If the checks do not depend on
what the updates change, the loop succeeds exactly if every element passes, and its result is that
of the updates alone.
-/

namespace MSV.Loop

variable {α β ε : Type*}

/-- The body `f` checks `P` and updates with `g`, where the state satisfies `I`. -/
structure Checks (f : β → α → Except ε β) (P : α → Prop) (g : β → α → β) (I : β → Prop) : Prop where
  ok_iff : ∀ s, I s → ∀ a s', f s a = .ok s' ↔ P a ∧ s' = g s a
  keeps : ∀ s, I s → ∀ a, I (g s a)

variable {f : β → α → Except ε β} {P : α → Prop} {g : β → α → β} {I : β → Prop}

theorem Checks.foldlM_ok_iff (h : Checks f P g I) (l : List α) {s : β} (hs : I s) (s' : β) :
    l.foldlM f s = .ok s' ↔ (∀ a ∈ l, P a) ∧ s' = l.foldl g s := by
  induction l generalizing s with
  | nil =>
    rw [List.foldlM_nil]
    constructor
    · intro heq
      exact ⟨fun _ ha => absurd ha List.not_mem_nil, (Except.ok.inj heq).symm⟩
    · rintro ⟨-, rfl⟩
      rfl
  | cons a l ih =>
    rw [List.foldlM_cons, List.foldl_cons, List.forall_mem_cons, and_assoc]
    constructor
    · intro heq
      cases hf : f s a with
      | error msg =>
        rw [hf] at heq
        cases heq
      | ok t =>
        obtain ⟨ha, rfl⟩ := (h.ok_iff s hs a t).mp hf
        rw [hf] at heq
        exact ⟨ha, (ih (h.keeps s hs a)).mp heq⟩
    · rintro ⟨ha, hrest⟩
      rw [(h.ok_iff s hs a _).mpr ⟨ha, rfl⟩]
      exact (ih (h.keeps s hs a)).mpr hrest

end MSV.Loop
