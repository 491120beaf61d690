import Mathlib.Logic.Relation

/-!
# Runs of a machine

A machine is a partial step function; it stops where the step is undefined. A run may be required
to meet a condition at every state it steps from, which is how a result about "the runs that never
take a certain branch" is stated.
-/

namespace MSV

variable {S : Type*}

/-- `Run step ok s t`: the machine goes from `s` to `t`, and `ok` holds of every state it steps
from. -/
inductive Run (step : S → Option S) (ok : S → Prop) : S → S → Prop
  | refl (s : S) : Run step ok s s
  | tail {s t u : S} : Run step ok s t → ok t → step t = some u → Run step ok s u

namespace Run

variable {step : S → Option S} {ok : S → Prop} {s t u : S}

/-- What holds at the start and is kept by every step that meets the condition holds throughout. -/
theorem invariant (h : Run step ok s t) {P : S → Prop} (h0 : P s)
    (hstep : ∀ a b, P a → ok a → step a = some b → P b) : P t := by
  induction h with
  | refl => exact h0
  | tail _ hok hs ih => exact hstep _ _ ih hok hs

theorem trans (h : Run step ok s t) (h' : Run step ok t u) : Run step ok s u := by
  induction h' with
  | refl => exact h
  | tail _ hok hs ih => exact ih.tail hok hs

/-- A weaker condition admits the same run. -/
theorem mono {ok' : S → Prop} (h : Run step ok s t) (hok : ∀ a, ok a → ok' a) :
    Run step ok' s t := by
  induction h with
  | refl => exact .refl _
  | tail _ h1 h2 ih => exact ih.tail (hok _ h1) h2

end Run

/-- The state after `n` steps, or the one the machine stopped at. -/
def stepN (step : S → Option S) : Nat → S → S
  | 0, s => s
  | n + 1, s =>
      match step s with
      | some t => stepN step n t
      | none => s

theorem Run.head {step : S → Option S} {ok : S → Prop} {s t u : S} (hok : ok s)
    (h : step s = some t) (h' : Run step ok t u) : Run step ok s u :=
  (Run.tail (.refl s) hok h).trans h'

/-- A run is empty or starts with a step. -/
theorem Run.eq_or_head {step : S → Option S} {ok : S → Prop} {s u : S} (h : Run step ok s u) :
    s = u ∨ ∃ t, ok s ∧ step s = some t ∧ Run step ok t u := by
  induction h with
  | refl => exact .inl rfl
  | tail _ hok hs ih =>
      refine .inr ?_
      rcases ih with rfl | ⟨t, hok', hs', hrun⟩
      · exact ⟨_, hok, hs, .refl _⟩
      · exact ⟨t, hok', hs', hrun.tail hok hs⟩

theorem run_stepN_of {step : S → Option S} {ok : S → Prop} : ∀ (n : Nat) (s : S),
    (∀ m < n, ok (stepN step m s)) → Run step ok s (stepN step n s)
  | 0, s, _ => .refl s
  | n + 1, s, hok => by
    unfold stepN
    cases h : step s with
    | none => exact .refl s
    | some t =>
        refine .head (hok 0 n.succ_pos) h (run_stepN_of n t fun m hm => ?_)
        have := hok (m + 1) (Nat.succ_lt_succ hm)
        rwa [stepN, h] at this

theorem run_stepN (step : S → Option S) (n : Nat) (s : S) :
    Run step (fun _ => True) s (stepN step n s) :=
  run_stepN_of n s fun _ _ => trivial

theorem stepN_succ_of_step {step : S → Option S} : ∀ (n : Nat) {s t : S},
    step (stepN step n s) = some t → stepN step (n + 1) s = t
  | 0, s, t, h => by
    have h : step s = some t := h
    unfold stepN
    rw [h]
    rfl
  | n + 1, s, t, h => by
    unfold stepN at h ⊢
    cases hs : step s with
    | none =>
        rw [hs] at h
        cases hs.symm.trans h
    | some u =>
        rw [hs] at h
        exact stepN_succ_of_step n h

/-- A machine that makes something smaller with every step has stopped after that many steps. -/
theorem step_stepN_eq_none {step : S → Option S} {P : S → Prop} {size : S → Nat}
    (h : ∀ a b, P a → step a = some b → P b ∧ size b < size a) : ∀ (n : Nat) (s : S),
    P s → size s ≤ n → step (stepN step n s) = none
  | 0, s, hs, hn => by
    unfold stepN
    cases ht : step s with
    | none => rfl
    | some t =>
        have := (h s t hs ht).2
        omega
  | n + 1, s, hs, hn => by
    unfold stepN
    cases ht : step s with
    | none => exact ht
    | some t =>
        obtain ⟨hP, hlt⟩ := h s t hs ht
        exact step_stepN_eq_none h n t hP (by omega)

/-- The machine stops. -/
def Halts (step : S → Option S) (s : S) : Prop := ∃ n, step (stepN step n s) = none

theorem Halts.of_none {step : S → Option S} {s : S} (h : step s = none) : Halts step s := ⟨0, h⟩

theorem Halts.of_step {step : S → Option S} {s t : S} (h : step s = some t) (ht : Halts step t) :
    Halts step s := by
  obtain ⟨n, hn⟩ := ht
  refine ⟨n + 1, ?_⟩
  unfold stepN
  rw [h]
  exact hn

/-- It does not stop where it always comes back to states from which it can step. -/
theorem not_halts_of_kept {step : S → Option S} {P : S → Prop} {s : S} (h0 : P s)
    (h : ∀ a, P a → ∃ b, step a = some b ∧ P b) : ¬ Halts step s := by
  intro ⟨n, hn⟩
  have hP : P (stepN step n s) := (run_stepN step n s).invariant h0 fun a b ha _ hab => by
    obtain ⟨c, hc, hPc⟩ := h a ha
    rw [hab] at hc
    exact Option.some.inj hc ▸ hPc
  obtain ⟨b, hb, -⟩ := h _ hP
  rw [hn] at hb
  cases hb

/-- It stops if every step makes something smaller in a well-founded order. -/
theorem Halts.of_wellFounded {α : Type*} {r : α → α → Prop} (hr : WellFounded r)
    {step : S → Option S} {P : S → Prop} {μ : S → α}
    (h : ∀ a b, P a → step a = some b → P b ∧ r (μ b) (μ a)) {s : S} (hs : P s) :
    Halts step s := by
  induction hx : μ s using hr.induction generalizing s with
  | _ x ih =>
      cases ht : step s with
      | none => exact .of_none ht
      | some t =>
          obtain ⟨hPt, hless⟩ := h s t hs ht
          exact .of_step ht (ih (μ t) (hx ▸ hless) hPt rfl)

/-- In a lexicographic order: the first part gets no larger, and the rest smaller. -/
theorem lex_of_le {β : Type*} {r : β → β → Prop} {a a' : Nat} {b b' : β} (h : a' ≤ a)
    (hb : r b' b) : Prod.Lex (· < ·) r (a', b') (a, b) := by
  obtain hlt | rfl := Nat.lt_or_eq_of_le h
  · exact .left _ _ hlt
  · exact .right _ hb

end MSV
