import Mathlib.Data.Set.Basic

/-!
# One pass over Horn clauses

A clause says that its conclusion holds when its premises do. Visiting a group of clauses adds the
conclusions that follow from the facts known before the visit. When groups are visited one after
the other, the facts at the end are closed under all clauses if no visit adds a premise too late,
that is, after the clause was visited (`OnTime`); and then they are the least such set, whatever
the order of the visits was.
-/

namespace MSV

variable {F : Type*} {cs ds all : Set (List F × F)} {S : Set F}

/-- The facts after a visit. -/
def visit (cs : Set (List F × F)) (S : Set F) : Set F :=
  {f | f ∈ S ∨ ∃ ps, (ps, f) ∈ cs ∧ ∀ p ∈ ps, p ∈ S}

/-- The facts are closed under the clauses. -/
def Closed (cs : Set (List F × F)) (S : Set F) : Prop :=
  ∀ ps f, (ps, f) ∈ cs → (∀ p ∈ ps, p ∈ S) → f ∈ S

/-- The visit of `cs` adds no premise too late: where it completes the premises of a clause visited
before or now, the conclusion is known or added as well. -/
def OnTime (ds cs : Set (List F × F)) (S : Set F) : Prop :=
  ∀ ps f, (ps, f) ∈ ds ∪ cs → (∃ p ∈ ps, p ∉ S) → (∀ p ∈ ps, p ∈ visit cs S) → f ∈ visit cs S

/-- What follows from the clauses. -/
inductive Derives (cs : Set (List F × F)) : F → Prop
  | clause {ps : List F} {f : F} (h : (ps, f) ∈ cs) (hps : ∀ p ∈ ps, Derives cs p) : Derives cs f

theorem mem_visit_list {l : List (List F × F)} {f : F} :
    f ∈ visit {c | c ∈ l} S ↔ f ∈ S ∨ ∃ c ∈ l, c.2 = f ∧ ∀ p ∈ c.1, p ∈ S := by
  refine or_congr_right ?_
  constructor
  · rintro ⟨ps, hc, hps⟩
    exact ⟨(ps, f), hc, rfl, hps⟩
  · rintro ⟨⟨ps, g⟩, hc, rfl, hps⟩
    exact ⟨ps, hc, hps⟩

theorem subset_visit : S ⊆ visit cs S := fun _ h => Or.inl h

/-- A visit that is on time keeps the facts closed. -/
theorem Closed.visit (h : Closed ds S) (ht : OnTime ds cs S) :
    Closed (ds ∪ cs) (MSV.visit cs S) := by
  intro ps f hc hps
  by_cases hS : ∀ p ∈ ps, p ∈ S
  · rcases hc with hd | hc
    · exact subset_visit (h ps f hd hS)
    · exact Or.inr ⟨ps, hc, hS⟩
  · push Not at hS
    exact ht ps f hc hS hps

/-- Closed facts contain what follows. -/
theorem Closed.derives (h : Closed cs S) {f : F} (hf : Derives cs f) : f ∈ S := by
  induction hf with
  | clause hc _ ih => exact h _ _ hc ih

/-- A visit adds only what follows. -/
theorem derives_visit (hcs : cs ⊆ all) (h : ∀ f ∈ S, Derives all f) :
    ∀ f ∈ visit cs S, Derives all f := by
  rintro f (hf | ⟨ps, hc, hps⟩)
  · exact h f hf
  · exact .clause (hcs hc) fun p hp => h p (hps p hp)

end MSV
