import MSV.SLH.PredStateProof

/-!
# Fences behind the branches

The alternative to the predicate state is a fence at the start of every block that a branch may
lead to. A fence does not let a run on that is on a wrong path.

**Theorem (`hardenEdgesWithLFENCE_runs`).** No block of the fenced function is run on a wrong path,
and on the right one nothing changes.
-/

namespace MSV.SLH

namespace MachineCFG

variable {V : Type} {F : MachineCFG} (body : Body V) (right : Nat → Flags → Exit → Bool)

/-- Speculative runs, with whether an exit has been taken that was not right. A fence at the start
of a block ends such a run. -/
inductive FenceRuns (F : MachineCFG) : Bool → Config V → List Exit → Bool → Config V → Prop
  | refl (wrong : Bool) (c : Config V) : FenceRuns F wrong c [] wrong c
  | step {wrong wrong₁ wrong₂ : Bool} {c c₁ c₂ : Config V} {e : Exit} {es : List Exit}
      (hstep : F.step body c e = some c₁)
      (hwrong : wrong₁ = (wrong || !right c.block (c.exec F body).flags e))
      (hfence : (F.mbb c₁.block).fenced = true → wrong₁ = false)
      (rest : FenceRuns F wrong₁ c₁ es wrong₂ c₂) : FenceRuns F wrong c (e :: es) wrong₂ c₂

/-- The exits that are predicted: those of a block with several successors whose terminators start
with a branch, other than to an EH pad. -/
def Predicted (F : MachineCFG) (b : Nat) (e : Exit) : Prop :=
  1 < (F.mbb b).succs.length ∧ (∃ t, (F.mbb b).terms.head? = some t ∧ t.isBranch = true) ∧
    ∀ x, e ≠ .unwind x

/-- The loop over the blocks that get a fence. -/
theorem foldl_fenced (l : List Nat) (F : MachineCFG) :
    (l.foldl (fun F s => F.modify s fun m => { m with fenced := true }) F) =
      { F with mbb := fun b =>
        { F.mbb b with fenced := (F.mbb b).fenced || decide (b ∈ l) } } := by
  induction l generalizing F with
  | nil => simp
  | cons s l ih =>
    rw [List.foldl_cons, ih]
    simp only [modify, MachineCFG.mk.injEq, true_and, and_true]
    funext b
    by_cases hb : b = s
    · subst hb; simp
    · simp [hb]

theorem hardenEdgesWithLFENCE_eq (F : MachineCFG) : ∃ fenced : Nat → Bool,
    hardenEdgesWithLFENCE F = { F with mbb := fun b => { F.mbb b with fenced := fenced b } } ∧
      ∀ b ∈ F.layout, fencesSuccessors (F.mbb b) = true → ∀ s ∈ (F.mbb b).succs,
        (F.mbb s).isEHPad = false → fenced s = true := by
  refine ⟨_, foldl_fenced _ F, fun b hb hf s hs hpad => ?_⟩
  have hmem : s ∈ ((F.layout.filter fun b => fencesSuccessors (F.mbb b)).flatMap
      fun b => (F.mbb b).succs.filter fun s => !(F.mbb s).isEHPad).dedup := by
    rw [List.mem_dedup, List.mem_flatMap]
    exact ⟨b, List.mem_filter.mpr ⟨hb, hf⟩, List.mem_filter.mpr ⟨hs, by simp [hpad]⟩⟩
  simp [hmem]

/-- Nothing but the fences changes. -/
theorem step_hardenEdgesWithLFENCE (c : Config V) (e : Exit) :
    (hardenEdgesWithLFENCE F).step body c e = F.step body c e ∧
      c.exec (hardenEdgesWithLFENCE F) body = c.exec F body := by
  obtain ⟨fenced, heq, -⟩ := hardenEdgesWithLFENCE_eq F
  rw [heq]
  refine ⟨?_, rfl⟩
  cases e <;> rfl

/-- A predicted exit leads to a fence. -/
theorem fenced_of_predicted (hF : F.WellFormed) {b t : Nat} {e : Exit} (hb : b ∈ F.layout)
    (ht : F.target b e = some t) (hp : F.Predicted b e) :
    ((hardenEdgesWithLFENCE F).mbb t).fenced = true := by
  obtain ⟨fenced, heq, hfenced⟩ := hardenEdgesWithLFENCE_eq F
  obtain ⟨hsuccs, ⟨x, hx, hbranch⟩, hunwind⟩ := hp
  rw [heq]
  refine hfenced b hb ?_ t (hF.target_succ b hb e t ht) (hF.not_pad b hb e t hunwind ht)
  simp [fencesSuccessors, hsuccs, hx, hbranch]

/-- In the fenced function no block is run on a wrong path, and on the right one it does what the
function did. An exit can only be wrong if it was predicted. -/
theorem hardenEdgesWithLFENCE_runs (hF : F.WellFormed)
    (hright : ∀ b ∈ F.layout, ∀ f e, ¬F.Predicted b e → right b f e = true)
    {c c' : Config V} (hc : c.block ∈ F.layout) (es : List Exit) (wrong : Bool) :
    (hardenEdgesWithLFENCE F).FenceRuns body right false c es wrong c' ↔
      wrong = false ∧ F.Runs body (fun b f e => right b f e = true) c es c' := by
  constructor
  · intro h
    obtain ⟨w, hw⟩ : ∃ w, w = false := ⟨false, rfl⟩
    rw [← hw] at h
    induction h with
    | refl w c => exact ⟨hw, .refl c⟩
    | @step w w₁ w₂ c c₁ c₂ e es hstep hwrong hfence rest ih =>
      obtain ⟨hsame, hexec⟩ := step_hardenEdgesWithLFENCE (F := F) body c e
      rw [hsame] at hstep
      rw [hexec, hw, Bool.false_or] at hwrong
      obtain ⟨t, ht, rfl⟩ := Option.map_eq_some_iff.mp hstep
      have hmem : t ∈ F.layout := hF.succs_mem _ hc t (hF.target_succ _ hc e t ht)
      have hw₁ : w₁ = false := by
        by_cases hp : F.Predicted c.block e
        · exact hfence (fenced_of_predicted hF hc ht hp)
        · rw [hwrong, hright _ hc _ e hp]
          rfl
      obtain ⟨hw₂, hruns⟩ := ih hmem hw₁
      refine ⟨hw₂, .step (hF.plain _ hc).1 ?_ hstep hruns⟩
      rw [hw₁] at hwrong
      simpa using hwrong.symm
  · rintro ⟨rfl, h⟩
    induction h with
    | refl c => exact .refl false c
    | @step c c₁ c₂ e es old hallowed hstep rest ih =>
      obtain ⟨hsame, hexec⟩ := step_hardenEdgesWithLFENCE (F := F) body c e
      have hmem : c₁.block ∈ F.layout := by
        obtain ⟨t, ht, rfl⟩ := Option.map_eq_some_iff.mp hstep
        exact hF.succs_mem _ hc t (hF.target_succ _ hc e t ht)
      refine .step (hsame ▸ hstep) ?_ (fun _ => rfl) (ih hmem)
      rw [hexec, hallowed]
      rfl
    | @silent c c₁ c₂ e es new hstep rest ih =>
      rw [(hF.plain _ hc).1] at new
      exact absurd new Bool.false_ne_true

theorem triangle_right (b : Nat) (_ : b ∈ triangle.layout) (f : Flags) (e : Exit)
    (hp : ¬triangle.Predicted b e) : (b != 0 || follows [.COND_E] f e) = true := by
  by_cases hb : b = 0
  · subst hb
    cases e with
    | unwind x => rfl
    | _ => exact absurd ⟨by decide, ⟨_, rfl, rfl⟩, by simp⟩ hp
  · simp [hb]

/-- The block after the branch is run when it is right not to take the branch. -/
theorem triangle_fenced : (hardenEdgesWithLFENCE triangle).FenceRuns idle
    (fun b f e => b != 0 || follows [.COND_E] f e) false (start 0) [.uncond, .uncond] false
    (start 2) :=
  (hardenEdgesWithLFENCE_runs idle _ triangle_wellFormed triangle_right (by decide) _ false).mpr
    ⟨rfl, .step rfl rfl (triangle_step_right 0 1 (.inl ⟨rfl, rfl⟩))
      (.step rfl rfl (triangle_step_right 1 2 (.inr ⟨rfl, rfl⟩)) (.refl _))⟩

end MachineCFG

end MSV.SLH
