import Mathlib.Data.Set.Card
import Mathlib.Data.Set.Finite.List

/-!
# Post-dominance

A graph is left at its exits. A node post-dominates another when every path from the other to an
exit leads through it.

If an exit can be reached from every node, post-dominance is an order (`PostDominates.antisymm`), a
node has finitely many post-dominators, and of any nodes that post-dominate one node there is a
nearest, which the others post-dominate (`exists_nearest`). So there are immediate post-dominators
(`exists_immediate`) and nearest common ones (`exists_nearestCommon`), and the relation is a tree.
-/

namespace MSV

section

variable {V : Type*} (next : V → V → Prop) (Exit : V → Prop)

/-- The nodes on a way from `a` to an exit. -/
inductive ExitPath : V → List V → Prop
  | stop {a : V} (h : Exit a) : ExitPath a [a]
  | step {a b : V} {l : List V} (h : next a b) (hl : ExitPath b l) : ExitPath a (a :: l)

def PostDominates (a b : V) : Prop := ∀ l, ExitPath next Exit b l → a ∈ l

variable {next Exit} {a b c : V} {l : List V}

/-! ## Paths -/

theorem ExitPath.head_mem (h : ExitPath next Exit a l) : a ∈ l := by
  cases h with
  | stop _ => exact List.mem_cons_self
  | step _ _ => exact List.mem_cons_self

/-- What follows a node on a path is a path from it. -/
theorem ExitPath.suffix (h : ExitPath next Exit a l) (hb : b ∈ l) :
    ∃ l', ExitPath next Exit b l' ∧ ∀ x ∈ l', x ∈ l := by
  induction h with
  | stop ha =>
      obtain rfl := List.mem_singleton.mp hb
      exact ⟨[b], .stop ha, fun _ hx => hx⟩
  | @step a c l hstep hl ih =>
      obtain rfl | hb := List.mem_cons.mp hb
      · exact ⟨b :: l, .step hstep hl, fun _ hx => hx⟩
      · obtain ⟨l', hl', hsub⟩ := ih hb
        exact ⟨l', hl', fun x hx => List.mem_cons_of_mem a (hsub x hx)⟩

/-- The first node of a kind on a path: from there the path may go on in another way. -/
theorem ExitPath.first {P : V → Prop} (h : ExitPath next Exit a l) (hP : ∃ x ∈ l, P x) :
    ∃ d, P d ∧ ∀ l', ExitPath next Exit d l' →
      ∃ l'', ExitPath next Exit a l'' ∧ ∀ x ∈ l'', P x → x ∈ l' := by
  induction h with
  | @stop a ha =>
      obtain ⟨x, hx, hPx⟩ := hP
      obtain rfl := List.mem_singleton.mp hx
      exact ⟨x, hPx, fun l' hl' => ⟨l', hl', fun _ hx _ => hx⟩⟩
  | @step a c l hstep hl ih =>
      by_cases hPa : P a
      · exact ⟨a, hPa, fun l' hl' => ⟨l', hl', fun _ hx _ => hx⟩⟩
      · have hrest : ∃ x ∈ l, P x := by
          obtain ⟨x, hx, hPx⟩ := hP
          obtain rfl | hx := List.mem_cons.mp hx
          · exact absurd hPx hPa
          · exact ⟨x, hx, hPx⟩
        obtain ⟨d, hd, hother⟩ := ih hrest
        refine ⟨d, hd, fun l' hl' => ?_⟩
        obtain ⟨l'', hl'', honly⟩ := hother l' hl'
        refine ⟨a :: l'', .step hstep hl'', fun x hx hPx => ?_⟩
        obtain rfl | hx := List.mem_cons.mp hx
        · exact absurd hPx hPa
        · exact honly x hx hPx

/-- The last node of a kind on a path. -/
theorem ExitPath.last {P : V → Prop} (h : ExitPath next Exit a l) (hP : ∃ x ∈ l, P x) :
    ∃ d l', P d ∧ ExitPath next Exit d (d :: l') ∧ ∀ x ∈ l', ¬ P x := by
  induction h with
  | @stop a ha =>
      obtain ⟨x, hx, hPx⟩ := hP
      obtain rfl := List.mem_singleton.mp hx
      exact ⟨x, [], hPx, .stop ha, fun y hy => nomatch hy⟩
  | @step a c l hstep hl ih =>
      by_cases hrest : ∃ x ∈ l, P x
      · exact ih hrest
      · push Not at hrest
        obtain ⟨x, hx, hPx⟩ := hP
        obtain rfl | hx := List.mem_cons.mp hx
        · exact ⟨x, l, hPx, .step hstep hl, hrest⟩
        · exact absurd hPx (hrest x hx)

/-! ## The order -/

theorem PostDominates.refl (a : V) : PostDominates next Exit a a := fun _ hl => hl.head_mem

theorem PostDominates.trans (hab : PostDominates next Exit a b)
    (hbc : PostDominates next Exit b c) : PostDominates next Exit a c := by
  intro l hl
  obtain ⟨l', hl', hsub⟩ := hl.suffix (hbc l hl)
  exact hsub a (hab l' hl')

section

variable (hleave : ∀ a, ∃ l, ExitPath next Exit a l)

include hleave

theorem PostDominates.antisymm (hab : PostDominates next Exit a b)
    (hba : PostDominates next Exit b a) : a = b := by
  by_contra hne
  obtain ⟨l, hl⟩ := hleave a
  -- behind the last of the two on a path there is not the other
  obtain ⟨d, l', hd, hpath, hnot⟩ :=
    hl.last (P := fun x => x = a ∨ x = b) ⟨a, hl.head_mem, .inl rfl⟩
  obtain rfl | rfl := hd
  · obtain heq | hmem := List.mem_cons.mp (hba _ hpath)
    · exact hne heq.symm
    · exact hnot b hmem (.inr rfl)
  · obtain heq | hmem := List.mem_cons.mp (hab _ hpath)
    · exact hne heq
    · exact hnot a hmem (.inl rfl)

theorem finite_postDominators (b : V) : {a | PostDominates next Exit a b}.Finite := by
  obtain ⟨l, hl⟩ := hleave b
  exact (List.finite_toSet l).subset fun a ha => ha l hl

/-- **Of the nodes of a kind that all post-dominate one node, there is a nearest.** -/
theorem exists_nearest {P : V → Prop} (hP : ∀ e, P e → PostDominates next Exit e b) {e : V}
    (he : P e) : ∃ d, P d ∧ ∀ e, P e → PostDominates next Exit e d := by
  obtain ⟨l, hl⟩ := hleave b
  obtain ⟨d, hd, hother⟩ := hl.first ⟨e, hP e he l hl, he⟩
  refine ⟨d, hd, fun e he l' hl' => ?_⟩
  obtain ⟨l'', hl'', honly⟩ := hother l' hl'
  exact honly e (hP e he l'' hl'') he

/-- Such nodes are the post-dominators of one node, or there are none. -/
theorem exists_iff_postDominates {P : V → Prop} (hP : ∀ e, P e → PostDominates next Exit e b)
    (hup : ∀ e e', P e → PostDominates next Exit e' e → P e') :
    ∃ o : Option V, ∀ c, P c ↔ ∃ d, o = some d ∧ PostDominates next Exit c d := by
  by_cases hnone : ∀ e, ¬ P e
  · refine ⟨none, fun c => iff_of_false (hnone c) ?_⟩
    rintro ⟨d, h, -⟩
    exact nomatch h
  · push Not at hnone
    obtain ⟨e, he⟩ := hnone
    obtain ⟨d, hd, hnear⟩ := exists_nearest hleave hP he
    refine ⟨some d, fun c => ⟨fun hc => ⟨d, rfl, hnear c hc⟩, ?_⟩⟩
    rintro ⟨d', hsome, hcd⟩
    obtain rfl := Option.some.inj hsome
    exact hup d c hd hcd

/-- The immediate post-dominator. -/
theorem exists_immediate (b : V) : ∃ o : Option V, ∀ a,
    PostDominates next Exit a b ∧ a ≠ b ↔ ∃ d, o = some d ∧ PostDominates next Exit a d := by
  refine exists_iff_postDominates (b := b) hleave (fun e he => he.1) fun e e' he hee' => ?_
  refine ⟨hee'.trans he.1, ?_⟩
  rintro rfl
  exact he.2 (he.1.antisymm hleave hee')

/-- The nearest common post-dominator. -/
theorem exists_nearestCommon (a b : V) : ∃ o : Option V, ∀ c,
    PostDominates next Exit c a ∧ PostDominates next Exit c b ↔
      ∃ d, o = some d ∧ PostDominates next Exit c d := by
  refine exists_iff_postDominates (b := a) hleave (fun e he => he.1) fun e e' he hee' => ?_
  exact ⟨hee'.trans he.1, hee'.trans he.2⟩

/-- A strict post-dominator has fewer post-dominators. -/
theorem ncard_postDominators_lt (hab : PostDominates next Exit a b) (hne : a ≠ b) :
    {c | PostDominates next Exit c a}.ncard < {c | PostDominates next Exit c b}.ncard := by
  refine Set.ncard_lt_ncard ⟨fun c hc => hc.trans hab, fun hsub => ?_⟩
    (finite_postDominators hleave b)
  exact hne (hab.antisymm hleave (hsub (PostDominates.refl b)))

end

end

end MSV
