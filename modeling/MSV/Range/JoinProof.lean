import MSV.Range.MergeProof

/-!
# Meets and joins

`operator|` joins two ranges, and the general meet folds it over a list. The fold starts at a fresh
range, which is unknown, and unknown absorbs: so the meet of a list is unknown whatever is in it.

**Theorem (`meet_joins_iff`).** The general meet is the join of the list itself, in any order and
grouping, exactly when an element of the list is unknown.

The merge of the predecessors of a block is right for the same reason: with one predecessor it is
that one's exit state, with more every value they have is unknown.

**Theorem (`merge_contains_symmetric`).** What the predecessors leave contains the value of each of
them, and does not depend on their order.
-/

namespace MSV

/-! ## The join of a list -/

namespace RangeValue

/-- `operator|` folded over the list itself. -/
def joinAll (v : RangeValue) (vs : List RangeValue) : RangeValue := vs.foldl join v

theorem joinAll_cons (v u : RangeValue) (us : List RangeValue) :
    joinAll v (u :: us) = joinAll (v.join u) us := rfl

/-- An unknown element makes the join unknown, and nothing else does. -/
theorem joinAll_eq_unknown_iff {v : RangeValue} {us : List RangeValue} :
    joinAll v us = unknown ↔ unknown ∈ v :: us := by
  induction us generalizing v with
  | nil => simp [joinAll, eq_comm]
  | cons u us ih =>
      have hjoin : v.join u = unknown ↔ v = unknown ∨ u = unknown := by
        cases v <;> cases u <;> simp [join]
      rw [joinAll_cons, ih, List.mem_cons, List.mem_cons, List.mem_cons, eq_comm, hjoin, or_assoc,
        eq_comm (b := v), eq_comm (b := u)]

/-- The join of constant ranges goes from the least lower to the greatest upper end. -/
theorem joinAll_constant {v : RangeValue} {us : List RangeValue}
    (h : ∀ u ∈ v :: us, ∃ l r, u = constant l r) :
    ∃ l r, joinAll v us = constant l r ∧ (∃ r', constant l r' ∈ v :: us) ∧
      (∃ l', constant l' r ∈ v :: us) ∧
      ∀ l' r', constant l' r' ∈ v :: us → l.toInt ≤ l'.toInt ∧ r'.toInt ≤ r.toInt := by
  induction us using List.reverseRecOn with
  | nil =>
      obtain ⟨l, r, rfl⟩ := h v (by simp)
      refine ⟨l, r, rfl, ⟨r, by simp⟩, ⟨l, by simp⟩, fun l' r' hmem => ?_⟩
      obtain ⟨rfl, rfl⟩ := by simpa using hmem
      exact ⟨le_refl _, le_refl _⟩
  | append_singleton us u ih =>
      obtain ⟨l, r, hjoin, ⟨r₀, hl⟩, ⟨l₀, hr⟩, hends⟩ :=
        ih fun w hw => h w (by simp only [List.mem_cons, List.mem_append] at hw ⊢; tauto)
      obtain ⟨l₁, r₁, rfl⟩ := h u (by simp)
      have hstep : joinAll v (us ++ [constant l₁ r₁]) =
          constant (if l.slt l₁ then l else l₁) (if r.sgt r₁ then r else r₁) := by
        rw [joinAll, List.foldl_append]
        show join (joinAll v us) _ = _
        rw [hjoin]
        rfl
      have hmem : ∀ w, w ∈ v :: (us ++ [constant l₁ r₁]) ↔ w ∈ v :: us ∨ w = constant l₁ r₁ := by
        intro w
        simp [or_assoc]
      refine ⟨_, _, hstep, ?_, ?_, fun l' r' hw => ?_⟩
      · by_cases hlt : l.slt l₁ = true
        · exact ⟨r₀, by rw [if_pos hlt, hmem]; exact Or.inl hl⟩
        · exact ⟨r₁, by rw [if_neg hlt, hmem]; exact Or.inr rfl⟩
      · by_cases hgt : r.sgt r₁ = true
        · exact ⟨l₀, by rw [if_pos hgt, hmem]; exact Or.inl hr⟩
        · exact ⟨l₁, by rw [if_neg hgt, hmem]; exact Or.inr rfl⟩
      · have hbound : (l.toInt ≤ l'.toInt ∧ r'.toInt ≤ r.toInt) ∨
            (l₁.toInt ≤ l'.toInt ∧ r'.toInt ≤ r₁.toInt) := by
          rcases (hmem _).mp hw with hw | hw
          · exact Or.inl (hends l' r' hw)
          · obtain ⟨rfl, rfl⟩ := constant.inj hw
            exact Or.inr ⟨le_refl _, le_refl _⟩
        simp only [APInt.slt, APInt.sgt, decide_eq_true_eq]
        split_ifs <;> omega

end RangeValue

/-! ## The general meet -/

/-- The general meet of a list is its join, whatever the order and the grouping of the list. -/
structure MeetsAsJoin (v : RangeValue) (vs : List RangeValue) : Prop where
  order : ∀ us : List RangeValue, us.Perm (v :: vs) →
    (rangeMeet us).beq (v.joinAll vs) = true
  grouping : ∀ us us' : List RangeValue, us ≠ [] → us' ≠ [] → us ++ us' = v :: vs →
    (rangeMeet [rangeMeet us, rangeMeet us']).beq (v.joinAll vs) = true

/-- **When the general meet is a join.** Some element is unknown; and the range the fold starts
from is neutral for unknown only. -/
theorem meet_joins_iff (v : RangeValue) (vs : List RangeValue) :
    (MeetsAsJoin v vs ↔ RangeValue.unknown ∈ v :: vs) ∧
      ((RangeValue.join default v).beq v = true ↔ v = .unknown) := by
  have hmeet : ∀ us : List RangeValue,
      (rangeMeet us).beq (v.joinAll vs) = true ↔ RangeValue.unknown ∈ v :: vs := by
    intro us
    rw [rangeMeet_eq, RangeValue.beq, decide_eq_true_eq, eq_comm,
      RangeValue.joinAll_eq_unknown_iff]
  constructor
  · constructor
    · intro h
      exact (hmeet _).mp (h.order _ (List.Perm.refl _))
    · intro h
      exact ⟨fun us _ => (hmeet us).mpr h, fun _ _ _ _ _ => (hmeet _).mpr h⟩
  · show (RangeValue.join .unknown v).beq v = true ↔ _
    rw [RangeValue.unknown_join, RangeValue.beq, decide_eq_true_eq, eq_comm]

/-- The meet of the range `[5, 5]` alone is not `[5, 5]`. -/
theorem meet_of_one_constant :
    ¬ MeetsAsJoin (.constant (.ofNat 32 5) (.ofNat 32 5)) [] := by
  intro h
  exact absurd (h.order [.constant (.ofNat 32 5) (.ofNat 32 5)] (List.Perm.refl _)) (by decide)

/-! ## The merge of the predecessors -/

section Predecessors

variable {M : Module} {DL : DataLayout} {exits exits' : List RangeState}

/-- A constant is left by a single predecessor. -/
theorem mergePredecessors_constant {k : Value} {l r : APInt}
    (h : (mergePredecessors (rangePolicy M DL) exits).find k = some (.constant l r)) :
    ∃ s, exits = [s] ∧ s.find k = some (.constant l r) := by
  match exits with
  | [] => cases h
  | [s] => exact ⟨s, rfl, by rwa [find_mergePredecessors_single] at h⟩
  | s :: s' :: ss => cases find_mergePredecessors_several s s' ss h

/-- The order of the predecessors does not matter. -/
theorem find_mergePredecessors_perm (h : exits'.Perm exits) (k : Value) :
    (mergePredecessors (rangePolicy M DL) exits').find k =
      (mergePredecessors (rangePolicy M DL) exits).find k := by
  match exits with
  | [] => rw [List.perm_nil.mp h]
  | [s] => rw [List.perm_singleton.mp h]
  | s :: s' :: ss =>
      have hkeys : (mergePredecessors (rangePolicy M DL) exits').has k ↔
          (mergePredecessors (rangePolicy M DL) (s :: s' :: ss)).has k := by
        rw [has_mergePredecessors_iff, has_mergePredecessors_iff]
        simp only [h.mem_iff]
      -- there are as many predecessors in the other order, so all is unknown there too
      obtain ⟨t, t', ts, rfl⟩ : ∃ t t' ts, exits' = t :: t' :: ts := by
        match exits', h.length_eq with
        | t :: t' :: ts, _ => exact ⟨t, t', ts, rfl⟩
      by_cases hk : (mergePredecessors (rangePolicy M DL) (s :: s' :: ss)).has k
      · obtain ⟨x, hx⟩ := FMap.has_iff_find.mp hk
        obtain ⟨y, hy⟩ := FMap.has_iff_find.mp (hkeys.mpr hk)
        rw [hx, hy, find_mergePredecessors_several _ _ _ hx,
          find_mergePredecessors_several _ _ _ hy]
      · rw [FMap.not_has_iff_find.mp hk, FMap.not_has_iff_find.mp (mt hkeys.mp hk)]

end Predecessors

/-- **The merge of the predecessors.** It contains the value of a key in each of their exit states,
a missing one standing for any; no constant is left for a key that one of them lacks; and the keys
and values are the same in every order. -/
theorem merge_contains_symmetric (M : Module) (DL : DataLayout) (exits : List RangeState) :
    (∀ s ∈ exits, ∀ k x, (s.get k).Contains x →
      ((mergePredecessors (rangePolicy M DL) exits).get k).Contains x) ∧
    (∀ s ∈ exits, ∀ k, ¬ s.has k →
      ((mergePredecessors (rangePolicy M DL) exits).get k).isConstant = false) ∧
    ∀ exits' : List RangeState, exits'.Perm exits → ∀ k,
      ((mergePredecessors (rangePolicy M DL) exits').has k ↔
        (mergePredecessors (rangePolicy M DL) exits).has k) ∧
      ((mergePredecessors (rangePolicy M DL) exits').get k).beq
        ((mergePredecessors (rangePolicy M DL) exits).get k) = true := by
  refine ⟨fun s hs k x hx => ?_, fun s hs k hk => ?_, fun exits' h k => ⟨?_, ?_⟩⟩
  · cases hget : (mergePredecessors (rangePolicy M DL) exits).get k with
    | unknown => trivial
    | infinity => trivial
    | constant l r =>
        obtain ⟨s', rfl, hfind⟩ := mergePredecessors_constant (find_of_get_constant hget)
        obtain rfl := List.mem_singleton.mp hs
        rwa [FMap.get, hfind] at hx
  · cases hget : (mergePredecessors (rangePolicy M DL) exits).get k with
    | unknown => rfl
    | infinity => rfl
    | constant l r =>
        obtain ⟨s', rfl, hfind⟩ := mergePredecessors_constant (find_of_get_constant hget)
        obtain rfl := List.mem_singleton.mp hs
        exact absurd (FMap.has_of_find hfind) hk
  · rw [FMap.has_iff_find, FMap.has_iff_find, find_mergePredecessors_perm h]
  · rw [FMap.get, FMap.get, find_mergePredecessors_perm h]
    exact decide_eq_true rfl

end MSV
