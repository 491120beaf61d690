import MSV.Dataflow.Coverage
import MSV.Range.TransferProof
import MSV.Range.Verdict

/-!
# Merging ranges

Every meet of the engine is unknown, since it folds from a fresh range. So a constant survives at
the entry of a block only when the block has one predecessor and is entered for the first time with
that value, or when the block's guard puts it there.
-/

namespace MSV

section Merge

variable {M : Module} {DL : DataLayout}

theorem rangePolicy_meet (vs : List RangeValue) : (rangePolicy M DL).meet vs = .unknown :=
  rangeMeet_eq vs

/-- What a merge leaves under a key: unknown when both sides have it. -/
theorem find_mergeInState (d t : RangeState) (k : Value) :
    (mergeInState (rangePolicy M DL) d t false).find k =
      match t.find k with
      | some y => some (match d.find k with
          | some _ => .unknown
          | none => y)
      | none => d.find k := by
  show (FMap.foldInto _ d t).find k = _
  rw [FMap.find_foldInto]
  cases t.find k with
  | none => rfl
  | some y =>
      cases d.find k with
      | none => rfl
      | some x => exact congrArg some (rangePolicy_meet [x, y])

theorem find_mergeInState_empty (t : RangeState) (k : Value) :
    (mergeInState (rangePolicy M DL) ∅ t false).find k = t.find k := by
  rw [find_mergeInState, FMap.find_empty]
  cases t.find k <;> rfl

/-- After a balanced merge everything is unknown. -/
theorem find_mergeInState_balanced (d t : RangeState) {k : Value} {x : RangeValue}
    (h : (mergeInState (rangePolicy M DL) d t true).find k = some x) : x = .unknown := by
  unfold mergeInState at h
  simp only [if_true] at h
  rw [FMap.find_foldInto] at h
  cases ht : t.find k with
  | some y =>
      rw [ht] at h
      dsimp only at h
      split at h
      · rw [rangePolicy_meet] at h
        exact (Option.some.inj h).symm
      · exact (Option.some.inj h).symm
  | none =>
      rw [ht] at h
      dsimp only at h
      rw [FMap.find_foldInto] at h
      cases hd : d.find k with
      | none => rw [hd] at h; cases h
      | some y =>
          rw [hd] at h
          have hnot : ¬ t.has k := FMap.not_has_iff_find.mpr ht
          simp only [hnot, if_false] at h
          exact (Option.some.inj h).symm

/-- A merge has the keys of both sides. -/
theorem has_mergeInState_iff {d t : RangeState} {balanced : Bool} {k : Value} :
    (mergeInState (rangePolicy M DL) d t balanced).has k ↔ d.has k ∨ t.has k := by
  cases balanced with
  | false => exact FMap.has_foldInto ..
  | true =>
      refine (FMap.has_foldInto ..).trans ?_
      rw [if_pos rfl, FMap.has_foldInto, or_self]

/-- The keys of the predecessors, in any order. -/
theorem has_mergePredecessors_iff {exits : List RangeState} {k : Value} :
    (mergePredecessors (rangePolicy M DL) exits).has k ↔ ∃ s ∈ exits, s.has k := by
  have hfold : ∀ (es : List RangeState) (d : RangeState),
      (es.foldl (fun s e => mergeInState (rangePolicy M DL) s e true) d).has k ↔
        d.has k ∨ ∃ e ∈ es, e.has k :=
    FMap.has_foldl fun _ _ => has_mergeInState_iff
  cases exits with
  | nil => simp [mergePredecessors]
  | cons e es =>
      refine (hfold es _).trans ?_
      rw [has_mergeInState_iff, List.exists_mem_cons_iff]
      simp

theorem find_mergePredecessors_single (s : RangeState) (k : Value) :
    (mergePredecessors (rangePolicy M DL) [s]).find k = s.find k :=
  find_mergeInState_empty s k

/-- Several predecessors leave nothing but unknown values. -/
theorem find_mergePredecessors_several (s s' : RangeState) (ss : List RangeState) {k : Value}
    {x : RangeValue}
    (h : (mergePredecessors (rangePolicy M DL) (s :: s' :: ss)).find k = some x) :
    x = .unknown := by
  refine List.foldlRecOn (motive := fun d : RangeState => ∀ x, d.find k = some x → x = .unknown)
    ss _ ?_ ?_ x h
  · intro y hy
    exact find_mergeInState_balanced _ s' hy
  · intro d _ t _ y hy
    exact find_mergeInState_balanced d t hy

/-- Equal states have the same ranges. -/
theorem find_eq_of_stateEq {s t : RangeState} (h : stateEq (rangePolicy M DL) s t = true)
    (k : Value) : s.find k = t.find k := by
  simp only [stateEq, Bool.and_eq_true, beq_iff_eq, List.all_eq_true] at h
  obtain ⟨hsize, hall⟩ := h
  have hsome : ∀ k x, s.find k = some x → t.find k = some x := by
    intro k x hk
    have hmem : (⟨k, x⟩ : Sigma fun _ => RangeValue) ∈ s.entries := AList.mem_lookup_iff.mp hk
    have := hall _ hmem
    dsimp only at this
    cases ht : t.find k with
    | none => rw [ht] at this; cases this
    | some y =>
        rw [ht] at this
        have hyx : y = x := by simpa [rangePolicy, RangeValue.beq] using this
        rw [hyx]
  -- the keys of the second state are those of the first, as there are as many
  have hsub : s.keys ⊆ t.keys := by
    intro k hk
    obtain ⟨x, hx⟩ := FMap.has_iff_find.mp (show FMap.has s k from hk)
    exact FMap.has_of_find (hsome k x hx)
  have hlen : t.keys.length ≤ s.keys.length := by
    unfold FMap.size at hsize
    simp [AList.keys, List.keys, hsize]
  have hperm : s.keys.Perm t.keys :=
    (List.Nodup.subperm s.keys_nodup hsub).perm_of_length_le hlen
  cases hk : s.find k with
  | some x => exact (hsome k x hk).symm
  | none =>
      symm
      rw [← FMap.not_has_iff_find] at hk ⊢
      intro ht
      exact hk (hperm.mem_iff.mpr (show k ∈ t.keys from ht))

end Merge

/-! ## The entry state of a block -/

/-- The first range is included in the second, or the second is the guard's range, intersected with
the first if there is one. -/
def EdgeOK (exit guard : RangeState) (k : Value) (R : RangeValue) : Prop :=
  (∃ l r, exit.find k = some (.constant l r) ∧ RangeValue.Included (.constant l r) R) ∨
    ∃ c, guard.find k = some c ∧ R = match exit.find k with
      | some x => x.inter c
      | none => c

/-- The edge to a block with this entry state is not stale. -/
def Fresh (exit guard entry : RangeState) : Prop :=
  ∀ k l r, entry.find k = some (.constant l r) → EdgeOK exit guard k (.constant l r)

/-- The guard loses nothing: where the predecessor ends with a constant range, that range is inside
the guard's, or covers it, or is met for the first time. -/
def GuardOK (exit guard old summary : RangeState) : Prop :=
  ∀ k c l r, guard.find k = some c → exit.find k = some (.constant l r) →
    RangeValue.Included (.constant l r) c ∨ RangeValue.inter (.constant l r) c = c ∨
      ¬ old.has k ∧ ¬ summary.has k

section Entry

variable {M : Module} {DL : DataLayout} {usePC : Bool} {f : Function} {bb : BlockId}

/-- What the guard of a block says, when it is used. -/
def guardOf (M : Module) (DL : DataLayout) (usePC : Bool) (f : Function) (bb : BlockId) :
    RangeState :=
  if usePC then constrainValuesByCondition M (rangePolicy M DL) f bb else ∅

/-- The entry state before the guard is applied. -/
def mergedState (M : Module) (DL : DataLayout) (old summary : RangeState)
    (exits : List RangeState) : RangeState :=
  mergeInState (rangePolicy M DL)
    (mergeStateFromPredecessors (rangePolicy M DL) old exits) summary false

theorem find_entryState (r : DataflowResult RangeValue) (k : Value) :
    (entryState M (rangePolicy M DL) usePC f bb r).find k =
      match (guardOf M DL usePC f bb).find k with
      | some c => some (match (mergedState M DL (r.get (.block bb)) (r.get (.func f.id))
            ((f.predecessors bb).map (Engine.exitState r))).find k with
          | some o => o.inter c
          | none => c)
      | none => (mergedState M DL (r.get (.block bb)) (r.get (.func f.id))
          ((f.predecessors bb).map (Engine.exitState r))).find k := by
  unfold guardOf
  cases usePC with
  | false => rfl
  | true =>
      unfold entryState
      simp only [if_true]
      rw [FMap.find_foldInto]
      cases (constrainValuesByCondition M (rangePolicy M DL) f bb).find k with
      | none => rfl
      | some c =>
          dsimp only
          split
          · rename_i o ho
            split
            · rename_i o' ho'
              obtain rfl := Option.some.inj (ho.symm.trans ho')
              rfl
            · rename_i ho'
              cases ho.symm.trans ho'
          · rename_i ho
            split
            · rename_i o' ho'
              cases ho.symm.trans ho'
            · rfl

variable {old summary : RangeState}

/-- A constant survives the merges on one side only. -/
theorem mergedState_const (hsum : ∀ k x, summary.find k = some x → x = .unknown)
    {exits : List RangeState} {k : Value} {x : RangeValue}
    (h : (mergedState M DL old summary exits).find k = some x) (hx : x ≠ .unknown) :
    (old.find k = some x ∧ (mergePredecessors (rangePolicy M DL) exits).find k = none) ∨
      (old.find k = none ∧ (mergePredecessors (rangePolicy M DL) exits).find k = some x) := by
  unfold mergedState mergeStateFromPredecessors at h
  rw [find_mergeInState] at h
  cases hs : summary.find k with
  | some y =>
      rw [hs] at h
      dsimp only at h
      split at h
      · exact absurd (Option.some.inj h).symm hx
      · rw [hsum k y hs] at h
        exact absurd (Option.some.inj h).symm hx
  | none =>
      rw [hs] at h
      dsimp only at h
      rw [find_mergeInState, find_mergeInState_empty] at h
      cases hp : (mergePredecessors (rangePolicy M DL) exits).find k with
      | none =>
          rw [hp] at h
          exact Or.inl ⟨h, rfl⟩
      | some y =>
          rw [hp] at h
          cases ho : old.find k with
          | none =>
              rw [ho] at h
              exact Or.inr ⟨rfl, h⟩
          | some z =>
              rw [ho] at h
              exact absurd (Option.some.inj h).symm hx

theorem mergedState_of_new {exit : RangeState} {k : Value} (ho : ¬ old.has k)
    (hs : ¬ summary.has k) : (mergedState M DL old summary [exit]).find k = exit.find k := by
  rw [FMap.not_has_iff_find] at ho hs
  unfold mergedState mergeStateFromPredecessors
  rw [find_mergeInState, hs, find_mergeInState, find_mergeInState_empty,
    find_mergePredecessors_single, ho]
  cases exit.find k <;> rfl

theorem mergedState_none {exit : RangeState} {k : Value}
    (h : (mergedState M DL old summary [exit]).find k = none) : exit.find k = none := by
  unfold mergedState mergeStateFromPredecessors at h
  rw [find_mergeInState] at h
  cases hs : summary.find k with
  | some y => rw [hs] at h; cases h
  | none =>
      rw [hs] at h
      dsimp only at h
      rw [find_mergeInState, find_mergePredecessors_single] at h
      cases hp : exit.find k with
      | some y => rw [hp] at h; cases h
      | none => rfl

theorem exists_of_isConstant {x : RangeValue} (h : x.isConstant = true) :
    ∃ l r, x = .constant l r := by
  cases x with
  | constant l r => exact ⟨l, r, rfl⟩
  | _ => cases h

theorem inter_eq_of_not_constant {y c : RangeValue} {l r : APInt} (hy : y.isConstant = false)
    (h : RangeValue.constant l r = y.inter c) : c = .constant l r := by
  cases y with
  | unknown => rw [RangeValue.unknown_inter] at h; exact h.symm
  | infinity => cases c <;> first | exact h.symm | cases h
  | constant a b => cases hy

theorem inter_self (x : RangeValue) : x.inter x = x := by
  cases x with
  | unknown => rfl
  | infinity => rfl
  | constant l r => simp [RangeValue.inter]

theorem inter_constant_of_not_constant {x : RangeValue} {l r : APInt} (hx : x.isConstant = false) :
    x.inter (.constant l r) = .constant l r := by
  cases x with
  | unknown => rfl
  | infinity => rfl
  | constant a b => cases hx

/-- A constant of the merged state is the predecessor's, or a guard's that was there before. -/
theorem mergedState_single (hsum : ∀ k x, summary.find k = some x → x = .unknown)
    {exit guard : RangeState} {k : Value} {a b : APInt}
    (hold : old.find k = some (.constant a b) → exit.has k ∨ guard.find k = some (.constant a b))
    (h : (mergedState M DL old summary [exit]).find k = some (.constant a b)) :
    exit.find k = some (.constant a b) ∨
      exit.find k = none ∧ guard.find k = some (.constant a b) := by
  rcases mergedState_const hsum h (by simp) with ⟨h1, h2⟩ | ⟨-, h2⟩
  · rw [find_mergePredecessors_single] at h2
    rcases hold h1 with hk | hk
    · exact absurd h2 (fun h2 => FMap.not_has_iff_find.mpr h2 hk)
    · exact Or.inr ⟨h2, hk⟩
  · rw [find_mergePredecessors_single] at h2
    exact Or.inl h2

/-- **The entry state of a block with one predecessor** is fresh, and each of its constants is one
the predecessor ends with or the guard's. -/
theorem entryState_single (r : DataflowResult RangeValue) {p : Block}
    (hpred : f.predecessors bb = [p])
    (hsum : ∀ k x, (r.get (.func f.id)).find k = some x → x = .unknown)
    (hold : ∀ k l r', (r.get (.block bb)).find k = some (.constant l r') →
      (Engine.exitState r p).has k ∨
        (guardOf M DL usePC f bb).find k = some (.constant l r'))
    (hguard : GuardOK (Engine.exitState r p) (guardOf M DL usePC f bb) (r.get (.block bb))
      (r.get (.func f.id))) {k : Value} {l r' : APInt}
    (h : (entryState M (rangePolicy M DL) usePC f bb r).find k = some (.constant l r')) :
    EdgeOK (Engine.exitState r p) (guardOf M DL usePC f bb) k (.constant l r') ∧
      ((∃ a b, (Engine.exitState r p).find k = some (.constant a b)) ∨
        (guardOf M DL usePC f bb).find k = some (.constant l r')) := by
  rw [find_entryState, hpred, List.map_singleton] at h
  generalize hexit : Engine.exitState r p = exit at *
  generalize hgd : guardOf M DL usePC f bb = guard at *
  generalize ho : r.get (.block bb) = old at *
  generalize hs : r.get (.func f.id) = summary at *
  have hmerged : ∀ a b, (mergedState M DL old summary [exit]).find k = some (.constant a b) →
      exit.find k = some (.constant a b) ∨
        exit.find k = none ∧ guard.find k = some (.constant a b) := fun a b =>
    mergedState_single hsum (hold k a b)
  cases hg : guard.find k with
  | none =>
      rw [hg] at h
      rcases hmerged l r' h with hk | ⟨-, hk⟩
      · exact ⟨Or.inl ⟨l, r', hk, RangeValue.Included.refl_constant l r'⟩, Or.inl ⟨l, r', hk⟩⟩
      · cases hg.symm.trans hk
  | some c =>
      rw [hg] at h
      have h := (Option.some.inj h).symm
      cases hm : (mergedState M DL old summary [exit]).find k with
      | none =>
          rw [hm] at h
          have hx := mergedState_none hm
          exact ⟨Or.inr ⟨c, hg, by rw [hx]; exact h⟩, Or.inr (by rw [h])⟩
      | some y =>
          rw [hm] at h
          dsimp only at h
          cases hy : y.isConstant with
          | true =>
              obtain ⟨a, b, rfl⟩ := exists_of_isConstant hy
              rcases hmerged a b hm with hk | ⟨hx, hk⟩
              · exact ⟨Or.inr ⟨c, hg, by rw [hk]; exact h⟩, Or.inl ⟨a, b, hk⟩⟩
              · obtain rfl := Option.some.inj (hg.symm.trans hk)
                rw [inter_self] at h
                exact ⟨Or.inr ⟨_, hg, by rw [hx]; exact h⟩, Or.inr (by rw [h])⟩
          | false =>
              -- the guard's range alone
              obtain rfl := inter_eq_of_not_constant hy h
              refine ⟨?_, Or.inr rfl⟩
              cases hx : exit.find k with
              | none => exact Or.inr ⟨_, hg, by rw [hx]⟩
              | some x =>
                  cases hxc : x.isConstant with
                  | false =>
                      refine Or.inr ⟨_, hg, ?_⟩
                      rw [hx]
                      exact (inter_constant_of_not_constant hxc).symm
                  | true =>
                      obtain ⟨a, b, rfl⟩ := exists_of_isConstant hxc
                      rcases hguard k _ a b hg hx with hin | heq | ⟨h1, h2⟩
                      · exact Or.inl ⟨a, b, hx, hin⟩
                      · exact Or.inr ⟨_, hg, by rw [hx]; exact heq.symm⟩
                      · rw [mergedState_of_new h1 h2, hx] at hm
                        rw [← Option.some.inj hm] at hy
                        cases hy

/-- The entry state of any other block has no constants. -/
theorem entryState_several (r : DataflowResult RangeValue)
    (hpred : f.getSinglePredecessor bb = none)
    (hsum : ∀ k x, (r.get (.func f.id)).find k = some x → x = .unknown)
    (hold : ∀ k l r', (r.get (.block bb)).find k ≠ some (.constant l r')) (k : Value)
    (l r' : APInt) :
    (entryState M (rangePolicy M DL) usePC f bb r).find k ≠ some (.constant l r') := by
  have hguard : guardOf M DL usePC f bb = ∅ := by
    unfold guardOf constrainValuesByCondition
    rw [hpred]
    cases usePC <;> rfl
  intro h
  rw [find_entryState, hguard, FMap.find_empty] at h
  rcases mergedState_const hsum h (by simp) with ⟨h1, -⟩ | ⟨-, h2⟩
  · exact hold k l r' h1
  · unfold Function.getSinglePredecessor at hpred
    cases hps : f.predecessors bb with
    | nil =>
        rw [hps] at h2
        cases h2
    | cons p ps =>
        cases ps with
        | nil => rw [hps] at hpred; cases hpred
        | cons q qs =>
            rw [hps] at h2
            cases find_mergePredecessors_several _ _ _ h2

end Entry

/-! ## What a block writes -/

section Block

variable {M : Module} {DL : DataLayout}

/-- The keys an instruction of a block writes. A missing argument or incoming value is transferred
first. -/
def WrittenBy (M : Module) (i : Inst) (k : Value) : Prop :=
  match calledDefinition M i with
  | some (callee, args) => k ∈ args.take callee.params.length ∨ k = .inst i.id
  | none =>
      match i.kind with
      | .phi incoming => k ∈ incoming ∨ k = .inst i.id
      | _ => Written M (.inst i.id) k

/-- Transferring a missing value. -/
theorem transfer_missing {v : Value} (hv : ∀ val ptr, M.kindOf v ≠ some (.store val ptr))
    (s : RangeState) :
    WritesOnly (· = v) s (if s.has v then s else (rangePolicy M DL).transfer v s) := by
  split_ifs with h
  · refine ⟨fun _ h => h, fun _ _ _ h => Or.inl h, ?_, fun _ _ h => Or.inl h⟩
    rintro k rfl
    exact h
  · have hw := transfer_writes M DL v s
    have hW : Written M v = (· = v) := by
      unfold Written
      split
      · rename_i val ptr hk
        exact absurd hk (hv val ptr)
      · rfl
    rw [hW] at hw
    exact hw

theorem WritesOnly.cons {v : Value} {vs : List Value} {s s' s'' : RangeState}
    (h : WritesOnly (· = v) s s') (h' : WritesOnly (· ∈ vs) s' s'') :
    WritesOnly (· ∈ v :: vs) s s'' := by
  have := h.trans h'
  simpa [List.mem_cons] using this

theorem passArguments_writes (DL : DataLayout) (f : FuncId) {vs : List Value}
    (hv : ∀ v ∈ vs, ∀ val ptr, M.kindOf v ≠ some (.store val ptr)) (n : Nat) (s t : RangeState)
    (u : Bool) : WritesOnly (· ∈ vs) s (passArguments (rangePolicy M DL) f vs n s t u).1 := by
  induction vs generalizing n s t u with
  | nil =>
      show WritesOnly (· ∈ []) s s
      simpa using WritesOnly.refl s
  | cons v vs ih =>
      exact (transfer_missing (hv v (by simp)) s).cons (ih (fun x hx => hv x (by simp [hx])) ..)

/-- A summary holds unknown values only. -/
theorem passArguments_summary (f : FuncId) (vs : List Value) (n : Nat) (s t : RangeState)
    (u : Bool) (ht : ∀ k x, t.find k = some x → x = .unknown) (k : Value) (x : RangeValue)
    (h : (passArguments (rangePolicy M DL) f vs n s t u).2.1.find k = some x) : x = .unknown := by
  induction vs generalizing n s t u with
  | nil => exact ht k x h
  | cons v vs ih =>
      refine ih _ _ _ _ (fun k' y hy => ?_) h
      rw [FMap.find_set, rangePolicy_meet] at hy
      by_cases hk : k' = .arg f n
      · rw [if_pos hk] at hy
        exact (Option.some.inj hy).symm
      · rw [if_neg hk] at hy
        exact ht k' y hy

theorem meetOverPHI_writes {vs : List Value}
    (hv : ∀ v ∈ vs, ∀ val ptr, M.kindOf v ≠ some (.store val ptr)) (s : RangeState) :
    WritesOnly (· ∈ vs) s (meetOverPHI (rangePolicy M DL) vs s).2 := by
  have hfold : ∀ (vs : List Value), (∀ v ∈ vs, ∀ val ptr, M.kindOf v ≠ some (.store val ptr)) →
      ∀ acc : RangeValue × RangeState, WritesOnly (· ∈ vs) acc.2
        (vs.foldl (fun (acc : RangeValue × RangeState) v =>
          let s := if acc.2.has v then acc.2 else (rangePolicy M DL).transfer v acc.2
          ((rangePolicy M DL).meet [acc.1, s.get v], s)) acc).2 := by
    intro vs
    induction vs with
    | nil =>
        intro _ acc
        have := WritesOnly.refl acc.2
        simpa using this
    | cons v vs ih =>
        intro hv acc
        rw [List.foldl_cons]
        refine WritesOnly.cons ?_ (ih (fun x hx => hv x (by simp [hx])) _)
        exact transfer_missing (hv v (by simp)) acc.2
  exact hfold vs hv (default, s)

/-- A transferred instruction. -/
theorem applyTransfer_writes (DL : DataLayout) (hM : M.WF) {i : Inst} (hi : i ∈ M.insts)
    (hc : calledDefinition M i = none) (s : RangeState) :
    WritesOnly (WrittenBy M i) s (applyTransfer (rangePolicy M DL) i s) := by
  unfold WrittenBy applyTransfer
  rw [hc]
  dsimp only
  cases hk : i.kind with
  | phi incoming =>
      have hv : ∀ v ∈ incoming, ∀ val ptr, M.kindOf v ≠ some (.store val ptr) := by
        intro v hmem
        exact hM.operands i hi v (by rw [hk]; exact hmem)
      exact (meetOverPHI_writes hv s).trans (.set ..)
  | _ => exact transfer_writes M DL (.inst i.id) s

theorem args_operands {i : Inst} {callee : Function} {args : List Value}
    (hc : calledDefinition M i = some (callee, args)) {v : Value} (hv : v ∈ args) :
    v ∈ i.kind.operands := by
  unfold calledDefinition at hc
  split at hc
  · rename_i ca as hcall
    split at hc
    · split_ifs at hc
      simp only [Option.some.injEq, Prod.mk.injEq] at hc
      rw [hc.2] at hcall
      unfold InstKind.asCallBase at hcall
      split at hcall
      · rename_i hk
        simp only [Option.some.injEq, Prod.mk.injEq] at hcall
        rw [hk, hcall.2]
        cases ca <;> simp [hcall.1, InstKind.operands, hv]
      · rename_i hk
        simp only [Option.some.injEq, Prod.mk.injEq] at hcall
        rw [hk, hcall.2]
        cases ca <;> simp [hcall.1, InstKind.operands, hv]
      · cases hcall
    · cases hc
  · cases hc

end Block

end MSV
