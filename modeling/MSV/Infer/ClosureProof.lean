import MSV.Infer.ClauseProof
import MSV.Infer.OperationsProof

/-!
# When the inference is closed

The inference processes each instruction once, so a variable that is raised after it was stored, or
loaded from, leaves the other side of that store or load behind; only for globals is there a second
look. The same happens with casts of integers and with calls of rewritten functions.

**Theorem (`inference_closed`).** In a run in which no instruction adds a premise of a clause
visited before without its conclusion, the classification at the end is closed under stores and
loads; and another order of functions and blocks that is analysed in such a run gives the same
unsafe variables.

The facts at the end of such a run are the least ones closed under the clauses of the analysed
functions, which do not depend on the order.
-/

namespace MSV

variable {env : InferEnv} {M : Module} {st : AnalysisState} {e e' : Inference}

/-! ## Rules of a run -/

/-- The rules of `registerGlobals`. -/
def globalRules (M : Module) : Set Rule :=
  {c | ∃ g ∈ M.globals, c = ([], .registered (.global g.1))}

/-- The rules visited so far. -/
def visitedRules (env : InferEnv) (M : Module) (e : Inference) : Set Rule :=
  globalRules M ∪ {c | ∃ i ∈ e.done, c ∈ clauses env M i}

/-- The instructions of the analysed functions. -/
def analyzedInsts (M : Module) : List Inst := (collectFunctionsToAnalyze M).flatMap Function.insts

/-- The rules of the globals and of the analysed functions. -/
def allRules (env : InferEnv) (M : Module) : Set Rule :=
  globalRules M ∪ {c | ∃ i ∈ analyzedInsts M, c ∈ clauses env M i}

/-- The next instruction adds no premise too late. -/
def InOrder (env : InferEnv) (M : Module) (e : Inference) : Prop :=
  ∀ i rest, e.todo = i :: rest →
    OnTime (visitedRules env M e) {c | c ∈ clauses env M i} (facts e.state)

/-- The alias edges of the dependence graph stay inside a function. -/
def AliasLocal (env : InferEnv) (M : Module) : Prop :=
  ∀ f ∈ M.funcs, ∀ i ∈ f.insts, ∀ j ∈ env.aliasNeighbors i, j ∈ f.insts

/-- Functions have different names. -/
def NamesUnique (M : Module) : Prop := (M.funcs.map Function.name).Nodup

/-! ## The functions a global is used in -/

/-- The names recorded for any variable. -/
def dependents (st : AnalysisState) : Set String :=
  {name | ∃ v info, st.Variables.find v = some info ∧ name ∈ info.dependentFunctions}

theorem dependents_modify {v : Value} {f : VariableInfo → VariableInfo}
    (hf : ∀ info, (f info).dependentFunctions = info.dependentFunctions) :
    dependents (st.modify v f) ⊆ dependents st := by
  rintro name ⟨x, info, hfind, hname⟩
  rw [AnalysisState.modify, FMap.find_set] at hfind
  split at hfind
  · obtain rfl := Option.some.inj hfind
    rw [hf, AnalysisState.info] at hname
    cases h : st.Variables.find v with
    | none =>
        rw [h] at hname
        cases hname
    | some info =>
        rw [h] at hname
        exact ⟨v, info, h, hname⟩
  · exact ⟨x, info, hfind, hname⟩

theorem dependents_RegisterVariable {v : Value} :
    dependents (st.RegisterVariable v) ⊆ dependents st := by
  unfold AnalysisState.RegisterVariable
  split
  · exact subset_rfl
  · exact dependents_modify fun _ => rfl

theorem dependents_SetSizeForPointerVariable {v : Value} {size : Option Value} :
    dependents (st.SetSizeForPointerVariable v size) ⊆ dependents st := by
  refine Set.Subset.trans (dependents_modify ?_) dependents_RegisterVariable
  exact fun _ => rfl

theorem dependents_SetInstantiatedExplicitSizeVariable {v : Value} {b : Bool} :
    dependents (st.SetInstantiatedExplicitSizeVariable v b) ⊆ dependents st := by
  refine Set.Subset.trans (dependents_modify ?_) dependents_RegisterVariable
  exact fun _ => rfl

theorem dependents_ClassifyPointerVariable {v : Value} {c : VariableStates} :
    dependents (st.ClassifyPointerVariable v c) ⊆ dependents st := by
  unfold AnalysisState.ClassifyPointerVariable
  dsimp only
  split
  · refine Set.Subset.trans (dependents_modify ?_) dependents_RegisterVariable
    exact fun _ => rfl
  · exact dependents_RegisterVariable

/-- Only the name of the processed instruction's function is added. -/
theorem dependents_processInstruction {i : Inst} :
    dependents (processInstruction env M i st) ⊆ insert (functionName M i) (dependents st) := by
  have hP : Survives M i fun st' => dependents st' ⊆ insert (functionName M i) (dependents st) :=
    { register := fun _ _ h => dependents_RegisterVariable.trans h
      setSize := fun _ _ _ h => dependents_SetSizeForPointerVariable.trans h
      setInstantiated := fun _ _ _ h => dependents_SetInstantiatedExplicitSizeVariable.trans h
      classify := fun _ _ _ _ h => dependents_ClassifyPointerVariable.trans h
      addFunction := by
        rintro st' g h name ⟨x, info, hfind, hname⟩
        rw [AnalysisState.modify, FMap.find_set] at hfind
        split at hfind
        · obtain rfl := Option.some.inj hfind
          rcases List.mem_insert_iff.mp hname with rfl | hname
          · exact Set.mem_insert _ _
          · refine h ?_
            rw [AnalysisState.info] at hname
            cases hg : st'.Variables.find (.global g) with
            | none =>
                rw [hg] at hname
                cases hname
            | some info =>
                rw [hg] at hname
                exact ⟨_, info, hg, hname⟩
        · exact h ⟨x, info, hfind, hname⟩ }
  exact hP.processInstruction (Set.subset_insert _ _)

/-! ## The invariant of a run -/

/-- What holds in every state of a run whose steps are in order. -/
structure InferInv (env : InferEnv) (M : Module) (e : Inference) : Prop where
  closed : Closed (visitedRules env M e) (facts e.state)
  sound : ∀ f ∈ facts e.state, Derives (allRules env M) f
  done : ∀ i ∈ e.done, i ∈ analyzedInsts M
  todo : ∀ i ∈ e.todo, i ∈ analyzedInsts M
  functions : ∀ f ∈ e.functions, f ∈ collectFunctionsToAnalyze M
  covered : ∀ i ∈ analyzedInsts M, i ∈ e.done ∨ i ∈ e.todo ∨ ∃ f ∈ e.functions, i ∈ f.insts
  names : ∀ name ∈ dependents e.state, ∃ f ∈ collectFunctionsToAnalyze M, f.name = name

theorem facts_initial {f : Fact} : f ∈ facts (registerGlobals env M .initial) ↔
    ∃ g ∈ M.globals, f = .registered (.global g.1) := by
  unfold registerGlobals
  rw [facts_foldl (P := fun (g : GlobalId × Ty) f => f = .registered (.global g.1))]
  · refine or_iff_right ?_
    cases f with
    | registered v => exact FMap.not_has_empty v
    | raised v =>
        intro h
        cases h
  · intro st g f
    rw [facts_SetSizeForPointerVariable]
    have h : facts ((st.RegisterVariable (.global g.1)).modify (.global g.1) fun info =>
        { info with isGlobal := true }) = insert (.registered (.global g.1)) (facts st) := by
      refine Eq.trans (facts_modify ?_) ?_
      · exact fun _ => rfl
      · rw [facts_RegisterVariable, Set.insert_idem]
    rw [h, Set.insert_idem, Set.mem_insert_iff, or_comm]

theorem dependents_registerGlobals :
    ∀ name, name ∉ dependents (registerGlobals env M .initial) := by
  have hloop : dependents (registerGlobals env M .initial) ⊆ dependents .initial := by
    unfold registerGlobals
    refine List.foldlRecOn
      (motive := fun st : AnalysisState => dependents st ⊆ dependents .initial) M.globals _
      subset_rfl fun st hst g _ => ?_
    refine (dependents_SetSizeForPointerVariable.trans ?_).trans hst
    refine Set.Subset.trans (dependents_modify ?_) dependents_RegisterVariable
    exact fun _ => rfl
  intro name h
  obtain ⟨v, info, hfind, -⟩ := hloop h
  cases hfind

theorem inferInv_initial : InferInv env M (Inference.initial env M) where
  closed := by
    rintro ps f (⟨g, hg, hc⟩ | ⟨i, hi, -⟩) -
    · rw [(Prod.mk.inj hc).2]
      exact facts_initial.mpr ⟨g, hg, rfl⟩
    · cases hi
  sound := by
    intro f hf
    obtain ⟨g, hg, rfl⟩ := facts_initial.mp hf
    exact .clause (Or.inl ⟨g, hg, rfl⟩) fun _ hp => nomatch hp
  done := fun _ h => nomatch h
  todo := fun _ h => nomatch h
  functions := fun _ h => h
  covered := by
    intro i hi
    obtain ⟨f, hf, hif⟩ := List.mem_flatMap.mp hi
    exact Or.inr (Or.inr ⟨f, hf, hif⟩)
  names := fun name h => (dependents_registerGlobals name h).elim

section Step

variable (hM : M.WF)

include hM

/-- The function an instruction is in is the only one. -/
theorem function_eq {f g : Function} (hf : f ∈ M.funcs) (hg : g ∈ M.funcs) {i : Inst}
    (hif : i ∈ f.insts) (hig : i ∈ g.insts) : f = g :=
  eq_of_mem_flatMap (f := Function.insts) hM.insts_nodup.of_map hf hg hif hig

/-- The function an analysed instruction is in has an analysed name. -/
theorem functionName_analyzed {i : Inst} (hi : i ∈ analyzedInsts M) :
    ∃ f ∈ collectFunctionsToAnalyze M, f.name = functionName M i := by
  obtain ⟨f, hf, hif⟩ := List.mem_flatMap.mp hi
  have hfM : f ∈ M.funcs := (List.mem_filter.mp hf).1
  refine ⟨f, hf, ?_⟩
  unfold functionName
  cases hfind : M.funcs.find? fun f => decide (i ∈ f.insts) with
  | none => exact absurd hif (by simpa using List.find?_eq_none.mp hfind f hfM)
  | some g =>
      have hig : i ∈ g.insts := by simpa using List.find?_some hfind
      rw [function_eq hM hfM (List.mem_of_find?_eq_some hfind) hif hig]
      rfl

/-- Processing an instruction. -/
theorem InferInv.process {i : Inst} {rest : List Inst} (h : InferInv env M e)
    (hok : InOrder env M e) (htodo : e.todo = i :: rest) :
    InferInv env M { e with
      state := processInstruction env M i e.state
      done := i :: e.done
      todo := rest } := by
  have hi : i ∈ analyzedInsts M := h.todo i (by rw [htodo]; exact List.mem_cons_self)
  have hvisited : visitedRules env M { e with
      state := processInstruction env M i e.state
      done := i :: e.done
      todo := rest } = visitedRules env M e ∪ {c | c ∈ clauses env M i} := by
    ext c
    simp only [visitedRules, Set.mem_union, Set.mem_ofPred_eq, List.exists_mem_cons_iff]
    exact (or_congr_right or_comm).trans or_assoc.symm
  refine ⟨?_, ?_, ?_, ?_, h.functions, ?_, ?_⟩
  · rw [hvisited]
    show Closed _ (facts (processInstruction env M i e.state))
    rw [facts_processInstruction]
    exact h.closed.visit (hok i rest htodo)
  · show ∀ f ∈ facts (processInstruction env M i e.state), _
    rw [facts_processInstruction]
    exact derives_visit (fun c hc => Or.inr ⟨i, hi, hc⟩) h.sound
  · intro j hj
    rcases List.mem_cons.mp hj with rfl | hj
    · exact hi
    · exact h.done j hj
  · exact fun j hj => h.todo j (by rw [htodo]; exact List.mem_cons_of_mem _ hj)
  · intro j hj
    rcases h.covered j hj with hd | ht | hf
    · exact Or.inl (List.mem_cons_of_mem _ hd)
    · rw [htodo] at ht
      rcases List.mem_cons.mp ht with rfl | ht
      · exact Or.inl List.mem_cons_self
      · exact Or.inr (Or.inl ht)
    · exact Or.inr (Or.inr hf)
  · intro name hname
    rcases dependents_processInstruction hname with rfl | hname
    · exact functionName_analyzed hM hi
    · exact h.names name hname

variable (hnames : NamesUnique M) (halias : AliasLocal env M)

include hnames halias

omit hM in
/-- What is processed again for a global is in analysed functions. -/
theorem reanalyzed_analyzed {g : GlobalId} {names : List String}
    (h : ∀ name ∈ names, ∃ f ∈ collectFunctionsToAnalyze M, f.name = name) :
    ∀ j ∈ reanalyzed env M g names, j ∈ analyzedInsts M := by
  intro j hj
  obtain ⟨name, hname, hj⟩ := List.mem_flatMap.mp hj
  obtain ⟨f, hf, rfl⟩ := h name (List.mem_mergeSort.mp hname)
  have hfM : f ∈ M.funcs := (List.mem_filter.mp hf).1
  cases hget : M.getFunction f.name with
  | none =>
      rw [hget] at hj
      cases hj
  | some f' =>
      rw [hget] at hj
      obtain ⟨i, hi, hj⟩ := List.mem_flatMap.mp hj
      obtain ⟨-, -, hj⟩ := List.mem_flatMap.mp hj
      have hf'M : f' ∈ M.funcs := List.mem_of_find?_eq_some hget
      have hname : f'.name = f.name := by simpa using List.find?_some hget
      obtain rfl : f' = f := List.inj_on_of_nodup_map hnames hf'M hfM hname
      exact List.mem_flatMap.mpr ⟨f', hf, halias f' hf'M i hi j hj⟩

omit hM in
/-- Turning to a global whose class changed: its flag is reset, and nothing is learned. -/
theorem InferInv.global {g : GlobalId} {gs : List GlobalId} (h : InferInv env M e)
    (htodo : e.todo = []) (hfs : e.functions = [])
    (hflag : ((e.state.info (.global g)).isGlobal &&
      (e.state.info (.global g)).didClassificationChange) = true) :
    InferInv env M { e with
      state := e.state.modify (.global g) fun info => { info with didClassificationChange := false }
      todo := reanalyzed env M g (e.state.info (.global g)).dependentFunctions
      globals := gs } := by
  -- a global with its flag set has an entry
  obtain ⟨info, hinfo⟩ : ∃ info, e.state.Variables.find (.global g) = some info := by
    cases hfind : e.state.Variables.find (.global g) with
    | some info => exact ⟨info, rfl⟩
    | none =>
        rw [AnalysisState.info, hfind] at hflag
        cases hflag
  have hfacts : facts (e.state.modify (.global g) fun info =>
      { info with didClassificationChange := false }) = facts e.state := by
    refine Eq.trans (facts_modify ?_) (Set.insert_eq_of_mem (FMap.has_of_find hinfo))
    exact fun _ => rfl
  refine ⟨?_, ?_, h.done, ?_, h.functions, ?_, ?_⟩
  · show Closed _ (facts (e.state.modify _ _))
    rw [hfacts]
    exact h.closed
  · show ∀ f ∈ facts (e.state.modify _ _), _
    rw [hfacts]
    exact h.sound
  · refine reanalyzed_analyzed hnames halias fun name hname => h.names name ?_
    rw [AnalysisState.info, hinfo] at hname
    exact ⟨_, info, hinfo, hname⟩
  · intro j hj
    rcases h.covered j hj with hd | ht | ⟨f, hf, -⟩
    · exact Or.inl hd
    · rw [htodo] at ht
      cases ht
    · rw [hfs] at hf
      cases hf
  · intro name hname
    refine h.names name (dependents_modify ?_ hname)
    exact fun _ => rfl

theorem InferInv.step (h : InferInv env M e) (hok : InOrder env M e)
    (hstep : e.step env M = some e') : InferInv env M e' := by
  unfold Inference.step at hstep
  split at hstep
  · rename_i i rest htodo
    obtain rfl := Option.some.inj hstep
    exact h.process hM hok htodo
  · rename_i htodo
    split at hstep
    · -- the next function
      rename_i f fs hfs
      obtain rfl := Option.some.inj hstep
      refine ⟨h.closed, h.sound, h.done, ?_, ?_, ?_, h.names⟩
      · exact fun j hj => List.mem_flatMap.mpr
          ⟨f, h.functions f (by rw [hfs]; exact List.mem_cons_self), hj⟩
      · exact fun g hg => h.functions g (by rw [hfs]; exact List.mem_cons_of_mem _ hg)
      · intro j hj
        rcases h.covered j hj with hd | ht | ⟨g, hg, hjg⟩
        · exact Or.inl hd
        · rw [htodo] at ht
          cases ht
        · rw [hfs] at hg
          rcases List.mem_cons.mp hg with rfl | hg
          · exact Or.inr (Or.inl hjg)
          · exact Or.inr (Or.inr ⟨g, hg, hjg⟩)
    · rename_i hfs
      split at hstep
      · rename_i g gs hgs
        dsimp only at hstep
        split at hstep
        · -- a global whose class changed
          rename_i hflag
          obtain rfl := Option.some.inj hstep
          exact h.global hnames halias htodo hfs hflag
        · obtain rfl := Option.some.inj hstep
          exact ⟨h.closed, h.sound, h.done, h.todo, h.functions, h.covered, h.names⟩
      · cases hstep

end Step

/-! ## The end of a run -/

theorem step_eq_none_iff : e.step env M = none ↔
    e.todo = [] ∧ e.functions = [] ∧ e.globals = [] := by
  obtain ⟨st, done, todo, functions, globals⟩ := e
  unfold Inference.step
  cases todo with
  | cons i rest => simp
  | nil =>
      cases functions with
      | cons f fs => simp
      | nil =>
          cases globals with
          | nil => simp
          | cons g gs =>
              simp only [reduceCtorEq, and_false, iff_false]
              split <;> simp

/-- At the end the facts are what follows from the rules of the analysed functions. -/
theorem InferInv.facts_eq (h : InferInv env M e) (hend : e.step env M = none) (f : Fact) :
    f ∈ facts e.state ↔ Derives (allRules env M) f := by
  obtain ⟨htodo, hfs, -⟩ := step_eq_none_iff.mp hend
  constructor
  · exact h.sound f
  · intro hf
    have hclosed : Closed (allRules env M) (facts e.state) := by
      rintro ps g (hc | ⟨i, hi, hc⟩) hps
      · exact h.closed ps g (Or.inl hc) hps
      · rcases h.covered i hi with hd | ht | ⟨fn, hfn, -⟩
        · exact h.closed ps g (Or.inr ⟨i, hd, hc⟩) hps
        · rw [htodo] at ht
          cases ht
        · rw [hfs] at hfn
          cases hfn
    exact hclosed.derives hf

/-- The class that is read for a pointer is `Seq` or `Dyn`. -/
def ReadsRaised (st : AnalysisState) (v : Value) : Prop :=
  (st.GetPointerVariableInfo v).any (·.classification.isUnsafe) = true

theorem readsRaised_iff {v : Value} : ReadsRaised st v ↔ isNull v = false ∧ Raised st v := by
  unfold ReadsRaised
  cases hget : st.GetPointerVariableInfo v with
  | some info => exact isUnsafe_of_GetPointerVariableInfo hget
  | none =>
      obtain ⟨hn, hno⟩ := GetPointerVariableInfo_none.mp hget
      have : ¬ Raised st v := fun h => hno (has_of_raised h)
      simp [this]

/-- The classification is closed under the stores and loads of the analysed functions. -/
structure ClosedUnderMemory (M : Module) (st : AnalysisState) : Prop where
  store : ∀ i ∈ analyzedInsts M, ∀ val ptr, i.kind = .store val ptr →
    (M.typeOf val).isPointerTy = true → ReadsRaised st val → Raised st ptr
  load : ∀ i ∈ analyzedInsts M, ∀ ptr, i.kind = .load ptr → i.ty.isPointerTy = true →
    ReadsRaised st ptr → Raised st (.inst i.id)

theorem mem_copyClass {v x : Value} {known : Bool} (h : isNull v = false) :
    ([Fact.raised v], Fact.raised x) ∈ copyClass v x known := by
  rw [copyClass, h, if_neg Bool.false_ne_true]
  exact List.mem_append_right _ List.mem_cons_self

theorem closedUnderMemory_of_derives (h : ∀ f, f ∈ facts st ↔ Derives (allRules env M) f) :
    ClosedUnderMemory M st where
  store := by
    intro i hi val ptr hk hptr hread
    obtain ⟨hn, hraised⟩ := readsRaised_iff.mp hread
    have hc : ([Fact.raised val], Fact.raised ptr) ∈ clauses env M i := by
      rw [clauses, hk]
      refine List.mem_append_right _ ?_
      show _ ∈ storeRules M val ptr
      rw [storeRules, if_pos hptr]
      exact List.mem_append_right _ (mem_copyClass hn)
    refine (h (.raised ptr)).mpr (.clause (Or.inr ⟨i, hi, hc⟩) fun p hp => ?_)
    rw [List.mem_singleton.mp hp]
    exact (h (.raised val)).mp hraised
  load := by
    intro i hi ptr hk hty hread
    obtain ⟨hn, hraised⟩ := readsRaised_iff.mp hread
    have hc : ([Fact.raised ptr], Fact.raised (.inst i.id)) ∈ clauses env M i := by
      rw [clauses, hk]
      refine List.mem_append_right _ ?_
      show _ ∈ loadRules i ptr
      rw [loadRules, if_pos hty]
      exact List.mem_append_right _ (mem_copyClass hn)
    refine (h (.raised _)).mpr (.clause (Or.inr ⟨i, hi, hc⟩) fun p hp => ?_)
    rw [List.mem_singleton.mp hp]
    exact (h (.raised ptr)).mp hraised

/-! ## Other orders -/

/-- The same function with its blocks in another order. -/
structure SameFunction (f f' : Function) : Prop where
  id : f'.id = f.id
  name : f'.name = f.name
  params : f'.params = f.params
  blocks : f'.blocks.Perm f.blocks

/-- The same module with its functions, and the blocks of these, in another order. -/
structure Reordered (M M' : Module) : Prop where
  globals : M'.globals = M.globals
  signatureOf : M'.signatureOf = M.signatureOf
  funcs : ∃ l : List Function, l.Perm M.funcs ∧ List.Forall₂ SameFunction l M'.funcs

theorem SameFunction.insts {f f' : Function} (h : SameFunction f f') : f'.insts.Perm f.insts :=
  h.blocks.flatMap_right _

/-- A search that at most one element meets finds the same in another order. -/
theorem find?_perm {α : Type*} {p : α → Bool} {l l' : List α} (h : l'.Perm l)
    (hu : ∀ a ∈ l, ∀ b ∈ l, p a = true → p b = true → a = b) : l'.find? p = l.find? p := by
  cases hf : l.find? p with
  | none =>
      refine List.find?_eq_none.mpr fun a ha => ?_
      exact List.find?_eq_none.mp hf a (h.mem_iff.mp ha)
  | some a =>
      cases hf' : l'.find? p with
      | none =>
          have hmem : a ∈ l' := h.mem_iff.mpr (List.mem_of_find?_eq_some hf)
          exact absurd (List.find?_some hf) (List.find?_eq_none.mp hf' a hmem)
      | some b =>
          rw [hu b (h.mem_iff.mp (List.mem_of_find?_eq_some hf')) a (List.mem_of_find?_eq_some hf)
            (List.find?_some hf') (List.find?_some hf)]

/-- A search in two related lists. -/
theorem find?_forall₂ {α : Type*} {R : α → α → Prop} {p : α → Bool} {l l' : List α}
    (h : List.Forall₂ R l l') (hp : ∀ a b, R a b → p a = p b) :
    (l.find? p = none ∧ l'.find? p = none) ∨
      ∃ a b, l.find? p = some a ∧ l'.find? p = some b ∧ R a b := by
  induction h with
  | nil => exact Or.inl ⟨rfl, rfl⟩
  | @cons a b l l' hab _ ih =>
      cases hpa : p a with
      | true =>
          exact Or.inr ⟨a, b, List.find?_cons_of_pos hpa,
            List.find?_cons_of_pos ((hp a b hab).symm.trans hpa), hab⟩
      | false =>
          have hpb : p b = false := (hp a b hab).symm.trans hpa
          rw [List.find?_cons_of_neg (by simp [hpa]), List.find?_cons_of_neg (by simp [hpb])]
          exact ih

theorem exists_of_mem_forall₂ {α β : Type*} {R : α → β → Prop} {l : List α} {l' : List β}
    (h : List.Forall₂ R l l') {a : α} (ha : a ∈ l) : ∃ b ∈ l', R a b := by
  induction h with
  | nil => cases ha
  | @cons x y l l' hxy _ ih =>
      rcases List.mem_cons.mp ha with rfl | ha
      · exact ⟨y, List.mem_cons_self, hxy⟩
      · obtain ⟨b, hb, hab⟩ := ih ha
        exact ⟨b, List.mem_cons_of_mem _ hb, hab⟩

namespace Reordered

variable {M' : Module} (h : Reordered M M')

include h

theorem insts_perm : M'.insts.Perm M.insts := by
  obtain ⟨l, hl, hrel⟩ := h.funcs
  have hrel' : ∀ l l', List.Forall₂ SameFunction l l' →
      (l'.flatMap Function.insts).Perm (l.flatMap Function.insts) := by
    intro l l' hrel
    induction hrel with
    | nil => exact .refl _
    | cons hab _ ih =>
        rw [List.flatMap_cons, List.flatMap_cons]
        exact hab.insts.append ih
  exact (hrel' _ _ hrel).trans (hl.flatMap_right _)

/-- Every function has its counterpart, and is one. -/
theorem exists_function {f : Function} (hf : f ∈ M.funcs) : ∃ f' ∈ M'.funcs, SameFunction f f' := by
  obtain ⟨l, hl, hrel⟩ := h.funcs
  exact exists_of_mem_forall₂ hrel (hl.mem_iff.mpr hf)

theorem exists_function_of {f' : Function} (hf' : f' ∈ M'.funcs) :
    ∃ f ∈ M.funcs, SameFunction f f' := by
  obtain ⟨l, hl, hrel⟩ := h.funcs
  obtain ⟨f, hf, hsame⟩ := exists_of_mem_forall₂ (List.Forall₂.flip hrel) hf'
  exact ⟨f, hl.mem_iff.mp hf, hsame⟩

theorem mem_analyzedInsts {i : Inst} : i ∈ analyzedInsts M' ↔ i ∈ analyzedInsts M := by
  have hcheck : ∀ f f' : Function, SameFunction f f' →
      (!f'.isDeclaration && !(skippedFunctions.contains f'.name)) =
        (!f.isDeclaration && !(skippedFunctions.contains f.name)) := by
    intro f f' hsame
    have hdecl : f'.isDeclaration = f.isDeclaration := by
      unfold Function.isDeclaration
      rw [Bool.eq_iff_iff, List.isEmpty_iff_length_eq_zero, List.isEmpty_iff_length_eq_zero,
        hsame.blocks.length_eq]
    rw [hdecl, hsame.name]
  unfold analyzedInsts collectFunctionsToAnalyze
  simp only [List.mem_flatMap, List.mem_filter]
  constructor
  · rintro ⟨f', ⟨hf', hc⟩, hi⟩
    obtain ⟨f, hf, hsame⟩ := h.exists_function_of hf'
    exact ⟨f, ⟨hf, by rw [← hcheck f f' hsame]; exact hc⟩, hsame.insts.mem_iff.mp hi⟩
  · rintro ⟨f, ⟨hf, hc⟩, hi⟩
    obtain ⟨f', hf', hsame⟩ := h.exists_function hf
    exact ⟨f', ⟨hf', by rw [hcheck f f' hsame]; exact hc⟩, hsame.insts.mem_iff.mpr hi⟩

variable (hM : M.WF)

include hM

theorem inst?_eq (i : InstId) : M'.inst? i = M.inst? i := by
  refine find?_perm h.insts_perm fun a ha b hb hpa hpb => ?_
  refine List.inj_on_of_nodup_map hM.insts_nodup ha hb ?_
  rw [beq_iff_eq] at hpa hpb
  rw [hpa, hpb]

theorem kindOf_eq (v : Value) : M'.kindOf v = M.kindOf v := by
  cases v with
  | inst i => rw [Module.kindOf, Module.kindOf, h.inst?_eq hM]
  | _ => rfl

theorem func?_cases (f : FuncId) : (M.func? f = none ∧ M'.func? f = none) ∨
    ∃ a b, M.func? f = some a ∧ M'.func? f = some b ∧ SameFunction a b := by
  obtain ⟨l, hl, hrel⟩ := h.funcs
  have hfind : l.find? (·.id == f) = M.func? f := by
    refine find?_perm hl fun a ha b hb hpa hpb => ?_
    refine List.inj_on_of_nodup_map hM.funcs_nodup ha hb ?_
    rw [beq_iff_eq] at hpa hpb
    rw [hpa, hpb]
  rw [← hfind]
  exact find?_forall₂ hrel fun a b hab => by rw [hab.id]

theorem typeOf_eq (v : Value) : M'.typeOf v = M.typeOf v := by
  cases v with
  | global g => rw [Module.typeOf, Module.typeOf, h.globals]
  | arg f n =>
      rw [Module.typeOf, Module.typeOf]
      rcases h.func?_cases hM f with ⟨ha, hb⟩ | ⟨a, b, ha, hb, hab⟩
      · rw [ha, hb]
      · rw [ha, hb, Option.map_some, Option.map_some, hab.params]
  | inst i => rw [Module.typeOf, Module.typeOf, h.inst?_eq hM]
  | func f => rw [Module.typeOf, Module.typeOf, h.signatureOf]
  | _ => rfl

theorem freedChain_eq (n : Nat) : ∀ v, freedChain M' n v = freedChain M n v := by
  induction n with
  | zero => intro v; rfl
  | succ n ih =>
      intro v
      rw [freedChain, freedChain, h.kindOf_eq hM]
      simp only [ih]

omit hM in
theorem hasStoreUser_eq (v : Value) : hasStoreUser M' v = hasStoreUser M v :=
  h.insts_perm.any_eq

theorem couldChangeValue_eq (i : Inst) (op : CastOp) (v : Value) :
    couldChangeValue M' i op v = couldChangeValue M i op v := by
  unfold couldChangeValue
  simp only [h.typeOf_eq hM, h.kindOf_eq hM, h.hasStoreUser_eq]

theorem castOperandClass_eq (v : Value) : castOperandClass M' v = castOperandClass M v := by
  unfold castOperandClass
  rw [h.kindOf_eq hM]

variable (hnames : NamesUnique M)

include hnames

omit hM in
/-- The rewritten version of a function returns the same values. -/
theorem mem_rewrittenReturns {f f' : Function} (hf : f'.name = f.name) (r : Value) :
    r ∈ rewrittenReturns M' f' ↔ r ∈ rewrittenReturns M f := by
  obtain ⟨l, hl, hrel⟩ := h.funcs
  have hfind : ∀ name : String, l.find? (·.name == name) = M.getFunction name := by
    intro name
    refine find?_perm hl fun a ha b hb hpa hpb => ?_
    refine List.inj_on_of_nodup_map hnames ha hb ?_
    rw [beq_iff_eq] at hpa hpb
    rw [hpa, hpb]
  unfold rewrittenReturns
  rw [hf, ← hfind]
  rcases find?_forall₂ (p := fun g : Function => g.name == f.name ++ "_UnifiedMemSafe") hrel
    (fun a b hab => by rw [hab.name]) with ⟨ha, hb⟩ | ⟨a, b, ha, hb, hab⟩
  · rw [ha, Module.getFunction, hb]
  · rw [ha, Module.getFunction, hb]
    exact (hab.insts.filterMap _).mem_iff

variable {env' : InferEnv} (hgep : env'.gepOperatorGlobals = env.gepOperatorGlobals)

omit hnames in
theorem operandGlobals_eq (v : Value) (hgep : env'.gepOperatorGlobals = env.gepOperatorGlobals) :
    operandGlobals env' M' v = operandGlobals env M v := by
  cases v with
  | global g => rfl
  | _ => simp only [operandGlobals, h.kindOf_eq hM, hgep]

include hgep

omit hnames in
theorem namedGlobals_eq (i : Inst) : namedGlobals env' M' i = namedGlobals env M i := by
  have hop : operandGlobals env' M' = operandGlobals env M :=
    funext fun v => h.operandGlobals_eq hM v hgep
  unfold namedGlobals
  rw [hop]

theorem mem_callRules {i : Inst} {callee : Callee} {args : List Value} {c : Rule} :
    c ∈ callRules env' M' i callee args ↔ c ∈ callRules env M i callee args := by
  unfold callRules
  cases hcallee : callee.getCalledFunction with
  | none => exact Iff.rfl
  | some f =>
      rw [Option.bind_some, Option.bind_some]
      rcases h.func?_cases hM f with ⟨ha, hb⟩ | ⟨a, b, ha, hb, hab⟩
      · rw [ha, hb]
      · rw [ha, hb]
        have hreg : callRegisters M' i b args = callRegisters M i a args := by
          unfold callRegisters
          simp only [hab.name, hab.params, h.freedChain_eq hM, h.insts_perm.length_eq]
        simp only [List.mem_append, List.mem_flatMap, hreg, h.namedGlobals_eq hM hgep,
          h.mem_rewrittenReturns hnames hab.name]

/-- An instruction has the same rules. -/
theorem mem_clauses {i : Inst} {c : Rule} : c ∈ clauses env' M' i ↔ c ∈ clauses env M i := by
  unfold clauses
  rw [List.mem_append, List.mem_append, h.namedGlobals_eq hM hgep]
  refine or_congr_right ?_
  cases i.kind with
  | call callee args => exact h.mem_callRules hM hnames hgep
  | store val ptr => simp only [storeRules, h.typeOf_eq hM]
  | cast op v =>
      simp only [castRules, castPremise, h.typeOf_eq hM, h.castOperandClass_eq hM,
        h.couldChangeValue_eq hM]
  | _ => exact Iff.rfl

theorem allRules_eq : allRules env' M' = allRules env M := by
  ext c
  simp only [allRules, globalRules, Set.mem_union, Set.mem_ofPred_eq, h.globals,
    h.mem_analyzedInsts, h.mem_clauses hM hnames hgep]

end Reordered

/-! ## The result -/

/-- The invariant holds in every state of a run whose steps are in order. -/
theorem inferInv_run (hM : M.WF) (hnames : NamesUnique M) (halias : AliasLocal env M)
    (h : Run (Inference.step env M) (InOrder env M) (Inference.initial env M) e) :
    InferInv env M e :=
  h.invariant inferInv_initial fun _ _ hinv hok hstep => hinv.step hM hnames halias hok hstep

/-- **The inference is closed**, and independent of the order, when nothing is raised too late. -/
theorem inference_closed {env' : InferEnv} {M' : Module} {e' : Inference} (hM : M.WF) (hM' : M'.WF)
    (hnames : NamesUnique M) (hnames' : NamesUnique M') (halias : AliasLocal env M)
    (halias' : AliasLocal env' M') (hre : Reordered M M')
    (hgep : env'.gepOperatorGlobals = env.gepOperatorGlobals)
    (h : Run (Inference.step env M) (InOrder env M) (Inference.initial env M) e)
    (hend : e.step env M = none)
    (h' : Run (Inference.step env' M') (InOrder env' M') (Inference.initial env' M') e')
    (hend' : e'.step env' M' = none) :
    ClosedUnderMemory M e.state ∧ ∀ v, Raised e.state v ↔ Raised e'.state v := by
  have hfacts := (inferInv_run hM hnames halias h).facts_eq hend
  have hfacts' := (inferInv_run hM' hnames' halias' h').facts_eq hend'
  rw [hre.allRules_eq hM hnames hgep] at hfacts'
  refine ⟨closedUnderMemory_of_derives hfacts, fun v => ?_⟩
  rw [← mem_facts_raised, ← mem_facts_raised, hfacts, hfacts']

/-! ## The condition as a check -/

def holdsIn (st : AnalysisState) : Fact → Bool
  | .registered v => decide (st.Variables.has v)
  | .raised v => decide (Raised st v)

theorem holdsIn_iff {f : Fact} : holdsIn st f = true ↔ f ∈ facts st := by
  cases f with
  | registered v => exact decide_eq_true_iff
  | raised v => exact decide_eq_true_iff

/-- The fact holds after a visit of the rules. -/
def holdsAfter (l : List Rule) (st : AnalysisState) (f : Fact) : Bool :=
  holdsIn st f || l.any fun c => c.2 == f && c.1.all (holdsIn st)

theorem holdsAfter_iff {l : List Rule} {f : Fact} :
    holdsAfter l st f = true ↔ f ∈ visit {c | c ∈ l} (facts st) := by
  rw [mem_visit_list, holdsAfter, Bool.or_eq_true, holdsIn_iff, List.any_eq_true]
  simp only [Bool.and_eq_true, beq_iff_eq, List.all_eq_true, holdsIn_iff]

def inOrderCheck (env : InferEnv) (M : Module) (e : Inference) : Bool :=
  match e.todo with
  | [] => true
  | i :: _ =>
      (M.globals.map (fun g => (([], .registered (.global g.1)) : Rule)) ++
        e.done.flatMap (clauses env M) ++ clauses env M i).all fun c =>
          c.1.all (holdsIn e.state) || !c.1.all (holdsAfter (clauses env M i) e.state) ||
            holdsAfter (clauses env M i) e.state c.2

theorem inOrder_of_check (h : inOrderCheck env M e = true) : InOrder env M e := by
  intro i rest htodo ps f hc hnew hps
  rw [inOrderCheck, htodo, List.all_eq_true] at h
  have hmem : (ps, f) ∈ M.globals.map (fun g => (([], .registered (.global g.1)) : Rule)) ++
      e.done.flatMap (clauses env M) ++ clauses env M i := by
    rcases hc with (⟨g, hg, hc⟩ | ⟨j, hj, hc⟩) | hc
    · exact List.mem_append_left _ (List.mem_append_left _ (List.mem_map.mpr ⟨g, hg, hc.symm⟩))
    · exact List.mem_append_left _ (List.mem_append_right _ (List.mem_flatMap.mpr ⟨j, hj, hc⟩))
    · exact List.mem_append_right _ hc
  have hcheck := h (ps, f) hmem
  rw [Bool.or_eq_true, Bool.or_eq_true, holdsAfter_iff] at hcheck
  rcases hcheck with (hall | hnone) | hf
  · obtain ⟨p, hp, hno⟩ := hnew
    exact (hno (holdsIn_iff.mp (List.all_eq_true.mp hall p hp))).elim
  · rw [Bool.not_eq_true', List.all_eq_false] at hnone
    obtain ⟨p, hp, hno⟩ := hnone
    exact (hno (holdsAfter_iff.mpr (hps p hp))).elim
  · exact hf

/-! ## A pointer that is indexed after it was stored -/

def plainEnv : InferEnv where
  getSizeForValue := fun _ => sizeConst 8
  getOffsetForGEPInst := fun _ => sizeConst 5
  getTypeAllocSize := fun _ => 8
  constMul := fun a _ => a
  constSub := fun a _ => a
  gepOperatorGlobals := fun _ => []
  aliasNeighbors := fun _ => []
  globalOrder := []

/-- `%v = load i8*, i8** %a`. -/
def loadBlock : Block := ⟨0, [⟨0, .ptr (.ptr (.int 8)), .alloca (.ptr (.int 8)) (sizeConst 1)⟩,
  ⟨1, .ptr (.ptr (.int 8)), .alloca (.ptr (.int 8)) (sizeConst 1)⟩,
  ⟨2, .ptr (.int 8), .load (.inst 0)⟩, ⟨3, .void, .br 1⟩]⟩

/-- `store i8* %v, i8** %p`. -/
def storeBlock : Block := ⟨1, [⟨4, .void, .store (.inst 2) (.inst 1)⟩, ⟨5, .void, .br 2⟩]⟩

/-- `getelementptr i8, i8* %v, i64 5`. -/
def indexBlock : Block := ⟨2, [⟨6, .ptr (.int 8), .gep (.int 8) (.inst 2) [sizeConst 5]⟩,
  ⟨7, .void, .ret none⟩]⟩

/-- The three blocks, with the last two in either order. -/
def blocksModule (storeFirst : Bool) : Module where
  structs := fun _ => []
  globals := []
  funcs := [⟨0, "main", [], loadBlock ::
    if storeFirst then [storeBlock, indexBlock] else [indexBlock, storeBlock]⟩]

/-- The end of the inference. -/
def blocksEnd (storeFirst : Bool) : Inference :=
  stepN (Inference.step plainEnv (blocksModule storeFirst)) 9
    (Inference.initial plainEnv (blocksModule storeFirst))

theorem blocksModule_wf (storeFirst : Bool) : (blocksModule storeFirst).WF where
  funcs_nodup := by cases storeFirst <;> decide
  blocks_nodup := by cases storeFirst <;> decide
  insts_nodup := by cases storeFirst <;> decide
  terminated := Module.terminated_of_last (by cases storeFirst <;> decide)
  targets := by cases storeFirst <;> decide
  operands := Module.operands_of_stores_unused (by cases storeFirst <;> decide)

theorem reordered_blocks : Reordered (blocksModule true) (blocksModule false) where
  globals := rfl
  signatureOf := rfl
  funcs := ⟨(blocksModule true).funcs, .refl _, .cons ⟨rfl, rfl, rfl, .cons _ (.swap ..)⟩ .nil⟩

theorem reordered_refl (M : Module) : Reordered M M where
  globals := rfl
  signatureOf := rfl
  funcs := ⟨M.funcs, .refl _, List.forall₂_same.mpr fun _ _ => ⟨rfl, rfl, rfl, .refl _⟩⟩

theorem blocksModule_namesUnique (storeFirst : Bool) : NamesUnique (blocksModule storeFirst) :=
  List.nodup_singleton _

/-- With the index before the store, the pointer stored to is raised too. -/
theorem closed_index_first :
    ClosedUnderMemory (blocksModule false) (blocksEnd false).state ∧
      Raised (blocksEnd false).state (.inst 2) ∧ Raised (blocksEnd false).state (.inst 1) := by
  have hcheck : ∀ m < 9, inOrderCheck plainEnv (blocksModule false)
      (stepN (Inference.step plainEnv (blocksModule false)) m
        (Inference.initial plainEnv (blocksModule false))) = true := by decide +kernel
  have hrun : Run (Inference.step plainEnv (blocksModule false))
      (InOrder plainEnv (blocksModule false)) (Inference.initial plainEnv (blocksModule false))
      (blocksEnd false) :=
    run_stepN_of 9 _ fun m hm => inOrder_of_check (hcheck m hm)
  have halias : AliasLocal plainEnv (blocksModule false) := fun _ _ _ _ _ hj => nomatch hj
  have hend : (blocksEnd false).step plainEnv (blocksModule false) = none := by
    rw [step_eq_none_iff]
    decide +kernel
  refine ⟨(inference_closed (blocksModule_wf false) (blocksModule_wf false)
    (blocksModule_namesUnique false) (blocksModule_namesUnique false) halias halias
    (reordered_refl _) rfl hrun hend hrun hend).1, ?_, ?_⟩
  · decide +kernel
  · decide +kernel

/-- With the store first it is not, and the two orders differ. -/
theorem not_closed_store_first :
    (blocksModule true).WF ∧ Reordered (blocksModule true) (blocksModule false) ∧
      Run (Inference.step plainEnv (blocksModule true)) (fun _ => True)
        (Inference.initial plainEnv (blocksModule true)) (blocksEnd true) ∧
      (blocksEnd true).step plainEnv (blocksModule true) = none ∧
      ¬ ClosedUnderMemory (blocksModule true) (blocksEnd true).state ∧
      ¬ ∀ v, Raised (blocksEnd true).state v ↔ Raised (blocksEnd false).state v := by
  have hstored : ¬ Raised (blocksEnd true).state (.inst 1) := by decide +kernel
  refine ⟨blocksModule_wf true, reordered_blocks, run_stepN _ 9 _, ?_, fun h => ?_, fun h => ?_⟩
  · rw [step_eq_none_iff]
    decide +kernel
  · refine hstored (h.store ⟨4, .void, .store (.inst 2) (.inst 1)⟩ (by decide) _ _ rfl
      (by decide) ?_)
    unfold ReadsRaised
    decide +kernel
  · exact hstored ((h (.inst 1)).mpr (by decide +kernel))

end MSV
