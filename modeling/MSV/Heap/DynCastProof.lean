import MSV.Infer.ClosureProof
import MSV.Heap.Uriah

/-!
# Casts that stay dynamic

A cast of interest is classified `Dyn` when it is processed. `ClassifyPointerVariable` takes `Seq`
for a `Dyn` variable, so that a pointer that is indexed does not get rid of its spatial check; with
that the cast leaves the set of the casts that are type-checked.

**Theorem (`cast_stays_dyn`).** From the step that classifies it on, a cast is `Seq` or `Dyn` in
every state. It is `Dyn`, and a heap pointer among the casts to check, as long as no instruction
indexes it and none stores a `Seq` pointer through it.
-/

namespace MSV

/-- The class of a variable; one that is not registered would start as safe. -/
def AnalysisState.classOf (st : AnalysisState) (v : Value) : VariableStates :=
  (st.info v).classification

/-! ## The class under the operations -/

section

variable {st : AnalysisState} {v x : Value}

theorem classOf_modify {f : VariableInfo → VariableInfo}
    (hf : ∀ info, (f info).classification = info.classification) :
    (st.modify v f).classOf x = st.classOf x := by
  rw [AnalysisState.classOf, AnalysisState.info, AnalysisState.modify, FMap.find_set]
  by_cases hx : x = v
  · subst hx
    rw [if_pos rfl]
    exact hf _
  · rw [if_neg hx]
    rfl

theorem classOf_RegisterVariable : (st.RegisterVariable v).classOf x = st.classOf x := by
  unfold AnalysisState.RegisterVariable
  split
  · rfl
  · exact classOf_modify fun _ => rfl

theorem classOf_SetSizeForPointerVariable {size : Option Value} :
    (st.SetSizeForPointerVariable v size).classOf x = st.classOf x :=
  Eq.trans (classOf_modify fun _ => rfl) classOf_RegisterVariable

theorem classOf_SetInstantiatedExplicitSizeVariable {b : Bool} :
    (st.SetInstantiatedExplicitSizeVariable v b).classOf x = st.classOf x :=
  Eq.trans (classOf_modify fun _ => rfl) classOf_RegisterVariable

/-- The class a classification leaves. -/
def VariableStates.classify (old c : VariableStates) : VariableStates :=
  if old.rank < c.rank ∨ (old = .dyn ∧ c = .seq) then c else old

theorem classOf_ClassifyPointerVariable {c : VariableStates} :
    (st.ClassifyPointerVariable v c).classOf x =
      if x = v then (st.classOf v).classify c else st.classOf x := by
  by_cases hx : x = v
  · subst hx
    rw [if_pos rfl, AnalysisState.classOf, info_ClassifyPointerVariable]
    show VariableStates.classify ((st.RegisterVariable x).classOf x) c = _
    rw [classOf_RegisterVariable]
  · rw [if_neg hx, AnalysisState.classOf, AnalysisState.info, find_ClassifyPointerVariable_ne hx]
    exact classOf_RegisterVariable

/-- Only `Seq` takes a variable out of `Dyn`. -/
theorem classify_dyn {c : VariableStates} (h : c ≠ .seq) :
    VariableStates.classify .dyn c = .dyn := by
  cases c with
  | seq => exact absurd rfl h
  | _ => rfl

theorem classify_to_dyn (old : VariableStates) : old.classify .dyn = .dyn := by
  cases old <;> rfl

/-- The class that is read is `Seq` only if the variable is. -/
theorem classOf_of_GetPointerVariableInfo {info : VariableInfo}
    (h : st.GetPointerVariableInfo v = some info) (hseq : info.classification = .seq) :
    isNull v = false ∧ st.classOf v = .seq := by
  have hn : isNull v = false := ((isUnsafe_of_GetPointerVariableInfo h).mp (by rw [hseq]; rfl)).1
  rw [GetPointerVariableInfo_eq_find hn] at h
  refine ⟨hn, ?_⟩
  rw [AnalysisState.classOf, AnalysisState.info, h]
  exact hseq

end

/-! ## What takes a cast out of `Dyn` -/

variable {env : InferEnv} {M : Module} {st : AnalysisState} {i j : Inst} {op : CastOp} {w : Value}

/-- The instruction asks for `Seq` for the variable: it indexes it, or stores a `Seq` pointer
through it. -/
def Downgrades (M : Module) (st : AnalysisState) (x : Value) (j : Inst) : Prop :=
  match j.kind with
  | .gep _ base indices => base = x ∧ Module.hasAllZeroIndices indices = false
  | .store val ptr => ptr = x ∧ (M.typeOf val).isPointerTy = true ∧ isNull val = false ∧
      st.classOf val = .seq
  | _ => False

/-- An instruction other than a store through the cast keeps the class, if it asks for no `Seq`. -/
theorem survives_dyn {x : Value}
    (h : ∀ v c, Classifies M j v c → v = x → c ≠ .seq) :
    Survives M j fun st => st.classOf x = .dyn where
  register _ _ h := classOf_RegisterVariable.trans h
  setSize _ _ _ h := classOf_SetSizeForPointerVariable.trans h
  setInstantiated _ _ _ h := classOf_SetInstantiatedExplicitSizeVariable.trans h
  addFunction _ _ h := Eq.trans (classOf_modify fun _ => rfl) h
  classify st v c hc hdyn := by
    rw [classOf_ClassifyPointerVariable]
    by_cases hx : x = v
    · subst hx
      rw [if_pos rfl, hdyn, classify_dyn (h x c hc rfl)]
    · rw [if_neg hx, hdyn]

theorem classOf_processGlobalVariables {x : Value} :
    (processGlobalVariables env M j st).classOf x = st.classOf x := by
  unfold processGlobalVariables
  generalize j.kind.operands.flatMap (operandGlobals env M) = l
  induction l generalizing st with
  | nil => rfl
  | cons g l ih => exact ih.trans (classOf_modify fun _ => rfl)

/-- A store of a pointer that is not `Seq`. -/
theorem classOf_processStoreInst {x val ptr : Value} (hdyn : st.classOf x = .dyn)
    (h : ¬ (ptr = x ∧ (M.typeOf val).isPointerTy = true ∧ isNull val = false ∧
      st.classOf val = .seq)) :
    (processStoreInst env M val ptr st).classOf x = .dyn := by
  unfold processStoreInst
  split
  · rename_i hptr
    dsimp only
    have hsame : ∀ y, (if (st.GetPointerVariableInfo val).isSome = true then st
        else st.SetSizeForPointerVariable val (some (env.getSizeForValue val))).classOf y =
        st.classOf y := by
      intro y
      split
      · rfl
      · exact classOf_SetSizeForPointerVariable
    split
    · rename_i info hinfo
      rw [classOf_SetSizeForPointerVariable, classOf_ClassifyPointerVariable]
      by_cases hx : x = ptr
      · subst hx
        rw [if_pos rfl, hsame, hdyn]
        apply classify_dyn
        intro hseq
        obtain ⟨hn, hc⟩ := classOf_of_GetPointerVariableInfo hinfo hseq
        rw [hsame] at hc
        exact h ⟨rfl, hptr, hn, hc⟩
      · rw [if_neg hx, hsame, hdyn]
    · rw [hsame, hdyn]
  · split
    · exact hdyn
    · rw [classOf_SetInstantiatedExplicitSizeVariable, classOf_SetSizeForPointerVariable, hdyn]

/-- What every other kind of instruction asks for a cast of the module is not `Seq`. -/
theorem ne_seq_of_classifies (hM : M.WF) (hi : i ∈ M.insts) (hj : j ∈ M.insts)
    (hk : i.kind = .cast op w) (hstore : j.kind.isStore = false)
    (h : ¬ Downgrades M st (.inst i.id) j) :
    ∀ v c, Classifies M j v c → v = .inst i.id → c ≠ .seq := by
  intro v c hc hv hseq
  have hid : ∀ {l : Inst}, l ∈ M.insts → Value.inst l.id = .inst i.id → l = i := by
    intro l hl heq
    exact List.inj_on_of_nodup_map hM.insts_nodup hl hi (by simpa using heq)
  subst hv hseq
  unfold Classifies at hc
  unfold Downgrades at h
  split at hc
  · rename_i hkj
    rw [hkj] at hstore
    cases hstore
  · rename_i hkj
    rw [hid hj hc.symm, hk] at hkj
    cases hkj
  · rename_i hkj
    rw [hid hj hc.symm, hk] at hkj
    cases hkj
  · rename_i hkj
    rw [hkj] at h
    obtain ⟨hz, -, hbase | hself⟩ := hc
    · exact h ⟨hbase.symm, hz⟩
    · rw [hid hj hself.symm, hk] at hkj
      cases hkj
  · obtain ⟨-, hdyn⟩ | ⟨hw, hdyn | ⟨-, src, base, indices, hgep⟩⟩ := hc
    · cases hdyn
    · cases hdyn
    · -- the operand of a cast is made `Seq` only if it is a GEP
      rw [← hw] at hgep
      obtain ⟨l, hl, hlid, hlk⟩ := M.exists_of_kindOf hgep
      rw [hid hl hlid.symm, hk] at hlk
      cases hlk
  · exact hc

/-- One instruction keeps a cast `Dyn` unless it asks for `Seq`. -/
theorem classOf_processInstruction (hM : M.WF) (hi : i ∈ M.insts) (hj : j ∈ M.insts)
    (hk : i.kind = .cast op w) (hdyn : st.classOf (.inst i.id) = .dyn)
    (h : ¬ Downgrades M st (.inst i.id) j) :
    (processInstruction env M j st).classOf (.inst i.id) = .dyn := by
  cases hstore : j.kind.isStore with
  | false =>
      exact (survives_dyn (ne_seq_of_classifies hM hi hj hk hstore h)).processInstruction hdyn
  | true =>
      unfold processInstruction
      cases hkj : j.kind with
      | store val ptr =>
          rw [Downgrades, hkj] at h
          apply classOf_processStoreInst
          · rw [classOf_processGlobalVariables, hdyn]
          · rw [classOf_processGlobalVariables]
            exact h
      | _ => rw [hkj] at hstore; cases hstore

/-- A cast of interest of a load, a GEP, a cast or a call is classified `Dyn`. -/
theorem classOf_processCastInst (hptr : (M.typeOf w).isPointerTy = true)
    (hint : isCastOfInterest (M.typeOf w) i.ty = true)
    (hop : (castOperandClass M w).isSome = true) :
    (processCastInst env M i op w st).classOf (.inst i.id) = .dyn := by
  obtain ⟨⟨c, d⟩, hc⟩ := Option.isSome_iff_exists.mp hop
  have hd : d = .dyn := by
    unfold castOperandClass at hc
    split at hc <;> grind
  subst hd
  have hn : isNull w = false := by
    cases w with
    | null ty => cases hop
    | _ => rfl
  unfold processCastInst
  dsimp only
  split
  · rename_i hnone
    obtain ⟨-, hno⟩ := GetPointerVariableInfo_none.mp hnone
    rw [hptr, Bool.and_true] at hno
    split at hno
    · rw [← mem_facts_registered, facts_SetSizeForPointerVariable] at hno
      exact absurd (Set.mem_insert _ _) hno
    · rename_i hsome
      rw [GetPointerVariableInfo_eq_find hn] at hsome
      rw [FMap.not_has_iff_find] at hno
      rw [hno] at hsome
      simp at hsome
  · rw [hint, hptr]
    simp only [Bool.not_true, Bool.false_eq_true, if_false]
    unfold castPointer
    simp only [hc]
    rw [classOf_SetSizeForPointerVariable, classOf_ClassifyPointerVariable, if_pos rfl,
      classify_to_dyn]

/-! ## Runs -/

/-- The instructions in the graph are those of the module. -/
def AliasInModule (env : InferEnv) (M : Module) : Prop :=
  ∀ i ∈ M.insts, ∀ j ∈ env.aliasNeighbors i, j ∈ M.insts

/-- What is still to be processed belongs to the module. -/
structure InModule (M : Module) (e : Inference) : Prop where
  todo : ∀ j ∈ e.todo, j ∈ M.insts
  functions : ∀ f ∈ e.functions, f ∈ M.funcs

theorem inModule_initial : InModule M (Inference.initial env M) where
  todo _ hj := nomatch hj
  functions _ hf := (List.mem_filter.mp hf).1

theorem reanalyzed_inModule (halias : AliasInModule env M) {g : GlobalId} {names : List String} :
    ∀ j ∈ reanalyzed env M g names, j ∈ M.insts := by
  intro j hj
  obtain ⟨name, -, hname⟩ := List.mem_flatMap.mp hj
  cases hf : M.getFunction name with
  | none => rw [hf] at hname; cases hname
  | some f =>
      rw [hf] at hname
      obtain ⟨l, hl, hlj⟩ := List.mem_flatMap.mp hname
      obtain ⟨-, -, hjl⟩ := List.mem_flatMap.mp hlj
      exact halias l (List.mem_flatMap.mpr ⟨f, List.mem_of_find?_eq_some hf, hl⟩) j hjl

/-- One step, seen through the state: an instruction of the module, or nothing that changes a
class. -/
theorem InModule.step (halias : AliasInModule env M) {e e' : Inference} (h : InModule M e)
    (hstep : e.step env M = some e') :
    InModule M e' ∧ ((∃ j rest, e.todo = j :: rest ∧ j ∈ M.insts ∧
      e'.state = processInstruction env M j e.state) ∨
        ∀ x, e'.state.classOf x = e.state.classOf x) := by
  unfold Inference.step at hstep
  cases htodo : e.todo with
  | cons j rest =>
      rw [htodo] at hstep
      obtain rfl := Option.some.inj hstep
      refine ⟨⟨fun l hl => h.todo l (by simp [htodo, hl]), h.functions⟩,
        Or.inl ⟨j, rest, rfl, ?_, rfl⟩⟩
      exact h.todo j (by simp [htodo])
  | nil =>
      rw [htodo] at hstep
      dsimp only at hstep
      cases hfs : e.functions with
      | cons f fs =>
          rw [hfs] at hstep
          obtain rfl := Option.some.inj hstep
          have hf : f ∈ M.funcs := h.functions f (by simp [hfs])
          refine ⟨⟨fun l hl => List.mem_flatMap.mpr ⟨f, hf, hl⟩, fun l hl => ?_⟩,
            Or.inr fun x => rfl⟩
          exact h.functions l (by simp [hfs, hl])
      | nil =>
          rw [hfs] at hstep
          dsimp only at hstep
          cases hgs : e.globals with
          | nil => rw [hgs] at hstep; cases hstep
          | cons g gs =>
              rw [hgs] at hstep
              dsimp only at hstep
              split at hstep
              · obtain rfl := Option.some.inj hstep
                refine ⟨⟨reanalyzed_inModule halias, by simp⟩, Or.inr fun x => ?_⟩
                exact classOf_modify fun _ => rfl
              · obtain rfl := Option.some.inj hstep
                exact ⟨⟨by simp, by simp⟩, Or.inr fun x => rfl⟩

/-- The next instruction does not ask for `Seq` for the variable. -/
def KeepsDyn (M : Module) (x : Value) (e : Inference) : Prop :=
  ∀ j rest, e.todo = j :: rest → ¬ Downgrades M e.state x j

/-- In a run without such an instruction a cast stays `Dyn`. -/
theorem classOf_run (hM : M.WF) (halias : AliasInModule env M) (hi : i ∈ M.insts)
    (hk : i.kind = .cast op w) {e e' : Inference} (hmod : InModule M e)
    (hdyn : e.state.classOf (.inst i.id) = .dyn)
    (h : Run (Inference.step env M) (KeepsDyn M (.inst i.id)) e e') :
    e'.state.classOf (.inst i.id) = .dyn := by
  have hinv : InModule M e' ∧ e'.state.classOf (.inst i.id) = .dyn := by
    apply h.invariant (P := fun e => InModule M e ∧ e.state.classOf (.inst i.id) = .dyn)
      ⟨hmod, hdyn⟩
    intro a b hab hok hstep
    obtain ⟨hb, ⟨j, rest, htodo, hj, hstate⟩ | hsame⟩ := hab.1.step halias hstep
    · refine ⟨hb, ?_⟩
      rw [hstate]
      exact classOf_processInstruction hM hi hj hk hab.2 (hok j rest htodo)
    · exact ⟨hb, (hsame _).trans hab.2⟩
  exact hinv.2

/-! ## A classification of interest is kept -/

theorem survives_unsafe {x : Value} :
    Survives M j fun st => (st.classOf x).isUnsafe = true where
  register _ _ h := by rwa [classOf_RegisterVariable]
  setSize _ _ _ h := by rwa [classOf_SetSizeForPointerVariable]
  setInstantiated _ _ _ h := by rwa [classOf_SetInstantiatedExplicitSizeVariable]
  addFunction st g h := by
    rw [classOf_modify]
    · exact h
    · exact fun _ => rfl
  classify st v c _ h := by
    rw [classOf_ClassifyPointerVariable]
    by_cases hx : x = v
    · subst hx
      rw [if_pos rfl, VariableStates.classify, isUnsafe_classify, h, Bool.true_or]
    · rwa [if_neg hx]

/-- A variable that is `Seq` or `Dyn` is one of them ever after. -/
theorem isUnsafe_run (halias : AliasInModule env M) {x : Value} {e e' : Inference}
    (hmod : InModule M e) (hx : (e.state.classOf x).isUnsafe = true)
    (h : Run (Inference.step env M) (fun _ => True) e e') :
    (e'.state.classOf x).isUnsafe = true := by
  have hinv : InModule M e' ∧ (e'.state.classOf x).isUnsafe = true := by
    apply h.invariant (P := fun e => InModule M e ∧ (e.state.classOf x).isUnsafe = true) ⟨hmod, hx⟩
    intro a b hab _ hstep
    obtain ⟨hb, ⟨j, rest, -, -, hstate⟩ | hsame⟩ := hab.1.step halias hstep
    · refine ⟨hb, ?_⟩
      rw [hstate]
      exact survives_unsafe.processInstruction hab.2
    · exact ⟨hb, by rw [hsame]; exact hab.2⟩
  exact hinv.2

/-! ## The casts that are checked -/

theorem has_heapDynPtrSet_classify {s : HeapSets} {v x : Value} {info : VariableInfo} :
    (classifyHeapPointer M s v info).heapDynPtrSet.has x ↔
      s.heapDynPtrSet.has x ∨ x = v ∧ info.classification = .dyn ∧ isCast M v = true := by
  unfold classifyHeapPointer
  cases hc : info.classification <;> cases hcast : isCast M v <;>
    simp [VariableStates.isUnsafe, FMap.has_set, or_comm]

theorem has_heapDynPtrSet {heapPointerSet : PointerSet} {x : Value} :
    (identifyHeapObjectClassification M heapPointerSet).heapDynPtrSet.has x ↔
      isCast M x = true ∧ ∃ info, heapPointerSet.find x = some info ∧
        info.classification = .dyn := by
  have hfold : ∀ (l : List (Sigma fun _ : Value => VariableInfo)) (s : HeapSets),
      (l.foldl (fun s e => classifyHeapPointer M s e.1 e.2) s).heapDynPtrSet.has x ↔
        s.heapDynPtrSet.has x ∨
          ∃ e ∈ l, x = e.1 ∧ e.2.classification = .dyn ∧ isCast M e.1 = true :=
    foldl_adds (Q := fun s : HeapSets => s.heapDynPtrSet.has x)
      fun _ _ => has_heapDynPtrSet_classify
  rw [identifyHeapObjectClassification, hfold]
  constructor
  · intro h
    obtain h | ⟨⟨v, info⟩, he, rfl, hdyn, hcast⟩ := h
    · exact absurd h (FMap.not_has_empty _)
    · exact ⟨hcast, info, AList.mem_lookup_iff.mpr he, hdyn⟩
  · intro h
    obtain ⟨hcast, info, hf, hdyn⟩ := h
    exact Or.inr ⟨⟨x, info⟩, AList.mem_lookup_iff.mp hf, rfl, hdyn, hcast⟩

/-- **A cast stays dynamic** until it is indexed or a `Seq` pointer is stored through it, and it is
never taken for safe. -/
theorem cast_stays_dyn (hM : M.WF) (halias : AliasInModule env M) (hi : i ∈ M.insts)
    (hk : i.kind = .cast op w) (hptr : (M.typeOf w).isPointerTy = true)
    (hint : isCastOfInterest (M.typeOf w) i.ty = true)
    (hop : (castOperandClass M w).isSome = true) {e e₁ e' : Inference} {rest : List Inst}
    (hreach : Run (Inference.step env M) (fun _ => True) (Inference.initial env M) e)
    (htodo : e.todo = i :: rest) (hstep : e.step env M = some e₁)
    (hrun : Run (Inference.step env M) (fun _ => True) e₁ e') :
    e₁.state.classOf (.inst i.id) = .dyn ∧
      (e'.state.classOf (.inst i.id)).isUnsafe = true ∧
      (Run (Inference.step env M) (KeepsDyn M (.inst i.id)) e₁ e' →
        e'.state.classOf (.inst i.id) = .dyn ∧
          ∀ heapPointerSet : PointerSet,
            heapPointerSet.find (.inst i.id) = e'.state.Variables.find (.inst i.id) →
              (identifyHeapObjectClassification M heapPointerSet).heapDynPtrSet.has
                (.inst i.id)) := by
  have hmod : InModule M e :=
    hreach.invariant inModule_initial fun _ _ h _ hs => (h.step halias hs).1
  have hmod₁ : InModule M e₁ := (hmod.step halias hstep).1
  have hdyn : e₁.state.classOf (.inst i.id) = .dyn := by
    rw [Inference.step, htodo] at hstep
    obtain rfl := Option.some.inj hstep
    show (processInstruction env M i e.state).classOf (.inst i.id) = .dyn
    rw [processInstruction, hk]
    exact classOf_processCastInst hptr hint hop
  refine ⟨hdyn, isUnsafe_run halias hmod₁ (by rw [hdyn]; rfl) hrun, fun hkeeps => ?_⟩
  have hend := classOf_run hM halias hi hk hmod₁ hdyn hkeeps
  refine ⟨hend, fun heapPointerSet hfind => has_heapDynPtrSet.mpr ⟨?_, ?_⟩⟩
  · rw [isCast, hM.kindOf_eq hi, hk]
  · rw [hfind]
    rw [AnalysisState.classOf, AnalysisState.info] at hend
    cases hf : e'.state.Variables.find (.inst i.id) with
    | none => rw [hf] at hend; cases hend
    | some info =>
        rw [hf] at hend
        exact ⟨info, rfl, hend⟩

/-- `((struct S *)*slot)[n]`, with a constant index. -/
def indexedCast (n : Nat) : Module where
  structs := fun _ => [.int 64]
  globals := []
  funcs := [⟨0, "main", [.ptr (.ptr (.int 8))], [⟨0, [
    ⟨0, .ptr (.int 8), .load (.arg 0 0)⟩,
    ⟨1, .ptr (.struct 0), .cast .bitcast (.inst 0)⟩,
    ⟨2, .ptr (.struct 0), .gep (.struct 0) (.inst 1) [sizeConst n]⟩,
    ⟨3, .void, .ret none⟩]⟩]⟩]

theorem indexedCast_wf (n : Nat) : (indexedCast n).WF where
  funcs_nodup := by simp [indexedCast]
  blocks_nodup := by simp [indexedCast, Module.blocks]
  insts_nodup := by simp [indexedCast, Module.insts, Function.insts]
  terminated := Module.terminated_of_last <| by
    simp [indexedCast, Module.blocks, InstKind.isTerminator]
  targets := by simp [indexedCast, Block.successors, Block.terminator, InstKind.successors]
  operands := Module.operands_of_isStore_eq_false <| by
    simp [indexedCast, Module.insts, Function.insts, InstKind.isStore]

/-- The pass after a number of steps. -/
def indexedAfter (n steps : Nat) : Inference :=
  stepN (Inference.step plainEnv (indexedCast n)) steps (Inference.initial plainEnv (indexedCast n))

/-- With the index zero the cast is among those to check. -/
theorem cast_stays_dyn_unindexed :
    (indexedAfter 0 5).step plainEnv (indexedCast 0) = none ∧
      (indexedAfter 0 5).state.classOf (.inst 1) = .dyn := by
  have hend : (indexedAfter 0 5).step plainEnv (indexedCast 0) = none := by
    rw [step_eq_none_iff]
    decide +kernel
  have hkeeps : Run (Inference.step plainEnv (indexedCast 0)) (KeepsDyn (indexedCast 0) (.inst 1))
      (indexedAfter 0 3) (indexedAfter 0 5) := by
    refine .tail (.tail (.refl _) ?_ rfl) ?_ rfl
    · intro j rest hj
      obtain rfl : j = ⟨2, .ptr (.struct 0), .gep (.struct 0) (.inst 1) [sizeConst 0]⟩ :=
        (List.cons.inj hj).1.symm
      have hz : Module.hasAllZeroIndices [sizeConst 0] = true := by decide
      simp [Downgrades, hz]
    · intro j rest hj
      obtain rfl : j = ⟨3, .void, .ret none⟩ := (List.cons.inj hj).1.symm
      simp [Downgrades]
  refine ⟨hend, ((cast_stays_dyn (i := ⟨1, .ptr (.struct 0), .cast .bitcast (.inst 0)⟩)
    (indexedCast_wf 0) (fun _ _ _ hj => absurd hj List.not_mem_nil) (by decide) rfl (by decide)
    (by decide) (by decide) (run_stepN _ 2 _) rfl rfl (hkeeps.mono fun _ _ => trivial)).2.2
    hkeeps).1⟩

/-- With another index it is not: the cast ends as `Seq`, and no heap pointer set brings it back. -/
theorem cast_downgraded :
    (indexedCast 1).WF ∧
      Run (Inference.step plainEnv (indexedCast 1)) (fun _ => True)
        (Inference.initial plainEnv (indexedCast 1)) (indexedAfter 1 5) ∧
      (indexedAfter 1 5).step plainEnv (indexedCast 1) = none ∧
      (indexedAfter 1 3).state.classOf (.inst 1) = .dyn ∧
      (indexedAfter 1 5).state.classOf (.inst 1) = .seq ∧
      ¬ (identifyHeapObjectClassification (indexedCast 1)
        (indexedAfter 1 5).state.Variables).heapDynPtrSet.has (.inst 1) := by
  refine ⟨indexedCast_wf 1, run_stepN _ 5 _, ?_, by decide +kernel, by decide +kernel,
    by decide +kernel⟩
  rw [step_eq_none_iff]
  decide +kernel

end MSV
