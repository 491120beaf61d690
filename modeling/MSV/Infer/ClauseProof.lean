import MSV.Infer.Process
import MSV.Lib.Horn

/-!
# What an instruction contributes to the inference

Only two things about a variable matter to the rest of the inference: that it is registered, and
that it is classified `Seq` or `Dyn`; sizes do not, and neither does which of the two it is. Seen
through these facts, processing an instruction is a visit of a few Horn clauses (`clauses`), most of
them without premises.

**Theorem (`facts_processInstruction`).** Processing an instruction adds exactly the conclusions of
its clauses whose premises hold before.
-/

namespace MSV

variable {env : InferEnv} {M : Module} {st : AnalysisState} {v x : Value} {i : Inst}

/-! ## Facts and clauses -/

/-- What the inference knows of a variable. -/
inductive Fact where
  | registered (v : Value)
  /-- Classified `Seq` or `Dyn`. -/
  | raised (v : Value)
deriving DecidableEq

/-- The variable is classified `Seq` or `Dyn`. -/
def Raised (st : AnalysisState) (v : Value) : Prop :=
  (st.Variables.find v).any (·.classification.isUnsafe) = true

instance (st : AnalysisState) (v : Value) : Decidable (Raised st v) :=
  inferInstanceAs (Decidable (_ = true))

/-- The facts of a state. -/
def facts (st : AnalysisState) : Set Fact := fun
  | .registered v => st.Variables.has v
  | .raised v => Raised st v

/-- A null pointer has a temporary entry of its own, so it is never looked up. -/
def isNull : Value → Bool
  | .null _ => true
  | _ => false

abbrev Rule := List Fact × Fact

/-- A rule that registers a variable. -/
def register (ps : List Fact) (v : Value) : List Rule := [(ps, .registered v)]

/-- Rules that classify a variable `Seq` or `Dyn`. -/
def raise (ps : List Fact) (v : Value) : List Rule := [(ps, .registered v), (ps, .raised v)]

/-- Rules that give a variable the classification of another. -/
def copyClass (v x : Value) (known : Bool) : List Rule :=
  if isNull v then register [] x
  else register (if known then [] else [.registered v]) x ++ [([.raised v], .raised x)]

/-- What a call registers for the sake of sizes. -/
def callRegisters (M : Module) (i : Inst) (f : Function) (args : List Value) : List Value :=
  if containsText f.name "malloc" && f.params.length == 1 then [.inst i.id]
  else if containsText f.name "realloc" && f.params.length == 2 then [.inst i.id]
  else if containsText f.name "free" && f.params.length == 1 then
    match args[0]? with
    | some v => v :: freedChain M M.insts.length v
    | none => []
  else if i.ty.isPointerTy then [.inst i.id]
  else []

/-- The globals an instruction names. -/
def namedGlobals (env : InferEnv) (M : Module) (i : Inst) : List Value :=
  (i.kind.operands.flatMap (operandGlobals env M)).map .global

/-- The rules of a call: what it registers, and the returns of the rewritten function. -/
def callRules (env : InferEnv) (M : Module) (i : Inst) (callee : Callee) (args : List Value) :
    List Rule :=
  match callee.getCalledFunction.bind M.func? with
  | none => []
  | some f =>
      (callRegisters M i f args).flatMap (register []) ++
        (rewrittenReturns M f).flatMap fun r => copyClass r (.inst i.id)
          (decide (r ∈ namedGlobals env M i ++ callRegisters M i f args))

def storeRules (M : Module) (val ptr : Value) : List Rule :=
  if (M.typeOf val).isPointerTy then
    (if isNull val then [] else register [] val) ++ register [] ptr ++ copyClass val ptr true
  else if isNull ptr then [] else register [] ptr

def loadRules (i : Inst) (ptr : Value) : List Rule :=
  if i.ty.isPointerTy then
    (if ptr.isConstant && !isNull ptr then register [] ptr else []) ++
      copyClass ptr (.inst i.id) ptr.isConstant
  else if isNull ptr then [] else register [] ptr

def gepRules (i : Inst) (base : Value) (indices : List Value) : List Rule :=
  (if !Module.hasAllZeroIndices indices then raise [] base ++ raise [] (.inst i.id) else []) ++
    register [] (.inst i.id) ++
    if isNull base && !(resultElementType i.ty).isPointerTy then register [] base else []

/-- The premise that the operand of a cast has an entry. -/
def castPremise (M : Module) (v : Value) : List Fact :=
  if isNull v || (M.typeOf v).isPointerTy then [] else [.registered v]

def castRules (M : Module) (i : Inst) (op : CastOp) (v : Value) : List Rule :=
  (if !isNull v && (M.typeOf v).isPointerTy then register [] v else []) ++
    if !isCastOfInterest (M.typeOf v) i.ty then []
    else if !(M.typeOf v).isPointerTy then
      if couldChangeValue M i op v then
        raise (castPremise M v) v ++ raise (castPremise M v) (.inst i.id)
      else []
    else
      (if (castOperandClass M v).isSome then raise [] v ++ raise [] (.inst i.id) else []) ++
        register [] (.inst i.id)

/-- The rules of an instruction. -/
def clauses (env : InferEnv) (M : Module) (i : Inst) : List Rule :=
  (namedGlobals env M i).flatMap (register []) ++
    match i.kind with
    | .alloca .. => register [] (.inst i.id)
    | .call callee args => callRules env M i callee args
    | .store val ptr => storeRules M val ptr
    | .load ptr => loadRules i ptr
    | .gep _ base indices => gepRules i base indices
    | .cast op v => castRules M i op v
    | _ => []

/-! ## The operations on the state -/

theorem mem_facts_registered : Fact.registered v ∈ facts st ↔ st.Variables.has v := Iff.rfl

theorem mem_facts_raised : Fact.raised v ∈ facts st ↔ Raised st v := Iff.rfl

theorem has_of_raised (h : Raised st v) : st.Variables.has v := by
  unfold Raised at h
  cases hf : st.Variables.find v with
  | none => rw [hf] at h; cases h
  | some info => exact FMap.has_of_find hf

/-- What a rewriting of one entry adds. -/
theorem facts_modify {f : VariableInfo → VariableInfo}
    (hf : ∀ info, (f info).classification = info.classification) :
    facts (st.modify v f) = insert (.registered v) (facts st) := by
  ext fact
  rw [Set.mem_insert_iff]
  cases fact with
  | registered x =>
      rw [mem_facts_registered, AnalysisState.modify, FMap.has_set, Fact.registered.injEq]
      rfl
  | raised x =>
      rw [mem_facts_raised, Raised, AnalysisState.modify, FMap.find_set]
      by_cases hx : x = v
      · subst hx
        rw [if_pos rfl, Option.any_some, hf, AnalysisState.info]
        simp only [reduceCtorEq, false_or]
        show _ ↔ Raised st x
        unfold Raised
        cases st.Variables.find x with
        | none => simp [VariableInfo.registered, VariableStates.isUnsafe]
        | some info => simp
      · rw [if_neg hx]
        simp only [reduceCtorEq, false_or]
        rfl

theorem facts_RegisterVariable : facts (st.RegisterVariable v) =
    insert (.registered v) (facts st) := by
  unfold AnalysisState.RegisterVariable
  split
  · rename_i h
    exact (Set.insert_eq_of_mem (mem_facts_registered.mpr h)).symm
  · exact facts_modify fun _ => rfl

theorem raised_RegisterVariable : Raised (st.RegisterVariable v) x ↔ Raised st x := by
  rw [← mem_facts_raised, facts_RegisterVariable, ← mem_facts_raised]
  simp

theorem facts_SetSizeForPointerVariable {size : Option Value} :
    facts (st.SetSizeForPointerVariable v size) = insert (.registered v) (facts st) := by
  refine Eq.trans (facts_modify fun _ => rfl) ?_
  rw [facts_RegisterVariable, Set.insert_idem]

theorem facts_SetInstantiatedExplicitSizeVariable {b : Bool} :
    facts (st.SetInstantiatedExplicitSizeVariable v b) = insert (.registered v) (facts st) := by
  refine Eq.trans (facts_modify fun _ => rfl) ?_
  rw [facts_RegisterVariable, Set.insert_idem]

/-- The class a variable has after it is classified. -/
theorem isUnsafe_classify (old c : VariableStates) :
    (if old.rank < c.rank ∨ (old = .dyn ∧ c = .seq) then c else old).isUnsafe =
      (old.isUnsafe || c.isUnsafe) := by
  cases old <;> cases c <;> decide

theorem raised_iff_info (h : st.Variables.has v) :
    Raised st v ↔ (st.info v).classification.isUnsafe = true := by
  obtain ⟨info, hinfo⟩ := FMap.has_iff_find.mp h
  rw [Raised, AnalysisState.info, hinfo]
  rfl

theorem find_ClassifyPointerVariable_ne {c : VariableStates} (h : x ≠ v) :
    (st.ClassifyPointerVariable v c).Variables.find x =
      (st.RegisterVariable v).Variables.find x := by
  rw [AnalysisState.ClassifyPointerVariable]
  split
  · exact FMap.find_set_ne _ _ h
  · rfl

theorem info_ClassifyPointerVariable {c : VariableStates} :
    ((st.ClassifyPointerVariable v c).info v).classification =
      let old := ((st.RegisterVariable v).info v).classification
      if old.rank < c.rank ∨ (old = .dyn ∧ c = .seq) then c else old := by
  rw [AnalysisState.ClassifyPointerVariable]
  dsimp only
  split
  · rw [AnalysisState.info, AnalysisState.modify, FMap.find_set_self]
    rfl
  · rfl

theorem has_ClassifyPointerVariable {c : VariableStates} :
    (st.ClassifyPointerVariable v c).Variables.has x ↔ x = v ∨ st.Variables.has x := by
  have hreg : (st.RegisterVariable v).Variables.has x ↔ x = v ∨ st.Variables.has x := by
    rw [← mem_facts_registered, facts_RegisterVariable, Set.mem_insert_iff, Fact.registered.injEq]
    rfl
  rw [AnalysisState.ClassifyPointerVariable]
  split
  · rw [AnalysisState.modify, FMap.has_set, hreg]
    tauto
  · exact hreg

/-- Classifying a variable registers it, and raises it if the class is `Seq` or `Dyn`. -/
theorem facts_ClassifyPointerVariable {c : VariableStates} :
    facts (st.ClassifyPointerVariable v c) =
      {f | f ∈ facts st ∨ f = .registered v ∨ f = .raised v ∧ c.isUnsafe = true} := by
  ext fact
  rw [Set.mem_ofPred_eq]
  cases fact with
  | registered x =>
      rw [mem_facts_registered, has_ClassifyPointerVariable, mem_facts_registered]
      simp [or_comm]
  | raised x =>
      by_cases hx : x = v
      · subst hx
        have hhas : (st.RegisterVariable x).Variables.has x := by
          rw [← mem_facts_registered, facts_RegisterVariable]
          exact Set.mem_insert _ _
        rw [mem_facts_raised, raised_iff_info (has_ClassifyPointerVariable.mpr (Or.inl rfl)),
          info_ClassifyPointerVariable, isUnsafe_classify, Bool.or_eq_true,
          ← raised_iff_info hhas, raised_RegisterVariable, mem_facts_raised]
        simp
      · rw [mem_facts_raised, Raised, find_ClassifyPointerVariable_ne hx]
        show Raised (st.RegisterVariable v) x ↔ _
        rw [raised_RegisterVariable, mem_facts_raised]
        simp [hx]

/-! ## Looking up an entry -/

theorem GetPointerVariableInfo_null (st : AnalysisState) (h : isNull v = true) : ∃ info,
    st.GetPointerVariableInfo v = some info ∧ info.classification.isUnsafe = false := by
  cases v with
  | null ty => exact ⟨_, rfl, rfl⟩
  | _ => cases h

theorem hasExplicitSizeVariable_null {info : VariableInfo} (h : isNull v = true)
    (hget : st.GetPointerVariableInfo v = some info) : info.hasExplicitSizeVariable = false := by
  cases v with
  | null ty =>
      obtain rfl := Option.some.inj hget
      rfl
  | _ => cases h

theorem GetPointerVariableInfo_eq_find (h : isNull v = false) :
    st.GetPointerVariableInfo v = st.Variables.find v := by
  cases v with
  | null ty => cases h
  | _ => rfl

/-- There is an entry for a null pointer and for a registered variable. -/
theorem GetPointerVariableInfo_none : st.GetPointerVariableInfo v = none ↔
    isNull v = false ∧ ¬ st.Variables.has v := by
  cases hn : isNull v with
  | true =>
      obtain ⟨info, hinfo, -⟩ := GetPointerVariableInfo_null st hn
      simp [hinfo]
  | false =>
      rw [GetPointerVariableInfo_eq_find hn, FMap.not_has_iff_find]
      simp

/-- The class that is read. -/
theorem isUnsafe_of_GetPointerVariableInfo {info : VariableInfo}
    (h : st.GetPointerVariableInfo v = some info) :
    info.classification.isUnsafe = true ↔ isNull v = false ∧ Raised st v := by
  cases hn : isNull v with
  | true =>
      obtain ⟨info', hinfo, hsafe⟩ := GetPointerVariableInfo_null st hn
      obtain rfl := Option.some.inj (hinfo.symm.trans h)
      simp [hsafe]
  | false =>
      rw [GetPointerVariableInfo_eq_find hn] at h
      rw [Raised, h]
      simp

/-- Registering a variable, under a condition, unless it has an entry. -/
theorem facts_ensure {st' : AnalysisState} {b : Bool}
    (h' : facts st' = insert (.registered v) (facts st)) :
    facts (if !(st.GetPointerVariableInfo v).isSome && b then st' else st) =
      {f | f ∈ facts st ∨ isNull v = false ∧ b = true ∧ f = .registered v} := by
  ext f
  rw [Set.mem_ofPred_eq]
  cases hget : st.GetPointerVariableInfo v with
  | none =>
      obtain ⟨hn, -⟩ := GetPointerVariableInfo_none.mp hget
      cases b with
      | false => simp
      | true => simp [h', hn, or_comm]
  | some info =>
      simp only [Option.isSome_some, Bool.not_true, Bool.false_and, Bool.false_eq_true, if_false]
      constructor
      · exact Or.inl
      · rintro (h | ⟨hn, -, rfl⟩)
        · exact h
        · rw [GetPointerVariableInfo_eq_find hn] at hget
          exact FMap.has_of_find hget

theorem facts_ensure_always {st' : AnalysisState}
    (h' : facts st' = insert (.registered v) (facts st)) :
    facts (if (st.GetPointerVariableInfo v).isSome then st else st') =
      {f | f ∈ facts st ∨ isNull v = false ∧ f = .registered v} := by
  have h := facts_ensure (b := true) h'
  cases hget : (st.GetPointerVariableInfo v).isSome <;> simpa [hget] using h

/-! ## The clauses of each kind of instruction -/

/-- A rule of the list fires and gives the fact. -/
def Fires (l : List Rule) (st : AnalysisState) (f : Fact) : Prop :=
  ∃ c ∈ l, c.2 = f ∧ ∀ p ∈ c.1, p ∈ facts st

theorem facts_eq_visit {st' : AnalysisState} {l : List Rule}
    (h : ∀ f, f ∈ facts st' ↔ f ∈ facts st ∨ Fires l st f) :
    facts st' = visit {c | c ∈ l} (facts st) := by
  ext f
  rw [h, mem_visit_list]
  rfl

section Fires

variable {l l' : List Rule} {ps : List Fact} {f : Fact}

@[simp] theorem not_fires_nil : ¬ Fires [] st f := by
  rintro ⟨c, hc, -⟩
  cases hc

@[simp] theorem fires_append : Fires (l ++ l') st f ↔ Fires l st f ∨ Fires l' st f := by
  unfold Fires
  simp only [List.mem_append, or_and_right, exists_or]

@[simp] theorem fires_register : Fires (register ps v) st f ↔
    f = .registered v ∧ ∀ p ∈ ps, p ∈ facts st := by
  simp [Fires, register, eq_comm]

@[simp] theorem fires_raise : Fires (raise ps v) st f ↔
    (f = .registered v ∨ f = .raised v) ∧ ∀ p ∈ ps, p ∈ facts st := by
  rw [show raise ps v = register ps v ++ [(ps, .raised v)] from rfl, fires_append, fires_register,
    or_and_right]
  simp [Fires, eq_comm]

@[simp] theorem fires_copyClass {known : Bool} : Fires (copyClass v x known) st f ↔
    f = .registered x ∧ (isNull v = true ∨ known = true ∨ st.Variables.has v) ∨
      f = .raised x ∧ isNull v = false ∧ Raised st v := by
  unfold copyClass
  cases hn : isNull v with
  | true => simp
  | false =>
      have hraise : Fires [([.raised v], .raised x)] st f ↔ f = .raised x ∧ Raised st v := by
        simp [Fires, eq_comm, mem_facts_raised]
      cases known with
      | true => simp [hraise]
      | false => simp [hraise, mem_facts_registered]

theorem fires_flatMap {ι : Type} {l : List ι} {r : ι → List Rule} :
    Fires (l.flatMap r) st f ↔ ∃ y ∈ l, Fires (r y) st f := by
  unfold Fires
  simp only [List.mem_flatMap]
  constructor
  · rintro ⟨c, ⟨y, hy, hc⟩, h⟩
    exact ⟨y, hy, c, hc, h⟩
  · rintro ⟨y, hy, c, hc, h⟩
    exact ⟨c, ⟨y, hy, hc⟩, h⟩

theorem fires_ite {b : Bool} : Fires (if b then l else l') st f ↔
    b = true ∧ Fires l st f ∨ b = false ∧ Fires l' st f := by
  cases b <;> simp

end Fires

theorem facts_processAllocaInst {ty : Ty} {n : Value} :
    facts (processAllocaInst env i ty n st) =
      visit {c | c ∈ register [] (.inst i.id)} (facts st) := by
  refine facts_eq_visit fun f => ?_
  have h : facts (processAllocaInst env i ty n st) =
      insert (.registered (.inst i.id)) (facts st) := by
    unfold processAllocaInst
    split
    · exact facts_RegisterVariable
    · split <;> exact facts_SetSizeForPointerVariable
  rw [h, Set.mem_insert_iff, fires_register]
  simp [or_comm]

/-- Giving a variable the class that was read of another. -/
theorem facts_copyClass {info : VariableInfo} (h : st.GetPointerVariableInfo v = some info)
    {f : Fact} : f ∈ facts (st.ClassifyPointerVariable x info.classification) ↔
      f ∈ facts st ∨ f = .registered x ∨ f = .raised x ∧ isNull v = false ∧ Raised st v := by
  rw [facts_ClassifyPointerVariable, Set.mem_ofPred_eq, isUnsafe_of_GetPointerVariableInfo h]

theorem facts_SetSize_SetInstantiated {size : Option Value} {b : Bool} :
    facts ((st.SetSizeForPointerVariable v size).SetInstantiatedExplicitSizeVariable v b) =
      insert (.registered v) (facts st) := by
  rw [facts_SetInstantiatedExplicitSizeVariable, facts_SetSizeForPointerVariable, Set.insert_idem]

theorem facts_processStoreInst {val ptr : Value} :
    facts (processStoreInst env M val ptr st) =
      visit {c | c ∈ storeRules M val ptr} (facts st) := by
  refine facts_eq_visit fun f => ?_
  unfold processStoreInst storeRules
  split
  · generalize hst : (if (st.GetPointerVariableInfo val).isSome then st
      else st.SetSizeForPointerVariable val (some (env.getSizeForValue val))) = st₁
    have hreg : facts st₁ = {f | f ∈ facts st ∨ isNull val = false ∧ f = .registered val} := by
      rw [← hst]
      exact facts_ensure_always facts_SetSizeForPointerVariable
    have hraised : Raised st₁ val ↔ Raised st val := by
      rw [← mem_facts_raised, hreg, ← mem_facts_raised]
      simp
    dsimp only
    cases hget : st₁.GetPointerVariableInfo val with
    | none =>
        obtain ⟨hn, hno⟩ := GetPointerVariableInfo_none.mp hget
        exact (hno (by rw [← mem_facts_registered, hreg]; exact Or.inr ⟨hn, rfl⟩)).elim
    | some info =>
        dsimp only
        rw [facts_SetSizeForPointerVariable, Set.mem_insert_iff, facts_copyClass hget, hreg,
          hraised]
        clear hget hraised hreg hst
        cases hn : isNull val <;> simp [hn] <;> tauto
  · rw [facts_ensure_always facts_SetSize_SetInstantiated]
    cases isNull ptr <;> simp

theorem facts_processLoadInst {ptr : Value} :
    facts (processLoadInst env M i ptr st) = visit {c | c ∈ loadRules i ptr} (facts st) := by
  refine facts_eq_visit fun f => ?_
  unfold processLoadInst loadRules
  split
  · generalize hst : (if !(st.GetPointerVariableInfo ptr).isSome && ptr.isConstant then
      st.SetSizeForPointerVariable ptr (some (env.getSizeForValue ptr)) else st) = st₁
    have hreg : facts st₁ =
        {f | f ∈ facts st ∨ isNull ptr = false ∧ ptr.isConstant = true ∧ f = .registered ptr} := by
      rw [← hst]
      exact facts_ensure facts_SetSizeForPointerVariable
    have hraised : Raised st₁ ptr ↔ Raised st ptr := by
      rw [← mem_facts_raised, hreg, ← mem_facts_raised]
      simp
    dsimp only
    cases hget : st₁.GetPointerVariableInfo ptr with
    | none =>
        -- the load is left alone
        obtain ⟨hn, hno⟩ := GetPointerVariableInfo_none.mp hget
        have hconst : ptr.isConstant = false := by
          cases hc : ptr.isConstant with
          | false => rfl
          | true =>
              exact (hno (by
                rw [← mem_facts_registered, hreg]
                exact Or.inr ⟨hn, hc, rfl⟩)).elim
        have hst₁ : facts st₁ = facts st := by
          rw [hreg]
          simp [hconst]
        rw [← mem_facts_registered, hst₁, mem_facts_registered] at hno
        have hnr : ¬ Raised st ptr := fun h => hno (has_of_raised h)
        simp [hst₁, hn, hconst, hno, hnr]
    | some info =>
        dsimp only
        -- the explicit size only touches the registered pointer
        generalize hst' : (if (info.hasExplicitSizeVariable &&
          (!info.instantiatedExplicitSizeVariable || inOtherBlock M info.size i)) = true then _
          else st₁) = st₂
        have hget₂ : f ∈ facts (st₂.ClassifyPointerVariable (.inst i.id) info.classification) ↔
            f ∈ facts st₂ ∨ f = .registered (.inst i.id) ∨
              f = .raised (.inst i.id) ∧ isNull ptr = false ∧ Raised st ptr := by
          rw [facts_ClassifyPointerVariable, Set.mem_ofPred_eq,
            isUnsafe_of_GetPointerVariableInfo hget, hraised]
        have hst₂ : facts st₂ = facts st₁ := by
          rw [← hst']
          split
          · rename_i hsize
            rw [facts_SetSize_SetInstantiated]
            refine Set.insert_eq_of_mem (mem_facts_registered.mpr ?_)
            cases hn : isNull ptr with
            | true =>
                rw [hasExplicitSizeVariable_null hn hget] at hsize
                cases hsize
            | false =>
                rw [GetPointerVariableInfo_eq_find hn] at hget
                exact FMap.has_of_find hget
          · rfl
        have hhas : isNull ptr = false → ptr.isConstant = false → st.Variables.has ptr := by
          intro hn hc
          rw [GetPointerVariableInfo_eq_find hn] at hget
          have := mem_facts_registered.mpr (FMap.has_of_find hget)
          rw [hreg] at this
          simpa [hc, mem_facts_registered] using this
        rw [facts_SetSizeForPointerVariable, Set.mem_insert_iff, hget₂, hst₂, hreg]
        clear hget hget₂ hst₂ hst' hraised hreg hst
        revert hhas
        cases hn : isNull ptr <;> cases ptr.isConstant <;> simp [hn] <;> tauto
  · rw [facts_ensure_always facts_SetSize_SetInstantiated]
    cases isNull ptr <;> simp

theorem facts_classify_seq {c : VariableStates} (hc : c.isUnsafe = true) {f : Fact} :
    f ∈ facts (st.ClassifyPointerVariable v c) ↔
      f ∈ facts st ∨ f = .registered v ∨ f = .raised v := by
  rw [facts_ClassifyPointerVariable, Set.mem_ofPred_eq, hc]
  simp

/-- Setting the size of a variable that has an entry. -/
theorem facts_SetSize_of_has {size : Option Value} (h : st.Variables.has v) :
    facts (st.SetSizeForPointerVariable v size) = facts st := by
  rw [facts_SetSizeForPointerVariable]
  exact Set.insert_eq_of_mem h

/-- The sizes a GEP sets touch registered variables, or the null pointer. -/
theorem facts_setSizeForGEP {src : Ty} {base : Value} {nonZero : Bool} {f : Fact}
    (hself : st.Variables.has (.inst i.id)) :
    f ∈ facts (setSizeForGEP env i src base nonZero st) ↔
      f ∈ facts st ∨ isNull base = true ∧ f = .registered base := by
  unfold setSizeForGEP
  cases hget : st.GetPointerVariableInfo base with
  | none =>
      obtain ⟨hn, -⟩ := GetPointerVariableInfo_none.mp hget
      simp [hn]
  | some info =>
      dsimp only
      cases hn : isNull base with
      | true =>
          have hzero : info.size = sizeConst 0 := by
            cases base with
            | null ty =>
                obtain rfl := Option.some.inj hget
                rfl
            | _ => cases hn
          have hself' : f = .registered (.inst i.id) → f ∈ facts st := by
            rintro rfl
            exact hself
          rw [facts_SetSizeForPointerVariable, hzero, if_pos (by decide),
            facts_SetSizeForPointerVariable, Set.mem_insert_iff, Set.mem_insert_iff]
          simp only [true_and]
          tauto
      | false =>
          rw [GetPointerVariableInfo_eq_find hn] at hget
          have hbase : st.Variables.has base := FMap.has_of_find hget
          have hsame : ∀ {c : Prop} [Decidable c] (size : Option Value),
              facts (if c then st.SetSizeForPointerVariable base size else st) = facts st := by
            intro c _ size
            split
            · exact facts_SetSize_of_has hbase
            · rfl
          rw [facts_SetSizeForPointerVariable, hsame, Set.insert_eq_of_mem (mem_facts_registered.mpr
            hself)]
          simp

theorem facts_processGetElementPtrInst {src : Ty} {base : Value} {indices : List Value} :
    facts (processGetElementPtrInst env i src base indices st) =
      visit {c | c ∈ gepRules i base indices} (facts st) := by
  refine facts_eq_visit fun f => ?_
  unfold processGetElementPtrInst gepRules
  dsimp only
  generalize hst : (AnalysisState.RegisterVariable (if (!Module.hasAllZeroIndices indices) = true
    then _ else st) (.inst i.id)) = st₁
  have hst₁ : ∀ f, f ∈ facts st₁ ↔ f ∈ facts st ∨ f = .registered (.inst i.id) ∨
      Module.hasAllZeroIndices indices = false ∧
        (f = .registered base ∨ f = .raised base ∨ f = .raised (.inst i.id)) := by
    intro f
    rw [← hst, facts_RegisterVariable, Set.mem_insert_iff]
    cases Module.hasAllZeroIndices indices with
    | true => simp [or_comm]
    | false =>
        simp only [Bool.not_false, if_true]
        rw [facts_classify_seq rfl, facts_classify_seq rfl]
        tauto
  have hself : st₁.Variables.has (.inst i.id) := (hst₁ (.registered _)).mpr (Or.inr (Or.inl rfl))
  have hsizes : f ∈ facts (if (resultElementType i.ty).isPointerTy = true then st₁
      else setSizeForGEP env i src base (!Module.hasAllZeroIndices indices) st₁) ↔
      f ∈ facts st₁ ∨ (isNull base && !(resultElementType i.ty).isPointerTy) = true ∧
        f = .registered base := by
    split
    · rename_i hptr
      simp [hptr]
    · rename_i hptr
      rw [facts_setSizeForGEP hself]
      simp [hptr]
  refine hsizes.trans ?_
  rw [hst₁, fires_append, fires_append, fires_ite, fires_ite, fires_append, fires_raise,
    fires_raise, fires_register, fires_register]
  clear hsizes hself hst₁ hst
  cases Module.hasAllZeroIndices indices <;> simp <;> tauto

theorem kindOf_of_isNull (h : isNull v = true) : M.kindOf v = none := by
  cases v with
  | null ty => rfl
  | _ => cases h

/-- The classes a cast gives are `Seq` or `Dyn`. -/
theorem isUnsafe_castOperandClass {c c' : VariableStates}
    (h : castOperandClass M v = some (c, c')) : c.isUnsafe = true ∧ c'.isUnsafe = true := by
  unfold castOperandClass at h
  split at h <;> first
    | (obtain ⟨rfl, rfl⟩ := Prod.mk.inj (Option.some.inj h); exact ⟨rfl, rfl⟩)
    | cases h

/-- A cast of a pointer: operand and result are raised when the operand is of a kind of interest. -/
theorem facts_castPointer {op : CastOp} {info : VariableInfo}
    (hget : st.GetPointerVariableInfo v = some info) {f : Fact} :
    f ∈ facts (castPointer env M i op v info st) ↔ f ∈ facts st ∨
      Fires ((if (castOperandClass M v).isSome then raise [] v ++ raise [] (.inst i.id) else []) ++
        register [] (.inst i.id)) st f := by
  unfold castPointer
  generalize hst : (if (isCallValue M v && op == .bitcast && isOneConstant info.size) = true
    then _ else st) = st₁
  have hst₁ : facts st₁ = facts st := by
    rw [← hst]
    split
    · rename_i hcall
      refine facts_SetSize_of_has ?_
      cases hn : isNull v with
      | true =>
          rw [isCallValue, kindOf_of_isNull hn] at hcall
          cases hcall
      | false =>
          rw [GetPointerVariableInfo_eq_find hn] at hget
          exact FMap.has_of_find hget
    · rfl
  rw [facts_SetSizeForPointerVariable, Set.mem_insert_iff]
  cases hc : castOperandClass M v with
  | none =>
      simp [hst₁, or_comm]
  | some c =>
      obtain ⟨h1, h2⟩ := isUnsafe_castOperandClass (hc.trans rfl : _ = some (c.1, c.2))
      dsimp only
      rw [facts_classify_seq h2, facts_classify_seq h1, hst₁]
      simp
      tauto

theorem facts_processCastInst {op : CastOp} :
    facts (processCastInst env M i op v st) = visit {c | c ∈ castRules M i op v} (facts st) := by
  refine facts_eq_visit fun f => ?_
  unfold processCastInst castRules
  generalize hst : (if !(st.GetPointerVariableInfo v).isSome && (M.typeOf v).isPointerTy then
    st.SetSizeForPointerVariable v (some (env.getSizeForValue v)) else st) = st₁
  have hreg : facts st₁ = {f | f ∈ facts st ∨ isNull v = false ∧ (M.typeOf v).isPointerTy = true ∧
      f = .registered v} := by
    rw [← hst]
    exact facts_ensure facts_SetSizeForPointerVariable
  have hfirst : f ∈ facts st₁ ↔ f ∈ facts st ∨
      Fires (if !isNull v && (M.typeOf v).isPointerTy then register [] v else []) st f := by
    rw [hreg, fires_ite]
    simp [and_assoc]
  rw [fires_append, ← or_assoc, ← hfirst]
  dsimp only
  cases hget : st₁.GetPointerVariableInfo v with
  | none =>
      -- the operand is an integer without an entry, and stays so
      obtain ⟨hn, hno⟩ := GetPointerVariableInfo_none.mp hget
      have hptr : (M.typeOf v).isPointerTy = false := by
        cases hp : (M.typeOf v).isPointerTy with
        | false => rfl
        | true =>
            exact (hno (by rw [← mem_facts_registered, hreg]; exact Or.inr ⟨hn, hp, rfl⟩)).elim
      have hno' : ¬ st.Variables.has v := by
        rw [← mem_facts_registered, hreg] at hno
        exact fun h => hno (Or.inl h)
      have hpremise : ¬ ∀ p ∈ castPremise M v, p ∈ facts st := by
        simp [castPremise, hn, hptr, mem_facts_registered, hno']
      have hraise : ¬ Fires (raise (castPremise M v) v ++ raise (castPremise M v) (.inst i.id)) st
          f := by
        rw [fires_append, fires_raise, fires_raise]
        rintro (⟨-, h⟩ | ⟨-, h⟩)
        · exact hpremise h
        · exact hpremise h
      cases isCastOfInterest (M.typeOf v) i.ty with
      | false => simp
      | true => cases couldChangeValue M i op v <;> simp [hptr, hraise, -fires_append]
  | some info =>
      dsimp only
      cases hint : isCastOfInterest (M.typeOf v) i.ty with
      | false => simp
      | true =>
          cases hptr : (M.typeOf v).isPointerTy with
          | false =>
              -- an integer with an entry
              have hst₁ : ∀ f, f ∈ facts st₁ ↔ f ∈ facts st := by
                intro f
                rw [hreg]
                simp [hptr]
              have hpremise : ∀ p ∈ castPremise M v, p ∈ facts st := by
                cases hn : isNull v with
                | true => simp [castPremise, hn]
                | false =>
                    rw [GetPointerVariableInfo_eq_find hn] at hget
                    have hv := (hst₁ (.registered v)).mp (FMap.has_of_find hget)
                    simpa [castPremise, hn, hptr] using hv
              simp only [Bool.not_true, Bool.false_eq_true, if_false, Bool.not_false, if_true]
              rw [classifyExtOrTruncInst, fires_ite]
              cases couldChangeValue M i op v with
              | false => simp
              | true =>
                  rw [if_pos rfl, facts_classify_seq rfl, facts_classify_seq rfl, fires_append,
                    fires_raise, fires_raise]
                  clear hreg hfirst hst
                  tauto
          | true =>
              simp only [Bool.not_true, Bool.false_eq_true, if_false]
              rw [facts_castPointer hget]
              refine or_congr_right ?_
              -- these rules have no premises
              rw [fires_append, fires_append, fires_ite, fires_ite]
              simp

/-! ## Calls and globals -/

/-- A loop that adds facts. -/
theorem facts_foldl {ι : Type} {g : AnalysisState → ι → AnalysisState} {P : ι → Fact → Prop}
    (h : ∀ st y f, f ∈ facts (g st y) ↔ f ∈ facts st ∨ P y f) (l : List ι) (f : Fact) :
    ∀ st, f ∈ facts (l.foldl g st) ↔ f ∈ facts st ∨ ∃ y ∈ l, P y f :=
  foldl_adds (Q := fun st => f ∈ facts st) (fun st y => h st y f) l

theorem facts_processGlobalVariables {f : Fact} :
    f ∈ facts (processGlobalVariables env M i st) ↔
      f ∈ facts st ∨ ∃ v ∈ namedGlobals env M i, f = .registered v := by
  unfold processGlobalVariables
  rw [facts_foldl (P := fun g f => f = .registered (.global g))]
  · simp [namedGlobals]
  · intro st g f
    have h : facts (st.modify (.global g) fun info => { info with
        dependentFunctions := info.dependentFunctions.insert (functionName M i) }) =
          insert (.registered (.global g)) (facts st) := facts_modify fun _ => rfl
    rw [h, Set.mem_insert_iff, or_comm]

theorem facts_callSizes {f : Function} {args : List Value} {fact : Fact} :
    fact ∈ facts (callSizes env M i f args st) ↔
      fact ∈ facts st ∨ ∃ v ∈ callRegisters M i f args, fact = .registered v := by
  unfold callSizes callRegisters
  split
  · simp [facts_SetSizeForPointerVariable, or_comm]
  · split
    · simp [facts_SetSizeForPointerVariable, or_comm]
    · split
      · cases args[0]? with
        | none => simp
        | some v =>
            dsimp only
            rw [propagateFreedSize, facts_foldl (P := fun v f => f = .registered v),
              facts_SetSizeForPointerVariable, Set.mem_insert_iff, List.exists_mem_cons_iff]
            · tauto
            · intro st v f
              rw [facts_SetSizeForPointerVariable, Set.mem_insert_iff, or_comm]
      · split
        · simp [facts_SetSizeForPointerVariable, or_comm]
        · simp

/-- What one return of the rewritten function contributes. -/
def Contributes (st : AnalysisState) (x r : Value) (f : Fact) : Prop :=
  f = .registered x ∧ (isNull r = true ∨ st.Variables.has r) ∨
    f = .raised x ∧ isNull r = false ∧ Raised st r

/-- The class of one return is given to the call. -/
def copyReturn (x : Value) (st : AnalysisState) (r : Value) : AnalysisState :=
  match st.GetPointerVariableInfo r with
  | some varinfo => st.ClassifyPointerVariable x varinfo.classification
  | none => st

theorem facts_copyReturn {r : Value} {f : Fact} : f ∈ facts (copyReturn x st r) ↔
    f ∈ facts st ∨ Contributes st x r f := by
  unfold copyReturn Contributes
  cases hget : st.GetPointerVariableInfo r with
  | none =>
      obtain ⟨hn, hno⟩ := GetPointerVariableInfo_none.mp hget
      have hnr : ¬ Raised st r := fun h => hno (has_of_raised h)
      simp [hn, hno, hnr]
  | some info =>
      dsimp only
      have hhas : isNull r = true ∨ st.Variables.has r := by
        by_contra hc
        push Not at hc
        have : st.GetPointerVariableInfo r = none :=
          GetPointerVariableInfo_none.mpr ⟨by simpa using hc.1, hc.2⟩
        rw [this] at hget
        cases hget
      rw [facts_copyClass hget]
      simp [hhas]

/-- Other returns contribute the same after one was copied. -/
theorem contributes_copyReturn {r r' : Value} {f : Fact} :
    f ∈ facts (copyReturn x st r) ∨ Contributes (copyReturn x st r) x r' f ↔
      f ∈ facts (copyReturn x st r) ∨ Contributes st x r' f := by
  constructor
  · rintro (h | ⟨rfl, h | h⟩ | ⟨rfl, hn, h⟩)
    · exact Or.inl h
    · exact Or.inr (Or.inl ⟨rfl, Or.inl h⟩)
    · rcases facts_copyReturn.mp (mem_facts_registered.mpr h) with h' | ⟨heq, -⟩ | ⟨heq, -⟩
      · exact Or.inr (Or.inl ⟨rfl, Or.inr h'⟩)
      · obtain rfl := Fact.registered.inj heq
        exact Or.inl h
      · cases heq
    · rcases facts_copyReturn.mp (mem_facts_raised.mpr h) with h' | ⟨heq, -⟩ | ⟨heq, -⟩
      · exact Or.inr (Or.inr ⟨rfl, hn, h'⟩)
      · cases heq
      · obtain rfl := Fact.raised.inj heq
        exact Or.inl h
  · rintro (h | ⟨rfl, h | h⟩ | ⟨rfl, hn, h⟩)
    · exact Or.inl h
    · exact Or.inr (Or.inl ⟨rfl, Or.inl h⟩)
    · have h' : Fact.registered r' ∈ facts (copyReturn x st r) := facts_copyReturn.mpr (Or.inl h)
      exact Or.inr (Or.inl ⟨rfl, Or.inr h'⟩)
    · have h' : Fact.raised r' ∈ facts (copyReturn x st r) := facts_copyReturn.mpr (Or.inl h)
      exact Or.inr (Or.inr ⟨rfl, hn, h'⟩)

theorem facts_copyReturns (rs : List Value) (f : Fact) : ∀ st : AnalysisState,
    f ∈ facts (rs.foldl (copyReturn x) st) ↔ f ∈ facts st ∨ ∃ r ∈ rs, Contributes st x r f := by
  induction rs with
  | nil => simp
  | cons r rs ih =>
      intro st
      rw [List.foldl_cons, ih, List.exists_mem_cons_iff, ← or_assoc, ← facts_copyReturn]
      constructor
      · rintro (h | ⟨r', hr', h⟩)
        · exact Or.inl h
        · exact (contributes_copyReturn.mp (Or.inr h)).imp_right fun h => ⟨r', hr', h⟩
      · rintro (h | ⟨r', hr', h⟩)
        · exact Or.inl h
        · exact (contributes_copyReturn.mpr (Or.inr h)).imp_right fun h => ⟨r', hr', h⟩

/-! ## An instruction as a whole -/

/-- No premise asks whether a global is registered. -/
def NoGlobalPremise (l : List Rule) : Prop :=
  ∀ c ∈ l, ∀ p ∈ c.1, ∀ g, p ≠ .registered (.global g)

section Whole

variable {st' : AnalysisState}
  (h' : ∀ f, f ∈ facts st' ↔ f ∈ facts st ∨ ∃ v ∈ namedGlobals env M i, f = .registered v)

include h'

/-- Rules without such premises do not see that the globals were registered. -/
theorem fires_of_noGlobalPremise {l : List Rule} (hl : NoGlobalPremise l) {f : Fact} :
    Fires l st' f ↔ Fires l st f := by
  refine exists_congr fun c => and_congr_right fun hc => and_congr_right fun _ => ?_
  refine forall_congr' fun p => forall_congr' fun hp => ?_
  rw [h']
  refine or_iff_left ?_
  rintro ⟨v, hv, rfl⟩
  obtain ⟨g, -, rfl⟩ := List.mem_map.mp hv
  exact hl c hc _ hp g rfl

theorem facts_visit_globals {l : List Rule} (hl : NoGlobalPremise l) {st₂ : AnalysisState}
    (h₂ : facts st₂ = visit {c | c ∈ l} (facts st')) (f : Fact) :
    f ∈ facts st₂ ↔ f ∈ facts st ∨
      Fires ((namedGlobals env M i).flatMap (register []) ++ l) st f := by
  rw [h₂, mem_visit_list, h', fires_append, fires_flatMap]
  have := fires_of_noGlobalPremise h' hl (f := f)
  unfold Fires at this
  rw [this]
  simp [Fires, or_assoc, eq_comm, register]

theorem facts_processCallInst {callee : Callee} {args : List Value} (f : Fact) :
    f ∈ facts (processCallInst env M i callee args st') ↔ f ∈ facts st ∨
      Fires ((namedGlobals env M i).flatMap (register []) ++ callRules env M i callee args) st
        f := by
  rw [fires_append, fires_flatMap]
  unfold processCallInst callRules
  cases callee.getCalledFunction.bind M.func? with
  | none => simp [h']
  | some fn =>
      have hsizes : ∀ f, f ∈ facts (callSizes env M i fn args st') ↔ f ∈ facts st ∨
          ∃ v ∈ namedGlobals env M i ++ callRegisters M i fn args, f = .registered v := by
        intro f
        rw [facts_callSizes, h', or_assoc]
        simp only [List.mem_append, or_and_right, exists_or]
      have hhas : ∀ r, (callSizes env M i fn args st').Variables.has r ↔
          r ∈ namedGlobals env M i ++ callRegisters M i fn args ∨ st.Variables.has r := by
        intro r
        rw [← mem_facts_registered, hsizes, mem_facts_registered, or_comm]
        simp
      have hraised : ∀ r, Raised (callSizes env M i fn args st') r ↔ Raised st r := by
        intro r
        rw [← mem_facts_raised, hsizes, mem_facts_raised]
        simp
      show f ∈ facts ((rewrittenReturns M fn).foldl (copyReturn (.inst i.id)) _) ↔ _
      rw [facts_copyReturns, hsizes, fires_append, fires_flatMap, fires_flatMap]
      have hcontrib : ∀ r, Contributes (callSizes env M i fn args st') (.inst i.id) r f ↔
          Fires (copyClass r (.inst i.id)
            (decide (r ∈ namedGlobals env M i ++ callRegisters M i fn args))) st f := by
        intro r
        rw [fires_copyClass, Contributes, hhas, hraised, decide_eq_true_eq]
      simp only [hcontrib, List.mem_append, or_and_right, exists_or, fires_register,
        List.not_mem_nil, false_imp_iff, implies_true, and_true, or_assoc]

end Whole

theorem noGlobalPremise_append {l l' : List Rule} (h : NoGlobalPremise l)
    (h' : NoGlobalPremise l') : NoGlobalPremise (l ++ l') := by
  intro c hc
  rcases List.mem_append.mp hc with hc | hc
  · exact h c hc
  · exact h' c hc

theorem noGlobalPremise_of_nil {l : List Rule} (h : ∀ c ∈ l, c.1 = []) : NoGlobalPremise l := by
  intro c hc p hp
  rw [h c hc] at hp
  cases hp

theorem noGlobalPremise_register : NoGlobalPremise (register [] v) :=
  noGlobalPremise_of_nil fun c hc => by rw [List.mem_singleton.mp hc]

theorem noGlobalPremise_raise {ps : List Fact} (h : ∀ p ∈ ps, ∀ g, p ≠ .registered (.global g)) :
    NoGlobalPremise (raise ps v) := by
  intro c hc
  simp only [raise, List.mem_cons, List.not_mem_nil, or_false] at hc
  rcases hc with rfl | rfl
  · exact h
  · exact h

theorem noGlobalPremise_copyClass {known : Bool} (h : known = false → ∀ g, v ≠ .global g) :
    NoGlobalPremise (copyClass v x known) := by
  unfold copyClass
  split
  · exact noGlobalPremise_register
  · refine noGlobalPremise_append ?_ ?_
    · intro c hc p hp g hg
      rw [List.mem_singleton.mp hc] at hp
      cases known with
      | true => cases hp
      | false =>
          obtain rfl := List.mem_singleton.mp hp
          exact h rfl g (Fact.registered.inj hg)
    · intro c hc p hp g hg
      rw [List.mem_singleton.mp hc] at hp
      rw [List.mem_singleton.mp hp] at hg
      cases hg

theorem noGlobalPremise_ite {c : Prop} [Decidable c] {l l' : List Rule} (h : NoGlobalPremise l)
    (h' : NoGlobalPremise l') : NoGlobalPremise (if c then l else l') := by
  split
  · exact h
  · exact h'

theorem noGlobalPremise_nil : NoGlobalPremise [] := fun _ hc => nomatch hc

theorem noGlobalPremise_storeRules {val ptr : Value} : NoGlobalPremise (storeRules M val ptr) := by
  unfold storeRules
  refine noGlobalPremise_ite (noGlobalPremise_append (noGlobalPremise_append ?_ ?_) ?_) ?_
  · exact noGlobalPremise_ite noGlobalPremise_nil noGlobalPremise_register
  · exact noGlobalPremise_register
  · exact noGlobalPremise_copyClass fun h => nomatch h
  · exact noGlobalPremise_ite noGlobalPremise_nil noGlobalPremise_register

theorem noGlobalPremise_loadRules {ptr : Value} : NoGlobalPremise (loadRules i ptr) := by
  unfold loadRules
  refine noGlobalPremise_ite (noGlobalPremise_append ?_ ?_) ?_
  · exact noGlobalPremise_ite noGlobalPremise_register noGlobalPremise_nil
  · refine noGlobalPremise_copyClass fun h g hg => ?_
    rw [hg] at h
    cases h
  · exact noGlobalPremise_ite noGlobalPremise_nil noGlobalPremise_register

theorem noGlobalPremise_gepRules {base : Value} {indices : List Value} :
    NoGlobalPremise (gepRules i base indices) := by
  have hraise : ∀ v, NoGlobalPremise (raise [] v) := fun v =>
    noGlobalPremise_raise fun _ hp => nomatch hp
  unfold gepRules
  refine noGlobalPremise_append (noGlobalPremise_append ?_ noGlobalPremise_register) ?_
  · exact noGlobalPremise_ite (noGlobalPremise_append (hraise _) (hraise _)) noGlobalPremise_nil
  · exact noGlobalPremise_ite noGlobalPremise_register noGlobalPremise_nil

theorem noGlobalPremise_castRules {op : CastOp} : NoGlobalPremise (castRules M i op v) := by
  have hpremise : ∀ p ∈ castPremise M v, ∀ g, p ≠ .registered (.global g) := by
    -- a global is a pointer
    rintro p hp g rfl
    unfold castPremise at hp
    split at hp
    · cases hp
    · rename_i h
      rw [← Fact.registered.inj (List.mem_singleton.mp hp)] at h
      simp [Module.typeOf, Ty.isPointerTy] at h
  have hraise : ∀ x, NoGlobalPremise (raise [] x) := fun x =>
    noGlobalPremise_raise fun _ hp => nomatch hp
  unfold castRules
  refine noGlobalPremise_append ?_ (noGlobalPremise_ite noGlobalPremise_nil
    (noGlobalPremise_ite ?_ (noGlobalPremise_append ?_ noGlobalPremise_register)))
  · exact noGlobalPremise_ite noGlobalPremise_register noGlobalPremise_nil
  · exact noGlobalPremise_ite (noGlobalPremise_append (noGlobalPremise_raise hpremise)
      (noGlobalPremise_raise hpremise)) noGlobalPremise_nil
  · exact noGlobalPremise_ite (noGlobalPremise_append (hraise _) (hraise _)) noGlobalPremise_nil

/-- **Processing an instruction** visits its clauses. -/
theorem facts_processInstruction :
    facts (processInstruction env M i st) = visit {c | c ∈ clauses env M i} (facts st) := by
  refine facts_eq_visit fun f => ?_
  have h' : ∀ f, f ∈ facts (processGlobalVariables env M i st) ↔
      f ∈ facts st ∨ ∃ v ∈ namedGlobals env M i, f = .registered v :=
    fun _ => facts_processGlobalVariables
  have hnone : ∀ f, f ∈ facts (processGlobalVariables env M i st) ↔ f ∈ facts st ∨
      Fires ((namedGlobals env M i).flatMap (register []) ++ []) st f :=
    facts_visit_globals h' noGlobalPremise_nil (facts_eq_visit fun f => by simp)
  unfold processInstruction clauses
  dsimp only
  cases i.kind with
  | alloca ty n =>
      exact facts_visit_globals h' noGlobalPremise_register facts_processAllocaInst f
  | call callee args => exact facts_processCallInst h' f
  | store val ptr =>
      exact facts_visit_globals h' noGlobalPremise_storeRules facts_processStoreInst f
  | load ptr => exact facts_visit_globals h' noGlobalPremise_loadRules facts_processLoadInst f
  | gep src base indices =>
      exact facts_visit_globals h' noGlobalPremise_gepRules facts_processGetElementPtrInst f
  | cast op v => exact facts_visit_globals h' noGlobalPremise_castRules facts_processCastInst f
  | _ => exact hnone f

end MSV
