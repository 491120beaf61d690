import MSV.Infer.Process

/-!
# The operations an instruction uses

An instruction changes the state through a handful of operations, and asks for few classifications
(`Classifies`). A property of states that survives these survives the instruction
(`Survives.processInstruction`), which is how results about the classes themselves are proved.
-/

namespace MSV

variable {env : InferEnv} {M : Module} {st : AnalysisState} {v x : Value} {i : Inst}

/-- The classifications an instruction may ask for. -/
def Classifies (M : Module) (i : Inst) (v : Value) (c : VariableStates) : Prop :=
  match i.kind with
  | .store val ptr => v = ptr ∧ (M.typeOf val).isPointerTy = true
  | .load _ => v = .inst i.id
  | .call .. => v = .inst i.id
  | .gep _ base indices =>
      Module.hasAllZeroIndices indices = false ∧ c = .seq ∧ (v = base ∨ v = .inst i.id)
  | .cast _ w => v = .inst i.id ∧ c = .dyn ∨
      v = w ∧ (c = .dyn ∨ c = .seq ∧ ∃ src base indices, M.kindOf w = some (.gep src base indices))
  | _ => False

/-- A property of states that survives the operations an instruction may use. -/
structure Survives (M : Module) (i : Inst) (P : AnalysisState → Prop) : Prop where
  register : ∀ st v, P st → P (st.RegisterVariable v)
  setSize : ∀ st v size, P st → P (st.SetSizeForPointerVariable v size)
  setInstantiated : ∀ st v b, P st → P (st.SetInstantiatedExplicitSizeVariable v b)
  addFunction : ∀ st g, P st → P (st.modify (.global g) fun info => { info with
    dependentFunctions := info.dependentFunctions.insert (functionName M i) })
  classify : ∀ st v c, Classifies M i v c → P st → P (st.ClassifyPointerVariable v c)

namespace Survives

variable {P : AnalysisState → Prop} (hP : Survives M i P)

include hP

theorem foldl_setSize (l : List Value) : ∀ st, P st →
    P (l.foldl (fun st v => st.SetSizeForPointerVariable v none) st) := by
  induction l with
  | nil => exact fun _ h => h
  | cons v l ih => exact fun st h => ih _ (hP.setSize st v none h)

theorem processGlobalVariables (h : P st) : P (processGlobalVariables env M i st) := by
  unfold MSV.processGlobalVariables
  generalize i.kind.operands.flatMap (operandGlobals env M) = l
  induction l generalizing st with
  | nil => exact h
  | cons g l ih => exact ih (hP.addFunction st g h)

theorem processAllocaInst {ty : Ty} {n : Value} (h : P st) :
    P (processAllocaInst env i ty n st) := by
  unfold MSV.processAllocaInst
  split
  · exact hP.register _ _ h
  · split <;> exact hP.setSize _ _ _ h

theorem ensure {b : Bool} {v : Value} {size : Option Value} (h : P st) :
    P (if b then st.SetSizeForPointerVariable v size else st) := by
  split
  · exact hP.setSize _ _ _ h
  · exact h

theorem ensureInstantiated {b : Bool} {v : Value} {size : Option Value} (h : P st) :
    P (if b then st
      else (st.SetSizeForPointerVariable v size).SetInstantiatedExplicitSizeVariable v true) := by
  split
  · exact h
  · exact hP.setInstantiated _ _ _ (hP.setSize _ _ _ h)

theorem processStoreInst {val ptr : Value} (hk : i.kind = .store val ptr) (h : P st) :
    P (processStoreInst env M val ptr st) := by
  unfold MSV.processStoreInst
  split
  · rename_i hptr
    have h₁ : P (if (st.GetPointerVariableInfo val).isSome then st
        else st.SetSizeForPointerVariable val (some (env.getSizeForValue val))) := by
      split
      · exact h
      · exact hP.setSize _ _ _ h
    dsimp only
    split
    · refine hP.setSize _ _ _ (hP.classify _ _ _ ?_ h₁)
      rw [Classifies, hk]
      exact ⟨rfl, hptr⟩
    · exact h₁
  · exact hP.ensureInstantiated h

theorem processLoadInst {ptr : Value} (hk : i.kind = .load ptr) (h : P st) :
    P (processLoadInst env M i ptr st) := by
  unfold MSV.processLoadInst
  split
  · dsimp only
    split
    · refine hP.setSize _ _ _ (hP.classify _ _ _ (by rw [Classifies, hk]) ?_)
      split
      · exact hP.setInstantiated _ _ _ (hP.setSize _ _ _ (hP.ensure h))
      · exact hP.ensure h
    · exact hP.ensure h
  · exact hP.ensureInstantiated h

theorem setSizeForGEP {src : Ty} {base : Value} {nonZero : Bool} (h : P st) :
    P (setSizeForGEP env i src base nonZero st) := by
  unfold MSV.setSizeForGEP
  split
  · exact h
  · dsimp only
    exact hP.setSize _ _ _ (hP.ensure h)

theorem processGetElementPtrInst {src : Ty} {base : Value} {indices : List Value}
    (hk : i.kind = .gep src base indices) (h : P st) :
    P (processGetElementPtrInst env i src base indices st) := by
  unfold MSV.processGetElementPtrInst
  dsimp only
  have h₁ : P (if (!Module.hasAllZeroIndices indices) = true then
      (st.ClassifyPointerVariable base .seq).ClassifyPointerVariable (.inst i.id) .seq
      else st) := by
    split
    · rename_i hz
      rw [Bool.not_eq_true'] at hz
      refine hP.classify _ _ _ ?_ (hP.classify _ _ _ ?_ h)
      · rw [Classifies, hk]
        exact ⟨hz, rfl, Or.inr rfl⟩
      · rw [Classifies, hk]
        exact ⟨hz, rfl, Or.inl rfl⟩
    · exact h
  split
  · exact hP.register _ _ h₁
  · exact hP.setSizeForGEP (hP.register _ _ h₁)

theorem castPointer {op : CastOp} {w : Value} {info : VariableInfo} (hk : i.kind = .cast op w)
    (h : P st) : P (castPointer env M i op w info st) := by
  unfold MSV.castPointer
  dsimp only
  refine hP.setSize _ _ _ ?_
  cases hc : castOperandClass M w with
  | none => exact hP.ensure h
  | some c =>
      refine hP.classify _ _ _ ?_ (hP.classify _ _ _ ?_ (hP.ensure h))
      · rw [Classifies, hk]
        unfold castOperandClass at hc
        split at hc <;>
          first | (obtain rfl := Option.some.inj hc; exact Or.inl ⟨rfl, rfl⟩) | cases hc
      · rw [Classifies, hk]
        unfold castOperandClass at hc
        split at hc <;> first
          | (obtain rfl := Option.some.inj hc; exact Or.inr ⟨rfl, Or.inl rfl⟩)
          | (obtain rfl := Option.some.inj hc; exact Or.inr ⟨rfl, Or.inr ⟨rfl, _, _, _, ‹_›⟩⟩)
          | cases hc

theorem processCastInst {op : CastOp} {w : Value} (hk : i.kind = .cast op w) (h : P st) :
    P (processCastInst env M i op w st) := by
  unfold MSV.processCastInst
  dsimp only
  split
  · exact hP.ensure h
  · split
    · exact hP.ensure h
    · split
      · unfold classifyExtOrTruncInst
        split
        · refine hP.classify _ _ _ ?_ (hP.classify _ _ _ ?_ (hP.ensure h))
          · rw [Classifies, hk]
            exact Or.inl ⟨rfl, rfl⟩
          · rw [Classifies, hk]
            exact Or.inr ⟨rfl, Or.inl rfl⟩
        · exact hP.ensure h
      · exact hP.castPointer hk (hP.ensure h)

theorem callSizes {f : Function} {args : List Value} (h : P st) :
    P (callSizes env M i f args st) := by
  unfold MSV.callSizes
  split
  · exact hP.setSize _ _ _ h
  · split
    · exact hP.setSize _ _ _ h
    · split
      · split
        · exact hP.foldl_setSize _ _ (hP.setSize _ _ _ h)
        · exact h
      · split
        · exact hP.setSize _ _ _ h
        · exact h

theorem processCallInst {callee : Callee} {args : List Value} (hk : i.kind = .call callee args)
    (h : P st) : P (processCallInst env M i callee args st) := by
  unfold MSV.processCallInst
  split
  · exact h
  · unfold updateRewrittenFunctionCall
    rename_i f _
    generalize hst : MSV.callSizes env M i f args st = st₁
    have h₁ : P st₁ := hst ▸ hP.callSizes h
    clear hst h
    induction rewrittenReturns M f generalizing st₁ with
    | nil => exact h₁
    | cons r rs ih =>
        refine ih _ ?_
        dsimp only
        split
        · exact hP.classify _ _ _ (by rw [Classifies, hk]) h₁
        · exact h₁

theorem processInstruction (h : P st) : P (processInstruction env M i st) := by
  have h₁ : P (MSV.processGlobalVariables env M i st) := hP.processGlobalVariables h
  unfold MSV.processInstruction
  dsimp only
  split
  · exact hP.processAllocaInst h₁
  · exact hP.processCallInst ‹_› h₁
  · exact hP.processStoreInst ‹_› h₁
  · exact hP.processLoadInst ‹_› h₁
  · exact hP.processGetElementPtrInst ‹_› h₁
  · exact hP.processCastInst ‹_› h₁
  · exact h₁

end Survives

end MSV
