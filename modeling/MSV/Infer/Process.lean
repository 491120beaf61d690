import MSV.Infer.AnalysisState
import MSV.Lib.Run
import Mathlib.Data.List.Infix

/-!
# The pointer inference

The first phase of the unified pass. Every instruction of every analysed function is processed once,
in the order of the module; then the instructions that alias an access of a global whose
classification changed are processed again. `Inference` is the pass as a machine: the instructions
still to process, then the functions, then the globals whose flags are still to be looked at.

Sizes come from LLVM's object-size evaluation and are carried along; no classification depends on
them. The dependence graph is a parameter too, and so is the order in which the propagation meets
the globals, which is the iteration order of an unordered map.
-/

namespace MSV

/-- What the inference asks of LLVM and of the program dependence graph. -/
structure InferEnv where
  getSizeForValue : Value → Value
  getOffsetForGEPInst : Inst → Value
  getTypeAllocSize : Ty → Nat
  /-- `ConstantExpr::getMul` and `getSub`, at 64 bits. -/
  constMul : Value → Value → Value
  constSub : Value → Value → Value
  /-- The globals a constant GEP expression names. -/
  gepOperatorGlobals : Value → List GlobalId
  /-- The instructions among the in-neighbours of a node along alias edges. -/
  aliasNeighbors : Inst → List Inst
  /-- The globals in the order of `Variables`. -/
  globalOrder : List GlobalId

/-- The number of pointers around a type. -/
def countIndirections : Ty → Nat
  | .ptr t => countIndirections t + 1
  | _ => 0

/-- The type under the pointers. -/
def unwrapPointer : Ty → Ty
  | .ptr t => unwrapPointer t
  | t => t

/-- `StringRef::contains`. -/
def containsText (s text : String) : Bool := decide (text.toList <:+: s.toList)

/-- The `ConstantInt` zero. -/
def isZeroConstant : Value → Bool
  | .constInt c => c.toNat == 0
  | _ => false

/-- A `ConstantInt` one. -/
def isOneConstant : Value → Bool
  | .constInt c => c.toNat == 1
  | _ => false

section

variable (env : InferEnv) (M : Module)

/-- The globals an operand names: itself, or through a GEP. -/
def operandGlobals (v : Value) : List GlobalId :=
  match v with
  | .global g => [g]
  | v =>
      match M.kindOf v with
      | some (.gep _ base indices) => (base :: indices).filterMap fun
          | .global g => some g
          | _ => none
      | _ => env.gepOperatorGlobals v

/-- `I->getFunction()->getName()`. -/
def functionName (i : Inst) : String :=
  ((M.funcs.find? fun f => i ∈ f.insts).map Function.name).getD ""

def processGlobalVariables (i : Inst) (st : AnalysisState) : AnalysisState :=
  (i.kind.operands.flatMap (operandGlobals env M)).foldl (fun st g =>
    st.modify (.global g) fun info => { info with
      dependentFunctions := info.dependentFunctions.insert (functionName M i) }) st

def processAllocaInst (i : Inst) (ty : Ty) (arraySize : Value) (st : AnalysisState) :
    AnalysisState :=
  if ty.isPointerTy then st.RegisterVariable (.inst i.id)
  else if arraySize.isConstant then
    st.SetSizeForPointerVariable (.inst i.id)
      (some (env.constMul arraySize (sizeConst (env.getTypeAllocSize ty))))
  else st.SetSizeForPointerVariable (.inst i.id) (some (sizeConst 10000))

/-- The pointers a freed pointer was loaded or cast from, at most `fuel` of them. -/
def freedChain : Nat → Value → List Value
  | 0, _ => []
  | fuel + 1, v =>
      match M.kindOf v with
      | some (.load p) => p :: freedChain fuel p
      | some (.cast .bitcast w) => w :: freedChain fuel w
      | _ => []

def propagateFreedSize (v : Value) (st : AnalysisState) : AnalysisState :=
  (freedChain M M.insts.length v).foldl (fun st v => st.SetSizeForPointerVariable v none) st

/-- The operands of the returns of the rewritten version of a function. -/
def rewrittenReturns (calledFunc : Function) : List Value :=
  match M.getFunction (calledFunc.name ++ "_UnifiedMemSafe") with
  | some f => f.insts.filterMap fun i =>
      match i.kind with
      | .ret v => v
      | _ => none
  | none => []

def updateRewrittenFunctionCall (i : Inst) (calledFunc : Function) (st : AnalysisState) :
    AnalysisState :=
  (rewrittenReturns M calledFunc).foldl (fun st v =>
    match st.GetPointerVariableInfo v with
    | some varinfo => st.ClassifyPointerVariable (.inst i.id) varinfo.classification
    | none => st) st

/-- The sizes a call sets, by the name of the called function. -/
def callSizes (i : Inst) (f : Function) (args : List Value) (st : AnalysisState) : AnalysisState :=
  if containsText f.name "malloc" && f.params.length == 1 then
    st.SetSizeForPointerVariable (.inst i.id) args[0]?
  else if containsText f.name "realloc" && f.params.length == 2 then
    st.SetSizeForPointerVariable (.inst i.id) args[1]?
  else if containsText f.name "free" && f.params.length == 1 then
    match args[0]? with
    | some v => propagateFreedSize M v (st.SetSizeForPointerVariable v none)
    | none => st
  else if i.ty.isPointerTy then
    st.SetSizeForPointerVariable (.inst i.id) (some (env.getSizeForValue (.inst i.id)))
  else st

def processCallInst (i : Inst) (callee : Callee) (args : List Value) (st : AnalysisState) :
    AnalysisState :=
  match callee.getCalledFunction.bind M.func? with
  | none => st
  | some f => updateRewrittenFunctionCall M i f (callSizes env M i f args st)

def processStoreInst (val ptr : Value) (st : AnalysisState) : AnalysisState :=
  if (M.typeOf val).isPointerTy then
    -- a stored pointer that is not registered is registered first
    let st := if (st.GetPointerVariableInfo val).isSome then st
      else st.SetSizeForPointerVariable val (some (env.getSizeForValue val))
    match st.GetPointerVariableInfo val with
    | some varinfo =>
        let st := st.ClassifyPointerVariable ptr varinfo.classification
        -- the entry is read again, it may be the one just classified
        st.SetSizeForPointerVariable ptr ((st.GetPointerVariableInfo val).map (·.size))
    | none => st
  else
    if (st.GetPointerVariableInfo ptr).isSome then st
    else
      (st.SetSizeForPointerVariable ptr (some (env.getSizeForValue ptr)))
        |>.SetInstantiatedExplicitSizeVariable ptr true

/-- Whether two instruction values are in different blocks. -/
def inOtherBlock (v : Value) (i : Inst) : Bool :=
  match v with
  | .inst j => !(M.blocks.any fun b => i ∈ b.insts && b.insts.any (·.id == j))
  | _ => false

def processLoadInst (i : Inst) (ptr : Value) (st : AnalysisState) : AnalysisState :=
  if i.ty.isPointerTy then
    let st := if !(st.GetPointerVariableInfo ptr).isSome && ptr.isConstant then
        st.SetSizeForPointerVariable ptr (some (env.getSizeForValue ptr))
      else st
    match st.GetPointerVariableInfo ptr with
    | some varinfo =>
        let st :=
          if varinfo.hasExplicitSizeVariable && (!varinfo.instantiatedExplicitSizeVariable ||
              inOtherBlock M varinfo.size i) then
            (st.SetSizeForPointerVariable ptr varinfo.explicitSizeVariable)
              |>.SetInstantiatedExplicitSizeVariable ptr true
          else st
        (st.ClassifyPointerVariable (.inst i.id) varinfo.classification).SetSizeForPointerVariable
          (.inst i.id) ((st.GetPointerVariableInfo ptr).map (·.size))
    | none => st
  else
    if (st.GetPointerVariableInfo ptr).isSome then st
    else
      (st.SetSizeForPointerVariable ptr (some (env.getSizeForValue ptr)))
        |>.SetInstantiatedExplicitSizeVariable ptr true

/-- The size of a GEP: that of its base, less the offset. -/
def setSizeForGEP (i : Inst) (src : Ty) (base : Value) (nonZero : Bool) (st : AnalysisState) :
    AnalysisState :=
  match st.GetPointerVariableInfo base with
  | none => st
  | some varinfo =>
      let otherSize := if isZeroConstant varinfo.size then
          match src with
          | .array n elem => sizeConst (n * env.getTypeAllocSize elem)
          | _ => env.getSizeForValue base
        else varinfo.size
      let st := if isZeroConstant varinfo.size then
          st.SetSizeForPointerVariable base (some otherSize)
        else st
      let offset := env.getOffsetForGEPInst i
      let otherSize := if nonZero && offset.isConstant && otherSize.isConstant then
          env.constSub otherSize offset
        else otherSize
      st.SetSizeForPointerVariable (.inst i.id) (some otherSize)

def processGetElementPtrInst (i : Inst) (src : Ty) (base : Value) (indices : List Value)
    (st : AnalysisState) : AnalysisState :=
  let nonZero := !Module.hasAllZeroIndices indices
  let st := if nonZero then
      (st.ClassifyPointerVariable base .seq).ClassifyPointerVariable (.inst i.id) .seq
    else st
  let st := st.RegisterVariable (.inst i.id)
  -- a GEP to a pointer gets no size here
  if (resultElementType i.ty).isPointerTy then st else setSizeForGEP env i src base nonZero st

/-- A store names the value, as pointer or as stored value. -/
def hasStoreUser (v : Value) : Bool :=
  M.insts.any fun i =>
    match i.kind with
    | .store val ptr => val == v || ptr == v
    | _ => false

/-- `couldChangeValue` of `classifyExtOrTruncInst`. -/
def couldChangeValue (i : Inst) (op : CastOp) (v : Value) : Bool :=
  match op with
  | .sext => (M.typeOf v).isIntegerTy && i.ty.isIntegerTy
  | .trunc =>
      match M.typeOf v, i.ty with
      | .int src, .int dst =>
          decide (dst < src) &&
            match M.kindOf v with
            | some (.load ptr) => hasStoreUser M ptr
            | _ => true
      | _, _ => false
  | _ => false

def classifyExtOrTruncInst (i : Inst) (op : CastOp) (v : Value) (st : AnalysisState) :
    AnalysisState :=
  if couldChangeValue M i op v then
    (st.ClassifyPointerVariable v .dyn).ClassifyPointerVariable (.inst i.id) .dyn
  else st

def isCastOfInterest (srcT dstT : Ty) : Bool :=
  countIndirections srcT != countIndirections dstT || !(unwrapPointer srcT).isIntegerTy ||
    !(unwrapPointer dstT).isIntegerTy

/-- What a cast makes of its operand: the classifications of operand and result, by what the
operand is. -/
def castOperandClass (v : Value) : Option (VariableStates × VariableStates) :=
  match M.kindOf v with
  | some (.load _) => some (.dyn, .dyn)
  | some (.gep ..) => some (.seq, .dyn)
  | some (.cast ..) => some (.dyn, .dyn)
  | some (.call ..) => some (.dyn, .dyn)
  | _ => none

def isCallValue (v : Value) : Bool :=
  match M.kindOf v with
  | some (.call ..) => true
  | _ => false

/-- The cast of a pointer. A call of known size one takes the size of the cast. -/
def castPointer (i : Inst) (op : CastOp) (v : Value) (varinfo : VariableInfo)
    (st : AnalysisState) : AnalysisState :=
  let st := if isCallValue M v && op == .bitcast && isOneConstant varinfo.size then
      st.SetSizeForPointerVariable v (some (env.getSizeForValue (.inst i.id)))
    else st
  let st := match castOperandClass M v with
    | some c => (st.ClassifyPointerVariable v c.1).ClassifyPointerVariable (.inst i.id) c.2
    | none => st
  -- the size is read after it may have been replaced
  st.SetSizeForPointerVariable (.inst i.id) ((st.GetPointerVariableInfo v).map (·.size))

def processCastInst (i : Inst) (op : CastOp) (v : Value) (st : AnalysisState) : AnalysisState :=
  let st := if !(st.GetPointerVariableInfo v).isSome && (M.typeOf v).isPointerTy then
      st.SetSizeForPointerVariable v (some (env.getSizeForValue v))
    else st
  match st.GetPointerVariableInfo v with
  | none => st
  | some varinfo =>
      if !isCastOfInterest (M.typeOf v) i.ty then st
      else if !(M.typeOf v).isPointerTy then classifyExtOrTruncInst M i op v st
      else castPointer env M i op v varinfo st

def processInstruction (i : Inst) (st : AnalysisState) : AnalysisState :=
  let st := processGlobalVariables env M i st
  match i.kind with
  | .alloca ty n => processAllocaInst env i ty n st
  | .call callee args => processCallInst env M i callee args st
  | .store val ptr => processStoreInst env M val ptr st
  | .load ptr => processLoadInst env M i ptr st
  | .gep src base indices => processGetElementPtrInst env i src base indices st
  | .cast op v => processCastInst env M i op v st
  | _ => st

/-! ## The pass -/

/-- `registerGlobals`. -/
def registerGlobals (st : AnalysisState) : AnalysisState :=
  M.globals.foldl (fun st g =>
    ((st.RegisterVariable (.global g.1)).modify (.global g.1) fun info =>
      { info with isGlobal := true }).SetSizeForPointerVariable (.global g.1)
        (some (env.getSizeForValue (.global g.1)))) st

/-- The functions left out by name. -/
def skippedFunctions : List String :=
  ["printCheck", "printErrorLine", "printFaultInjectionExecuted", "setMetadataTableEntry",
    "lookupMetadataTableEntry", "findMetadataTableEntry"]

def collectFunctionsToAnalyze : List Function :=
  M.funcs.filter fun f => !f.isDeclaration && !(skippedFunctions.contains f.name)

/-- The instructions processed again for a global: for every use of it in a function of `names`, the
alias neighbours of the using instruction. -/
def reanalyzed (g : GlobalId) (names : List String) : List Inst :=
  (names.mergeSort (· ≤ ·)).flatMap fun name =>
    match M.getFunction name with
    | none => []
    | some f => f.insts.flatMap fun i =>
        (i.kind.operands.filter (· == .global g)).flatMap fun _ => env.aliasNeighbors i

/-- The running pass. -/
structure Inference where
  state : AnalysisState
  /-- The instructions processed so far. -/
  done : List Inst
  todo : List Inst
  functions : List Function
  globals : List GlobalId

namespace Inference

def initial : Inference where
  state := registerGlobals env M .initial
  done := []
  todo := []
  functions := collectFunctionsToAnalyze M
  globals := env.globalOrder

/-- One step: an instruction, or the next function, or the next global. -/
def step (e : Inference) : Option Inference :=
  match e.todo with
  | i :: rest =>
      some { e with state := processInstruction env M i e.state, done := i :: e.done, todo := rest }
  | [] =>
      match e.functions with
      | f :: fs =>
          some { e with state := e.state.RegisterFunction, todo := f.insts, functions := fs }
      | [] =>
          match e.globals with
          | g :: gs =>
              let info := e.state.info (.global g)
              if info.isGlobal && info.didClassificationChange then
                some { e with
                  state := e.state.modify (.global g) fun info =>
                    { info with didClassificationChange := false }
                  todo := reanalyzed env M g info.dependentFunctions
                  globals := gs }
              else some { e with globals := gs }
          | [] => none

end Inference

end

end MSV
