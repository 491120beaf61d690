import MSV.Dataflow.Engine
import MSV.Infer.AnalysisState
import MSV.Range.Transfer

/-!
# The verdict on a GEP

The loop of `valueRangeAnalysis` that looks at every GEP of the results and decides whether it is
unsafe. The results are taken as they come out of the dataflow engine: for every context and every
function, a state per instruction and per block.

The verdict looks at one index of a GEP: the second one, or the only one.
-/

namespace MSV

/-- The results of the range analysis for one context and function. -/
abbrev RangeResult := DataflowResult RangeValue

abbrev RangeResults := AllResults RangeValue

/-- The key before instruction `i`, walking a block whose current key is `prev`. -/
def incomingKey (prev : Value) : List Inst → InstId → Option Value
  | [], _ => none
  | x :: xs, i => if x.id = i then some prev else incomingKey (.inst x.id) xs i

/-- `getIncomingState`: the state of the previous instruction, or of the block for the first. -/
def getIncomingState (M : Module) (result : RangeResult) (i : InstId) : RangeState :=
  match M.blocks.findSome? fun b => incomingKey (.block b.id) b.insts i with
  | some key => (result.find key).getD ∅
  | none => ∅

/-- The index the verdict looks at: operand 2, or operand 1 of a GEP with two operands. -/
def examinedIndex : List Value → Option Value
  | [i] => some i
  | _ :: i :: _ => some i
  | [] => none

/-- The verdict on an index into an array of `n` elements of type `elem`. -/
def arrayVerdict (DL : DataLayout) (n : Nat) (elem : Ty) (index : Value) (state : RangeState) :
    Bool :=
  match index with
  | .constInt c =>
      if !c.isNegative && !c.uge n then
        decide (DL.allocSize (.array n elem) < u64 (c.getLimitedValue * DL.allocSize elem))
      else true
  | index =>
      match state.get index with
      | .constant l r => l.isNegative || r.uge n
      | _ => true

/-- The verdict on an index into a struct of `n` fields. The test of a constant range is made, but
only an unknown or infinite range is acted on. -/
def structVerdict (DL : DataLayout) (s : StructId) (n : Nat) (index : Value) (state : RangeState) :
    Bool :=
  match index with
  | .constInt c =>
      if c.getLimitedValue < n then
        if !c.isNegative && !c.uge n then
          decide (DL.allocSize (.struct s) < DL.elementOffset s c.getLimitedValue)
        else false
      else true
  | index =>
      match state.get index with
      | .constant _ _ => false
      | _ => true

/-- The verdict on a GEP over a raw pointer: the narrowed size must be positive. -/
def rawVerdict (size : Value) (index : Value) : Bool :=
  match index, size with
  | .constInt c, .constInt sz =>
      !(!c.isNegative && decide (0 < (BitVec.ofInt 32 sz.toInt).toInt))
  | .constInt _, _ => false
  | _, _ => true

section

variable (M : Module) (DL : DataLayout)

/-- The template arguments of the range analysis. -/
def rangePolicy : Policy RangeValue where
  beq := RangeValue.beq
  beq_refl _ := decide_eq_true rfl
  meetPair := RangeValue.join
  intersection := RangeValue.inter
  getRangeForConditionalBranch := RangeValue.getRangeForConditionalBranch
  transfer := transfer M DL

/-- The verdict on a GEP over type `src` with the given indices, in the incoming state. -/
def gepVerdict (info : VariableInfo) (src : Ty) (indices : List Value) (state : RangeState) :
    Bool :=
  match examinedIndex indices with
  | none => false
  | some index =>
      match src with
      | .array n elem => arrayVerdict DL n elem index state
      | .struct s => structVerdict DL s (M.structs s).length index state
      | _ => rawVerdict info.size index

/-- The body of the loop for one key of a result. -/
def visitKey (heapSeqPointerSet : FMap Value VariableInfo) (T : AnalysisState)
    (result : RangeResult) (unsafeSet : FMap Value VariableInfo) (key : Value) :
    FMap Value VariableInfo :=
  match key, M.kindOf key, T.GetPointerVariableInfo key with
  | .inst i, some (.gep src _ indices), some info =>
      if heapSeqPointerSet.has key ∧
          gepVerdict M DL info src indices (getIncomingState M result i) = true then
        unsafeSet.set key info
      else unsafeSet
  | _, _, _ => unsafeSet

/-- `heapUnsafeSeqPointerSet` after the loop over the results. -/
def heapUnsafeSeqPointerSet (heapSeqPointerSet : FMap Value VariableInfo) (T : AnalysisState)
    (results : RangeResults) : FMap Value VariableInfo :=
  results.entries.foldl (fun s e =>
    e.2.entries.foldl (fun s x => visitKey M DL heapSeqPointerSet T e.2 s x.1) s) ∅

end

end MSV
