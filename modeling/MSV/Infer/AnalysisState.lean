import MSV.Lib.FMap
import MSV.IR.Syntax

/-!
# The analysis state

`AnalysisState` of `Utils.cpp`: for every registered variable its classification, the size value
attached to it, and the flags the later passes read. Variables start out safe; a classification
only moves up, from safe to sequential or dynamic, except that a sequential use of a dynamic
pointer makes it sequential.
-/

namespace MSV

/-- `VariableStates`, in increasing order. -/
inductive VariableStates where
  | unknown
  | safe
  | seq
  | dyn
deriving DecidableEq

namespace VariableStates

/-- The numeric value of the enumerator. -/
def rank : VariableStates → Int
  | unknown => -1
  | safe => 0
  | seq => 1
  | dyn => 2

/-- Classified `Seq` or `Dyn`. -/
def isUnsafe : VariableStates → Bool
  | seq | dyn => true
  | _ => false

end VariableStates

/-- `VariableInfo`. -/
structure VariableInfo where
  classification : VariableStates
  size : Value
  hasMetadataTableEntry : Bool
  hasExplicitSizeVariable : Bool
  instantiatedExplicitSizeVariable : Bool
  explicitSizeVariable : Option Value
  isGlobal : Bool
  didClassificationChange : Bool
  dependentFunctions : List String

/-- `ConstantInt::get(sizetype, n)`; the size type is `i64`. -/
def sizeConst (n : Nat) : Value := .constInt (APInt.ofNat 64 n)

/-- What `RegisterVariable` writes for a new variable. -/
def VariableInfo.registered : VariableInfo where
  classification := .safe
  size := sizeConst 0
  hasMetadataTableEntry := false
  hasExplicitSizeVariable := false
  instantiatedExplicitSizeVariable := false
  explicitSizeVariable := none
  isGlobal := false
  didClassificationChange := false
  dependentFunctions := []

/-- `AnalysisState`. -/
structure AnalysisState where
  numFunctions : Nat
  Variables : FMap Value VariableInfo

namespace AnalysisState

/-- The state a pass starts with. -/
def initial : AnalysisState := ⟨0, ∅⟩

/-- The entry of a variable, as `Variables[v]` reads it once it is registered. -/
def info (st : AnalysisState) (v : Value) : VariableInfo :=
  (st.Variables.find v).getD .registered

/-- Rewrite the entry of a variable. -/
def modify (st : AnalysisState) (v : Value) (f : VariableInfo → VariableInfo) : AnalysisState :=
  { st with Variables := st.Variables.set v (f (st.info v)) }

def RegisterFunction (st : AnalysisState) : AnalysisState :=
  { st with numFunctions := st.numFunctions + 1 }

def RegisterVariable (st : AnalysisState) (v : Value) : AnalysisState :=
  if st.Variables.has v then st else st.modify v id

/-- A classification is taken when it is greater, or when it turns `Dyn` into `Seq`. -/
def ClassifyPointerVariable (st : AnalysisState) (v : Value) (ptrType : VariableStates) :
    AnalysisState :=
  let st := st.RegisterVariable v
  let old := (st.info v).classification
  if old.rank < ptrType.rank ∨ (old = .dyn ∧ ptrType = .seq) then
    st.modify v fun i => { i with
      classification := ptrType
      didClassificationChange := i.didClassificationChange || i.isGlobal }
  else st

def SetSizeForPointerVariable (st : AnalysisState) (v : Value) (size : Option Value) :
    AnalysisState :=
  (st.RegisterVariable v).modify v fun i => { i with size := size.getD (sizeConst 0) }

def SetExplicitSizeVariableForPointerVariable (st : AnalysisState) (v : Value)
    (explicitSize : Option Value) : AnalysisState :=
  (st.RegisterVariable v).modify v fun i => { i with
    hasExplicitSizeVariable := explicitSize.isSome
    explicitSizeVariable := explicitSize }

def SetInstantiatedExplicitSizeVariable (st : AnalysisState) (v : Value) (b : Bool) :
    AnalysisState :=
  (st.RegisterVariable v).modify v fun i => { i with instantiatedExplicitSizeVariable := b }

def SetHasMetadataTableEntry (st : AnalysisState) (v : Value) : AnalysisState :=
  (st.RegisterVariable v).modify v fun i => { i with hasMetadataTableEntry := true }

/-- `GetPointerVariableInfo`: a null pointer gets a temporary entry of unknown classification. -/
def GetPointerVariableInfo (st : AnalysisState) (v : Value) : Option VariableInfo :=
  match v with
  | .null _ => some { VariableInfo.registered with classification := .unknown }
  | v => st.Variables.find v

end AnalysisState

end MSV
