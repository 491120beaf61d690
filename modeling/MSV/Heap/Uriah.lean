import MSV.Infer.Process

/-!
# Unsafe heap pointers

`Uriah.cpp`: the heap pointers classified `Seq` or `Dyn` are put in the unsafe sets, and then every
pointer that aliases one of them. The second loop runs over the ordered map it inserts into, so
`HeapLoop` keeps the key it has come to; the next round takes the least greater key that is in the
map by then. The keys are ordered by address, which is a parameter.
-/

namespace MSV

/-- A set of pointers with their entries. -/
abbrev PointerSet := FMap Value VariableInfo

/-- The sets of `Uriah`. -/
structure HeapSets where
  heapPointerSet : PointerSet
  unsafeUniqueHeapPointerSet : PointerSet
  unsafeAliasHeapPointerSet : PointerSet
  unsafeHeapPointerSet : PointerSet
  heapSeqPointerSet : PointerSet
  heapDynPointerSet : PointerSet
  /-- The casts among the `Dyn` pointers. -/
  heapDynPtrSet : PointerSet

/-- What is asked of the dependence graph and of the points-to analysis. -/
structure AliasEnv where
  /-- The instructions among the in-neighbours along alias edges; none if there is no node. -/
  aliasInNeighbors : Inst → Option (List Inst)
  hasValueNode : Value → Bool

section

variable (M : Module)

/-- `isa<CastInst>`. -/
def isCast (v : Value) : Bool :=
  match M.kindOf v with
  | some (.cast ..) => true
  | _ => false

/-- `getRootValue`: through GEPs, loads, casts and allocation calls, at most `fuel` of them. -/
def rootFuel : Nat → Value → Value
  | 0, v => v
  | fuel + 1, v =>
      match M.kindOf v with
      | some (.gep _ base _) => rootFuel fuel base
      | some (.load ptr) => rootFuel fuel ptr
      | some (.call callee args) =>
          match callee.getCalledFunction.bind M.func?, args with
          | some f, arg :: _ => if containsText f.name "alloc" then rootFuel fuel arg else v
          | _, _ => v
      | some (.cast _ w) => rootFuel fuel w
      | _ => v

def getRootValue (v : Value) : Value := rootFuel M (M.insts.length + 1) v

def queryAliasing (v w : Value) : Bool := getRootValue M v == getRootValue M w

/-- One entry of `identifyHeapObjectClassification`. -/
def classifyHeapPointer (s : HeapSets) (v : Value) (info : VariableInfo) : HeapSets :=
  if info.classification.isUnsafe then
    let s := { s with
      unsafeUniqueHeapPointerSet := s.unsafeUniqueHeapPointerSet.set v info
      unsafeHeapPointerSet := s.unsafeHeapPointerSet.set v info }
    if info.classification = .seq then
      { s with heapSeqPointerSet := s.heapSeqPointerSet.set v info }
    else
      { s with
        heapDynPointerSet := s.heapDynPointerSet.set v info
        heapDynPtrSet := if isCast M v then s.heapDynPtrSet.set v info else s.heapDynPtrSet }
  else s

/-- `identifyHeapObjectClassification`, from empty sets. -/
def identifyHeapObjectClassification (heapPointerSet : PointerSet) : HeapSets :=
  heapPointerSet.entries.foldl (fun s e => classifyHeapPointer M s e.1 e.2)
    ⟨heapPointerSet, ∅, ∅, ∅, ∅, ∅, ∅⟩

/-! ## Pointers that alias unsafe ones -/

variable (env : AliasEnv)

/-- The function of an instruction. -/
def functionInsts (i : Inst) : List Inst :=
  ((M.funcs.find? fun f => i ∈ f.insts).map Function.insts).getD []

/-- The set of aliases that is built for an instruction. -/
def aliasSet (i : Inst) (neighbors : List Inst) : List Inst :=
  neighbors ++ (functionInsts M i).filter fun j =>
    decide (j ≠ i) && env.hasValueNode (.inst i.id) && env.hasValueNode (.inst j.id) &&
      queryAliasing M (.inst i.id) (.inst j.id)

/-- What is done with an alias that has an entry. -/
def addAlias (st : AnalysisState) (s : HeapSets) (j : Inst) : HeapSets :=
  let q : Value := .inst j.id
  match st.GetPointerVariableInfo q with
  | none => s
  | some info =>
      let s := { s with
        unsafeHeapPointerSet := s.unsafeHeapPointerSet.set q info
        heapPointerSet := s.heapPointerSet.set q info }
      let s := if info.classification = .seq then
          { s with
            unsafeUniqueHeapPointerSet := s.unsafeUniqueHeapPointerSet.set q info
            heapSeqPointerSet := s.heapSeqPointerSet.set q info }
        else { s with unsafeAliasHeapPointerSet := s.unsafeAliasHeapPointerSet.set q info }
      if info.classification = .dyn then
        { s with
          unsafeUniqueHeapPointerSet := s.unsafeUniqueHeapPointerSet.set q info
          heapDynPointerSet := s.heapDynPointerSet.set q info
          heapDynPtrSet := if isCast M q then s.heapDynPtrSet.set q info else s.heapDynPtrSet }
      else { s with unsafeAliasHeapPointerSet := s.unsafeAliasHeapPointerSet.set q info }

/-- The body of the loop for one unsafe pointer. -/
def expandPointer (st : AnalysisState) (p : Value) (s : HeapSets) : HeapSets :=
  match p with
  | .inst id =>
      match M.inst? id with
      | none => s
      | some i =>
          match env.aliasInNeighbors i with
          | none => s
          | some neighbors => (aliasSet M env i neighbors).foldl (addAlias M st) s
  | _ => s

/-- The loop of `identifyAndClassifyUnsafeHeapObjects`: the sets, and the last key visited. -/
structure HeapLoop where
  sets : HeapSets
  cursor : Option Nat

variable (key : Value → Nat)

/-- The pointer with the lesser key, if it lies behind the cursor. -/
def lesserPointer (cursor : Option Nat) (best : Option Value) (v : Value) : Option Value :=
  if cursor.all (· < key v) then
    match best with
    | none => some v
    | some b => if key v < key b then some v else best
  else best

/-- A pointer of the set behind the cursor, with the least key. -/
def nextPointer (cursor : Option Nat) (s : PointerSet) : Option Value :=
  (s.entries.map (·.1)).foldl (lesserPointer key cursor) none

def HeapLoop.step (st : AnalysisState) (e : HeapLoop) : Option HeapLoop :=
  match nextPointer key e.cursor e.sets.unsafeUniqueHeapPointerSet with
  | none => none
  | some p => some ⟨expandPointer M env st p e.sets, some (key p)⟩

/-- The sets at the end of the loop. It visits no key twice, so it ends within as many rounds as
there are pointers. -/
def identifyAndClassifyUnsafeHeapObjects (heapPointerSet : PointerSet) (st : AnalysisState) :
    HeapSets :=
  (stepN (HeapLoop.step M env key st) (heapPointerSet.size + st.Variables.size)
    ⟨identifyHeapObjectClassification M heapPointerSet, none⟩).sets

end

end MSV
