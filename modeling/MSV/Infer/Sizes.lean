import MSV.Infer.Process
import MSV.Range.Transfer

/-!
# Where the sizes come from

`getSizeForValue` and `getOffsetForGEPInst` of the unified pass. A size or an offset is taken from
LLVM's object-size evaluation when it knows one, else worked out from types and indices. Sizes are
constants of 64 bits, except that the size of an alloca has the type of its array size.
-/

namespace MSV

/-- What the sizes rest on outside the pass. -/
structure SizeEnv where
  DL : DataLayout
  /-- `ObjSizeEval->compute`: the size of the object and the offset in it, where known. -/
  compute : Value → Option Value × Option Value
  /-- `ptaw->getSizeForValue`. -/
  svfSize : Value → Int
  /-- The constant expression over two constants that are not both integers. -/
  constantExpr : Value → Value → Nat
  gepOperatorGlobals : Value → List GlobalId
  aliasNeighbors : Inst → List Inst
  globalOrder : List GlobalId

/-- `UnknownSizeConstInt`. -/
def UnknownSizeConstInt : Value := sizeConst 10000000

namespace SizeEnv

variable (E : SizeEnv) (M : Module)

/-- `ConstantExpr::getMul` at the type of the first operand. -/
def constMul (a b : Value) : Value :=
  match a, b with
  | .constInt x, .constInt y => .constInt (APInt.ofNat x.width (x.toNat * y.toNat))
  | a, b => .constant (E.constantExpr a b) (.int 64)

/-- `ConstantExpr::getSub` after both operands are extended to 64 bits with zeros. -/
def constSub (a b : Value) : Value :=
  match a, b with
  | .constInt x, .constInt y => .constInt ⟨64, x.bits.setWidth 64 - y.bits.setWidth 64⟩
  | a, b => .constant (E.constantExpr a b) (.int 64)

/-- A `CallInst` or `InvokeInst`. -/
def isCallBase (v : Value) : Bool := ((M.kindOf v).bind InstKind.asCallBase).isSome

/-- The manual part of `getSizeForValue`. -/
def manualSize (v : Value) : Value :=
  match resultElementType (M.typeOf v) with
  | .array n elem => sizeConst (n * E.DL.allocSize elem)
  | .func _ => sizeConst 8
  | t =>
      if isCallBase M v && (M.typeOf v).isPointerTy then UnknownSizeConstInt
      else
        match v with
        | .arg .. => .constInt (APInt.ofInt 64 (E.svfSize v))
        | _ => if t = .void then sizeConst 0 else sizeConst (E.DL.allocSize t)

def getSizeForValue (v : Value) : Value := (E.compute v).1.getD (E.manualSize M v)

/-! ## Offsets -/

/-- The offset of the indices after the first, at a type. -/
def indexOffset : Ty → List Value → Option Int
  | _, [] => some 0
  | .struct s, .constInt c :: rest =>
      (indexOffset ((M.structs s).getD c.toNat .void) rest).map
        ((E.DL.elementOffset s c.toNat : Int) + ·)
  | .array _ elem, .constInt c :: rest | .vector _ elem, .constInt c :: rest =>
      (indexOffset elem rest).map (c.toInt * E.DL.allocSize elem + ·)
  | _, _ => none

def accumulateConstantOffset (src : Ty) (indices : List Value) : Option Int :=
  match indices with
  | .constInt c :: rest => (indexOffset E M src rest).map (c.toInt * E.DL.allocSize src + ·)
  | _ => none

/-- The instructions of the function of a load, up to the load. -/
def scannedInsts (load : Inst) : List Inst :=
  (((M.funcs.find? fun f => load ∈ f.insts).map Function.insts).getD []).takeWhile (· ≠ load)

/-- What an instruction stores to an alloca. -/
def storedTo (alloca i : Inst) : Option Value :=
  match i.kind with
  | .store val ptr => if ptr = .inst alloca.id then some val else none
  | _ => none

/-- `getLastConstantStore`: the value of the last store in the text before the load. -/
def getLastConstantStore (load alloca : Inst) : Int :=
  if (M.funcs.find? fun f => load ∈ f.insts) ≠ (M.funcs.find? fun f => alloca ∈ f.insts) then -1
  else
    match (scannedInsts M load).reverse.findSome? (storedTo alloca) with
    | some (.constInt c) => c.toInt
    | _ => -1

/-- The stores among the users of a value. -/
def storeUsers (v : Value) : List Inst :=
  M.insts.filter fun i => i.kind.isStore && decide (v ∈ i.kind.operands)

/-- `resolveAllocaStore`: the value of the only store, or of the last one before the load. -/
def resolveAllocaStore (load alloca : Inst) : Int :=
  match storeUsers M (.inst alloca.id) with
  | [⟨_, _, .store (.constInt c) ptr⟩] =>
      if ptr = .inst alloca.id then c.toInt else getLastConstantStore M load alloca
  | _ => getLastConstantStore M load alloca

/-- `resolveConstantIndex`: a constant, a constant stored in an alloca, or a cast of one. -/
def resolveConstantIndex : Nat → Value → Int
  | _, .constInt c => c.toInt
  | 0, _ => -1
  | fuel + 1, .inst id =>
      match M.inst? id with
      | some load =>
          match load.kind with
          | .load (.inst a) =>
              match M.inst? a with
              | some alloca =>
                  match alloca.kind with
                  | .alloca .. => resolveAllocaStore M load alloca
                  | _ => -1
              | none => -1
          | .cast _ v => resolveConstantIndex fuel v
          | _ => -1
      | none => -1
  | _, _ => -1

/-- The manual offset: every index counts for the size of the result's element type. -/
def manualOffset (i : Inst) (indices : List Value) : Value :=
  let resolved := indices.map (resolveConstantIndex M M.insts.length)
  if -1 ∈ resolved then UnknownSizeConstInt
  else .constInt (APInt.ofInt 64
    (resolved.map fun c => c * (E.DL.storeSize (resultElementType i.ty) : Int)).sum)

/-- The constant offset of a GEP that the evaluation does not know. -/
def offsetFromIndices (i : Inst) : Value :=
  match i.kind with
  | .gep src _ indices =>
      match E.accumulateConstantOffset M src indices with
      | some d => .constInt (APInt.ofInt 64 d)
      | none => manualOffset E M i indices
  | _ => UnknownSizeConstInt

def getOffsetForGEPInst (i : Inst) : Value :=
  match i.ty with
  | .vector .. => UnknownSizeConstInt
  | _ => (E.compute (.inst i.id)).2.getD (E.offsetFromIndices M i)

/-- What the inference asks, with the sizes filled in. -/
def inferEnv : InferEnv where
  getSizeForValue := E.getSizeForValue M
  getOffsetForGEPInst := E.getOffsetForGEPInst M
  getTypeAllocSize := E.DL.allocSize
  constMul := E.constMul
  constSub := E.constSub
  gepOperatorGlobals := E.gepOperatorGlobals
  aliasNeighbors := E.aliasNeighbors
  globalOrder := E.globalOrder

end SizeEnv

end MSV
