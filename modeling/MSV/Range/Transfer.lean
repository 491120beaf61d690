import MSV.Lib.FMap
import MSV.Range.Value

/-!
# The range transfer function

`RangeTransfer`: what one instruction does to an abstract state. A state maps values to ranges; a
range recorded for a pointer is either the range of the integer stored there (for an alloca) or
`[0, n - 1]` when `n` bytes are available behind it. Reading a missing key with `operator[]`
creates it, and the definitions below thread the state through every such read.
-/

namespace MSV

/-- `RangeState`. -/
abbrev RangeState := FMap Value RangeValue

/-- Arithmetic on `uint64_t`. -/
def u64 (n : Nat) : Nat := n % 2 ^ 64

/-- `DataLayout`, as far as it is read. -/
structure DataLayout where
  /-- `getTypeAllocSize`. -/
  allocSize : Ty → Nat
  /-- `getTypeStoreSize`. -/
  storeSize : Ty → Nat
  /-- `getStructLayout(s)->getElementOffset(i)`. -/
  elementOffset : StructId → Nat → Nat

def makeRange (left right : APInt) : RangeValue := .constant left right

def infRange : RangeValue := .infinity

/-- The number of bytes a range `[_, r]` stands for: `r + 1` at 64 bits. -/
def allocSizeOf (r : APInt) : Nat := u64 ((r.sextOrTrunc 64).toNat + 1)

section

variable (M : Module) (DL : DataLayout)

/-- `isLocalAllocaPointer`. -/
def isLocalAllocaPointer (ptr : Value) : Bool :=
  match M.kindOf (M.stripPointerCasts ptr) with
  | some (.alloca ..) => true
  | _ => false

/-- `isKnownMallocCall`: the size, with `0` for a size that is not constant. -/
def isKnownMallocCall (v : Value) : Option Nat :=
  match (M.kindOf (M.stripPointerCasts v)).bind InstKind.asCallBase with
  | some (callee, args) =>
      match callee.getCalledFunction.bind M.func?, args with
      | some f, a :: _ =>
          if f.name = "malloc" then
            match a with
            | .constInt c => some c.toNat
            | _ => some 0
          else none
      | _, _ => none
  | none => none

end

/-- `getRangeFor`: a constant is its own range; any other value is read with `operator[]`. -/
def getRangeFor (v : Value) (s : RangeState) : RangeValue × RangeState :=
  match v with
  | .constInt c => (.constant c c, s)
  | v => (s.get v, s.touch v)

/-- `masking`: one less than a power of two. -/
def masking (v : Value) : Bool :=
  match v with
  | .constInt c => c.succIsPowerOf2
  | _ => false

/-- The least and the greatest of the four corner results, unless one overflowed. -/
def corners (cs : List (APInt × Bool)) : RangeValue :=
  match cs with
  | [] => .infinity
  | c :: _ =>
      if cs.any Prod.snd then .infinity
      else
        makeRange (cs.foldl (fun m x => if x.1.slt m then x.1 else m) c.1)
          (cs.foldl (fun m x => if x.1.sgt m then x.1 else m) c.1)

/-- The constant case of `evaluateBinOP`, on endpoints extended to 64 bits. -/
def evaluateConstBinOP (op : BinOp) (l1 r1 l2 r2 : APInt) : RangeValue :=
  match op with
  | .add =>
      let ll := l1.sadd_ov l2
      let rr := r1.sadd_ov r2
      if ll.2 || rr.2 then infRange else makeRange ll.1 rr.1
  | .sub =>
      let ll := l1.ssub_ov r2
      let rr := r1.ssub_ov l2
      if ll.2 || rr.2 then infRange else makeRange ll.1 rr.1
  | .mul => corners [l1.smul_ov l2, l1.smul_ov r2, r1.smul_ov l2, r1.smul_ov r2]
  | .sdiv =>
      if l2.isNegative && r2.isStrictlyPositive then
        let abs := if l1.abs.sgt r1.abs then l1.abs else r1.abs
        makeRange abs.negate abs
      else if l2.toNat == 0 || r2.toNat == 0 then infRange
      else corners [l1.sdiv_ov l2, l1.sdiv_ov r2, r1.sdiv_ov l2, r1.sdiv_ov r2]
  | .udiv =>
      if l2.toNat == 0 || r2.toNat == 0 then infRange
      else makeRange (r1.udiv l2) (l1.udiv r2)
  | _ => infRange

/-- `evaluateBinOP`. -/
def evaluateBinOP (op : BinOp) (op1 op2 : Value) (s : RangeState) : RangeValue × RangeState :=
  let (range1, s) := getRangeFor op1 s
  let (range2, s) := getRangeFor op2 s
  -- The mask is read off the operand; the lower end is a default `APInt`, one bit wide.
  let mask : Option APInt :=
    if op = .and then
      if range1.isConstant && masking op1 then op1.asConstInt
      else if range2.isConstant && masking op2 then op2.asConstInt
      else none
    else none
  match mask, range1, range2 with
  | some m, _, _ => (makeRange (APInt.ofNat 1 0) m, s)
  | none, .constant l1 r1, .constant l2 r2 =>
      (evaluateConstBinOP op (l1.sextOrTrunc 64) (r1.sextOrTrunc 64) (l2.sextOrTrunc 64)
        (r2.sextOrTrunc 64), s)
  | none, range1, range2 =>
      if range1.isInfinity || range2.isInfinity then (infRange, s) else (.unknown, s)

/-- Folding a cast of a `ConstantInt`, when it is valid and gives a `ConstantInt` again. -/
def foldCast (op : CastOp) (c : APInt) (dest : Ty) : Option APInt :=
  match op, dest with
  | .trunc, .int w => if w < c.width then some (c.zextOrTrunc w) else none
  | .zext, .int w => if c.width < w then some (c.zextOrTrunc w) else none
  | .sext, .int w => if c.width < w then some (c.sextOrTrunc w) else none
  | .bitcast, .int w => if w = c.width then some c else none
  | _, _ => none

/-- `evaluateCast`. -/
def evaluateCast (op : CastOp) (v : Value) (dest : Ty) (s : RangeState) :
    RangeValue × RangeState :=
  let (value, s) := getRangeFor v s
  match value with
  | .constant l r =>
      match foldCast op l dest, foldCast op r dest with
      | some x, some y => (.constant x y, s)
      | _, _ => (infRange, s)
  | other => (other, s)

section

variable (M : Module) (DL : DataLayout)

/-- `handleStore`. Only stores through a (cast of a) local alloca are tracked, under the pointer as
written. The bookkeeping of first stores has no effect on the state and is left out. -/
def handleStore (val ptr : Value) (s : RangeState) : RangeState :=
  let bitWidth := match M.typeOf val with
    | .int w => w
    | _ => 64
  if isLocalAllocaPointer M ptr then
    let (valRange, s) := getRangeFor val s
    let s := s.set ptr valRange
    match isKnownMallocCall M val with
    | some 0 => s.set ptr infRange
    | some (sz + 1) => s.set ptr (makeRange (APInt.ofNat bitWidth 0) (APInt.ofNat bitWidth sz))
    | none =>
        match s.find val with
        | some (.constant _ r) =>
            s.set ptr (makeRange (APInt.ofNat bitWidth 0)
              (APInt.ofNat bitWidth (u64 (allocSizeOf r + 2 ^ 64 - 1))))
        | _ => s
  else s

/-- `handleLoad` of the load `self`. -/
def handleLoad (self ptr : Value) (s : RangeState) : RangeState :=
  if isLocalAllocaPointer M ptr then
    match s.find ptr with
    | some r => s.set self r
    | none => s.set self .infinity
  else s.set self .infinity

/-- The loop of `handleGEP` over the indices: the total offset so far, or `none` once an index is
not a known non-negative range. Every index is scaled by the size of the result element. -/
def gepOffset (elemSize : Nat) : List Value → Nat → RangeState → Option Nat × RangeState
  | [], total, s => (some total, s)
  | v :: vs, total, s =>
      match getRangeFor v s with
      | (.constant l _, s) =>
          let index := (l.sextOrTrunc 64).toInt
          if index < 0 then (none, s)
          else gepOffset elemSize vs (u64 (total + index.toNat * elemSize)) s
      | (_, s) => (none, s)

/-- `handleGEP` of the GEP `self` of type `ty`. -/
def handleGEP (self : Value) (ty : Ty) (base : Value) (indices : List Value) (s : RangeState) :
    RangeState :=
  match getRangeFor base s with
  | (.constant _ r, s) =>
      match gepOffset (DL.allocSize (resultElementType ty)) indices 0 s with
      | (some offset, s) =>
          let allocSize := allocSizeOf r
          if offset < allocSize then
            s.set self (makeRange (APInt.ofNat 64 0) (APInt.ofNat 64 (allocSize - offset - 1)))
          else s.set self .infinity
      | (none, s) => s.set self .infinity
  | (_, s) => s.set self .infinity

/-- `operator()`: the effect of a value on the state. An instruction of no interest is set to
infinity, and so is any value that is not an instruction, except a `ConstantInt`. -/
def transfer (v : Value) (s : RangeState) : RangeState :=
  match M.kindOf v with
  | some (.store val ptr) => handleStore M val ptr s
  | some (.load ptr) => handleLoad M v ptr s
  | some (.gep _ base indices) => handleGEP DL v (M.typeOf v) base indices s
  | some (.binop op a b) =>
      let (r, s) := evaluateBinOP op a b s
      s.set v r
  | some (.cast op a) =>
      -- A bitcast first copies the size known for the stripped operand; the cast case below
      -- then writes the same key again.
      let s := if op = .bitcast then
          match s.find (M.stripPointerCasts a) with
          | some (.constant _ r) =>
              s.set v (makeRange (APInt.ofNat 64 0)
                (APInt.ofNat 64 (u64 (allocSizeOf r + 2 ^ 64 - 1))))
          | _ => s
        else s
      let (r, s) := evaluateCast op a (M.typeOf v) s
      s.set v r
  | some _ => s.set v .infinity
  | none =>
      match v with
      | .constInt c => s.set v (.constant c c)
      | v => s.set v .infinity

end

end MSV
