import MSV.Lib.CheckedSearch
import Mathlib.Data.BitVec
import Mathlib.Logic.Function.Basic

/-!
# Which objects stay on the safe stack

`isSafeStackAlloca` looks at everything that is computed from the address of a local object.
The object may stay on the safe stack if every load and store through such a value is within the
object, by the range LLVM knows for its offset, and none of them is stored, returned or passed to a
function that may use or keep it.

`findInsts` asks this for every `alloca` and every argument passed by value, or takes what the
metadata of the data-flow guard says.

The ranges and the questions about offsets are LLVM's (`OffsetRanges`).
-/

namespace MSV.SafeStack

/-! ## Functions -/

/-- An argument of a call, and what the callee promises about it. -/
structure CallArg where
  value : Nat
  doesNotCapture : Bool
  doesNotAccessMemory : Bool
deriving DecidableEq

/-- Sizes are in bytes. A length is given if it is constant. -/
inductive Inst where
  | alloca (typeSize : BitVec 64) (arraySize : Option (BitVec 64 ⊕ Nat)) (inEntryBlock : Bool)
      (dualguardUnsafe : Bool)
  | load (ptr : Nat) (size : BitVec 64)
  | vaArg (list : Nat)
  | store (val ptr : Nat) (size : BitVec 64)
  /-- The call that ends the block is kept with a return behind it. -/
  | ret (val : Option Nat) (mustTailCall : Option Nat)
  | lifetime (args : List Nat)
  | memTransfer (dest src : Nat) (len : BitVec 64 ⊕ Nat)
  | memSet (dest val : Nat) (len : BitVec 64 ⊕ Nat)
  | call (isInvoke : Bool) (callee : Nat) (args : List CallArg) (doesNotAccessMemory : Bool)
      (returnsTwice : Bool)
  | landingPad
  /-- A cast, an address computation, a phi node and so on. -/
  | pure (operands : List Nat)
  /-- An atomic update, a `resume` or another instruction that is not looked at but does more than
  compute a value. -/
  | effect (operands : List Nat)
deriving DecidableEq

/-- A length that is not constant is an operand. -/
def lenOperands : BitVec 64 ⊕ Nat → List Nat
  | .inl _ => []
  | .inr v => [v]

def Inst.operands : Inst → List Nat
  | .alloca _ (some size) _ _ => lenOperands size
  | .alloca _ none _ _ => []
  | .load ptr _ => [ptr]
  | .vaArg list => [list]
  | .store val ptr _ => [val, ptr]
  | .ret val _ => val.toList
  | .lifetime args => args
  | .memTransfer dest src len => dest :: src :: lenOperands len
  | .memSet dest val len => dest :: val :: lenOperands len
  | .call _ callee args _ _ => args.map CallArg.value ++ [callee]
  | .landingPad => []
  | .pure operands => operands
  | .effect operands => operands

/-- A use of a value: the instruction, and the place among its operands. -/
structure Use where
  user : Nat
  operand : Nat
deriving DecidableEq

/-- An argument passed by value. -/
structure ByValArg where
  value : Nat
  size : BitVec 64
deriving DecidableEq

/-- A function. An instruction has the number of its value; other values have larger numbers. -/
structure Function where
  insts : List Inst
  byVal : List ByValArg
  uses : Nat → List Use
  mem_uses : ∀ v u, u ∈ uses v ↔
    ∃ I, insts[u.user]? = some I ∧ I.operands[u.operand]? = some v

/-- The uses in the order of the instructions. -/
def usesOf (insts : List Inst) (v : Nat) : List Use :=
  insts.zipIdx.flatMap fun (I, user) =>
    I.operands.zipIdx.filterMap fun (x, operand) => if x = v then some ⟨user, operand⟩ else none

theorem mem_usesOf (insts : List Inst) (v : Nat) (u : Use) : u ∈ usesOf insts v ↔
    ∃ I, insts[u.user]? = some I ∧ I.operands[u.operand]? = some v := by
  obtain ⟨user, operand⟩ := u
  simp only [usesOf, List.mem_flatMap, Prod.exists, List.mem_zipIdx_iff_getElem?,
    List.mem_filterMap, Option.ite_none_right_eq_some, Option.some.injEq, Use.mk.injEq]
  constructor
  · rintro ⟨I, i, hI, x, k, hx, rfl, rfl, rfl⟩
    exact ⟨I, hI, hx⟩
  · rintro ⟨I, hI, hx⟩
    exact ⟨I, user, hI, v, operand, hx, rfl, rfl, rfl⟩

/-- A function from its instructions. -/
def Function.ofInsts (insts : List Inst) (byVal : List ByValArg) : Function where
  insts := insts
  byVal := byVal
  uses := usesOf insts
  mem_uses := mem_usesOf insts

def Function.inst (f : Function) (i : Nat) : Inst := f.insts.getD i (.pure [])

/-! ## Offsets -/

/-- What LLVM knows about the offsets of the values computed from the address of an object:
`ConstantRange`, and the unsigned range of the rewritten expression. -/
structure OffsetRanges where
  Range : Type
  has : Range → BitVec 64 → Prop
  /-- `ConstantRange(0, n)`. -/
  below : BitVec 64 → Range
  add : Range → Range → Range
  contains : Range → Range → Bool
  getUnsignedRange : Nat → Range
  has_below : ∀ n v, has (below n) v ↔ v.toNat < n.toNat
  has_add : ∀ r s x y, has r x → has s y → has (add r s) (x + y)
  has_of_contains : ∀ r s, contains r s = true → ∀ v, has s v → has r v

variable (f : Function) (R : OffsetRanges)

def isAccessSafe (Addr : Nat) (AccessSize AllocaSize : BitVec 64) : Bool :=
  R.contains (R.below AllocaSize) (R.add (R.getUnsignedRange Addr) (R.below AccessSize))

/-- The access of a `memcpy`, `memmove` or `memset` through `U`. -/
def isMemIntrinsicSafe (ptrs : List Nat) (len : BitVec 64 ⊕ Nat) (U : Nat)
    (AllocaSize : BitVec 64) : Bool :=
  if U ∉ ptrs then true
  else
    match len with
    | .inl Len => isAccessSafe R U Len AllocaSize
    | .inr _ => false

/-- Whether a call may use or keep the value. -/
def isUnsafeArg (callDoesNotAccessMemory : Bool) (V : Nat) (A : CallArg) : Bool :=
  A.value == V &&
    !(A.doesNotCapture && (A.doesNotAccessMemory || callDoesNotAccessMemory))

/-! ## The search through the uses -/

/-- What follows from a test. -/
def passIf (safe : Bool) : Verdict Nat := if safe then .pass else .fail

/-- What is done about the use of a value by an instruction. -/
def checkUse (AllocaSize : BitVec 64) (V : Nat) (UI : Use) : Verdict Nat :=
  match f.inst UI.user with
  | .load _ size => passIf (isAccessSafe R V size AllocaSize)
  | .vaArg _ => .pass
  | .store val _ size =>
      if V = val then .fail else passIf (isAccessSafe R V size AllocaSize)
  | .ret _ _ => .fail
  | .lifetime _ => .pass
  | .memTransfer dest src len => passIf (isMemIntrinsicSafe R [src, dest] len V AllocaSize)
  | .memSet dest _ len => passIf (isMemIntrinsicSafe R [dest] len V AllocaSize)
  | .call _ _ args noMemory _ => passIf (!args.any (isUnsafeArg noMemory V))
  | _ => .follow UI.user

def checkUses (AllocaSize : BitVec 64) (V : Nat) : List (Verdict Nat) :=
  (f.uses V).map (checkUse f R AllocaSize V)

def isSafeStackAlloca (AllocaPtr : Nat) (AllocaSize : BitVec 64) : Option Bool :=
  CheckedSearch.result (checkUses f R AllocaSize) (List.range f.insts.length) AllocaPtr

/-! ## What is moved -/

/-- The size of the object, zero if it is not known. -/
def getStaticAllocaAllocationSize (typeSize : BitVec 64) :
    Option (BitVec 64 ⊕ Nat) → BitVec 64
  | none => typeSize
  | some (.inl C) => typeSize * C
  | some (.inr _) => 0

/-- `AllocaInst::isStaticAlloca`. -/
def isStaticAlloca (arraySize : Option (BitVec 64 ⊕ Nat)) (inEntryBlock : Bool) : Bool :=
  inEntryBlock && !(arraySize.any Sum.isRight)

/-- What `findInsts` collects. -/
structure Found where
  StaticAllocas : List Nat := []
  DynamicAllocas : List Nat := []
  ByValArguments : List Nat := []
  Returns : List Nat := []
  StackRestorePoints : List Nat := []
deriving DecidableEq

/-- The ranges are those of the object asked for. -/
def isSafe (R : Nat → OffsetRanges) (AllocaPtr : Nat) (AllocaSize : BitVec 64) : Bool :=
  isSafeStackAlloca f (R AllocaPtr) AllocaPtr AllocaSize == some true

def findInst (DGSafe : Bool) (R : Nat → OffsetRanges) (r : Found) (i : Nat) : Found :=
  match f.inst i with
  | .alloca typeSize arraySize inEntryBlock dualguardUnsafe =>
      if (if DGSafe then !dualguardUnsafe
          else isSafe f R i (getStaticAllocaAllocationSize typeSize arraySize)) then r
      else if isStaticAlloca arraySize inEntryBlock then
        { r with StaticAllocas := r.StaticAllocas ++ [i] }
      else { r with DynamicAllocas := r.DynamicAllocas ++ [i] }
  | .ret _ mustTailCall => { r with Returns := r.Returns ++ [mustTailCall.getD i] }
  | .call isInvoke _ _ _ returnsTwice =>
      if !isInvoke && returnsTwice then
        { r with StackRestorePoints := r.StackRestorePoints ++ [i] }
      else r
  | .landingPad => { r with StackRestorePoints := r.StackRestorePoints ++ [i] }
  | _ => r

def findArg (R : Nat → OffsetRanges) (r : Found) (Arg : ByValArg) : Found :=
  if isSafe f R Arg.value Arg.size then r
  else { r with ByValArguments := r.ByValArguments ++ [Arg.value] }

def findInsts (DGSafe : Bool) (R : Nat → OffsetRanges) : Found :=
  let r := (List.range f.insts.length).foldl (findInst f DGSafe R) {}
  if DGSafe then r else f.byVal.foldl (findArg f R) r

/-! ## Runs

Of the values only those that point to the object matter. -/

/-- A value: an offset into the object, or something else. -/
inductive Val where
  | addr (offset : BitVec 64)
  | word
deriving DecidableEq

structure State where
  regs : Nat → Val
  mem : Nat → Val

def State.set (st : State) (i : Nat) (v : Val) : State :=
  { st with regs := Function.update st.regs i v }

/-- What can be seen of a step: the bytes that are accessed, and the values that are returned or
passed on. -/
structure Event where
  accesses : List (Val × BitVec 64) := []
  leaked : List Val := []

/-- The event keeps to an object of that size. -/
def Event.Within (size : BitVec 64) (e : Event) : Prop :=
  (∀ o n, (Val.addr o, n) ∈ e.accesses → ∀ k < n.toNat, o.toNat + k < size.toNat) ∧
    ∀ v ∈ e.leaked, v = .word

/-- The length at run time. -/
def IsLength : BitVec 64 ⊕ Nat → BitVec 64 → Prop
  | .inl Len, n => n = Len
  | .inr _, _ => True

/-- What is in memory, or something else. -/
def Loaded (st : State) (v : Val) : Prop := v = .word ∨ ∃ l, v = st.mem l

/-- The values that a call may use or keep. -/
def passed (st : State) (noMemory : Bool) (args : List CallArg) : List Val :=
  (args.filter fun A =>
    !(A.doesNotCapture && (A.doesNotAccessMemory || noMemory))).map fun A => st.regs A.value

/-- One step of the function. Where in memory something is read or written is left open. -/
inductive Step : State → Event → State → Prop
  | alloca {st i typeSize arraySize inEntryBlock dualguardUnsafe} :
      f.inst i = .alloca typeSize arraySize inEntryBlock dualguardUnsafe →
      Step st {} (st.set i .word)
  | load {st i ptr size v} : f.inst i = .load ptr size → Loaded st v →
      Step st { accesses := [(st.regs ptr, size)] } (st.set i v)
  /-- What is done to the list is no access here. -/
  | vaArg {st i list v} : f.inst i = .vaArg list → Loaded st v → Step st {} (st.set i v)
  | store {st i val ptr size} (l : Nat) : f.inst i = .store val ptr size →
      Step st { accesses := [(st.regs ptr, size)] }
        { st with mem := Function.update st.mem l (st.regs val) }
  | ret {st i val mustTailCall} : f.inst i = .ret val mustTailCall →
      Step st { leaked := val.toList.map st.regs } st
  | lifetime {st i args} : f.inst i = .lifetime args → Step st {} st
  | memTransfer {st i dest src len n mem} : f.inst i = .memTransfer dest src len →
      IsLength len n → (∀ l, Loaded st (mem l)) →
      Step st { accesses := [(st.regs dest, n), (st.regs src, n)] } { st with mem := mem }
  | memSet {st i dest val len n mem} : f.inst i = .memSet dest val len → IsLength len n →
      (∀ l, mem l = st.mem l ∨ mem l = .word) →
      Step st { accesses := [(st.regs dest, n)] } { st with mem := mem }
  | call {st i isInvoke callee args noMemory returnsTwice v mem} :
      f.inst i = .call isInvoke callee args noMemory returnsTwice →
      (Loaded st v ∨ v ∈ passed st noMemory args) →
      (∀ l, Loaded st (mem l) ∨ mem l ∈ passed st noMemory args) →
      Step st { leaked := passed st noMemory args } ({ st with mem := mem }.set i v)
  | landingPad {st i} : f.inst i = .landingPad → Step st {} (st.set i .word)
  | pure {st i operands v} : f.inst i = .pure operands →
      (∀ o, v = .addr o → ∃ x ∈ operands, ∃ o', st.regs x = .addr o') →
      Step st {} (st.set i v)
  | effect {st i operands n v mem} : f.inst i = .effect operands →
      (Loaded st v ∨ v ∈ operands.map st.regs) →
      (∀ l, Loaded st (mem l) ∨ mem l ∈ operands.map st.regs) →
      Step st { accesses := operands.map fun x => (st.regs x, n), leaked := operands.map st.regs }
        ({ st with mem := mem }.set i v)

/-- The offsets are in the ranges LLVM knows. -/
def InRanges (st : State) : Prop :=
  ∀ v o, st.regs v = .addr o → R.has (R.getUnsignedRange v) o

/-- The function starts, or goes on behind the `alloca`. -/
def start (AllocaPtr : Nat) : State where
  regs := Function.update (fun _ => .word) AllocaPtr (.addr 0)
  mem _ := .word

inductive Runs (AllocaPtr : Nat) : List Event → State → Prop
  | start : Runs AllocaPtr [] (start AllocaPtr)
  | step {es st e st'} : Runs AllocaPtr es st → InRanges R st → Step f st e st' →
      Runs AllocaPtr (es ++ [e]) st'

end MSV.SafeStack
