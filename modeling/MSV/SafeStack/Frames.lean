import MSV.Lib.Regions
import MSV.SafeStack.Uses

/-!
# Frames on the unsafe stack

The code that `run` puts into a function keeps the unsafe stack pointer. The prologue makes room for
the objects laid out in the frame, a dynamic `alloca` moves the pointer down further, saving and
restoring the stack acts on it, and every return puts back the value from the entry. The
run-time system knows nothing of this stack, so that behind a `setjmp` and in a landing pad the
pointer is set to the top kept for that, `DynamicTop`, or to the static one.

**Runs (`step`).** Functions are entered and left, by a return or past the returns, in any order
and to any depth. What is not instrumented leaves the pointer alone.

The layout of a frame is LLVM's (`StackLayout`).
-/

namespace MSV.SafeStack

/-! ## Objects and their layout -/

/-- An object of the frame, alive at some points of the function. -/
structure StackObject where
  size : Nat
  alignLog : Fin 64
  alive : Nat → Bool

/-- A layout. Every object ends at its offset below the base of the frame. -/
structure StackLayout (objs : List StackObject) where
  getObjectOffset : Nat → Nat
  getFrameSize : Nat
  /-- Of `getFrameAlignment`, which is at least the alignment of the stack. -/
  frameAlignLog : Fin 64
  stackAlign : 4 ≤ frameAlignLog.val
  bounds : ∀ k o, objs[k]? = some o → o.size ≤ getObjectOffset k ∧ getObjectOffset k ≤ getFrameSize
  aligned : ∀ k o, objs[k]? = some o →
    2 ^ o.alignLog.val ∣ getObjectOffset k ∧ o.alignLog ≤ frameAlignLog
  disjoint : ∀ j k o o', j < k → objs[j]? = some o → objs[k]? = some o' →
    (∃ point, o.alive point = true ∧ o'.alive point = true) →
      getObjectOffset j + o'.size ≤ getObjectOffset k ∨
        getObjectOffset k + o.size ≤ getObjectOffset j

/-- What `run` has to deal with in a function. -/
structure Moved where
  StackGuardSlot : Option StackObject
  ByValArguments : List StackObject
  StaticAllocas : List StackObject
  hasDynamicAllocas : Bool
  hasStackRestorePoints : Bool

/-- What `findInsts` found, with the objects described. -/
def Found.toMoved (r : Found) (guard : Option StackObject) (describe : Nat → StackObject) :
    Moved where
  StackGuardSlot := guard
  ByValArguments := r.ByValArguments.map describe
  StaticAllocas := r.StaticAllocas.map describe
  hasDynamicAllocas := !r.DynamicAllocas.isEmpty
  hasStackRestorePoints := !r.StackRestorePoints.isEmpty

/-- Objects of no size get one byte. -/
def StackObject.nonEmpty (o : StackObject) : StackObject :=
  { o with size := if o.size = 0 then 1 else o.size }

/-- The object is alive throughout. -/
def StackObject.always (o : StackObject) : StackObject := { o with alive := fun _ => true }

/-- The objects `moveStaticAllocasToUnsafeStack` lays out. Only with colouring does it matter where
they are alive. -/
def Moved.objects (ClColoring : Bool) (m : Moved) : List StackObject :=
  if m.StaticAllocas.isEmpty && m.ByValArguments.isEmpty then []
  else
    m.StackGuardSlot.toList.map .always ++ m.ByValArguments.map (fun o => o.always.nonEmpty) ++
      m.StaticAllocas.map fun o => if ClColoring then o.nonEmpty else o.always.nonEmpty

/-- A function, as it is compiled. -/
structure Fn where
  ClColoring : Bool := false
  hasSafeStackAttr : Bool
  moved : Moved
  layout : StackLayout (moved.objects ClColoring)

/-- There is something to do in the function. -/
def Fn.instrumented (fn : Fn) : Bool :=
  fn.hasSafeStackAttr &&
    !(fn.moved.StaticAllocas.isEmpty && !fn.moved.hasDynamicAllocas &&
      fn.moved.ByValArguments.isEmpty && !fn.moved.hasStackRestorePoints)

/-- The objects on the unsafe stack. -/
def Fn.objects (fn : Fn) : List StackObject :=
  if fn.instrumented then fn.moved.objects fn.ClColoring else []

def Fn.hasDynamicAllocas (fn : Fn) : Bool := fn.instrumented && fn.moved.hasDynamicAllocas

def Fn.hasStackRestorePoints (fn : Fn) : Bool := fn.instrumented && fn.moved.hasStackRestorePoints

/-! ## The code that is inserted -/

def StackAlignLog : Nat := 4

/-- `CreateGEP(BasePointer, ConstantInt::get(Int32Ty, -Offset))`. -/
def gepBelow (BasePointer : BitVec 64) (Offset : Nat) : BitVec 64 :=
  BasePointer + (-(BitVec.ofNat 32 Offset)).signExtend 64

/-- Up to a multiple of `2 ^ k`. -/
def alignTo (n k : Nat) : Nat := (n + 2 ^ k - 1) / 2 ^ k * 2 ^ k

def Fn.FrameSize (fn : Fn) : Nat := alignTo fn.layout.getFrameSize StackAlignLog

/-- The base pointer is aligned for what is in the frame. -/
def Fn.base (fn : Fn) (BasePointer : BitVec 64) : BitVec 64 :=
  if StackAlignLog < fn.layout.frameAlignLog then alignDown fn.layout.frameAlignLog BasePointer
  else BasePointer

/-- The top of the stack below the objects of the frame. -/
def Fn.StaticTop (fn : Fn) (BasePointer : BitVec 64) : BitVec 64 :=
  if fn.objects.isEmpty then BasePointer else gepBelow (fn.base BasePointer) fn.FrameSize

/-- The new top of the stack, in `moveDynamicAllocasToUnsafeStack`. -/
def dynamicTop (usp ArraySize TySize : BitVec 64) (alignLog : Fin 64) : BitVec 64 :=
  alignDown (max alignLog.val StackAlignLog) (usp - ArraySize * TySize)

/-! ## States -/

/-- An object where it is. -/
structure Placed where
  addr : BitVec 64
  size : Nat
  alignLog : Fin 64
deriving DecidableEq

def Placed.region (p : Placed) : Region := ⟨p.addr.toNat, p.size⟩

/-- A function that is running. -/
structure Frame where
  fn : Fn
  BasePointer : BitVec 64
  DynamicTop : Option (BitVec 64)
  point : Nat
  /-- The newest comes first, here and of the values saved by `stacksave`. -/
  dynamics : List Placed
  saved : List (BitVec 64)

structure Machine where
  usp : BitVec 64
  /-- The innermost comes first. -/
  frames : List Frame

/-- The static objects that are alive at a point. -/
def Fn.statics (fn : Fn) (BasePointer : BitVec 64) (point : Nat) : List Placed :=
  (fn.objects.zipIdx.filter fun x => x.1.alive point).map fun x =>
    ⟨gepBelow (fn.base BasePointer) (fn.layout.getObjectOffset x.2), x.1.size, x.1.alignLog⟩

/-- The objects on the unsafe stack that are alive. -/
def Frame.placed (F : Frame) : List Placed := F.dynamics ++ F.fn.statics F.BasePointer F.point

def Machine.placed (s : Machine) : List Placed := s.frames.flatMap Frame.placed

/-! ## Steps -/

inductive StackEvent where
  | enter (fn : Fn)
  /-- The function goes on to a point. -/
  | goto (point : Nat)
  | alloca (ArraySize TySize : BitVec 64) (alignLog : Fin 64)
  | stacksave
  /-- With a saved value. The newest is number 0. -/
  | stackrestore (k : Nat)
  | ret
  /-- So many functions are left by an exception or a `longjmp`, and the next one goes on, behind a
  restore point or not. -/
  | land (left : Nat) (atRestorePoint : Bool)

/-- The prologue. -/
def enter (fn : Fn) (usp : BitVec 64) : Frame where
  fn := fn
  BasePointer := usp
  DynamicTop :=
    if fn.hasStackRestorePoints && fn.hasDynamicAllocas then some (fn.StaticTop usp) else none
  point := 0
  dynamics := []
  saved := []

/-- A step of the innermost function. -/
def Frame.step (F : Frame) (usp : BitVec 64) : StackEvent → Option (BitVec 64 × Frame)
  | .goto point => some (usp, { F with point := point })
  | .alloca ArraySize TySize alignLog =>
      if F.fn.hasDynamicAllocas then
        let NewTop := dynamicTop usp ArraySize TySize alignLog
        some (NewTop,
          { F with
            DynamicTop := F.DynamicTop.map fun _ => NewTop
            dynamics := ⟨NewTop, ArraySize.toNat * TySize.toNat, alignLog⟩ :: F.dynamics })
      else none
  | .stacksave =>
      if F.fn.hasDynamicAllocas then some (usp, { F with saved := usp :: F.saved })
      else some (usp, F)
  | .stackrestore k =>
      if F.fn.hasDynamicAllocas then
        F.saved[k]?.map fun v =>
          (v, { F with
            saved := F.saved.drop k
            dynamics := F.dynamics.filter fun p => v.toNat ≤ p.addr.toNat })
      else some (usp, F)
  | _ => none

/-- The pointer behind a landing. -/
def Frame.landed (F : Frame) (usp : BitVec 64) (atRestorePoint : Bool) : BitVec 64 :=
  if atRestorePoint && F.fn.hasStackRestorePoints then
    F.DynamicTop.getD (F.fn.StaticTop F.BasePointer)
  else usp

def step (s : Machine) : StackEvent → Option Machine
  | .enter fn => some ⟨fn.StaticTop s.usp, enter fn s.usp :: s.frames⟩
  | .ret =>
      match s.frames with
      | [] => none
      | F :: rest => some ⟨if F.fn.instrumented then F.BasePointer else s.usp, rest⟩
  | .land left atRestorePoint =>
      match s.frames.drop left with
      | [] => none
      | F :: rest => some ⟨F.landed s.usp atRestorePoint, F :: rest⟩
  | e =>
      match s.frames with
      | [] => none
      | F :: rest => (F.step s.usp e).map fun x => ⟨x.1, x.2 :: rest⟩

/-- The stack has room for what the step puts there, and the frame is not too large for its
offsets. -/
def Fits (s : Machine) : StackEvent → Prop
  | .enter fn =>
      fn.objects ≠ [] → fn.FrameSize ≤ 2 ^ 31 ∧ fn.FrameSize ≤ (fn.base s.usp).toNat
  | .alloca ArraySize TySize _ => ArraySize.toNat * TySize.toNat ≤ s.usp.toNat
  | _ => True

/-- Reached from `s₀`, always with room on the stack. -/
inductive Reaches (s₀ : Machine) : Machine → Prop
  | refl : Reaches s₀ s₀
  | step {s t : Machine} {e : StackEvent} : Reaches s₀ s → Fits s e → step s e = some t → Reaches s₀ t

end MSV.SafeStack
