import MSV.IR.Syntax
import MSV.Lib.Wrap
import Mathlib.Data.Finset.Union
import Mathlib.Data.Finset.Option
import Mathlib.Data.List.Infix

/-!
# Markers and tags

What the unified pass does with the unsafe pointers in `DiffOnly` mode (without `UseBaggy`). GEPs
that a `NORMAL` marker follows in the input are the ones reported before; the objects they access
are tagged. Unsafe GEPs that access such an object are dropped, the others are put between markers,
unless an `END` marker follows already. This happens twice, for the heap and for the stack pointers,
and then the `NORMAL` markers are deleted from the module.

The points-to analysis is a parameter. The masks that `tagOperationsForProtections` puts on loads,
stores and comparisons are left out: they do not change the set of unsafe objects.
-/

namespace MSV

def MAGIC_ASM_BEGIN : String := "addq 123456, %rax"
def MAGIC_ASM_END : String := "addq 654321, %rax"
def NORMAL_MAGIC_ASM_BEGIN : String := "addq 1234567, %rax"
def NORMAL_MAGIC_ASM_END : String := "addq 7654321, %rax"

namespace Inst

/-- The instruction is a `CallInst` of this inline asm. -/
def isAsmCall (text : String) (i : Inst) : Bool :=
  match i.kind with
  | .call (.asm t) _ => t == text
  | _ => false

/-- The asm string of a `CallBase`. -/
def asmString (i : Inst) : Option String :=
  match i.kind.asCallBase with
  | some (.asm t, _) => some t
  | _ => none

def isGEP (i : Inst) : Bool := i.kind.isGEP

end Inst

namespace Module

/-- The instructions of every block are rewritten. -/
def mapBlocks (f : List Inst → List Inst) (M : Module) : Module :=
  { M with funcs := M.funcs.map fun F =>
      { F with blocks := F.blocks.map fun b => { b with insts := f b.insts } } }

/-- The instructions of the block the instruction is in. -/
def parentInsts (M : Module) (i : Inst) : List Inst :=
  ((M.blocks.find? fun b => i ∈ b.insts).map Block.insts).getD []

def getNextNode (M : Module) (i : Inst) : Option Inst := next i (M.parentInsts i)

def getPrevNode (M : Module) (i : Inst) : Option Inst := prev i (M.parentInsts i)

/-- An identity no instruction has. -/
def freshId (M : Module) : InstId := (M.insts.map Inst.id).foldl max 0 + 1

end Module

/-! ## The points-to analysis -/

abbrev NodeID := Nat

/-- What is asked of the points-to analysis. -/
structure PTAWrapper where
  getExpandedFIPts : Value → Finset NodeID
  getBaseObj : NodeID → NodeID
  isStackObject : NodeID → Bool
  isHeapObject : NodeID → Bool
  isGlobalObject : NodeID → Bool
  getAlloca : NodeID → Option Value
  getMalloc : NodeID → Option Value
  getGlobal : NodeID → Option Value

namespace PTAWrapper

variable (pta : PTAWrapper)

/-- The base objects a pointer may point to. -/
def baseObjects (v : Value) : Finset NodeID := (pta.getExpandedFIPts v).image pta.getBaseObj

def insertUnsafePts (v : Value) (unsafeObjSet : Finset NodeID) : Finset NodeID :=
  unsafeObjSet ∪ pta.baseObjects v

/-- The objects a GEP accesses, by its pointer operand. -/
def gepObjects (g : Inst) : Finset NodeID :=
  match g.kind with
  | .gep _ base _ => pta.baseObjects base
  | _ => ∅

/-- The objects of a set of GEPs. -/
def unsafeObjects (geps : List Inst) : Finset NodeID :=
  geps.foldl (fun s g =>
    match g.kind with
    | .gep _ base _ => pta.insertUnsafePts base s
    | _ => s) ∅

/-- Where an object is allocated. -/
def allocationSite (o : NodeID) : Option Value :=
  if pta.isStackObject o then pta.getAlloca o
  else if pta.isHeapObject o then pta.getMalloc o
  else if pta.isGlobalObject o then pta.getGlobal o
  else none

end PTAWrapper

/-- What carries `dualguard.unsafe` after a call of `tagOperationsForProtections`, and the set of
unsafe objects it went through. -/
structure Tags where
  geps : List Inst
  objects : Finset NodeID
  sites : Finset Value

def tagOperationsForProtections (pta : PTAWrapper) (unsafeSeqPointerSet : List Inst) : Tags :=
  let dgUnsafeObjectSet := pta.unsafeObjects unsafeSeqPointerSet
  { geps := unsafeSeqPointerSet.filter Inst.isGEP
    objects := dgUnsafeObjectSet
    sites := dgUnsafeObjectSet.biUnion fun o => (pta.allocationSite o).toFinset }

/-! ## The pass -/

structure MarkerOptions where
  usePC : Bool
  enableOOWAnalysis : Bool

/-- The GEPs of a block that a `NORMAL` end marker follows. -/
def markedGEPs : List Inst → List Inst
  | [] => []
  | p :: rest =>
      if p.isGEP && rest.head?.any (Inst.isAsmCall NORMAL_MAGIC_ASM_END) then p :: markedGEPs rest
      else markedGEPs rest

def dgUnsafeGEPs (M : Module) : List Inst := M.blocks.flatMap fun b => markedGEPs b.insts

/-- The filter of the out-of-window analysis. -/
def filterOutOfWindow (o : MarkerOptions) (oowResults : List InstId) (set : List Inst) :
    List Inst :=
  if o.enableOOWAnalysis then set.filter (·.id ∉ oowResults) else set

/-- An asm that contains the text of an end marker follows. -/
def endFollows (M : Module) (g : Inst) : Bool :=
  (M.getNextNode g).any fun i => i.asmString.any fun t =>
    decide (NORMAL_MAGIC_ASM_END.toList <:+: t.toList) ||
      decide (MAGIC_ASM_END.toList <:+: t.toList)

def asmCall (id : InstId) (text : String) : Inst := ⟨id, .void, .call (.asm text) []⟩

/-- The markers put around a GEP. -/
def markers (o : MarkerOptions) (id : InstId) : Inst × Inst :=
  if o.usePC then (asmCall id NORMAL_MAGIC_ASM_BEGIN, asmCall (id + 1) NORMAL_MAGIC_ASM_END)
  else (asmCall id MAGIC_ASM_BEGIN, asmCall (id + 1) MAGIC_ASM_END)

/-- The loop body that marks one unsafe GEP. -/
def markUnsafe (o : MarkerOptions) (M : Module) (g : Inst) : Module :=
  if endFollows M g then M
  else M.mapBlocks fun l => l.flatMap
    (wrap fun i => if i = g then some (markers o M.freshId) else none)

/-- The end of `valueRangeAnalysis`, for the unsafe pointers it found. -/
def valueRangeAnalysisDiff (o : MarkerOptions) (pta : PTAWrapper) (oowResults : List InstId)
    (heapUnsafeSeqPointerSet : List Inst) (M : Module) : Module × Tags :=
  let unsafePointers := filterOutOfWindow o oowResults heapUnsafeSeqPointerSet
  let dg := dgUnsafeGEPs M
  let dgUnsafeObjectSet := pta.unsafeObjects dg
  let kept := unsafePointers.filter fun g => decide (pta.gepObjects g ∩ dgUnsafeObjectSet = ∅)
  (kept.foldl (markUnsafe o) M, tagOperationsForProtections pta dg)

/-- The dummies removed at the end of the pass. -/
def isDGDummy (i : Inst) : Bool :=
  i.isAsmCall NORMAL_MAGIC_ASM_BEGIN || i.isAsmCall NORMAL_MAGIC_ASM_END

def removeDummies (M : Module) : Module := M.mapBlocks (List.filter fun i => !isDGDummy i)

/-- What the pass leaves: the module, and the tags of its two analyses. -/
structure UnifiedResult where
  module : Module
  heapTags : Tags
  stackTags : Tags

/-- `UnifiedMemSafePass::runOnModule`, from the unsafe heap and stack pointers on. -/
def unifiedPass (o : MarkerOptions) (pta : PTAWrapper) (oowResults : List InstId)
    (heapUnsafe stackUnsafe : List Inst) (M : Module) : UnifiedResult :=
  let heap := valueRangeAnalysisDiff o pta oowResults heapUnsafe M
  let stack := valueRangeAnalysisDiff o pta oowResults stackUnsafe heap.1
  ⟨removeDummies stack.1, heap.2, stack.2⟩

/-! ## The protections -/

/-- The GEP stands between `MAGIC` markers. -/
def Bracketed (M : Module) (g : Inst) : Prop :=
  (M.getPrevNode g).any (Inst.isAsmCall MAGIC_ASM_BEGIN) = true ∧
    (M.getNextNode g).any (Inst.isAsmCall MAGIC_ASM_END) = true

instance (M : Module) (g : Inst) : Decidable (Bracketed M g) :=
  inferInstanceAs (Decidable (_ ∧ _))

/-- An object went through the tagging, and its allocation, if known, is tagged. -/
def Tags.Tagged (t : Tags) (pta : PTAWrapper) (x : NodeID) : Prop :=
  x ∈ t.objects ∧ ∀ v ∈ pta.allocationSite x, v ∈ t.sites

/-- The GEP has one of the two protections. -/
def Protected (pta : PTAWrapper) (r : UnifiedResult) (g : Inst) : Prop :=
  Bracketed r.module g ∨
    (pta.gepObjects g).Nonempty ∧
      ∀ x ∈ pta.gepObjects g, r.heapTags.Tagged pta x ∨ r.stackTags.Tagged pta x

end MSV
