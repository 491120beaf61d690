import MSV.Lib.Search
import MSV.Range.Markers

/-!
# The taint pass

`Taint.cpp`. The first phase looks, for every GEP between `MAGIC` markers, for the loads and stores
the pointer is used in, through values computed from it, calls and returns. All these searches share
one visited set. A GEP that is used as a store address goes into `ReachableGEPs` at once; the loads,
and the stores of the pointer itself, are where the second phase starts. It taints what depends on
them, with `ReachableGEPs` as its visited set. Annotated GEPs that are not in it at the end lose
their markers.

`std::set<const Value *>` is ordered by address, so the order of the annotated GEPs is a parameter.
The users of a value are listed in the order of the module; no set depends on that.
-/

namespace MSV

/-- The points-to analysis, with the sets before they are expanded. -/
structure TaintEnv extends PTAWrapper where
  getPts : Value → List NodeID

section

variable (env : TaintEnv) (M : Module)

/-- The instructions among `users()`. -/
def users (v : Value) : List Inst := M.insts.filter fun i => v ∈ i.kind.operands

/-- The formal arguments of the called function at the places of an actual one. -/
def receivingFormals (callee : Callee) (args : List Value) (current : Value) : List Value :=
  match callee.getCalledFunction.bind M.func? with
  | none => []
  | some f =>
      if f.isDeclaration then []
      else (List.range args.length).filterMap fun i =>
        if args[i]? = some current ∧ i < f.params.length then some (.arg f.id i) else none

def parentFunction (i : Inst) : Option Function := M.funcs.find? fun f => i ∈ f.insts

/-- The `CallBase`s among the users of a function. -/
def callUsers (f : Function) : List Inst :=
  (users M (.func f.id)).filter (·.kind.asCallBase.isSome)

/-- The calls a returned value may come out of. -/
def returnTargets (ret : Inst) : List Value :=
  match parentFunction M ret with
  | none => []
  | some f => (callUsers M f).map fun call => .inst call.id

/-! ## The first phase -/

/-- What a search of the first phase records. -/
inductive FirstResult where
  /-- A first memory operation. -/
  | memOp (i : Inst)
  /-- The pointer is used as a store address. -/
  | stored
deriving DecidableEq

/-- What is done for a user. -/
def firstUser (current : Value) (user : Inst) : List (Value ⊕ FirstResult) :=
  match user.kind with
  | .load _ => [.inr (.memOp user)]
  | .store _ ptr => if ptr = current then [.inr .stored] else [.inr (.memOp user)]
  | .call callee args | .invoke callee args _ _ =>
      (receivingFormals M callee args current).map .inl
  | .ret none => []
  | .ret (some _) => (returnTargets M user).map .inl
  | _ => [.inl (.inst user.id)]

def firstEffects (current : Value) : List (Value ⊕ FirstResult) :=
  (users M current).flatMap (firstUser M current)

/-- The allocation sites of what a pointer may point to. -/
def storeSites (ptr : Value) : List Value :=
  (env.getPts ptr).filterMap fun obj =>
    let base := env.getBaseObj obj
    if env.isHeapObject base then env.getMalloc base
    else if env.isStackObject base then env.getAlloca base
    else if env.isGlobalObject base then env.getGlobal base
    else none

/-- The values a search may come to. -/
def taintNodes : List Value :=
  M.insts.map (fun i => .inst i.id) ++
    M.funcs.flatMap (fun f => (List.range f.params.length).map fun i => .arg f.id i) ++
    M.insts.flatMap fun i => match i.kind with
      | .store _ ptr => storeSites env ptr
      | _ => []

/-- The state of the first phase between two GEPs. -/
structure FirstPhase where
  visited : List Value
  firstMemOpMap : List (Inst × List Inst)
  ReachableGEPs : List Value

def FirstResult.asMemOp : FirstResult → Option Inst
  | .memOp i => some i
  | .stored => none

/-- The search for one annotated GEP. -/
def firstSearch (visited : List Value) (gep : Inst) : Search Value FirstResult :=
  Search.run (firstEffects M) (taintNodes env M) (Search.propagate ⟨visited, [], []⟩ (.inst gep.id))

def firstPhaseGEP (s : FirstPhase) (gep : Inst) : FirstPhase :=
  let search := firstSearch env M s.visited gep
  { visited := search.visited
    firstMemOpMap := s.firstMemOpMap ++ [(gep, search.out.filterMap FirstResult.asMemOp)]
    ReachableGEPs := if .stored ∈ search.out then .inst gep.id :: s.ReachableGEPs
      else s.ReachableGEPs }

def firstPhase (dgUnsafeGEPs : List Inst) : FirstPhase :=
  dgUnsafeGEPs.foldl (firstPhaseGEP env M) ⟨[], [], []⟩

/-- The sources of the second phase. -/
def FirstPhase.sources (s : FirstPhase) : List Value :=
  ((s.firstMemOpMap.flatMap Prod.snd).map fun i => Value.inst i.id).dedup

/-! ## The second phase -/

/-- What is done for a user of a tainted value. -/
def secondUser (current : Value) (user : Inst) : List (Value ⊕ Empty) :=
  match user.kind with
  | .call callee args | .invoke callee args _ _ =>
      (receivingFormals M callee args current).map .inl
  | .store val ptr => if val = current then (storeSites env ptr).map .inl else []
  | .ret none => []
  | .ret (some _) => (returnTargets M user).map .inl
  | _ => [.inl (.inst user.id)]

def secondEffects (current : Value) : List (Value ⊕ Empty) :=
  (users M current).flatMap (secondUser env M current)

/-- What `runOnModule` computes before it changes the module. -/
structure TaintResult where
  ReachableGEPs : List Value
  firstStageGEPs : List Inst
  secondStageGEPs : List Inst

def taintAnalysis (dgUnsafeGEPs : List Inst) : TaintResult :=
  let first := firstPhase env M dgUnsafeGEPs
  let reached := (Search.run (secondEffects env M) (taintNodes env M)
    ⟨first.ReachableGEPs, first.sources, []⟩).visited
  { ReachableGEPs := reached
    firstStageGEPs := dgUnsafeGEPs.filter (.inst ·.id ∉ reached)
    secondStageGEPs := dgUnsafeGEPs.filter (.inst ·.id ∈ reached) }

end

/-! ## The module -/

/-- The GEPs of a block that a `MAGIC` end marker follows. -/
def annotatedGEPs : List Inst → List Inst
  | [] => []
  | p :: rest =>
      if p.isGEP && rest.head?.any (Inst.isAsmCall MAGIC_ASM_END) then p :: annotatedGEPs rest
      else annotatedGEPs rest

/-- The annotated GEPs of a module, in the order of the module. -/
def taintGEPs (M : Module) : List Inst := M.blocks.flatMap fun b => annotatedGEPs b.insts

/-- The instructions erased: before and after the GEPs of the first stage. -/
def toBeRemoved (M : Module) (firstStageGEPs : List Inst) : List Inst :=
  firstStageGEPs.flatMap fun g => (M.getPrevNode g).toList ++ (M.getNextNode g).toList

/-- The module `runOnModule` leaves. The tags of branches are left out. -/
def taintPass (env : TaintEnv) (M : Module) (order : List Inst) : Module :=
  let r := taintAnalysis env M order
  M.mapBlocks (List.filter fun i => i ∉ toBeRemoved M r.firstStageGEPs)

end MSV
