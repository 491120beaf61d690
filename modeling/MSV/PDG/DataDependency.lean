import MSV.Lib.FMap
import MSV.PDG.Graph
import MSV.Taint.Taint

/-!
# The data dependency graph

`DataDependencyGraph::runOnModule`: for every instruction of a function the def-use edges, the
read-after-write edge and the alias edges found by looking at the two instructions; then alias edges
between instructions that may point to one object. For these the instructions are grouped by object,
groups included in others are dropped, and every pair of a group that is left is connected.

The points-to sets, the memory dependences, the nodes of the graph and the iteration orders of the
containers come from outside.
-/

namespace MSV

/-- The neighbours of the nodes by edge type, as `Node` keeps them. Nodes stand for instructions. -/
structure ProgramGraph where
  outNeighbors : List (InstId × EdgeType × InstId)
  inNeighbors : List (InstId × EdgeType × InstId)

/-- `Node::addNeighbor`. -/
def ProgramGraph.addNeighbor (g : ProgramGraph) (node neighbor : InstId) (edgeType : EdgeType) :
    ProgramGraph where
  outNeighbors := (node, edgeType, neighbor) :: g.outNeighbors
  inNeighbors := (neighbor, edgeType, node) :: g.inNeighbors

/-- Some calls of `addNeighbor`. -/
def ProgramGraph.addNeighbors (g : ProgramGraph) (calls : List (Edge InstId)) : ProgramGraph :=
  calls.foldl (fun g e => g.addNeighbor e.source e.dst e.edgeType) g

theorem ProgramGraph.mem_addNeighbors (g : ProgramGraph) (calls : List (Edge InstId))
    (a b : InstId) (t : EdgeType) :
    ((a, t, b) ∈ (g.addNeighbors calls).outNeighbors ↔
        (a, t, b) ∈ g.outNeighbors ∨ ⟨a, b, t⟩ ∈ calls) ∧
      ((b, t, a) ∈ (g.addNeighbors calls).inNeighbors ↔
        (b, t, a) ∈ g.inNeighbors ∨ ⟨a, b, t⟩ ∈ calls) := by
  unfold ProgramGraph.addNeighbors
  induction calls generalizing g with
  | nil => simp
  | cons e calls ih =>
      obtain ⟨hout, hin⟩ := ih (g.addNeighbor e.source e.dst e.edgeType)
      rw [List.foldl_cons, hout, hin, List.mem_cons, Nodes.edge_eq_iff]
      simp only [ProgramGraph.addNeighbor, List.mem_cons, Prod.mk.injEq]
      grind

/-- The neighbours are the typed ones of the nodes of `MSV.PDG.Graph`, after the same calls. -/
theorem ProgramGraph.addNeighbors_agrees (nodeSet : List InstId) (calls : List (Edge InstId))
    (a b : InstId) (t : EdgeType) :
    ((a, t, b) ∈ (addNeighbors ⟨[], []⟩ calls).outNeighbors ↔
        b ∈ (((GenericGraph.ofNodes nodeSet).addNeighbors calls).node
          a).getNeighborsWithDepType false t) ∧
      ((b, t, a) ∈ (addNeighbors ⟨[], []⟩ calls).inNeighbors ↔
        a ∈ (((GenericGraph.ofNodes nodeSet).addNeighbors calls).node
          b).getNeighborsWithDepType true t) := by
  obtain ⟨hout, hin⟩ := mem_addNeighbors ⟨[], []⟩ calls a b t
  rw [GenericGraph.mem_getNeighborsWithDepType, GenericGraph.mem_getNeighborsWithDepType, hout, hin]
  simp [GenericGraph.mem_edges_addNeighbors, GenericGraph.ofNodes]

/-- `AliasResult`, as far as it is returned. -/
inductive AliasResult where
  | NoAlias
  | MustAlias
deriving DecidableEq

/-- What the pass takes from outside, for the instructions of a module. -/
structure PDGEnv where
  /-- `getExpandedFIPts`. -/
  getExpandedFIPts : InstId → List Nat
  /-- `getDependency(&inst).getInst()`. -/
  getDependency : InstId → Option Inst
  /-- `getNode` is not null. -/
  hasNode : InstId → Bool
  /-- The orders in which the map of the objects, the set of the groups, and a group are run
  through. -/
  objectOrder : List Nat → List Nat
  objectOrder_perm : ∀ l, (objectOrder l).Perm l
  groupOrder : List (List Inst) → List (List Inst)
  groupOrder_perm : ∀ l, (groupOrder l).Perm l
  instOrder : List Inst → List Inst
  instOrder_perm : ∀ l, (instOrder l).Perm l

def Inst.isBitCast (i : Inst) : Bool :=
  match i.kind with
  | .cast .bitcast _ => true
  | _ => false

section

variable (M : Module) (env : PDGEnv)

/-! ## Edges found by looking at the instructions -/

/-- `queryAliasUnderApproximate`. -/
def queryAliasUnderApproximate (v1 v2 : Inst) : AliasResult :=
  if !v1.ty.isPointerTy || !v2.ty.isPointerTy then .NoAlias
  else
    match v1.kind with
    | .cast .bitcast v => if v = .inst v2.id then .MustAlias else .NoAlias
    | .load loadAddr =>
        if (users M loadAddr).any fun user =>
          match user.kind with
          | .load _ => user.id == v2.id
          | .store val ptr => ptr = loadAddr && val = .inst v2.id
          | _ => false
        then .MustAlias else .NoAlias
    | .gep _ base indices =>
        if base = .inst v2.id && Module.hasAllZeroIndices indices then .MustAlias else .NoAlias
    | _ => .NoAlias

/-- `addDefUseEdges`. -/
def addDefUseEdges (g : ProgramGraph) (inst : Inst) : ProgramGraph :=
  (users M (.inst inst.id)).foldl (fun g user =>
    if env.hasNode inst.id && env.hasNode user.id then
      g.addNeighbor inst.id user.id .DATA_DEF_USE
    else g) g

/-- `addRAWEdges`. -/
def addRAWEdges (g : ProgramGraph) (inst : Inst) : ProgramGraph :=
  match inst.kind, env.getDependency inst.id with
  | .load _, some dep =>
      if dep.kind.isStore && env.hasNode inst.id && env.hasNode dep.id then
        g.addNeighbor dep.id inst.id .DATA_RAW
      else g
  | _, _ => g

/-- Connecting two instructions that have nodes, and the same type unless one is a bitcast. -/
def addAliasPair (g : ProgramGraph) (i j : Inst) : ProgramGraph :=
  if !env.hasNode i.id || !env.hasNode j.id then g
  else if !i.isBitCast && !j.isBitCast && i.ty ≠ j.ty then g
  else (g.addNeighbor i.id j.id .DATA_ALIAS).addNeighbor j.id i.id .DATA_ALIAS

/-- `addAliasEdges`. -/
def addAliasEdges (f : Function) (g : ProgramGraph) (inst : Inst) : ProgramGraph :=
  f.insts.foldl (fun g j =>
    if inst.id = j.id then g
    else if !inst.ty.isPointerTy then g
    else if queryAliasUnderApproximate M inst j ≠ .NoAlias then addAliasPair env g inst j
    else g) g

/-! ## Groups of instructions -/

/-- `obj_to_instset_map`. -/
abbrev ObjectMap := FMap Nat (List Inst)

/-- Entering an instruction under every object it may point to. -/
def addObjects (objs : ObjectMap) (inst : Inst) : ObjectMap :=
  (env.getExpandedFIPts inst.id).foldl (fun m o => m.set o ((m.get o).insert inst)) objs

/-- `std::includes`, on sets. -/
def includes (s t : List Inst) : Bool := t.all (· ∈ s)

/-- One round of the loop that fills `unique_alias_inst_set`. The first group that includes the new
one or is included in it ends the search; in the second case it is erased. -/
def addUnique (unique : List (List Inst)) (s : List Inst) : List (List Inst) :=
  if unique.any fun t => includes s t && includes t s then unique
  else
    match (env.groupOrder unique).find? fun t => includes t s || includes s t with
    | some t => if includes t s then unique else s :: unique.erase t
    | none => s :: unique

/-- The pairs of a group, each once. -/
def pairsOf : List Inst → List (Inst × Inst)
  | [] => []
  | i :: rest => rest.map (fun j => (i, j)) ++ pairsOf rest

/-! ## The pass -/

/-- The loop over the instructions of a function. -/
def visitInstructions (f : Function) (g : ProgramGraph) : ProgramGraph × ObjectMap :=
  f.insts.foldl (fun (s : ProgramGraph × ObjectMap) inst =>
    (addAliasEdges M env f (addRAWEdges env (addDefUseEdges M env s.1 inst) inst) inst,
      addObjects env s.2 inst)) (g, ∅)

/-- `unique_alias_inst_set`. -/
def uniqueAliasSets (objs : ObjectMap) : List (List Inst) :=
  (env.objectOrder (objs.entries.map Sigma.fst)).foldl (fun u o => addUnique env u (objs.get o)) []

/-- The body of the loop over the functions. -/
def runOnFunction (g : ProgramGraph) (f : Function) : ProgramGraph :=
  let visited := visitInstructions M env f g
  (env.groupOrder (uniqueAliasSets env visited.2)).foldl (fun g s =>
    (pairsOf (env.instOrder s)).foldl (fun g p => addAliasPair env g p.1 p.2) g) visited.1

/-- `DataDependencyGraph::runOnModule`, on a graph of nodes. -/
def runDataDependency : ProgramGraph :=
  M.funcs.foldl (fun g f => if f.isDeclaration then g else runOnFunction M env g f) ⟨[], []⟩

end

end MSV
