import Mathlib.Data.List.Basic
import Mathlib.Data.List.TFAE
import Mathlib.Data.Set.Insert

/-!
# The nodes of the dependency graph

`Node` keeps its edges six times: the edges that leave it and those that enter it, the neighbours
at their other ends, and the neighbours again by the type of the edge. `addNeighbor` updates three
of the six on each of the two nodes.

**Theorem (`views_agree_iff`).** After any sequence of calls of `addNeighbor` the edge sets, the
typed neighbours and the two queries of a node all tell which calls there were, except
`hasInNeighborWithEdgeType`, which asks the in-edges for an edge that leaves the node: it is right
for a call that was not made, and for a node and itself.
-/

namespace MSV

inductive EdgeType where
  | CALL
  | IND_CALL
  | CONTROL
  | CONTROL_FLOW
  | DATA_DEF_USE
  | DATA_RAW
  | DATA_READ
  | DATA_ALIAS
  | DATA_RET
  | PARAMETER_IN
  | PARAMETER_OUT
  | PARAMETER_FIELD
  | GLOBAL_DEP
  | VAL_DEP
deriving DecidableEq

/-- An edge. Two edges are the same if all three parts are. -/
structure Edge (V : Type*) where
  source : V
  dst : V
  edgeType : EdgeType
deriving DecidableEq

/-- The edges of a node. The sets are lists, in some order. -/
structure Node (V : Type*) where
  inEdgeSet : List (Edge V)
  outEdgeSet : List (Edge V)
  inNeighbors : List V
  outNeighbors : List V
  inNeighborsWithEdgeType : EdgeType → List V
  outNeighborsWithEdgeType : EdgeType → List V

namespace Node

variable {V : Type*} [DecidableEq V]

def new : Node V := ⟨[], [], [], [], fun _ => [], fun _ => []⟩

/-- What `addNeighbor` does to the node it is called on. -/
def addOut (n : Node V) (e : Edge V) : Node V :=
  { n with
    outEdgeSet := n.outEdgeSet.insert e
    outNeighbors := n.outNeighbors.insert e.dst
    outNeighborsWithEdgeType := Function.update n.outNeighborsWithEdgeType e.edgeType
      ((n.outNeighborsWithEdgeType e.edgeType).insert e.dst) }

/-- What `addNeighbor` does to the neighbour. -/
def addIn (n : Node V) (e : Edge V) : Node V :=
  { n with
    inEdgeSet := n.inEdgeSet.insert e
    inNeighbors := n.inNeighbors.insert e.source
    inNeighborsWithEdgeType := Function.update n.inNeighborsWithEdgeType e.edgeType
      ((n.inNeighborsWithEdgeType e.edgeType).insert e.source) }

/-- `getInNeighborsWithDepType` and `getOutNeighborsWithDepType`. -/
def getNeighborsWithDepType (n : Node V) (isBackward : Bool) (t : EdgeType) : List V :=
  if isBackward then n.inNeighborsWithEdgeType t else n.outNeighborsWithEdgeType t

/-- `hasInNeighborWithEdgeType`, called on the node `self`. -/
def hasInNeighborWithEdgeType (n : Node V) (self v : V) (t : EdgeType) : Bool :=
  decide (⟨self, v, t⟩ ∈ n.inEdgeSet)

/-- `hasOutNeighborWithEdgeType`, called on the node `self`. -/
def hasOutNeighborWithEdgeType (n : Node V) (self v : V) (t : EdgeType) : Bool :=
  decide (⟨self, v, t⟩ ∈ n.outEdgeSet)

/-! ## One update -/

variable {n : Node V} {e e' : Edge V} {v : V} {t : EdgeType}

@[simp, grind =] theorem mem_outEdgeSet_addOut :
    e' ∈ (n.addOut e).outEdgeSet ↔ e' = e ∨ e' ∈ n.outEdgeSet := List.mem_insert_iff

@[simp, grind =] theorem mem_inEdgeSet_addIn :
    e' ∈ (n.addIn e).inEdgeSet ↔ e' = e ∨ e' ∈ n.inEdgeSet := List.mem_insert_iff

@[simp, grind =] theorem inEdgeSet_addOut : (n.addOut e).inEdgeSet = n.inEdgeSet := rfl

@[simp, grind =] theorem outEdgeSet_addIn : (n.addIn e).outEdgeSet = n.outEdgeSet := rfl

@[simp, grind =] theorem mem_outNeighbors_addOut :
    v ∈ (n.addOut e).outNeighbors ↔ v = e.dst ∨ v ∈ n.outNeighbors := List.mem_insert_iff

@[simp, grind =] theorem mem_inNeighbors_addIn :
    v ∈ (n.addIn e).inNeighbors ↔ v = e.source ∨ v ∈ n.inNeighbors := List.mem_insert_iff

@[simp, grind =] theorem inNeighbors_addOut : (n.addOut e).inNeighbors = n.inNeighbors := rfl

@[simp, grind =] theorem outNeighbors_addIn : (n.addIn e).outNeighbors = n.outNeighbors := rfl

@[simp, grind =] theorem mem_outTyped_addOut : v ∈ (n.addOut e).outNeighborsWithEdgeType t ↔
    (t = e.edgeType ∧ v = e.dst) ∨ v ∈ n.outNeighborsWithEdgeType t := by
  by_cases ht : t = e.edgeType
  · subst ht
    simp [addOut]
  · simp [addOut, ht]

@[simp, grind =] theorem mem_inTyped_addIn : v ∈ (n.addIn e).inNeighborsWithEdgeType t ↔
    (t = e.edgeType ∧ v = e.source) ∨ v ∈ n.inNeighborsWithEdgeType t := by
  by_cases ht : t = e.edgeType
  · subst ht
    simp [addIn]
  · simp [addIn, ht]

@[simp, grind =] theorem inTyped_addOut :
    (n.addOut e).inNeighborsWithEdgeType t = n.inNeighborsWithEdgeType t := rfl

@[simp, grind =] theorem outTyped_addIn :
    (n.addIn e).outNeighborsWithEdgeType t = n.outNeighborsWithEdgeType t := rfl

end Node

/-! ## The graph -/

/-- The nodes there are, and what each keeps. -/
structure Nodes (V : Type*) where
  nodeSet : List V
  node : V → Node V

namespace Nodes

variable {V : Type*} [DecidableEq V]

/-- `a.addNeighbor(b, t)`: the first node is updated, then the second, which may be the same. -/
def addNeighbor (g : Nodes V) (e : Edge V) : Nodes V where
  nodeSet := (g.nodeSet.insert e.source).insert e.dst
  node :=
    let node := Function.update g.node e.source ((g.node e.source).addOut e)
    Function.update node e.dst ((node e.dst).addIn e)

/-- The views of every node tell which edges there are, and these end at nodes of the graph. -/
structure Stores (g : Nodes V) (edges : Set (Edge V)) : Prop where
  out_edge : ∀ a e, e ∈ (g.node a).outEdgeSet ↔ e.source = a ∧ e ∈ edges
  in_edge : ∀ b e, e ∈ (g.node b).inEdgeSet ↔ e.dst = b ∧ e ∈ edges
  out_any : ∀ a b, b ∈ (g.node a).outNeighbors ↔ ∃ t, ⟨a, b, t⟩ ∈ edges
  in_any : ∀ a b, a ∈ (g.node b).inNeighbors ↔ ∃ t, ⟨a, b, t⟩ ∈ edges
  out_typed : ∀ a b t, b ∈ (g.node a).outNeighborsWithEdgeType t ↔ ⟨a, b, t⟩ ∈ edges
  in_typed : ∀ a b t, a ∈ (g.node b).inNeighborsWithEdgeType t ↔ ⟨a, b, t⟩ ∈ edges
  ends : ∀ e ∈ edges, e.source ∈ g.nodeSet ∧ e.dst ∈ g.nodeSet

/-! ## What a call adds to each view -/

section

variable (g : Nodes V) (e : Edge V) (a : V)

/-- The node a call is made on and the neighbour are updated, the others are not. -/
theorem node_addNeighbor : (g.addNeighbor e).node a =
    let n := if a = e.source then (g.node a).addOut e else g.node a
    if a = e.dst then n.addIn e else n := by
  unfold addNeighbor
  by_cases hdst : a = e.dst
  · subst hdst
    by_cases hsrc : e.dst = e.source
    · simp [hsrc]
    · simp [hsrc]
  · by_cases hsrc : a = e.source
    · subst hsrc
      simp [hdst]
    · simp [hdst, hsrc]

theorem mem_outEdgeSet {e' : Edge V} : e' ∈ ((g.addNeighbor e).node a).outEdgeSet ↔
    (a = e.source ∧ e' = e) ∨ e' ∈ (g.node a).outEdgeSet := by
  rw [node_addNeighbor]
  split_ifs <;> grind

theorem mem_inEdgeSet {e' : Edge V} : e' ∈ ((g.addNeighbor e).node a).inEdgeSet ↔
    (a = e.dst ∧ e' = e) ∨ e' ∈ (g.node a).inEdgeSet := by
  rw [node_addNeighbor]
  split_ifs <;> grind

theorem mem_outNeighbors {b : V} : b ∈ ((g.addNeighbor e).node a).outNeighbors ↔
    (a = e.source ∧ b = e.dst) ∨ b ∈ (g.node a).outNeighbors := by
  rw [node_addNeighbor]
  split_ifs <;> grind

theorem mem_inNeighbors {b : V} : b ∈ ((g.addNeighbor e).node a).inNeighbors ↔
    (a = e.dst ∧ b = e.source) ∨ b ∈ (g.node a).inNeighbors := by
  rw [node_addNeighbor]
  split_ifs <;> grind

theorem mem_outTyped {b : V} {t : EdgeType} :
    b ∈ ((g.addNeighbor e).node a).outNeighborsWithEdgeType t ↔
      (a = e.source ∧ t = e.edgeType ∧ b = e.dst) ∨
        b ∈ (g.node a).outNeighborsWithEdgeType t := by
  rw [node_addNeighbor]
  split_ifs <;> grind

theorem mem_inTyped {b : V} {t : EdgeType} :
    b ∈ ((g.addNeighbor e).node a).inNeighborsWithEdgeType t ↔
      (a = e.dst ∧ t = e.edgeType ∧ b = e.source) ∨
        b ∈ (g.node a).inNeighborsWithEdgeType t := by
  rw [node_addNeighbor]
  split_ifs <;> grind

end

omit [DecidableEq V] in
/-- An edge with the given ends and type. -/
theorem edge_eq_iff {a b : V} {t : EdgeType} {e : Edge V} :
    (⟨a, b, t⟩ : Edge V) = e ↔ a = e.source ∧ b = e.dst ∧ t = e.edgeType := by
  cases e
  simp

/-- **A call adds its edge to what is stored.** -/
theorem Stores.addNeighbor {g : Nodes V} {edges : Set (Edge V)} (h : g.Stores edges) (e : Edge V) :
    (g.addNeighbor e).Stores (insert e edges) where
  out_edge a e' := by
    rw [mem_outEdgeSet, h.out_edge, Set.mem_insert_iff]
    grind
  in_edge b e' := by
    rw [mem_inEdgeSet, h.in_edge, Set.mem_insert_iff]
    grind
  out_any a b := by
    rw [mem_outNeighbors, h.out_any]
    simp only [Set.mem_insert_iff, edge_eq_iff]
    grind
  in_any a b := by
    rw [mem_inNeighbors, h.in_any]
    simp only [Set.mem_insert_iff, edge_eq_iff]
    grind
  out_typed a b t := by
    rw [mem_outTyped, h.out_typed, Set.mem_insert_iff, edge_eq_iff]
    tauto
  in_typed a b t := by
    rw [mem_inTyped, h.in_typed, Set.mem_insert_iff, edge_eq_iff]
    tauto
  ends e' he' := by
    have hmem : ∀ v, v ∈ (g.addNeighbor e).nodeSet ↔ v = e.dst ∨ v = e.source ∨ v ∈ g.nodeSet :=
      fun v => by simp [Nodes.addNeighbor]
    rw [hmem, hmem]
    obtain rfl | he' := Set.mem_insert_iff.mp he'
    · exact ⟨.inr (.inl rfl), .inl rfl⟩
    · exact ⟨.inr (.inr (h.ends e' he').1), .inr (.inr (h.ends e' he').2)⟩

end Nodes

/-- A graph: nodes that tell its edges. -/
structure GenericGraph (V : Type*) [DecidableEq V] extends Nodes V where
  edges : Set (Edge V)
  stores : toNodes.Stores edges

namespace GenericGraph

variable {V : Type*} [DecidableEq V]

/-- Nodes without edges. -/
def ofNodes (nodeSet : List V) : GenericGraph V where
  nodeSet := nodeSet
  node _ := .new
  edges := ∅
  stores := by constructor <;> simp [Node.new]

def addNeighbor (g : GenericGraph V) (e : Edge V) : GenericGraph V where
  toNodes := g.toNodes.addNeighbor e
  edges := insert e g.edges
  stores := g.stores.addNeighbor e

/-- The graph after some calls of `addNeighbor`. -/
def addNeighbors (g : GenericGraph V) (calls : List (Edge V)) : GenericGraph V :=
  calls.foldl addNeighbor g

theorem mem_edges_addNeighbors (g : GenericGraph V) (calls : List (Edge V)) {e : Edge V} :
    e ∈ (g.addNeighbors calls).edges ↔ e ∈ g.edges ∨ e ∈ calls := by
  unfold addNeighbors
  induction calls generalizing g with
  | nil => simp
  | cons c calls ih =>
      rw [List.foldl_cons, ih, List.mem_cons]
      show (e = c ∨ e ∈ g.edges) ∨ e ∈ calls ↔ _
      tauto

/-- The ways to ask whether `a.addNeighbor(b, t)` was called. -/
def views (g : GenericGraph V) (a b : V) (t : EdgeType) : List Prop :=
  [⟨a, b, t⟩ ∈ (g.node a).outEdgeSet, ⟨a, b, t⟩ ∈ (g.node b).inEdgeSet,
    b ∈ (g.node a).getNeighborsWithDepType false t, a ∈ (g.node b).getNeighborsWithDepType true t,
    (g.node a).hasOutNeighborWithEdgeType a b t = true,
    (g.node b).hasInNeighborWithEdgeType b a t = true]

section

variable {g : GenericGraph V} {a b : V} {t : EdgeType}

/-- A typed neighbour is one along an edge, followed forwards or backwards. -/
theorem mem_getNeighborsWithDepType {isBackward : Bool} :
    b ∈ (g.node a).getNeighborsWithDepType isBackward t ↔
      (if isBackward then ⟨b, a, t⟩ else ⟨a, b, t⟩) ∈ g.edges := by
  unfold Node.getNeighborsWithDepType
  cases isBackward with
  | false => exact g.stores.out_typed a b t
  | true => exact g.stores.in_typed b a t

theorem hasOutNeighborWithEdgeType_iff :
    (g.node a).hasOutNeighborWithEdgeType a b t = true ↔ ⟨a, b, t⟩ ∈ g.edges := by
  unfold Node.hasOutNeighborWithEdgeType
  rw [decide_eq_true_iff, g.stores.out_edge]
  simp

/-- The query for an in-neighbour finds a loop only. -/
theorem hasInNeighborWithEdgeType_iff :
    (g.node b).hasInNeighborWithEdgeType b a t = true ↔ a = b ∧ ⟨a, b, t⟩ ∈ g.edges := by
  unfold Node.hasInNeighborWithEdgeType
  rw [decide_eq_true_iff, g.stores.in_edge]
  constructor
  · intro ⟨hab, hmem⟩
    obtain rfl : a = b := hab
    exact ⟨rfl, hmem⟩
  · intro ⟨hab, hmem⟩
    subst hab
    exact ⟨rfl, hmem⟩

/-- All views tell the edges, but for the query for an in-neighbour. -/
theorem iff_of_mem_views {p : Prop} (hp : p ∈ g.views a b t) :
    (p ↔ ⟨a, b, t⟩ ∈ g.edges) ∨ (p ↔ a = b ∧ ⟨a, b, t⟩ ∈ g.edges) := by
  simp only [views, List.mem_cons, List.not_mem_nil, or_false] at hp
  rcases hp with rfl | rfl | rfl | rfl | rfl | rfl
  · exact .inl ((g.stores.out_edge a _).trans (and_iff_right rfl))
  · exact .inl ((g.stores.in_edge b _).trans (and_iff_right rfl))
  · exact .inl mem_getNeighborsWithDepType
  · exact .inl mem_getNeighborsWithDepType
  · exact .inl hasOutNeighborWithEdgeType_iff
  · exact .inr hasInNeighborWithEdgeType_iff

end

/-- After any calls, the views of two nodes all tell whether the one was connected to the other, if
and only if it is the same node or was not. -/
theorem views_agree_iff (nodeSet : List V) (calls : List (Edge V)) (a b : V) (t : EdgeType) :
    ((⟨a, b, t⟩ ∈ calls) :: ((ofNodes nodeSet).addNeighbors calls).views a b t).TFAE ↔
      a = b ∨ ⟨a, b, t⟩ ∉ calls := by
  have hedges : ⟨a, b, t⟩ ∈ ((ofNodes nodeSet).addNeighbors calls).edges ↔ ⟨a, b, t⟩ ∈ calls := by
    rw [mem_edges_addNeighbors]
    exact or_iff_right (Set.notMem_empty _)
  constructor
  · intro h
    by_contra! hbad
    have hin := (h.out 0 6).mp hbad.2
    exact hbad.1 (hasInNeighborWithEdgeType_iff.mp hin).1
  · intro h
    refine List.tfae_of_forall (⟨a, b, t⟩ ∈ calls) _ fun p hp => ?_
    obtain rfl | hp := List.mem_cons.mp hp
    · exact .rfl
    · obtain hiff | hiff := iff_of_mem_views hp
      · rw [hiff, hedges]
      · rw [hiff, hedges]
        tauto

/-- Two nodes and `0.addNeighbor(1, DATA_ALIAS)`: node 1 does not have 0 as in-neighbour. -/
theorem in_neighbor_missed :
    ¬ ((⟨0, 1, .DATA_ALIAS⟩ ∈ [(⟨0, 1, .DATA_ALIAS⟩ : Edge Nat)]) ::
      ((ofNodes [0, 1]).addNeighbors [(⟨0, 1, .DATA_ALIAS⟩ : Edge Nat)]).views 0 1
        .DATA_ALIAS).TFAE := by
  intro h
  have hin := (h.out 0 6).mp (List.mem_singleton.mpr rfl)
  exact absurd hin (by decide)

end GenericGraph

end MSV
