import MSV.Lib.Search
import MSV.Lib.StackSearch
import MSV.PDG.Graph

/-!
# Queries about paths

`Graph.cpp`: `canReach` searches depth first along the edges of some types. Without types it asks
for the empty set of them, so that it follows no edge. `findNodesReachedByEdges` takes nodes from a
queue, but puts the neighbours of `src` there for each of them.

**Theorem (`canReach_iff`).** `canReach` with types is right, and without types it is right if and
only if the two nodes are the same or there is no path.

**Theorem (`findNodesReached_iff`).** `findNodesReachedByEdges` finds the nodes at the end of a
path if and only if those at the end of two edges are at the end of one.
-/

namespace MSV.GenericGraph

variable {V : Type*} [DecidableEq V] (g : GenericGraph V)

/-- `findNodesReachedByEdges`: what is done for each node of the queue. -/
def neighborEffects (src : V) (edgeTypes : List EdgeType) (isBackward : Bool) (_current : V) :
    List (V ⊕ Empty) :=
  edgeTypes.flatMap fun t => ((g.node src).getNeighborsWithDepType isBackward t).map .inl

def findNodesReachedByEdges (src : V) (edgeTypes : List EdgeType) (isBackward : Bool) : List V :=
  (Search.run (g.neighborEffects src edgeTypes isBackward) g.nodeSet ⟨[], [src], []⟩).visited

/-- The nodes `canReach` pushes for a node. -/
def pushed (includeEdgeTypes : List EdgeType) (current : V) : List V :=
  (((g.node current).outEdgeSet.filter fun e => decide (e.edgeType ∈ includeEdgeTypes)).map
    Edge.dst).reverse

/-- `canReach` with the types of the edges to follow. -/
def canReachAlong (src dst : V) (includeEdgeTypes : List EdgeType) : Bool :=
  if src = dst then true
  else (StackSearch.run (g.pushed includeEdgeTypes) dst g.nodeSet src).found

/-- `canReach` without types. -/
def canReach (src dst : V) : Bool := g.canReachAlong src dst []

/-! ## Paths -/

/-- There is an edge of one of the types, which is followed backwards or forwards. -/
def Adjacent (edgeTypes : Set EdgeType) (isBackward : Bool) (a b : V) : Prop :=
  ∃ t ∈ edgeTypes, (if isBackward then ⟨b, a, t⟩ else ⟨a, b, t⟩) ∈ g.edges

/-- A path that may be empty. -/
def Path (edgeTypes : Set EdgeType) : V → V → Prop :=
  Relation.ReflTransGen (g.Adjacent edgeTypes false)

variable {g} {src dst : V} {edgeTypes : List EdgeType} {isBackward : Bool}

theorem mem_nodeSet_of_mem_neighbors {a b : V} {t : EdgeType}
    (h : b ∈ (g.node a).getNeighborsWithDepType isBackward t) : b ∈ g.nodeSet := by
  rw [mem_getNeighborsWithDepType] at h
  cases isBackward with
  | false => exact (g.stores.ends _ h).2
  | true => exact (g.stores.ends _ h).1

theorem mem_neighborEffects {current v : V} :
    Sum.inl v ∈ g.neighborEffects src edgeTypes isBackward current ↔
      g.Adjacent {t | t ∈ edgeTypes} isBackward src v := by
  simp [neighborEffects, Adjacent, mem_getNeighborsWithDepType]

/-! ## `findNodesReachedByEdges` -/

/-- Only direct neighbours are found. -/
theorem mem_findNodesReachedByEdges {n : V} :
    n ∈ g.findNodesReachedByEdges src edgeTypes isBackward ↔
      g.Adjacent {t | t ∈ edgeTypes} isBackward src n := by
  have hnodes : ∀ c v, Sum.inl v ∈ g.neighborEffects src edgeTypes isBackward c →
      v ∈ g.nodeSet := by
    intro c v hv
    obtain ⟨t, -, hv⟩ := List.mem_flatMap.mp hv
    obtain ⟨w, hw, hwv⟩ := List.mem_map.mp hv
    obtain rfl := Sum.inl_injective hwv
    exact mem_nodeSet_of_mem_neighbors hw
  unfold findNodesReachedByEdges
  rw [Search.mem_visited_run hnodes]
  constructor
  · intro h
    obtain h | h := h
    · cases h
    · cases h with
      | first _ hv _ => exact mem_neighborEffects.mp hv
      | next _ hv _ => exact mem_neighborEffects.mp hv
  · intro h
    refine .inr (.first (c := src) ?_ (mem_neighborEffects.mpr h) ?_)
    · simp
    · simp

/-- The nodes that are found are those reached by one or more edges, if and only if the neighbours
of the neighbours of `src` are neighbours of `src`. -/
theorem findNodesReached_iff (g : GenericGraph V) (src : V) (edgeTypes : List EdgeType)
    (isBackward : Bool) :
    (∀ n, n ∈ g.findNodesReachedByEdges src edgeTypes isBackward ↔
        Relation.TransGen (g.Adjacent {t | t ∈ edgeTypes} isBackward) src n) ↔
      ∀ m n, g.Adjacent {t | t ∈ edgeTypes} isBackward src m →
        g.Adjacent {t | t ∈ edgeTypes} isBackward m n →
        g.Adjacent {t | t ∈ edgeTypes} isBackward src n := by
  constructor
  · intro h m n hm hn
    exact mem_findNodesReachedByEdges.mp ((h n).mpr ((Relation.TransGen.single hm).tail hn))
  · intro hclosed n
    rw [mem_findNodesReachedByEdges]
    refine ⟨.single, fun hreach => ?_⟩
    induction hreach with
    | single h => exact h
    | tail _ hstep ih => exact hclosed _ _ ih hstep

/-- A chain of two edges. -/
def chain : GenericGraph Nat :=
  (ofNodes [0, 1, 2]).addNeighbors [⟨0, 1, .DATA_DEF_USE⟩, ⟨1, 2, .DATA_DEF_USE⟩]

theorem second_edge_not_followed :
    ¬ (2 ∈ chain.findNodesReachedByEdges 0 [.DATA_DEF_USE] false ↔
      Relation.TransGen (chain.Adjacent {t | t ∈ [.DATA_DEF_USE]} false) 0 2) := by
  have hedge : ∀ a b, ⟨a, b, .DATA_DEF_USE⟩ ∈ chain.edges →
      chain.Adjacent {t | t ∈ [.DATA_DEF_USE]} false a b :=
    fun a b h => ⟨.DATA_DEF_USE, by simp, h⟩
  have h01 := hedge 0 1 ((mem_edges_addNeighbors _ _).mpr (.inr (by decide)))
  have h12 := hedge 1 2 ((mem_edges_addNeighbors _ _).mpr (.inr (by decide)))
  intro h
  exact absurd (h.mpr ((Relation.TransGen.single h01).tail h12)) (by decide)

/-! ## `canReach` -/

theorem mem_pushed {includeEdgeTypes : List EdgeType} {a b : V} :
    b ∈ g.pushed includeEdgeTypes a ↔ g.Adjacent {t | t ∈ includeEdgeTypes} false a b := by
  unfold pushed
  rw [List.mem_reverse, List.mem_map]
  constructor
  · intro ⟨e, he, hdst⟩
    obtain ⟨hmem, htype⟩ := List.mem_filter.mp he
    obtain ⟨hsource, hedge⟩ := (g.stores.out_edge a e).mp hmem
    subst hsource hdst
    exact ⟨e.edgeType, of_decide_eq_true htype, hedge⟩
  · intro ⟨t, ht, hedge⟩
    refine ⟨⟨a, b, t⟩, List.mem_filter.mpr ⟨?_, decide_eq_true ht⟩, rfl⟩
    exact (g.stores.out_edge a _).mpr ⟨rfl, hedge⟩

theorem canReachAlong_iff (g : GenericGraph V) (src dst : V) (includeEdgeTypes : List EdgeType) :
    g.canReachAlong src dst includeEdgeTypes = true ↔
      g.Path {t | t ∈ includeEdgeTypes} src dst := by
  have hnodes : ∀ c, c ∉ g.nodeSet → g.pushed includeEdgeTypes c = [] := by
    intro c hc
    rw [List.eq_nil_iff_forall_not_mem]
    intro v hv
    obtain ⟨t, -, hedge⟩ := mem_pushed.mp hv
    exact hc (g.stores.ends _ hedge).1
  have hrel : (fun a b => b ∈ g.pushed includeEdgeTypes a) =
      g.Adjacent {t | t ∈ includeEdgeTypes} false := by
    funext a b
    exact propext mem_pushed
  unfold canReachAlong Path
  split_ifs with heq
  · exact iff_of_true rfl (heq ▸ .refl)
  · rw [StackSearch.found_run_iff hnodes, hrel]

/-- Without types no edge is followed. -/
theorem canReach_eq : g.canReach src dst = true ↔ src = dst := by
  unfold canReach
  rw [canReachAlong_iff]
  constructor
  · intro h
    obtain heq | ⟨m, hm, -⟩ := Relation.ReflTransGen.cases_head h
    · exact heq
    · obtain ⟨t, ht, -⟩ := hm
      cases ht
  · intro heq
    exact heq ▸ .refl

/-- Both queries tell whether there is a path, if and only if the nodes are the same or there is
none. -/
theorem canReach_iff (g : GenericGraph V) (src dst : V) :
    ((∀ includeEdgeTypes, g.canReachAlong src dst includeEdgeTypes = true ↔
        g.Path {t | t ∈ includeEdgeTypes} src dst) ∧
      (g.canReach src dst = true ↔ g.Path Set.univ src dst)) ↔
      src = dst ∨ ¬ g.Path Set.univ src dst := by
  rw [and_iff_right (canReachAlong_iff g src dst), canReach_eq]
  have hrefl : src = dst → g.Path Set.univ src dst := fun heq => heq ▸ .refl
  tauto

/-- The other end of an edge is not reached. -/
theorem edge_not_followed : ¬ (chain.canReach 0 1 = true ↔ chain.Path Set.univ 0 1) := by
  have hedge : chain.Path Set.univ 0 1 :=
    .single ⟨.DATA_DEF_USE, trivial, (mem_edges_addNeighbors _ _).mpr (.inr (by decide))⟩
  rw [canReach_eq]
  exact fun h => absurd (h.mpr hedge) (by decide)

end MSV.GenericGraph
