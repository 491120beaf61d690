import MSV.Lib.SetFamily
import MSV.PDG.DataDependency

/-!
# The alias edges of the dependency graph

What the pass stores is the relation an all-pairs query would: two instructions of a function are
connected when their points-to sets share an object, or one of the two syntactic queries answers,
and their types allow it.

The grouping by objects loses nothing. Every group met so far is included in one that is kept, and
every group that is kept is the one of an object; so two instructions are in a common group that is
kept exactly when they share an object, in whatever order the groups come.
-/

namespace MSV

namespace ProgramGraph

/-- `m` is an alias out-neighbour of `n`. -/
def Alias (g : ProgramGraph) (n m : InstId) : Prop := (n, EdgeType.DATA_ALIAS, m) ∈ g.outNeighbors

/-- Neighbours are stored at both ends, and alias edges go both ways. -/
structure TwoWay (g : ProgramGraph) : Prop where
  ends : ∀ n t m, (n, t, m) ∈ g.outNeighbors ↔ (m, t, n) ∈ g.inNeighbors
  symm : ∀ n m, g.Alias n m → g.Alias m n

end ProgramGraph

section

variable {M : Module} {env : PDGEnv}

/-! ## Edges -/

/-- The two instructions have nodes, and types that allow an edge. -/
structure Connectable (env : PDGEnv) (i j : Inst) : Prop where
  left : env.hasNode i.id = true
  right : env.hasNode j.id = true
  types : i.isBitCast = true ∨ j.isBitCast = true ∨ i.ty = j.ty

theorem alias_addNeighbor {g : ProgramGraph} {a b n m : InstId} {t : EdgeType} :
    (g.addNeighbor a b t).Alias n m ↔ g.Alias n m ∨ (t = .DATA_ALIAS ∧ n = a ∧ m = b) := by
  unfold ProgramGraph.Alias ProgramGraph.addNeighbor
  rw [List.mem_cons, Prod.mk.injEq, Prod.mk.injEq]
  constructor
  · rintro (⟨rfl, rfl, rfl⟩ | h)
    · exact .inr ⟨rfl, rfl, rfl⟩
    · exact .inl h
  · rintro (h | ⟨rfl, rfl, rfl⟩)
    · exact .inr h
    · exact .inl ⟨rfl, rfl, rfl⟩

variable (env) in
theorem addAliasPair_eq (g : ProgramGraph) (i j : Inst) :
    (Connectable env i j ∧ addAliasPair env g i j =
      (g.addNeighbor i.id j.id .DATA_ALIAS).addNeighbor j.id i.id .DATA_ALIAS) ∨
    (¬ Connectable env i j ∧ addAliasPair env g i j = g) := by
  unfold addAliasPair
  split_ifs with hnode htype
  · right
    refine ⟨fun h => ?_, rfl⟩
    simp [h.left, h.right] at hnode
  · right
    refine ⟨fun h => ?_, rfl⟩
    have := h.types
    simp_all
  · left
    simp only [Bool.or_eq_true, Bool.not_eq_true', not_or, Bool.not_eq_false] at hnode
    refine ⟨⟨hnode.1, hnode.2, ?_⟩, rfl⟩
    by_contra hne
    push Not at hne
    exact htype (by simp [hne.1, hne.2.1, hne.2.2])

theorem alias_addAliasPair {g : ProgramGraph} {i j : Inst} {n m : InstId} :
    (addAliasPair env g i j).Alias n m ↔ g.Alias n m ∨
      (Connectable env i j ∧ ((n = i.id ∧ m = j.id) ∨ (n = j.id ∧ m = i.id))) := by
  obtain ⟨hc, heq⟩ | ⟨hc, heq⟩ := addAliasPair_eq env g i j
  · rw [heq, alias_addNeighbor, alias_addNeighbor]
    simp [hc, or_assoc]
  · simp [heq, hc]

theorem alias_addDefUseEdges {g : ProgramGraph} {i : Inst} {n m : InstId} :
    (addDefUseEdges M env g i).Alias n m ↔ g.Alias n m := by
  unfold addDefUseEdges
  have hround : ∀ (g : ProgramGraph) (user : Inst),
      (if env.hasNode i.id && env.hasNode user.id then
        g.addNeighbor i.id user.id .DATA_DEF_USE else g).Alias n m ↔ g.Alias n m ∨ False := by
    intro g user
    split_ifs
    · simp [alias_addNeighbor]
    · simp
  rw [foldl_adds (Q := fun g : ProgramGraph => g.Alias n m) hround]
  simp

theorem alias_addRAWEdges {g : ProgramGraph} {i : Inst} {n m : InstId} :
    (addRAWEdges env g i).Alias n m ↔ g.Alias n m := by
  unfold addRAWEdges
  split
  · split_ifs
    · simp [alias_addNeighbor]
    · rfl
  · rfl

/-- What one instruction adds by queries. -/
theorem alias_addAliasEdges {g : ProgramGraph} {f : Function} {i : Inst} {n m : InstId} :
    (addAliasEdges M env f g i).Alias n m ↔ g.Alias n m ∨
      ∃ j ∈ f.insts, i.id ≠ j.id ∧ queryAliasUnderApproximate M i j ≠ .NoAlias ∧
        Connectable env i j ∧ ((n = i.id ∧ m = j.id) ∨ (n = j.id ∧ m = i.id)) := by
  unfold addAliasEdges
  refine foldl_adds (Q := fun g : ProgramGraph => g.Alias n m) (fun g j => ?_) f.insts g
  split_ifs with hid hptr hquery
  · simp [hid]
  · have hno : queryAliasUnderApproximate M i j = .NoAlias := by
      unfold queryAliasUnderApproximate
      rw [if_pos (by simp_all)]
    simp [hno]
  · rw [alias_addAliasPair]
    simp [hid, hquery]
  · simp only [ne_eq, not_not] at hquery
    simp [hquery]

/-! ## Groups -/

theorem mem_addObjects {objs : ObjectMap} {i j : Inst} {o : Nat} :
    j ∈ FMap.get (addObjects env objs i) o ↔
      j ∈ FMap.get objs o ∨ (o ∈ env.getExpandedFIPts i.id ∧ j = i) :=
  SetFamily.mem_get_enter

variable (env) in
theorem addUnique_eq (unique : List (List Inst)) (s : List Inst) :
    addUnique env unique s = SetFamily.add env.groupOrder unique s := by
  unfold addUnique SetFamily.add includes SetFamily.includes
  generalize (env.groupOrder unique).find? _ = found
  cases found <;> rfl

variable (env) in
/-- The groups are reduced as in `MSV.Lib.SetFamily`. -/
theorem uniqueAliasSets_eq (objs : ObjectMap) :
    uniqueAliasSets env objs = SetFamily.reduce env.groupOrder
      ((env.objectOrder (objs.entries.map Sigma.fst)).map (FMap.get objs)) := by
  unfold uniqueAliasSets SetFamily.reduce
  rw [List.foldl_map]
  simp only [addUnique_eq]

/-- Two instructions are in a group that is kept exactly when they share an object. -/
theorem exists_unique_iff {objs : ObjectMap} {i j : Inst} :
    (∃ t ∈ uniqueAliasSets env objs, i ∈ t ∧ j ∈ t) ↔
      ∃ o, i ∈ FMap.get objs o ∧ j ∈ FMap.get objs o := by
  rw [uniqueAliasSets_eq]
  exact SetFamily.exists_mem_reduce_iff env.groupOrder_perm (env.objectOrder_perm _)

theorem mem_of_mem_pairsOf {l : List Inst} {i j : Inst} (h : (i, j) ∈ pairsOf l) :
    i ∈ l ∧ j ∈ l := by
  induction l with
  | nil => cases h
  | cons k l ih =>
      obtain h | h := List.mem_append.mp h
      · obtain ⟨j', hj', heq⟩ := List.mem_map.mp h
        obtain ⟨rfl, rfl⟩ := Prod.mk.inj heq
        exact ⟨List.mem_cons_self, List.mem_cons_of_mem _ hj'⟩
      · exact ⟨List.mem_cons_of_mem _ (ih h).1, List.mem_cons_of_mem _ (ih h).2⟩

theorem mem_pairsOf {l : List Inst} {i j : Inst} (hi : i ∈ l) (hj : j ∈ l) (hne : i ≠ j) :
    (i, j) ∈ pairsOf l ∨ (j, i) ∈ pairsOf l := by
  induction l with
  | nil => cases hi
  | cons k l ih =>
      unfold pairsOf
      rw [List.mem_append, List.mem_append, List.mem_map, List.mem_map]
      obtain rfl | hi' := List.mem_cons.mp hi
      · obtain rfl | hj' := List.mem_cons.mp hj
        · exact absurd rfl hne
        · exact .inl (.inl ⟨j, hj', rfl⟩)
      · obtain rfl | hj' := List.mem_cons.mp hj
        · exact .inr (.inl ⟨i, hi', rfl⟩)
        · exact (ih hi' hj').imp .inr .inr

/-! ## The pass -/

/-- The two instructions of a function are to be connected. -/
structure EdgeReason (M : Module) (env : PDGEnv) (i j : Inst) : Prop where
  connectable : Connectable env i j
  reason : (∃ o, o ∈ env.getExpandedFIPts i.id ∧ o ∈ env.getExpandedFIPts j.id) ∨
    queryAliasUnderApproximate M i j ≠ .NoAlias ∨ queryAliasUnderApproximate M j i ≠ .NoAlias

theorem Connectable.symm {i j : Inst} (h : Connectable env i j) : Connectable env j i where
  left := h.right
  right := h.left
  types := by
    obtain h | h | h := h.types
    · exact .inr (.inl h)
    · exact .inl h
    · exact .inr (.inr h.symm)

theorem EdgeReason.symm {i j : Inst} (h : EdgeReason M env i j) : EdgeReason M env j i where
  connectable := h.connectable.symm
  reason := by
    obtain ⟨o, hi, hj⟩ | h | h := h.reason
    · exact .inl ⟨o, hj, hi⟩
    · exact .inr (.inr h)
    · exact .inr (.inl h)

variable (M env) in
/-- What the loop over the instructions leaves. -/
theorem visitInstructions_spec (f : Function) (g : ProgramGraph) (n m : InstId) :
    ((visitInstructions M env f g).1.Alias n m ↔ g.Alias n m ∨
      ∃ i ∈ f.insts, ∃ j ∈ f.insts, i.id ≠ j.id ∧ queryAliasUnderApproximate M i j ≠ .NoAlias ∧
        Connectable env i j ∧ ((n = i.id ∧ m = j.id) ∨ (n = j.id ∧ m = i.id))) ∧
    ∀ o i, i ∈ FMap.get (visitInstructions M env f g).2 o ↔
      i ∈ f.insts ∧ o ∈ env.getExpandedFIPts i.id := by
  unfold visitInstructions
  refine ⟨?_, fun o i => ?_⟩
  · refine foldl_adds (Q := fun s : ProgramGraph × ObjectMap => s.1.Alias n m) (fun s i => ?_) _ _
    rw [alias_addAliasEdges, alias_addRAWEdges, alias_addDefUseEdges]
  · rw [foldl_adds (Q := fun s : ProgramGraph × ObjectMap => i ∈ FMap.get s.2 o)
      (P := fun j => o ∈ env.getExpandedFIPts j.id ∧ i = j) fun s j => mem_addObjects]
    constructor
    · rintro (h | ⟨j, hj, ho, rfl⟩)
      · cases h
      · exact ⟨hj, ho⟩
    · rintro ⟨hi, ho⟩
      exact .inr ⟨i, hi, ho, rfl⟩

/-- What a function adds between two nodes. -/
theorem alias_runOnFunction {g : ProgramGraph} {f : Function} {n m : InstId} (hne : n ≠ m) :
    (runOnFunction M env g f).Alias n m ↔ g.Alias n m ∨
      ∃ i ∈ f.insts, ∃ j ∈ f.insts, n = i.id ∧ m = j.id ∧ EdgeReason M env i j := by
  obtain ⟨hqueries, hobjects⟩ := visitInstructions_spec M env f g n m
  have hgroup : ∀ (g : ProgramGraph) (s : List Inst),
      ((pairsOf (env.instOrder s)).foldl (fun g p => addAliasPair env g p.1 p.2) g).Alias n m ↔
        g.Alias n m ∨ ∃ p ∈ pairsOf (env.instOrder s), Connectable env p.1 p.2 ∧
          ((n = p.1.id ∧ m = p.2.id) ∨ (n = p.2.id ∧ m = p.1.id)) := by
    intro g s
    exact foldl_adds (f := fun g (p : Inst × Inst) => addAliasPair env g p.1 p.2)
      (Q := fun g : ProgramGraph => g.Alias n m) (fun g p => alias_addAliasPair) _ g
  unfold runOnFunction
  dsimp only
  rw [foldl_adds (Q := fun g : ProgramGraph => g.Alias n m) hgroup, hqueries]
  constructor
  · rintro ((h | ⟨i, hi, j, hj, hid, hq, hc, hnm⟩) | ⟨s, hs, p, hp, hc, hnm⟩)
    · exact .inl h
    · right
      obtain ⟨rfl, rfl⟩ | ⟨rfl, rfl⟩ := hnm
      · exact ⟨i, hi, j, hj, rfl, rfl, hc, .inr (.inl hq)⟩
      · exact ⟨j, hj, i, hi, rfl, rfl, hc.symm, .inr (.inr hq)⟩
    · -- both are in the group of one object
      right
      obtain ⟨h1, h2⟩ := mem_of_mem_pairsOf (i := p.1) (j := p.2) hp
      rw [(env.instOrder_perm s).mem_iff] at h1 h2
      rw [(env.groupOrder_perm _).mem_iff] at hs
      obtain ⟨o, ho1, ho2⟩ := exists_unique_iff.mp ⟨s, hs, h1, h2⟩
      rw [hobjects] at ho1 ho2
      have hmay : EdgeReason M env p.1 p.2 := ⟨hc, .inl ⟨o, ho1.2, ho2.2⟩⟩
      obtain ⟨hn, hm⟩ | ⟨hn, hm⟩ := hnm
      · exact ⟨p.1, ho1.1, p.2, ho2.1, hn, hm, hmay⟩
      · exact ⟨p.2, ho2.1, p.1, ho1.1, hn, hm, hmay.symm⟩
  · rintro (h | ⟨i, hi, j, hj, rfl, rfl, hmay⟩)
    · exact .inl (.inl h)
    · obtain ⟨o, hoi, hoj⟩ | hq | hq := hmay.reason
      · right
        obtain ⟨s, hs, his, hjs⟩ : ∃ s ∈ uniqueAliasSets env (visitInstructions M env f g).2,
            i ∈ s ∧ j ∈ s := exists_unique_iff.mpr
          ⟨o, (hobjects o i).mpr ⟨hi, hoi⟩, (hobjects o j).mpr ⟨hj, hoj⟩⟩
        refine ⟨s, (env.groupOrder_perm _).mem_iff.mpr hs, ?_⟩
        have hij : i ≠ j := fun h => hne (congrArg Inst.id h)
        obtain hp | hp := mem_pairsOf ((env.instOrder_perm s).mem_iff.mpr his)
          ((env.instOrder_perm s).mem_iff.mpr hjs) hij
        · exact ⟨(i, j), hp, hmay.connectable, .inl ⟨rfl, rfl⟩⟩
        · exact ⟨(j, i), hp, hmay.connectable.symm, .inr ⟨rfl, rfl⟩⟩
      · exact .inl (.inr ⟨i, hi, j, hj, hne, hq, hmay.connectable, .inl ⟨rfl, rfl⟩⟩)
      · exact .inl (.inr ⟨j, hj, i, hi, hne.symm, hq, hmay.connectable.symm, .inr ⟨rfl, rfl⟩⟩)

variable (M env) in
theorem alias_runDataDependency {n m : InstId} (hne : n ≠ m) :
    (runDataDependency M env).Alias n m ↔ ∃ f ∈ M.funcs, ∃ i ∈ f.insts, ∃ j ∈ f.insts,
      n = i.id ∧ m = j.id ∧ EdgeReason M env i j := by
  have hround : ∀ (g : ProgramGraph) (f : Function),
      (if f.isDeclaration then g else runOnFunction M env g f).Alias n m ↔ g.Alias n m ∨
        ∃ i ∈ f.insts, ∃ j ∈ f.insts, n = i.id ∧ m = j.id ∧ EdgeReason M env i j := by
    intro g f
    split_ifs with hdecl
    · have hnone : f.insts = [] := by
        unfold Function.insts
        rw [List.isEmpty_iff.mp hdecl]
        rfl
      simp [hnone]
    · exact alias_runOnFunction hne
  unfold runDataDependency
  rw [foldl_adds (Q := fun g : ProgramGraph => g.Alias n m) hround]
  constructor
  · rintro (h | h)
    · cases h
    · exact h
  · exact .inr

/-! ## Both ways -/

theorem twoWay_addAliasPair {g : ProgramGraph} (h : g.TwoWay) (i j : Inst) :
    (addAliasPair env g i j).TwoWay := by
  refine ⟨fun n t m => ?_, fun n m hnm => ?_⟩
  · obtain ⟨-, heq⟩ | ⟨-, heq⟩ := addAliasPair_eq env g i j
    · rw [heq]
      simp only [ProgramGraph.addNeighbor, List.mem_cons, Prod.mk.injEq, h.ends n t m]
      tauto
    · rw [heq]
      exact h.ends n t m
  · rw [alias_addAliasPair] at hnm ⊢
    obtain hnm | ⟨hc, hnm⟩ := hnm
    · exact .inl (h.symm n m hnm)
    · exact .inr ⟨hc, hnm.symm.imp And.symm And.symm⟩

/-- An edge of another type. -/
theorem twoWay_addNeighbor {g : ProgramGraph} (h : g.TwoWay) (a b : InstId) {t : EdgeType}
    (ht : t ≠ .DATA_ALIAS) : (g.addNeighbor a b t).TwoWay := by
  refine ⟨fun n t' m => ?_, fun n m hnm => ?_⟩
  · simp only [ProgramGraph.addNeighbor, List.mem_cons, Prod.mk.injEq, h.ends n t' m]
    tauto
  · rw [alias_addNeighbor] at hnm ⊢
    exact .inl (h.symm n m (hnm.resolve_right fun h => ht h.1))

theorem twoWay_runOnFunction {g : ProgramGraph} (h : g.TwoWay) (f : Function) :
    (runOnFunction M env g f).TwoWay := by
  have hdefuse : ∀ (g : ProgramGraph) (i : Inst), g.TwoWay → (addDefUseEdges M env g i).TwoWay := by
    intro g i hg
    refine List.foldlRecOn (motive := ProgramGraph.TwoWay) _ _ hg fun g hg user _ => ?_
    split_ifs
    · exact twoWay_addNeighbor hg _ _ (by decide)
    · exact hg
  have hraw : ∀ (g : ProgramGraph) (i : Inst), g.TwoWay → (addRAWEdges env g i).TwoWay := by
    intro g i hg
    unfold addRAWEdges
    split
    · split_ifs
      · exact twoWay_addNeighbor hg _ _ (by decide)
      · exact hg
    · exact hg
  have halias : ∀ (g : ProgramGraph) (i : Inst), g.TwoWay → (addAliasEdges M env f g i).TwoWay := by
    intro g i hg
    refine List.foldlRecOn (motive := ProgramGraph.TwoWay) _ _ hg fun g hg j _ => ?_
    split_ifs
    · exact hg
    · exact hg
    · exact twoWay_addAliasPair hg i j
    · exact hg
  have hvisit : (visitInstructions M env f g).1.TwoWay := by
    refine List.foldlRecOn (motive := fun s : ProgramGraph × ObjectMap => s.1.TwoWay) _ _ h
      fun s hs i _ => ?_
    exact halias _ i (hraw _ i (hdefuse _ i hs))
  unfold runOnFunction
  refine List.foldlRecOn (motive := ProgramGraph.TwoWay) _ _ hvisit fun g hg s _ => ?_
  exact List.foldlRecOn (motive := ProgramGraph.TwoWay) _ _ hg fun g hg p _ =>
    twoWay_addAliasPair hg p.1 p.2

variable (M env) in
theorem twoWay_runDataDependency : (runDataDependency M env).TwoWay := by
  have hempty : (⟨[], []⟩ : ProgramGraph).TwoWay := by
    refine ⟨fun n t m => ?_, fun n m h => ?_⟩
    · simp
    · cases h
  refine List.foldlRecOn (motive := ProgramGraph.TwoWay) _ _ hempty fun g hg f _ => ?_
  split_ifs
  · exact hg
  · exact twoWay_runOnFunction hg f

/-- **The alias edges are the intended relation**, and every node's in- and out-neighbours are the
same. -/
theorem alias_edges_iff (M : Module) (env : PDGEnv) (hM : M.WF) :
    (∀ f ∈ M.funcs, ∀ i ∈ f.insts, ∀ j ∈ f.insts, i ≠ j → env.hasNode i.id = true →
      env.hasNode j.id = true →
      ((i.id, EdgeType.DATA_ALIAS, j.id) ∈ (runDataDependency M env).outNeighbors ↔
        ((∃ o, o ∈ env.getExpandedFIPts i.id ∧ o ∈ env.getExpandedFIPts j.id) ∨
          queryAliasUnderApproximate M i j ≠ .NoAlias ∨
          queryAliasUnderApproximate M j i ≠ .NoAlias) ∧
        (i.isBitCast = true ∨ j.isBitCast = true ∨ i.ty = j.ty))) ∧
    ∀ n m, (n, EdgeType.DATA_ALIAS, m) ∈ (runDataDependency M env).outNeighbors ↔
      (n, EdgeType.DATA_ALIAS, m) ∈ (runDataDependency M env).inNeighbors := by
  have htwo := twoWay_runDataDependency M env
  refine ⟨fun f hf i hi j hj hij hni hnj => ?_, fun n m => ?_⟩
  · have hin : ∀ {g : Function}, g ∈ M.funcs → ∀ {k : Inst}, k ∈ g.insts → k ∈ M.insts :=
      fun hg _ hk => List.mem_flatMap.mpr ⟨_, hg, hk⟩
    have hinj := List.inj_on_of_nodup_map hM.insts_nodup
    have hne : i.id ≠ j.id := fun h => hij (hinj (hin hf hi) (hin hf hj) h)
    have hedges := alias_runDataDependency M env hne
    unfold ProgramGraph.Alias at hedges
    rw [hedges]
    constructor
    · rintro ⟨g, hg, i', hi', j', hj', hii', hjj', hmay⟩
      obtain rfl := hinj (hin hf hi) (hin hg hi') hii'
      obtain rfl := hinj (hin hf hj) (hin hg hj') hjj'
      exact ⟨hmay.reason, hmay.connectable.types⟩
    · rintro ⟨hreason, htypes⟩
      exact ⟨f, hf, i, hi, j, hj, rfl, rfl, ⟨hni, hnj, htypes⟩, hreason⟩
  · constructor
    · intro h
      exact (htwo.ends m _ n).mp (htwo.symm n m h)
    · intro h
      exact htwo.symm m n ((htwo.ends m _ n).mpr h)

end

/-! ## Two pointers to one object -/

def sharedAlloca (id : InstId) : Inst := ⟨id, .ptr (.int 32), .alloca (.int 32) (.null .void)⟩

def sharedFunction : Function :=
  ⟨0, "f", [], [⟨0, [sharedAlloca 0, sharedAlloca 1, ⟨2, .void, .ret none⟩]⟩]⟩

def sharedModule : Module where
  structs := fun _ => []
  globals := []
  funcs := [sharedFunction]

/-- The two pointers share the object `7`, and the containers are run through as they are kept. -/
def sharedEnv : PDGEnv where
  getExpandedFIPts i := if i < 2 then [i, 7] else []
  getDependency _ := none
  hasNode _ := true
  objectOrder l := l
  objectOrder_perm _ := .rfl
  groupOrder l := l
  groupOrder_perm _ := .rfl
  instOrder l := l
  instOrder_perm _ := .rfl

theorem sharedModule_wf : sharedModule.WF where
  funcs_nodup := by decide
  blocks_nodup := by decide
  insts_nodup := by decide
  terminated := Module.terminated_of_last (by decide)
  targets := by
    simp [sharedModule, sharedFunction, Block.successors, Block.terminator, InstKind.successors]
  operands := Module.operands_of_isStore_eq_false (by decide)

/-- They are connected. -/
theorem shared_object_connected :
    (0, EdgeType.DATA_ALIAS, 1) ∈ (runDataDependency sharedModule sharedEnv).outNeighbors :=
  ((alias_edges_iff sharedModule sharedEnv sharedModule_wf).1 sharedFunction (by decide)
    (sharedAlloca 0) (by decide) (sharedAlloca 1) (by decide) (by decide) rfl rfl).mpr
    ⟨.inl ⟨7, by decide, by decide⟩, .inr (.inr rfl)⟩

end MSV
