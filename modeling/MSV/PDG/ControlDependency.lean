import MSV.IR.Syntax
import MSV.Lib.Dominance
import MSV.Lib.FMap
import MSV.PDG.Graph

/-!
# Control dependence

`ControlDependencyGraph.cpp`: for every successor of a block that does not post-dominate it, the
pass goes up the post-dominator tree from the successor to the nearest common post-dominator of the
two, and connects the condition of the branch with the blocks on the way. If the way ends at the
block of the branch itself, which is then in a loop, it connects the successor once more.

**Theorem (`control_dependence_iff`).** The blocks connected on account of a branch are those that
are control dependent on its block, if and only if the block is among its own successors or
post-dominates none of them. In all other cases it is control dependent on itself, and the pass
misses it.
-/

namespace MSV

/-! ## The post-dominator tree -/

namespace Function

/-- Blocks without successors are exits, and so are some blocks of infinite loops. -/
def IsExit (f : Function) (roots : List BlockId) (b : BlockId) : Prop :=
  b ∈ roots ∨ f.successors b = []

/-- All paths from `b` to an exit lead through `a`. -/
def PostDominates (f : Function) (roots : List BlockId) (a b : BlockId) : Prop :=
  MSV.PostDominates (fun b c => c ∈ f.successors b) (f.IsExit roots) a b

end Function

/-- LLVM's tree, and that it is right. The virtual root has no block; it is `none`. -/
structure PostDominatorTree (f : Function) where
  /-- The blocks of infinite loops that are taken for exits. -/
  roots : List BlockId
  leaves : ∀ b, ∃ l, ExitPath (fun b c => c ∈ f.successors b) (f.IsExit roots) b l
  dominates : BlockId → BlockId → Bool
  dominates_iff : ∀ a b, dominates a b = true ↔ f.PostDominates roots a b
  getLevel : BlockId → Nat
  getIDom : BlockId → Option BlockId
  getLevel_lt : ∀ b d, getIDom b = some d → getLevel d < getLevel b
  /-- The post-dominators are the ancestors. -/
  ancestors : ∀ a b, f.PostDominates roots a b ↔
    a = b ∨ ∃ d, getIDom b = some d ∧ f.PostDominates roots a d
  findNearestCommonDominator : BlockId → BlockId → Option BlockId
  common : ∀ a b c, f.PostDominates roots c a ∧ f.PostDominates roots c b ↔
    ∃ d, findNearestCommonDominator a b = some d ∧ f.PostDominates roots c d

namespace PostDominatorTree

variable {f : Function} (T : PostDominatorTree f)

/-- `a` is an ancestor of a node of the tree, or the node itself. -/
def Above (a : BlockId) (node : Option BlockId) : Prop :=
  ∃ b, node = some b ∧ f.PostDominates T.roots a b

@[simp] theorem above_some {a b : BlockId} :
    T.Above a (some b) ↔ f.PostDominates T.roots a b := by
  simp [Above]

@[simp] theorem not_above_none {a : BlockId} : ¬ T.Above a none := by
  simp [Above]

theorem refl (a : BlockId) : f.PostDominates T.roots a a := MSV.PostDominates.refl a

variable {T} in
theorem antisymm {a b : BlockId} (hab : f.PostDominates T.roots a b)
    (hba : f.PostDominates T.roots b a) : a = b :=
  MSV.PostDominates.antisymm T.leaves hab hba

/-- The blocks from `cur` up to `target`, which is left out. Nothing is above the virtual root. -/
def climb (target : Option BlockId) (cur : Option BlockId) : List BlockId :=
  if cur = target then []
  else
    match cur with
    | none => []
    | some b => b :: climb target (T.getIDom b)
termination_by (cur.map fun b => T.getLevel b + 1).getD 0
decreasing_by
  cases h : T.getIDom b with
  | none => simp
  | some d => simpa using T.getLevel_lt b d h

/-- The way up is the part of the branch below `target`. -/
theorem mem_climb {target cur : Option BlockId}
    (htarget : ∀ a, T.Above a target → T.Above a cur) {a : BlockId} :
    a ∈ T.climb target cur ↔ T.Above a cur ∧ ¬ T.Above a target := by
  induction cur using climb.induct T target with
  | case1 =>
      unfold climb
      simp
  | case2 hne =>
      unfold climb
      simp [hne]
  | case3 b hne ih =>
      -- `b` is below `target`, so what is above `target` is above the parent of `b`
      have hb : ¬ T.Above b target := by
        rintro ⟨c, rfl, hbc⟩
        have hcb := (T.above_some).mp (htarget c ((T.above_some).mpr (T.refl c)))
        exact hne (congrArg some (antisymm hbc hcb))
      have hup : ∀ a, T.Above a (some b) ↔ a = b ∨ T.Above a (T.getIDom b) := fun a => by
        rw [above_some, T.ancestors]
        rfl
      have hparent : ∀ a, T.Above a target → T.Above a (T.getIDom b) := by
        intro a ha
        obtain rfl | ha' := (hup a).mp (htarget a ha)
        · exact absurd ha hb
        · exact ha'
      rw [climb, if_neg hne, List.mem_cons, ih hparent, hup]
      constructor
      · rintro (rfl | ⟨ha, hnot⟩)
        · exact ⟨.inl rfl, hb⟩
        · exact ⟨.inr ha, hnot⟩
      · rintro ⟨rfl | ha, hnot⟩
        · exact .inl rfl
        · exact .inr ⟨ha, hnot⟩

/-- The nearest common post-dominator of a block and itself or a block it post-dominates. -/
theorem findNearestCommonDominator_eq_left {a b : BlockId} :
    T.findNearestCommonDominator a b = some a ↔ f.PostDominates T.roots a b := by
  constructor
  · intro h
    exact ((T.common a b a).mpr ⟨a, h, T.refl a⟩).2
  · intro h
    obtain ⟨d, hd, had⟩ := (T.common a b a).mp ⟨T.refl a, h⟩
    have hda := ((T.common a b d).mpr ⟨d, hd, T.refl d⟩).1
    rw [hd, antisymm had hda]

/-- **Whatever exits are chosen, there is a tree, if every block is on a path to one.** -/
theorem exists_of_leaves (f : Function) (roots : List BlockId)
    (leaves : ∀ b, ∃ l, ExitPath (fun b c => c ∈ f.successors b) (f.IsExit roots) b l) :
    ∃ T : PostDominatorTree f, T.roots = roots := by
  classical
  choose idom hidom using exists_immediate leaves
  choose common hcommon using exists_nearestCommon leaves
  refine ⟨⟨roots, leaves, fun a b => decide (f.PostDominates roots a b),
    fun a b => decide_eq_true_iff, fun b => {a | f.PostDominates roots a b}.ncard, idom,
    fun b d hd => ?_, fun a b => ?_, common, hcommon⟩, rfl⟩
  · obtain ⟨hdb, hne⟩ := (hidom b d).mpr ⟨d, hd, .refl d⟩
    exact ncard_postDominators_lt leaves hdb hne
  · refine Iff.trans ?_ (or_congr_right (hidom b a))
    constructor
    · intro hab
      by_cases heq : a = b
      · exact .inl heq
      · exact .inr ⟨hab, heq⟩
    · rintro (rfl | ⟨hab, -⟩)
      · exact .refl a
      · exact hab

end PostDominatorTree

/-! ## The pass -/

section

variable (f : Function) (T : PostDominatorTree f) (hasNode : Value → Bool)

/-- `addControlDepFromNodeToBB`. An instruction without a node is left out. -/
def addControlDepFromNodeToBB (g : GenericGraph Value) (n : Value) (BB : BlockId) :
    GenericGraph Value :=
  let insts := ((f.block? BB).map Block.insts).getD []
  insts.foldl (fun g inst =>
    if hasNode (.inst inst.id) then g.addNeighbor ⟨n, .inst inst.id, .CONTROL⟩ else g) g

variable {f} in
/-- The blocks that are connected for one successor, in order. -/
def dependentBlocks (BB succ : BlockId) : List BlockId :=
  let nearestCommonDominator := T.findNearestCommonDominator BB succ
  (if nearestCommonDominator = some BB then [succ] else []) ++
    T.climb nearestCommonDominator (some succ)

variable {f} in
/-- The loop over the successors of `BB`: the calls of `addControlDepFromNodeToBB`. -/
def controlDependencies (BB : Block) : List BlockId → List (Value × BlockId)
  | [] => []
  | succ :: rest =>
      if BB.id = succ ∨ T.dominates succ BB.id = false then
        match BB.terminator.map Inst.kind with
        | some (.br _) => []
        | some (.condBr cond _ _) =>
            if hasNode cond then
              (dependentBlocks T BB.id succ).map (cond, ·) ++ controlDependencies BB rest
            else []
        | _ => controlDependencies BB rest
      else controlDependencies BB rest

def computeControlDependencies (g : GenericGraph Value) : GenericGraph Value :=
  (f.blocks.flatMap fun BB => controlDependencies T hasNode BB BB.successors).foldl
    (fun g call => addControlDepFromNodeToBB f hasNode g call.1 call.2) g

/-- Control dependence after Ferrante, Ottenstein and Warren: `Y` post-dominates a successor of the
block, and does not strictly post-dominate the block. -/
def ControlDependent (roots : List BlockId) (X : Block) (Y : BlockId) : Prop :=
  ∃ S ∈ X.successors, f.PostDominates roots Y S ∧ ¬ (f.PostDominates roots Y X.id ∧ Y ≠ X.id)

/-- An edge that a call of `addControlDepFromNodeToBB` adds. -/
def AddedBy (n : Value) (BB : BlockId) (e : Edge Value) : Prop :=
  ∃ b, f.block? BB = some b ∧ ∃ inst ∈ b.insts, hasNode (.inst inst.id) = true ∧
    e = ⟨n, .inst inst.id, .CONTROL⟩

end

section

variable {f : Function} {T : PostDominatorTree f} {hasNode : Value → Bool} {X : Block}

theorem mem_edges_addControlDepFromNodeToBB {g : GenericGraph Value} {n : Value} {BB : BlockId}
    {e : Edge Value} : e ∈ (addControlDepFromNodeToBB f hasNode g n BB).edges ↔
      e ∈ g.edges ∨ AddedBy f hasNode n BB e := by
  unfold addControlDepFromNodeToBB AddedBy
  refine (foldl_adds (Q := fun g : GenericGraph Value => e ∈ g.edges)
    (P := fun inst => hasNode (.inst inst.id) = true ∧ e = ⟨n, .inst inst.id, .CONTROL⟩)
    (fun g inst => ?_) _ g).trans (or_congr_right ?_)
  · split_ifs with hnode
    · show e = _ ∨ e ∈ g.edges ↔ _
      simp [hnode, or_comm]
    · simp [hnode]
  · cases f.block? BB <;> simp

theorem mem_edges_computeControlDependencies {g : GenericGraph Value} {e : Edge Value} :
    e ∈ (computeControlDependencies f T hasNode g).edges ↔
      e ∈ g.edges ∨ ∃ X ∈ f.blocks, ∃ call ∈ controlDependencies T hasNode X X.successors,
        AddedBy f hasNode call.1 call.2 e := by
  unfold computeControlDependencies
  refine (foldl_adds (Q := fun g : GenericGraph Value => e ∈ g.edges)
    (f := fun g (call : Value × BlockId) => addControlDepFromNodeToBB f hasNode g call.1 call.2)
    (fun _ _ => mem_edges_addControlDepFromNodeToBB) _ g).trans (or_congr_right ?_)
  simp only [List.mem_flatMap]
  constructor
  · rintro ⟨call, ⟨X, hX, hcall⟩, he⟩
    exact ⟨X, hX, call, hcall, he⟩
  · rintro ⟨X, hX, call, hcall, he⟩
    exact ⟨call, ⟨X, hX, hcall⟩, he⟩

/-- The way up from a successor to the nearest common post-dominator. -/
theorem mem_dependentBlocks {B S Y : BlockId} : Y ∈ dependentBlocks T B S ↔
    (f.PostDominates T.roots B S ∧ Y = S) ∨
      (f.PostDominates T.roots Y S ∧ ¬ f.PostDominates T.roots Y B) := by
  have hcommon : ∀ a, T.Above a (T.findNearestCommonDominator B S) ↔
      f.PostDominates T.roots a B ∧ f.PostDominates T.roots a S := fun a => (T.common B S a).symm
  unfold dependentBlocks
  rw [List.mem_append]
  refine or_congr ?_ ?_
  · rw [← T.findNearestCommonDominator_eq_left]
    split_ifs with h <;> simp [h]
  · rw [T.mem_climb fun a ha => (T.above_some).mpr ((hcommon a).mp ha).2, hcommon, T.above_some]
    tauto

/-- For a branch on a condition with a node, no successor is passed over but those that
post-dominate the block. -/
theorem mem_controlDependencies {t : Inst} {cond : Value} {ifTrue ifFalse : BlockId}
    (hterm : X.terminator = some t) (hkind : t.kind = .condBr cond ifTrue ifFalse)
    (hnode : hasNode cond = true) {succs : List BlockId} {Y : BlockId} :
    (cond, Y) ∈ controlDependencies T hasNode X succs ↔
      ∃ S ∈ succs, (X.id = S ∨ ¬ f.PostDominates T.roots S X.id) ∧
        Y ∈ dependentBlocks T X.id S := by
  induction succs with
  | nil => simp [controlDependencies]
  | cons S rest ih =>
      have hpass : (X.id = S ∨ T.dominates S X.id = false) ↔
          (X.id = S ∨ ¬ f.PostDominates T.roots S X.id) := by
        rw [← T.dominates_iff, Bool.not_eq_true]
      unfold controlDependencies
      rw [hterm, List.exists_mem_cons_iff]
      simp only [Option.map_some, hkind, hnode, if_true]
      split_ifs with hS
      · rw [List.mem_append, ih, and_iff_right (hpass.mp hS)]
        simp
      · rw [ih, iff_false_intro (mt hpass.mpr hS), false_and, false_or]

/-- What the pass connects, in terms of post-dominance. -/
theorem controlled_iff {t : Inst} {cond : Value} {ifTrue ifFalse : BlockId}
    (hterm : X.terminator = some t) (hkind : t.kind = .condBr cond ifTrue ifFalse)
    (hnode : hasNode cond = true) {Y : BlockId} :
    (cond, Y) ∈ controlDependencies T hasNode X X.successors ↔
      (X.id ∈ X.successors ∧ Y = X.id) ∨
        ∃ S ∈ X.successors, f.PostDominates T.roots Y S ∧ ¬ f.PostDominates T.roots Y X.id := by
  rw [mem_controlDependencies hterm hkind hnode]
  simp only [mem_dependentBlocks]
  constructor
  · rintro ⟨S, hS, hpass, ⟨hXS, rfl⟩ | hbelow⟩
    · obtain rfl | hnot := hpass
      · exact .inl ⟨hS, rfl⟩
      · exact .inr ⟨Y, hS, T.refl Y, hnot⟩
    · exact .inr ⟨S, hS, hbelow⟩
  · rintro (⟨hself, rfl⟩ | ⟨S, hS, hYS, hYX⟩)
    · exact ⟨X.id, hself, .inl rfl, .inl ⟨T.refl _, rfl⟩⟩
    · refine ⟨S, hS, .inr fun hSX => ?_, .inr ⟨hYS, hYX⟩⟩
      exact hYX (MSV.PostDominates.trans hYS hSX)

end

/-- The edges added on account of a branch lead to the blocks that are control dependent on its
block, exactly when the block is among its successors or post-dominates none of them. -/
theorem control_dependence_iff (f : Function) (T : PostDominatorTree f) (hasNode : Value → Bool) :
    (∀ g e, e ∈ (computeControlDependencies f T hasNode g).edges ↔
      e ∈ g.edges ∨ ∃ X ∈ f.blocks, ∃ call ∈ controlDependencies T hasNode X X.successors,
        AddedBy f hasNode call.1 call.2 e) ∧
    ∀ X ∈ f.blocks, ∀ t cond ifTrue ifFalse, X.terminator = some t →
      t.kind = .condBr cond ifTrue ifFalse → hasNode cond = true →
      ((∀ Y, (cond, Y) ∈ controlDependencies T hasNode X X.successors ↔
          ControlDependent f T.roots X Y) ↔
        X.id ∈ X.successors ∨ ∀ S ∈ X.successors, ¬ f.PostDominates T.roots X.id S) := by
  refine ⟨fun g e => mem_edges_computeControlDependencies, ?_⟩
  intro X _ t cond ifTrue ifFalse hterm hkind hnode
  simp only [controlled_iff hterm hkind hnode]
  constructor
  · intro h
    by_contra! hbad
    obtain ⟨hself, S, hS, hXS⟩ := hbad
    -- the block is control dependent on itself
    have hdep : ControlDependent f T.roots X X.id := ⟨S, hS, hXS, fun hne => hne.2 rfl⟩
    obtain ⟨hmem, -⟩ | ⟨-, -, -, hnot⟩ := (h X.id).mpr hdep
    · exact hself hmem
    · exact hnot (T.refl X.id)
  · intro hcond Y
    constructor
    · rintro (⟨hself, rfl⟩ | ⟨S, hS, hYS, hYX⟩)
      · exact ⟨X.id, hself, T.refl X.id, fun hne => hne.2 rfl⟩
      · exact ⟨S, hS, hYS, fun hdom => hYX hdom.1⟩
    · rintro ⟨S, hS, hYS, hnot⟩
      by_cases hYX : f.PostDominates T.roots Y X.id
      · obtain rfl : Y = X.id := not_not.mp fun hne => hnot ⟨hYX, hne⟩
        obtain hself | hnone := hcond
        · exact .inl ⟨hself, rfl⟩
        · exact absurd hYS (hnone S hS)
      · exact .inr ⟨S, hS, hYS, hYX⟩

/-! ## A loop -/

/-- `do { } while (%x != 0)`, with a block for the body. -/
def doWhile : Function := ⟨0, "main", [.int 32], [
  ⟨0, [⟨0, .void, .br 1⟩]⟩,
  ⟨1, [⟨1, .int 1, .icmp .ne (.arg 0 0) (.constInt (APInt.ofNat 32 0))⟩,
    ⟨2, .void, .condBr (.inst 1) 0 2⟩]⟩,
  ⟨2, [⟨3, .void, .ret none⟩]⟩]⟩

theorem successors_doWhile (b : BlockId) :
    doWhile.successors b = if b = 0 then [1] else if b = 1 then [0, 2] else [] := by
  match b with
  | 0 | 1 | 2 => rfl
  | n + 3 => rfl

theorem isExit_doWhile {b : Nat} : doWhile.IsExit [] b ↔ 2 ≤ b := by
  unfold Function.IsExit
  rw [successors_doWhile]
  split_ifs with h0 h1
  · simp [h0]
  · simp [h1]
  · grind

/-- The blocks are passed in the order 0, 1, 2. -/
theorem mem_of_exitPath_doWhile {a b : Nat} {l : List BlockId}
    (h : ExitPath (fun b c => c ∈ doWhile.successors b) (doWhile.IsExit []) b l) (hba : b ≤ a)
    (ha : a ≤ 2) : a ∈ l := by
  induction h with
  | @stop b hexit =>
      have hb : 2 ≤ b := isExit_doWhile.mp hexit
      exact List.mem_singleton.mpr (by omega)
  | @step b c l hstep hl ih =>
      rw [successors_doWhile] at hstep
      obtain rfl | hlt := Nat.eq_or_lt_of_le hba
      · exact List.mem_cons_self
      · refine List.mem_cons_of_mem _ (ih ?_)
        split_ifs at hstep with h0 h1
        · grind
        · grind
        · cases hstep

theorem exitPath_doWhile (b : Nat) :
    ExitPath (fun b c => c ∈ doWhile.successors b) (doWhile.IsExit []) b
      (if b = 0 then [0, 1, 2] else if b = 1 then [1, 2] else [b]) := by
  have htwo : ExitPath (fun b c => c ∈ doWhile.successors b) (doWhile.IsExit []) 2 [2] :=
    .stop (isExit_doWhile.mpr le_rfl)
  have hone := ExitPath.step (show 2 ∈ doWhile.successors 1 by decide) htwo
  split_ifs with h0 h1
  · subst h0
    exact .step (by decide) hone
  · subst h1
    exact hone
  · exact .stop (isExit_doWhile.mpr (by omega))

theorem postDominates_doWhile {a b : Nat} :
    doWhile.PostDominates [] a b ↔ a = b ∨ (b < a ∧ a ≤ 2) := by
  constructor
  · intro h
    have hmem := h _ (exitPath_doWhile b)
    split_ifs at hmem with h0 h1
    · grind
    · grind
    · exact .inl (List.mem_singleton.mp hmem)
  · rintro (rfl | ⟨hlt, hle⟩) l hl
    · exact hl.head_mem
    · exact mem_of_exitPath_doWhile hl hlt.le hle

def doWhileTree : PostDominatorTree doWhile where
  roots := []
  leaves b := ⟨_, exitPath_doWhile b⟩
  dominates a b := decide (a = b ∨ (b < a ∧ a ≤ 2))
  dominates_iff a b := by
    rw [decide_eq_true_iff]
    exact postDominates_doWhile.symm
  getLevel b := 2 - b
  getIDom b := if b < 2 then some (b + 1) else none
  getLevel_lt b d h := by
    split_ifs at h with hb
    grind
  ancestors a b := by
    simp only [postDominates_doWhile]
    split_ifs <;> grind
  findNearestCommonDominator a b :=
    if a = b then some a else if a ≤ 2 ∧ b ≤ 2 then some (max a b) else none
  common a b c := by
    simp only [postDominates_doWhile]
    split_ifs <;> grind

/-- The block with the condition. -/
def latch : Block := ⟨1, [⟨1, .int 1, .icmp .ne (.arg 0 0) (.constInt (APInt.ofNat 32 0))⟩,
  ⟨2, .void, .condBr (.inst 1) 0 2⟩]⟩

/-- The block of the condition is control dependent on itself, and is not connected. -/
theorem latch_not_connected : latch ∈ doWhile.blocks ∧
    ¬ ∀ Y, (.inst 1, Y) ∈ controlDependencies doWhileTree (fun _ => true) latch latch.successors ↔
      ControlDependent doWhile doWhileTree.roots latch Y := by
  refine ⟨by decide, fun h => ?_⟩
  have hdep : ControlDependent doWhile doWhileTree.roots latch 1 :=
    ⟨0, by decide, postDominates_doWhile.mpr (by decide), fun hne => hne.2 rfl⟩
  obtain ⟨hself, -⟩ | ⟨S, -, -, hnot⟩ := (controlled_iff rfl rfl rfl).mp ((h 1).mpr hdep)
  · exact absurd hself (by decide)
  · exact hnot (doWhileTree.refl 1)

end MSV
