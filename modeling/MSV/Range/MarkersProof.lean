import MSV.Range.Markers

/-!
# Which unsafe GEPs are protected

Every unsafe GEP should end up between `MAGIC` markers or have all its objects tagged. A GEP that
shares one object with those reported before is dropped although its other objects are not tagged;
one that an end marker follows gets no markers, also if that marker is deleted later; and with
`UsePC` the pass puts `NORMAL` markers, which it deletes itself.

**Theorem (`protected_iff`).** An unsafe GEP is protected exactly when it has `MAGIC` markers in the
input, or all its objects belong to GEPs reported before, or it shares no object with them, no end
marker follows it, and `UsePC` is off. With `UsePC` the heap pointers marked first count as reported
when the stack pointers are analysed.

The marking loop puts pairs around GEPs (`wrap`), whatever order it takes them in: which GEPs get a
pair depends on the input module only (`markUnsafe_foldl`).
-/

namespace MSV

variable {o : MarkerOptions} {pta : PTAWrapper} {M : Module} {g : Inst}
  {m : Inst → Option (Inst × Inst)} {oowResults : List InstId} {heapUnsafe stackUnsafe : List Inst}

/-! ## Rewriting the blocks -/

namespace Module

theorem blocks_mapBlocks (f : List Inst → List Inst) (M : Module) :
    (M.mapBlocks f).blocks = M.blocks.map fun b => { b with insts := f b.insts } := by
  simp only [blocks, mapBlocks, List.flatMap_map, List.map_flatMap]

theorem mapBlocks_mapBlocks (f f' : List Inst → List Inst) (M : Module) :
    (M.mapBlocks f).mapBlocks f' = M.mapBlocks fun l => f' (f l) := by
  simp [mapBlocks, Function.comp_def]

theorem insts_eq_flatMap (M : Module) : M.insts = M.blocks.flatMap Block.insts := by
  simp only [insts, blocks, List.flatMap_assoc]
  rfl

theorem mapBlocks_id (M : Module) : M.mapBlocks (fun l => l) = M := by
  simp [mapBlocks]

/-- A rewriting that keeps the instruction in its block. -/
theorem parentInsts_mapBlocks {f : List Inst → List Inst} (h0 : f [] = [])
    (hf : ∀ l, g ∈ f l ↔ g ∈ l) : (M.mapBlocks f).parentInsts g = f (M.parentInsts g) := by
  unfold parentInsts
  rw [blocks_mapBlocks, List.find?_map]
  have hcomp : ((fun b : Block => decide (g ∈ b.insts)) ∘
      fun b : Block => { b with insts := f b.insts }) = fun b => decide (g ∈ b.insts) := by
    funext b
    exact decide_eq_decide.mpr (hf b.insts)
  rw [hcomp]
  cases M.blocks.find? fun b => decide (g ∈ b.insts) with
  | none => exact h0.symm
  | some b => rfl

theorem mem_parentInsts (h : g ∈ M.insts) : g ∈ M.parentInsts g := by
  rw [insts_eq_flatMap, List.mem_flatMap] at h
  obtain ⟨b, hb, hg⟩ := h
  unfold parentInsts
  cases hfind : M.blocks.find? fun b => decide (g ∈ b.insts) with
  | none => exact absurd hg (by simpa using List.find?_eq_none.mp hfind b hb)
  | some b' => simpa using List.find?_some hfind

/-- In a well-formed module the block is the only one the instruction is in. -/
theorem parentInsts_eq (hM : M.WF) {b : Block} (hb : b ∈ M.blocks) (hg : g ∈ b.insts) :
    M.parentInsts g = b.insts := by
  have hnodup : (M.blocks.flatMap Block.insts).Nodup := by
    rw [← insts_eq_flatMap]
    exact hM.insts_nodup.of_map
  unfold parentInsts
  cases hfind : M.blocks.find? fun b => decide (g ∈ b.insts) with
  | none => exact absurd hg (by simpa using List.find?_eq_none.mp hfind b hb)
  | some b' =>
      have hg' : g ∈ b'.insts := by simpa using List.find?_some hfind
      rw [eq_of_mem_flatMap hnodup (List.mem_of_find?_eq_some hfind) hb hg' hg]
      rfl

end Module


/-! ## The markers -/

/-- The pairs are markers, and they are put around GEPs. -/
def Marks (o : MarkerOptions) (m : Inst → Option (Inst × Inst)) : Prop :=
  ∀ i b e, m i = some (b, e) → i.isGEP = true ∧ ∃ id, (b, e) = markers o id

theorem isAsmCall_of_isGEP (h : g.isGEP = true) (t : String) : g.isAsmCall t = false := by
  obtain ⟨id, ty, kind⟩ := g
  cases kind <;> first | rfl | cases h

theorem asmString_of_isGEP (h : g.isGEP = true) : g.asmString = none := by
  obtain ⟨id, ty, kind⟩ := g
  cases kind <;> first | rfl | cases h

/-- What is checked of the next instruction. -/
def isEndAsm (i : Inst) : Bool :=
  i.asmString.any fun t => decide (NORMAL_MAGIC_ASM_END.toList <:+: t.toList) ||
    decide (MAGIC_ASM_END.toList <:+: t.toList)

theorem endFollows_eq (M : Module) (g : Inst) : endFollows M g = (M.getNextNode g).any isEndAsm :=
  rfl

theorem isEndAsm_asmCall (id : InstId) (t : String) : isEndAsm (asmCall id t) =
    (decide (NORMAL_MAGIC_ASM_END.toList <:+: t.toList) ||
      decide (MAGIC_ASM_END.toList <:+: t.toList)) := rfl

theorem isEndAsm_of_isGEP (h : g.isGEP = true) : isEndAsm g = false := by
  rw [isEndAsm, asmString_of_isGEP h]
  rfl

section Markers

variable {id : InstId} {b e : Inst}

/-- A begin marker is a call of this text only. -/
theorem begin_marker (h : (b, e) = markers o id) (t : String) :
    b.isGEP = false ∧ isEndAsm b = false ∧
      b.isAsmCall t = ((if o.usePC then NORMAL_MAGIC_ASM_BEGIN else MAGIC_ASM_BEGIN) == t) := by
  unfold markers at h
  split at h
  · rename_i hpc
    rw [(Prod.mk.inj h).1, if_pos hpc]
    exact ⟨rfl, by rw [isEndAsm_asmCall]; decide, rfl⟩
  · rename_i hpc
    rw [(Prod.mk.inj h).1, if_neg hpc]
    exact ⟨rfl, by rw [isEndAsm_asmCall]; decide, rfl⟩

theorem end_marker (h : (b, e) = markers o id) (t : String) :
    e.isGEP = false ∧ isEndAsm e = true ∧
      e.isAsmCall t = ((if o.usePC then NORMAL_MAGIC_ASM_END else MAGIC_ASM_END) == t) := by
  unfold markers at h
  split at h
  · rename_i hpc
    rw [(Prod.mk.inj h).2, if_pos hpc]
    exact ⟨rfl, by rw [isEndAsm_asmCall]; decide, rfl⟩
  · rename_i hpc
    rw [(Prod.mk.inj h).2, if_neg hpc]
    exact ⟨rfl, by rw [isEndAsm_asmCall]; decide, rfl⟩

end Markers

/-- Pairs of markers around GEPs, each put with some options. -/
def Pairs (m : Inst → Option (Inst × Inst)) : Prop :=
  ∀ i b e, m i = some (b, e) → i.isGEP = true ∧ ∃ o id, (b, e) = markers o id

theorem Marks.pairs (hm : Marks o m) : Pairs m := by
  intro i b e h
  obtain ⟨hi, id, hid⟩ := hm i b e h
  exact ⟨hi, o, id, hid⟩

theorem Pairs.avoids (hm : Pairs m) (hg : g.isGEP = true) : Avoids m g := by
  intro i b e h
  obtain ⟨-, o, id, hid⟩ := hm i b e h
  constructor
  · rintro rfl
    rw [(begin_marker hid "").1] at hg
    cases hg
  · rintro rfl
    rw [(end_marker hid "").1] at hg
    cases hg

/-- The pair of a single GEP. -/
def singleMark (o : MarkerOptions) (id : InstId) (g i : Inst) : Option (Inst × Inst) :=
  if i = g then some (markers o id) else none

theorem singleMark_of_not_isGEP {id : InstId} {i : Inst} (hg : g.isGEP = true)
    (hi : i.isGEP = false) : singleMark o id g i = none := by
  refine if_neg ?_
  rintro rfl
  rw [hg] at hi
  cases hi

/-- The module with pairs around its instructions. -/
def withMarks (M : Module) (m : Inst → Option (Inst × Inst)) : Module :=
  M.mapBlocks fun l => l.flatMap (wrap m)

theorem withMarks_none (M : Module) : withMarks M (fun _ => none) = M := by
  have h : (fun l : List Inst => l.flatMap (wrap fun _ => none)) = fun l => l := by
    funext l
    show l.flatMap (fun x => [x]) = l
    exact List.flatMap_singleton' l
  rw [withMarks, h, M.mapBlocks_id]

theorem parentInsts_withMarks (hm : Pairs m) (hg : g.isGEP = true) :
    (withMarks M m).parentInsts g = (M.parentInsts g).flatMap (wrap m) :=
  Module.parentInsts_mapBlocks rfl fun _ => mem_wrap (hm.avoids hg)

/-- Behind a GEP without markers, the markers of others are no end markers. -/
theorem endFollows_withMarks_none (hm : Pairs m) (hg : g.isGEP = true) (h : m g = none) :
    endFollows (withMarks M m) g = endFollows M g := by
  rw [endFollows_eq, endFollows_eq, Module.getNextNode, Module.getNextNode,
    parentInsts_withMarks hm hg, next_wrap_none (hm.avoids hg) h, Option.any_map]
  congr 1
  funext i
  show isEndAsm (wrapHead m i) = _
  rw [wrapHead]
  cases hi : m i with
  | none => rfl
  | some p =>
      obtain ⟨hgep, _, id, hid⟩ := hm i p.1 p.2 hi
      rw [isEndAsm_of_isGEP hgep]
      exact (begin_marker hid "").2.1

theorem endFollows_withMarks_some (hm : Pairs m) (hg : g.isGEP = true) (hmem : g ∈ M.insts)
    (h : (m g).isSome = true) : endFollows (withMarks M m) g = true := by
  obtain ⟨⟨b, e⟩, hbe⟩ := Option.isSome_iff_exists.mp h
  obtain ⟨-, _, id, hid⟩ := hm g b e hbe
  rw [endFollows_eq, Module.getNextNode, parentInsts_withMarks hm hg,
    next_wrap_some (hm.avoids hg) hbe (Module.mem_parentInsts hmem)]
  exact (end_marker hid "").2.1

/-! ## The marking loop -/

/-- One step of the marking loop: the GEP gets a pair if it has none and no end marker follows it in
the input, and every other pair stays. -/
theorem markUnsafe_withPairs (hm : Pairs m) (hg : g.isGEP = true) (hmem : g ∈ M.insts) :
    ∃ m', markUnsafe o (withMarks M m) g = withMarks M m' ∧
      (∀ i, m' i = m i ∨ m i = none ∧ i = g ∧ ∃ id, m' i = some (markers o id)) ∧
      ∀ i, (m' i).isSome = true ↔ (m i).isSome = true ∨ i = g ∧ endFollows M g = false := by
  cases hend : endFollows (withMarks M m) g with
  | true =>
      refine ⟨m, by rw [markUnsafe, if_pos hend], fun i => Or.inl rfl, fun i => ?_⟩
      constructor
      · exact Or.inl
      · rintro (h | ⟨rfl, h⟩)
        · exact h
        · cases hi : m i with
          | none =>
              rw [endFollows_withMarks_none hm hg hi, h] at hend
              cases hend
          | some p => rfl
  | false =>
      have hnone : m g = none := by
        cases hi : m g with
        | none => rfl
        | some p =>
            rw [endFollows_withMarks_some hm hg hmem (by rw [hi]; rfl)] at hend
            cases hend
      refine ⟨fun i => (m i).or (singleMark o (withMarks M m).freshId g i), ?_, fun i => ?_,
        fun i => ?_⟩
      · rw [markUnsafe, hend, if_neg Bool.false_ne_true, withMarks, Module.mapBlocks_mapBlocks,
          withMarks]
        congr 1
        funext l
        refine wrap_wrap (fun i b e h => ?_) l
        obtain ⟨-, _, id, hid⟩ := hm i b e h
        refine ⟨singleMark_of_not_isGEP hg (begin_marker hid "").1, if_neg ?_,
          singleMark_of_not_isGEP hg (end_marker hid "").1⟩
        rintro rfl
        cases hnone.symm.trans h
      · by_cases hi : i = g
        · subst hi
          refine Or.inr ⟨hnone, rfl, (withMarks M m).freshId, ?_⟩
          simp [hnone, singleMark]
        · exact Or.inl (by simp [singleMark, hi])
      · rw [Option.isSome_or, Bool.or_eq_true]
        refine or_congr_right ?_
        rw [endFollows_withMarks_none hm hg hnone] at hend
        simp [singleMark, hend]

/-- Whether the GEP gets markers depends on the input only. -/
theorem markUnsafe_withMarks (hm : Marks o m) (hg : g.isGEP = true) (hmem : g ∈ M.insts) :
    ∃ m', Marks o m' ∧ markUnsafe o (withMarks M m) g = withMarks M m' ∧
      ∀ i, (m' i).isSome = true ↔ (m i).isSome = true ∨ i = g ∧ endFollows M g = false := by
  obtain ⟨m', heq, hpairs, hsome⟩ := markUnsafe_withPairs hm.pairs hg hmem
  refine ⟨m', fun i b e h => ?_, heq, hsome⟩
  obtain hi | ⟨-, rfl, id, hid⟩ := hpairs i
  · exact hm i b e (hi ▸ h)
  · exact ⟨hg, id, Option.some.inj (h.symm.trans hid)⟩

/-- The marking loop, in any order. -/
theorem markUnsafe_foldl : ∀ (geps : List Inst), (∀ g ∈ geps, g.isGEP = true ∧ g ∈ M.insts) →
    ∀ m, Marks o m → ∃ m', Marks o m' ∧ geps.foldl (markUnsafe o) (withMarks M m) = withMarks M m' ∧
      ∀ i, (m' i).isSome = true ↔ (m i).isSome = true ∨ i ∈ geps ∧ endFollows M i = false
  | [], _, m, hm => ⟨m, hm, rfl, fun i => by simp⟩
  | g :: geps, hgeps, m, hm => by
    obtain ⟨hg, hmem⟩ := hgeps g List.mem_cons_self
    obtain ⟨m₁, hm₁, heq, hsome⟩ := markUnsafe_withMarks hm hg hmem
    obtain ⟨m₂, hm₂, heq₂, hsome₂⟩ :=
      markUnsafe_foldl geps (fun x hx => hgeps x (List.mem_cons_of_mem _ hx)) m₁ hm₁
    refine ⟨m₂, hm₂, by rw [List.foldl_cons, heq, heq₂], fun i => ?_⟩
    rw [hsome₂, hsome, List.mem_cons, or_assoc, or_and_right]
    refine or_congr_right (or_congr_left (and_congr_right ?_))
    rintro rfl
    rfl

/-! ## The GEPs reported before -/

theorem unsafeObjects_eq (geps : List Inst) :
    pta.unsafeObjects geps = geps.foldl (fun s g => s ∪ pta.gepObjects g) ∅ := by
  unfold PTAWrapper.unsafeObjects
  congr 1
  funext s g
  unfold PTAWrapper.gepObjects
  cases g.kind <;> simp [PTAWrapper.insertUnsafePts]

theorem mem_unsafeObjects {geps : List Inst} {x : NodeID} :
    x ∈ pta.unsafeObjects geps ↔ ∃ g ∈ geps, x ∈ pta.gepObjects g := by
  have hfold : ∀ (geps : List Inst) (s : Finset NodeID),
      x ∈ geps.foldl (fun s g => s ∪ pta.gepObjects g) s ↔
        x ∈ s ∨ ∃ g ∈ geps, x ∈ pta.gepObjects g := by
    intro geps
    induction geps with
    | nil => intro s; simp
    | cons g geps ih =>
        intro s
        rw [List.foldl_cons, ih, List.exists_mem_cons_iff, ← or_assoc, Finset.mem_union]
  rw [unsafeObjects_eq, hfold]
  simp

theorem mem_markedGEPs_cons {p : Inst} {l : List Inst} : g ∈ markedGEPs (p :: l) ↔
    g = p ∧ p.isGEP = true ∧ l.head?.any (Inst.isAsmCall NORMAL_MAGIC_ASM_END) = true ∨
      g ∈ markedGEPs l := by
  rw [markedGEPs]
  split
  · rename_i h
    rw [Bool.and_eq_true] at h
    simp [h]
  · rename_i h
    rw [Bool.and_eq_true] at h
    constructor
    · exact Or.inr
    · rintro (⟨-, h'⟩ | h')
      · exact (h h').elim
      · exact h'

theorem markedGEPs_subset {l : List Inst} (h : g ∈ markedGEPs l) : g ∈ l ∧ g.isGEP = true := by
  induction l with
  | nil => cases h
  | cons p l ih =>
      rcases mem_markedGEPs_cons.mp h with ⟨rfl, hg, -⟩ | h
      · exact ⟨List.mem_cons_self, hg⟩
      · exact ⟨List.mem_cons_of_mem _ (ih h).1, (ih h).2⟩

/-- A reported GEP is followed by an end marker. -/
theorem isEndAsm_of_mem_markedGEPs {l : List Inst} (hl : l.Nodup) (h : g ∈ markedGEPs l) :
    (next g l).any isEndAsm = true := by
  induction l with
  | nil => cases h
  | cons p l ih =>
      rcases mem_markedGEPs_cons.mp h with ⟨rfl, -, hhead⟩ | h
      · rw [next, if_pos rfl]
        obtain ⟨c, hc, hend⟩ := (Option.any_eq_true _ _).mp hhead
        refine (Option.any_eq_true _ _).mpr ⟨c, hc, ?_⟩
        obtain ⟨id, ty, kind⟩ := c
        unfold Inst.isAsmCall at hend
        split at hend
        · rename_i t _ hkind
          simp only at hkind
          subst hkind
          have ht : t = NORMAL_MAGIC_ASM_END := by simpa using hend
          subst ht
          exact isEndAsm_asmCall id NORMAL_MAGIC_ASM_END ▸ by decide
        · cases hend
      · rw [next, if_neg]
        · exact ih (List.nodup_cons.mp hl).2 h
        · rintro rfl
          exact (List.nodup_cons.mp hl).1 (markedGEPs_subset h).1

/-- In a marked block a GEP is reported if its own end marker is `NORMAL`, or if it was before. -/
theorem mem_markedGEPs_wrap (hm : Marks o m) {l : List Inst} :
    g ∈ markedGEPs (l.flatMap (wrap m)) ↔
      (g ∈ l ∧ (m g).isSome = true ∧ o.usePC = true) ∨ (m g = none ∧ g ∈ markedGEPs l) := by
  -- the first instruction of what follows is no marker of this kind, unless it was before
  have hhead : ∀ l : List Inst,
      (l.flatMap (wrap m)).head?.any (Inst.isAsmCall NORMAL_MAGIC_ASM_END) =
        l.head?.any (Inst.isAsmCall NORMAL_MAGIC_ASM_END) := by
    intro l
    rw [head?_wrap, Option.any_map]
    congr 1
    funext i
    show (wrapHead m i).isAsmCall _ = _
    rw [wrapHead]
    cases hi : m i with
    | none => rfl
    | some p =>
        obtain ⟨hgep, id, hid⟩ := hm i p.1 p.2 hi
        rw [isAsmCall_of_isGEP hgep]
        show p.1.isAsmCall _ = _
        rw [(begin_marker hid _).2.2]
        split <;> decide
  induction l with
  | nil => simp [markedGEPs]
  | cons x l ih =>
      replace ih : _ ↔ _ := ih
      rw [List.flatMap_cons]
      cases hx : m x with
      | none =>
          rw [wrap_none hx, List.cons_append, List.nil_append, mem_markedGEPs_cons, hhead,
            mem_markedGEPs_cons, ih]
          by_cases hgx : g = x
          · subst hgx
            simp [hx]
          · simp [hgx]
      | some p =>
          obtain ⟨hgep, id, hid⟩ := hm x p.1 p.2 hx
          obtain ⟨hb, -, -⟩ := begin_marker hid ""
          obtain ⟨he, -, hend⟩ := end_marker hid NORMAL_MAGIC_ASM_END
          have hpc : (p.2.isAsmCall NORMAL_MAGIC_ASM_END = true) ↔ o.usePC = true := by
            rw [hend]
            cases o.usePC <;> decide
          rw [wrap_some (b := p.1) (e := p.2) hx, List.cons_append, List.cons_append,
            List.cons_append, List.nil_append, mem_markedGEPs_cons, mem_markedGEPs_cons,
            mem_markedGEPs_cons, ih, mem_markedGEPs_cons]
          by_cases hgx : g = x
          · subst hgx
            simp [hb, he, hx, hgep, hpc]
          · simp [hb, he, hgx]

theorem mem_dgUnsafeGEPs_withMarks (hm : Marks o m) : g ∈ dgUnsafeGEPs (withMarks M m) ↔
    (g ∈ M.insts ∧ (m g).isSome = true ∧ o.usePC = true) ∨ (m g = none ∧ g ∈ dgUnsafeGEPs M) := by
  unfold dgUnsafeGEPs
  rw [withMarks, Module.blocks_mapBlocks, List.flatMap_map, List.mem_flatMap, List.mem_flatMap,
    Module.insts_eq_flatMap, List.mem_flatMap]
  simp only [mem_markedGEPs_wrap hm]
  constructor
  · rintro ⟨b, hb, ⟨hg, h⟩ | ⟨hn, hg⟩⟩
    · exact Or.inl ⟨⟨b, hb, hg⟩, h⟩
    · exact Or.inr ⟨hn, b, hb, hg⟩
  · rintro (⟨⟨b, hb, hg⟩, h⟩ | ⟨hn, b, hb, hg⟩)
    · exact ⟨b, hb, Or.inl ⟨hg, h⟩⟩
    · exact ⟨b, hb, Or.inr ⟨hn, hg⟩⟩

theorem endFollows_of_mem_dgUnsafeGEPs (hM : M.WF) (h : g ∈ dgUnsafeGEPs M) :
    endFollows M g = true := by
  obtain ⟨b, hb, hg⟩ := List.mem_flatMap.mp h
  have hnodup : b.insts.Nodup := by
    have := hM.insts_nodup.of_map
    rw [Module.insts_eq_flatMap] at this
    exact (List.nodup_flatMap.mp this).1 b hb
  rw [endFollows_eq, Module.getNextNode, Module.parentInsts_eq hM hb (markedGEPs_subset hg).1]
  exact isEndAsm_of_mem_markedGEPs hnodup hg

/-! ## Deleting the dummies -/

theorem isDGDummy_of_isGEP (h : g.isGEP = true) : isDGDummy g = false := by
  rw [isDGDummy, isAsmCall_of_isGEP h, isAsmCall_of_isGEP h]
  rfl

/-- The pass deletes the markers it put with `UsePC`. -/
theorem removeDummies_withMarks_usePC (hm : Marks o m) (hpc : o.usePC = true) :
    removeDummies (withMarks M m) = removeDummies M := by
  rw [removeDummies, withMarks, Module.mapBlocks_mapBlocks, removeDummies]
  congr 1
  funext l
  refine filter_wrap_new (fun i b e h => ?_) l
  obtain ⟨hgep, id, hid⟩ := hm i b e h
  rw [isDGDummy_of_isGEP hgep, isDGDummy, isDGDummy, (begin_marker hid _).2.2,
    (end_marker hid NORMAL_MAGIC_ASM_END).2.2, hpc, if_pos rfl, if_pos rfl]
  simp

/-- The others stay. -/
theorem removeDummies_withMarks (hm : Marks o m) (hpc : o.usePC = false) :
    removeDummies (withMarks M m) = withMarks (removeDummies M) m := by
  rw [removeDummies, withMarks, Module.mapBlocks_mapBlocks, withMarks, removeDummies,
    Module.mapBlocks_mapBlocks]
  congr 1
  funext l
  refine filter_wrap (fun i b e h => ?_) l
  obtain ⟨hgep, id, hid⟩ := hm i b e h
  rw [isDGDummy_of_isGEP hgep, isDGDummy, isDGDummy, (begin_marker hid _).2.2,
    (begin_marker hid _).2.2, (end_marker hid _).2.2, (end_marker hid _).2.2, hpc]
  decide

theorem mem_insts_removeDummies (hg : g.isGEP = true) (h : g ∈ M.insts) :
    g ∈ (removeDummies M).insts := by
  rw [Module.insts_eq_flatMap, List.mem_flatMap] at h ⊢
  obtain ⟨b, hb, hgb⟩ := h
  rw [removeDummies, Module.blocks_mapBlocks]
  exact ⟨_, List.mem_map_of_mem hb,
    List.mem_filter.mpr ⟨hgb, by rw [isDGDummy_of_isGEP hg]; rfl⟩⟩

/-- A GEP between `MAGIC` markers got them from the pass or had them. -/
theorem bracketed_withMarks (hm : Marks o m) (hpc : o.usePC = false) (hg : g.isGEP = true)
    (hmem : g ∈ M.insts) :
    Bracketed (withMarks M m) g ↔ (m g).isSome = true ∨ Bracketed M g := by
  have hav := hm.pairs.avoids hg
  unfold Bracketed Module.getPrevNode Module.getNextNode
  rw [parentInsts_withMarks hm.pairs hg]
  cases h : m g with
  | some p =>
      obtain ⟨-, id, hid⟩ := hm g p.1 p.2 h
      rw [prev_wrap_some hav (b := p.1) (e := p.2) h (Module.mem_parentInsts hmem),
        next_wrap_some hav (b := p.1) (e := p.2) h (Module.mem_parentInsts hmem)]
      simp only [Option.any_some, (begin_marker hid _).2.2, (end_marker hid _).2.2, hpc]
      simp
  | none =>
      rw [prev_wrap_none hav h, next_wrap_none hav h, Option.any_map, Option.any_map]
      have hprev : ∀ i, (((m i).map Prod.snd).getD i).isAsmCall MAGIC_ASM_BEGIN =
          i.isAsmCall MAGIC_ASM_BEGIN := by
        intro i
        cases hi : m i with
        | none => rfl
        | some p =>
            obtain ⟨hgep, id, hid⟩ := hm i p.1 p.2 hi
            rw [isAsmCall_of_isGEP hgep]
            show p.2.isAsmCall _ = _
            rw [(end_marker hid _).2.2, hpc]
            decide
      have hnext : ∀ i, (wrapHead m i).isAsmCall MAGIC_ASM_END = i.isAsmCall MAGIC_ASM_END := by
        intro i
        unfold wrapHead
        cases hi : m i with
        | none => rfl
        | some p =>
            obtain ⟨hgep, id, hid⟩ := hm i p.1 p.2 hi
            rw [isAsmCall_of_isGEP hgep]
            show p.1.isAsmCall _ = _
            rw [(begin_marker hid _).2.2, hpc]
            decide
      simp only [hprev, hnext, Option.isSome_none, Bool.false_eq_true, false_or]

/-! ## The pass -/

/-- The unsafe GEPs that share no object with those reported before. -/
def keptGEPs (pta : PTAWrapper) (geps : List Inst) (M : Module) : List Inst :=
  geps.filter fun g => decide (pta.gepObjects g ∩ pta.unsafeObjects (dgUnsafeGEPs M) = ∅)

/-- The GEPs whose objects are tagged: those reported in the input, and with `UsePC` the heap
pointers that get `NORMAL` markers. -/
def reportedGEPs (o : MarkerOptions) (pta : PTAWrapper) (geps : List Inst) (M : Module) :
    List Inst :=
  dgUnsafeGEPs M ++
    if o.usePC then (keptGEPs pta geps M).filter fun g => !endFollows M g else []

theorem tagged_iff {geps : List Inst} {x : NodeID} :
    (tagOperationsForProtections pta geps).Tagged pta x ↔ ∃ g ∈ geps, x ∈ pta.gepObjects g := by
  rw [← mem_unsafeObjects]
  constructor
  · exact And.left
  · intro h
    refine ⟨h, fun v hv => ?_⟩
    exact Finset.mem_biUnion.mpr ⟨x, h, Option.mem_toFinset.mpr hv⟩

theorem mem_filterOutOfWindow {geps : List Inst} (h : g ∈ filterOutOfWindow o oowResults geps) :
    g ∈ geps := by
  unfold filterOutOfWindow at h
  split at h
  · exact (List.mem_filter.mp h).1
  · exact h

/-- One analysis marks the kept GEPs that no end marker follows. -/
theorem valueRangeAnalysisDiff_withMarks (pta : PTAWrapper) (oowResults : List InstId)
    (hm : Marks o m) {geps : List Inst}
    (hgeps : ∀ g ∈ geps, g.isGEP = true ∧ g ∈ M.insts) :
    ∃ m', Marks o m' ∧
      (valueRangeAnalysisDiff o pta oowResults geps (withMarks M m)).1 = withMarks M m' ∧
      ∀ i, (m' i).isSome = true ↔ (m i).isSome = true ∨
        i ∈ keptGEPs pta (filterOutOfWindow o oowResults geps) (withMarks M m) ∧
          endFollows M i = false :=
  markUnsafe_foldl _ (fun g hg => hgeps g (mem_filterOutOfWindow (List.mem_filter.mp hg).1)) m hm

/-- What the second analysis finds reported. -/
theorem mem_reportedGEPs (hM : M.WF) (hm : Marks o m) {geps : List Inst}
    (hgeps : ∀ g ∈ geps, g ∈ M.insts)
    (hsome : ∀ i, (m i).isSome = true ↔ i ∈ keptGEPs pta geps M ∧ endFollows M i = false) :
    g ∈ dgUnsafeGEPs (withMarks M m) ↔ g ∈ reportedGEPs o pta geps M := by
  rw [mem_dgUnsafeGEPs_withMarks hm, reportedGEPs, List.mem_append, or_comm]
  refine or_congr ?_ ?_
  · constructor
    · exact And.right
    · intro h
      refine ⟨?_, h⟩
      cases hg : m g with
      | none => rfl
      | some p =>
          have := ((hsome g).mp (by rw [hg]; rfl)).2
          rw [endFollows_of_mem_dgUnsafeGEPs hM h] at this
          cases this
  · cases o.usePC with
    | false => simp
    | true =>
        rw [if_pos rfl, List.mem_filter, hsome, Bool.not_eq_true']
        constructor
        · exact fun h => h.2.1
        · intro h
          exact ⟨hgeps g (List.mem_filter.mp h.1).1, h, rfl⟩

/-- Without `UsePC` the markers of the first analysis change nothing for the second. -/
theorem unsafeObjects_withMarks (hM : M.WF) (hm : Marks o m) {geps : List Inst}
    (hgeps : ∀ g ∈ geps, g ∈ M.insts)
    (hsome : ∀ i, (m i).isSome = true ↔ i ∈ keptGEPs pta geps M ∧ endFollows M i = false)
    (hpc : o.usePC = false) :
    pta.unsafeObjects (dgUnsafeGEPs (withMarks M m)) = pta.unsafeObjects (dgUnsafeGEPs M) := by
  ext x
  rw [mem_unsafeObjects, mem_unsafeObjects]
  refine exists_congr fun g => and_congr_left fun _ => ?_
  rw [mem_reportedGEPs hM hm hgeps hsome, reportedGEPs, hpc]
  simp

/-- **Which unsafe GEPs are protected.** -/
theorem protected_iff (hM : M.WF) (hheap : ∀ g ∈ heapUnsafe, g.isGEP = true ∧ g ∈ M.insts)
    (hstack : ∀ g ∈ stackUnsafe, g.isGEP = true ∧ g ∈ M.insts)
    (hg : g ∈ filterOutOfWindow o oowResults heapUnsafe ∨
      g ∈ filterOutOfWindow o oowResults stackUnsafe) :
    Protected pta (unifiedPass o pta oowResults heapUnsafe stackUnsafe M) g ↔
      Bracketed (removeDummies M) g ∨
      ((pta.gepObjects g).Nonempty ∧ ∀ x ∈ pta.gepObjects g,
        ∃ h ∈ reportedGEPs o pta (filterOutOfWindow o oowResults heapUnsafe) M,
          x ∈ pta.gepObjects h) ∨
      (o.usePC = false ∧ endFollows M g = false ∧
        pta.gepObjects g ∩ pta.unsafeObjects (dgUnsafeGEPs M) = ∅) := by
  obtain ⟨hgep, hmem⟩ : g.isGEP = true ∧ g ∈ M.insts := by
    rcases hg with h | h
    · exact hheap g (mem_filterOutOfWindow h)
    · exact hstack g (mem_filterOutOfWindow h)
  have hheapMem : ∀ g ∈ filterOutOfWindow o oowResults heapUnsafe, g ∈ M.insts :=
    fun g h => (hheap g (mem_filterOutOfWindow h)).2
  have hnone : Marks o fun _ => none := fun _ _ _ h => nomatch h
  -- the two analyses
  obtain ⟨m₁, hm₁, heq₁, hsome₁⟩ :=
    valueRangeAnalysisDiff_withMarks pta oowResults hnone hheap
  rw [withMarks_none] at heq₁ hsome₁
  replace hsome₁ : ∀ i, (m₁ i).isSome = true ↔
      i ∈ keptGEPs pta (filterOutOfWindow o oowResults heapUnsafe) M ∧ endFollows M i = false :=
    fun i => (hsome₁ i).trans (by simp)
  obtain ⟨m₂, hm₂, heq₂, hsome₂⟩ :=
    valueRangeAnalysisDiff_withMarks pta oowResults hm₁ hstack
  have hmodule : (unifiedPass o pta oowResults heapUnsafe stackUnsafe M).module =
      removeDummies (withMarks M m₂) := by
    rw [← heq₂, ← heq₁]
    rfl
  have htags : ∀ x, ((unifiedPass o pta oowResults heapUnsafe stackUnsafe M).heapTags.Tagged pta x ∨
      (unifiedPass o pta oowResults heapUnsafe stackUnsafe M).stackTags.Tagged pta x) ↔
        ∃ h ∈ reportedGEPs o pta (filterOutOfWindow o oowResults heapUnsafe) M,
          x ∈ pta.gepObjects h := by
    intro x
    have hheapTags : (unifiedPass o pta oowResults heapUnsafe stackUnsafe M).heapTags.Tagged pta x ↔
        ∃ h ∈ dgUnsafeGEPs M, x ∈ pta.gepObjects h := tagged_iff
    have hstackTags :
        (unifiedPass o pta oowResults heapUnsafe stackUnsafe M).stackTags.Tagged pta x ↔
          ∃ h ∈ dgUnsafeGEPs (withMarks M m₁), x ∈ pta.gepObjects h := by
      rw [← heq₁]
      exact tagged_iff
    rw [hheapTags, hstackTags]
    simp only [mem_reportedGEPs hM hm₁ hheapMem hsome₁]
    refine or_iff_right_of_imp ?_
    rintro ⟨h, hh, hx⟩
    exact ⟨h, List.mem_append_left _ hh, hx⟩
  unfold Protected
  rw [hmodule]
  simp only [htags]
  cases hpc : o.usePC with
  | true =>
      rw [removeDummies_withMarks_usePC hm₂ hpc]
      simp
  | false =>
      rw [removeDummies_withMarks hm₂ hpc,
        bracketed_withMarks hm₂ hpc hgep (mem_insts_removeDummies hgep hmem)]
      have hmarked : (m₂ g).isSome = true ↔ endFollows M g = false ∧
          pta.gepObjects g ∩ pta.unsafeObjects (dgUnsafeGEPs M) = ∅ := by
        rw [hsome₂, hsome₁, keptGEPs, keptGEPs, unsafeObjects_withMarks hM hm₁ hheapMem hsome₁ hpc,
          List.mem_filter, List.mem_filter, decide_eq_true_eq]
        tauto
      rw [hmarked]
      tauto

/-! ## A GEP that may access two objects -/

/-- The first GEP is reported by the `NORMAL` markers around it. -/
def reportedGEP : Inst := ⟨1, .ptr (.int 32), .gep (.int 32) (.global 0) [.constInt (.ofNat 64 5)]⟩

/-- A second GEP, over another pointer. -/
def secondGEP (base : GlobalId) : Inst :=
  ⟨3, .ptr (.int 32), .gep (.int 32) (.global base) [.constInt (.ofNat 64 7)]⟩

def twoGEPsModule (base : GlobalId) : Module where
  structs := fun _ => []
  globals := [(0, .ptr (.int 32)), (1, .ptr (.int 32)), (2, .ptr (.int 32))]
  funcs := [⟨0, "main", [], [⟨0, [asmCall 0 NORMAL_MAGIC_ASM_BEGIN, reportedGEP,
    asmCall 2 NORMAL_MAGIC_ASM_END, secondGEP base, ⟨4, .void, .ret none⟩]⟩]⟩]

/-- The three pointers point to the first object, to both, and to the second. -/
def twoObjectsPTA : PTAWrapper where
  getExpandedFIPts v := if v = .global 0 then {1} else if v = .global 1 then {1, 2} else {2}
  getBaseObj x := x
  isStackObject _ := false
  isHeapObject _ := true
  isGlobalObject _ := false
  getAlloca _ := none
  getMalloc _ := none
  getGlobal _ := none

theorem twoGEPsModule_wf (base : GlobalId) : (twoGEPsModule base).WF where
  funcs_nodup := by simp [twoGEPsModule]
  blocks_nodup := by simp [twoGEPsModule, Module.blocks]
  insts_nodup := by
    simp [twoGEPsModule, Module.insts, Function.insts, asmCall, reportedGEP, secondGEP]
  terminated := Module.terminated_of_last <| by
    simp [twoGEPsModule, Module.blocks, asmCall, reportedGEP, secondGEP, InstKind.isTerminator]
  targets := by
    simp [twoGEPsModule, Block.successors, Block.terminator, InstKind.successors]
  operands := Module.operands_of_isStore_eq_false <| by
    simp [twoGEPsModule, Module.insts, Function.insts, asmCall, reportedGEP, secondGEP,
      InstKind.isStore]

/-- A GEP over the second object only gets markers. -/
theorem protected_second_object :
    Protected twoObjectsPTA
      (unifiedPass ⟨false, false⟩ twoObjectsPTA [] [secondGEP 2] [] (twoGEPsModule 2))
      (secondGEP 2) :=
  (protected_iff (twoGEPsModule_wf 2) (by decide) (by decide) (Or.inl (by decide))).mpr
    (Or.inr (Or.inr ⟨rfl, by decide, by decide⟩))

/-- One that may access both is dropped although the second object is not tagged; and with `UsePC`
the markers of a stack pointer are deleted. -/
theorem unprotected_mixed_objects :
    (twoGEPsModule 1).WF ∧ secondGEP 1 ∈ (twoGEPsModule 1).insts ∧ (secondGEP 1).isGEP = true ∧
      ¬ Protected twoObjectsPTA
        (unifiedPass ⟨false, false⟩ twoObjectsPTA [] [secondGEP 1] [] (twoGEPsModule 1))
        (secondGEP 1) ∧
      ¬ Protected twoObjectsPTA
        (unifiedPass ⟨true, false⟩ twoObjectsPTA [] [] [secondGEP 2] (twoGEPsModule 2))
        (secondGEP 2) := by
  refine ⟨twoGEPsModule_wf 1, by decide, rfl, ?_, ?_⟩
  · rintro (h | ⟨-, h⟩)
    · exact absurd h (by decide)
    · rcases h 2 (by decide) with h | h
      · exact absurd h.1 (by decide)
      · exact absurd h.1 (by decide)
  · rintro (h | ⟨-, h⟩)
    · exact absurd h (by decide)
    · rcases h 2 (by decide) with h | h
      · exact absurd h.1 (by decide)
      · exact absurd h.1 (by decide)

end MSV
