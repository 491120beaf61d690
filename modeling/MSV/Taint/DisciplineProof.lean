import MSV.Range.MarkersProof
import MSV.Taint.Taint

/-!
# The markers stand in pairs

Every run of the value-range analysis puts markers around the unsafe GEPs it ends with, `NORMAL`
ones with `UsePC` and `MAGIC` ones without. Whatever the runs were, the module is the original one
with pairs around some of its GEPs (`insertMarkers_withPairs`): a GEP gets a pair if it has none,
and a pair stays as it is.

**Theorem (`marker_discipline`).** After any sequence of runs on a module without markers, one more
run leaves every GEP of its final set between exactly one begin and one end marker of the same
family, keeps the pairs that are there, and changes nothing else; and what the taint pass erases are
markers.
-/

namespace MSV

variable {o : MarkerOptions} {M M₀ : Module} {g : Inst} {m : Inst → Option (Inst × Inst)}

/-! ## Definitions -/

def isBeginMarker (i : Inst) : Bool :=
  i.isAsmCall MAGIC_ASM_BEGIN || i.isAsmCall NORMAL_MAGIC_ASM_BEGIN

def isEndMarker (i : Inst) : Bool :=
  i.isAsmCall MAGIC_ASM_END || i.isAsmCall NORMAL_MAGIC_ASM_END

def isMarker (i : Inst) : Bool := isBeginMarker i || isEndMarker i

def deleteMarkers (M : Module) : Module := M.mapBlocks (List.filter fun i => !isMarker i)

/-- No marker, and no asm that would be taken for an end marker. -/
def Unmarked (M : Module) : Prop := ∀ i ∈ M.insts, isMarker i = false ∧ isEndAsm i = false

/-- The loop at the end of `valueRangeAnalysis`, over its final set. -/
def insertMarkers (o : MarkerOptions) (heapUnsafeSeqPointerSet : List Inst) (M : Module) : Module :=
  heapUnsafeSeqPointerSet.foldl (markUnsafe o) M

/-- A sequence of runs, each with its options and its final set. -/
def runMarkers (runs : List (MarkerOptions × List Inst)) (M : Module) : Module :=
  runs.foldl (fun M r => insertMarkers r.1 r.2 M) M

/-- In `DiffOnly` mode the final set is what `valueRangeAnalysisDiff` keeps. -/
theorem valueRangeAnalysisDiff_eq (pta : PTAWrapper) (oowResults : List InstId)
    (geps : List Inst) : (valueRangeAnalysisDiff o pta oowResults geps M).1 =
      insertMarkers o (keptGEPs pta (filterOutOfWindow o oowResults geps) M) M := rfl

/-- Markers of one family. -/
def IsPair (b e : Inst) : Prop :=
  b.isAsmCall MAGIC_ASM_BEGIN = true ∧ e.isAsmCall MAGIC_ASM_END = true ∨
    b.isAsmCall NORMAL_MAGIC_ASM_BEGIN = true ∧ e.isAsmCall NORMAL_MAGIC_ASM_END = true

/-- The GEP stands right between `b` and `e`, and there is no second marker of these kinds. -/
structure BetweenMarkers (M : Module) (g b e : Inst) : Prop where
  pair : IsPair b e
  exactlyOne : ∃ pre post, M.parentInsts g = pre ++ b :: g :: e :: post ∧
    pre.getLast?.any isBeginMarker = false ∧ post.head?.any isEndMarker = false

/-! ## The marked module -/

theorem isPair_markers {id : InstId} {b e : Inst} (h : (b, e) = markers o id) : IsPair b e := by
  unfold IsPair
  rw [(begin_marker h _).2.2, (begin_marker h _).2.2, (end_marker h _).2.2, (end_marker h _).2.2]
  cases o.usePC <;> decide

theorem begin_not_end {id : InstId} {b e : Inst} (h : (b, e) = markers o id) :
    isBeginMarker b = true ∧ isEndMarker b = false := by
  unfold isBeginMarker isEndMarker
  simp only [(begin_marker h _).2.2]
  cases o.usePC <;> decide

theorem end_not_begin {id : InstId} {b e : Inst} (h : (b, e) = markers o id) :
    isEndMarker e = true ∧ isBeginMarker e = false := by
  unfold isBeginMarker isEndMarker
  simp only [(end_marker h _).2.2]
  cases o.usePC <;> decide

theorem isMarker_of_isGEP (h : g.isGEP = true) : isMarker g = false := by
  unfold isMarker isBeginMarker isEndMarker
  simp only [isAsmCall_of_isGEP h, Bool.or_false]

theorem mem_insts_of_parentInsts {i : Inst} (h : i ∈ M.parentInsts g) : i ∈ M.insts := by
  unfold Module.parentInsts at h
  cases hfind : M.blocks.find? fun b => decide (g ∈ b.insts) with
  | none => rw [hfind] at h; cases h
  | some b =>
      rw [hfind] at h
      rw [Module.insts_eq_flatMap]
      exact List.mem_flatMap.mpr ⟨b, List.mem_of_find?_eq_some hfind, h⟩

/-- One run of the analysis on a marked module. -/
theorem insertMarkers_withPairs (hm : Pairs m) {geps : List Inst}
    (hgeps : ∀ g ∈ geps, g.isGEP = true ∧ g ∈ M₀.insts) :
    ∃ m', Pairs m' ∧ insertMarkers o geps (withMarks M₀ m) = withMarks M₀ m' ∧
      (∀ i p, m i = some p → m' i = some p) ∧
      ∀ g ∈ geps, endFollows M₀ g = false → (m' g).isSome = true := by
  induction geps generalizing m with
  | nil => exact ⟨m, hm, rfl, fun _ _ h => h, fun _ h => nomatch h⟩
  | cons g geps ih =>
      obtain ⟨hg, hmem⟩ := hgeps g List.mem_cons_self
      obtain ⟨m₁, heq₁, hpairs₁, hsome₁⟩ := markUnsafe_withPairs (o := o) hm hg hmem
      have hm₁ : Pairs m₁ := by
        intro i b e h
        obtain hi | ⟨-, rfl, id, hid⟩ := hpairs₁ i
        · exact hm i b e (hi ▸ h)
        · exact ⟨hg, o, id, Option.some.inj (h.symm.trans hid)⟩
      obtain ⟨m₂, hm₂, heq₂, hkeep₂, hsome₂⟩ :=
        ih hm₁ fun x hx => hgeps x (List.mem_cons_of_mem _ hx)
      refine ⟨m₂, hm₂, ?_, fun i p h => hkeep₂ i p ?_, fun x hx hend => ?_⟩
      · rw [insertMarkers, List.foldl_cons, heq₁]
        exact heq₂
      · obtain hi | ⟨hnone, -⟩ := hpairs₁ i
        · rw [hi, h]
        · rw [hnone] at h
          cases h
      · rcases List.mem_cons.mp hx with rfl | hx
        · have := (hsome₁ x).mpr (Or.inr ⟨rfl, hend⟩)
          obtain ⟨p, hp⟩ := Option.isSome_iff_exists.mp this
          rw [hkeep₂ x p hp]
          rfl
        · exact hsome₂ x hx hend

theorem runMarkers_withPairs {runs : List (MarkerOptions × List Inst)} (hm : Pairs m)
    (hruns : ∀ r ∈ runs, ∀ g ∈ r.2, g.isGEP = true ∧ g ∈ M₀.insts) :
    ∃ m', Pairs m' ∧ runMarkers runs (withMarks M₀ m) = withMarks M₀ m' := by
  induction runs generalizing m with
  | nil => exact ⟨m, hm, rfl⟩
  | cons r runs ih =>
      obtain ⟨m₁, hm₁, heq₁, -⟩ :=
        insertMarkers_withPairs (o := r.1) hm (hruns r List.mem_cons_self)
      obtain ⟨m₂, hm₂, heq₂⟩ := ih hm₁ fun r' hr' => hruns r' (List.mem_cons_of_mem _ hr')
      refine ⟨m₂, hm₂, ?_⟩
      rw [runMarkers, List.foldl_cons, heq₁]
      exact heq₂

/-! ## A pair is there once -/

/-- What comes first in a marked list is no end marker. -/
theorem head_withPairs (hm : Pairs m) {l : List Inst}
    (hl : ∀ i ∈ l, isMarker i = false) : (l.flatMap (wrap m)).head?.any isEndMarker = false := by
  rw [head?_wrap, Option.any_map]
  cases l with
  | nil => rfl
  | cons x l =>
      show isEndMarker (wrapHead m x) = false
      unfold wrapHead
      cases hx : m x with
      | none =>
          have := hl x List.mem_cons_self
          rw [isMarker, Bool.or_eq_false_iff] at this
          exact this.2
      | some p =>
          obtain ⟨-, _, id, hid⟩ := hm x p.1 p.2 hx
          exact (begin_not_end hid).2

/-- What comes last is no begin marker. -/
theorem getLast_withPairs (hm : Pairs m) {l : List Inst}
    (hl : ∀ i ∈ l, isMarker i = false) :
    (l.flatMap (wrap m)).getLast?.any isBeginMarker = false := by
  rw [← List.head?_reverse, reverse_wrap, head?_wrap, Option.any_map, List.head?_reverse]
  cases hlast : l.getLast? with
  | none => rfl
  | some x =>
      show isBeginMarker (wrapHead _ x) = false
      cases hx : m x with
      | none =>
          have := hl x (List.mem_of_getLast? hlast)
          rw [isMarker, Bool.or_eq_false_iff] at this
          simpa [wrapHead, hx] using this.1
      | some p =>
          obtain ⟨-, _, id, hid⟩ := hm x p.1 p.2 hx
          simpa [wrapHead, hx] using (end_not_begin hid).2

/-- A GEP that has a pair stands between its markers. -/
theorem betweenMarkers_of_some (hM : Unmarked M₀) (hm : Pairs m) (hmem : g ∈ M₀.insts)
    {b e : Inst} (h : m g = some (b, e)) : BetweenMarkers (withMarks M₀ m) g b e := by
  obtain ⟨hgep, o, id, hid⟩ := hm g b e h
  refine ⟨isPair_markers hid, ?_⟩
  have hclean : ∀ i ∈ M₀.parentInsts g, isMarker i = false :=
    fun i hi => (hM i (mem_insts_of_parentInsts hi)).1
  obtain ⟨l₁, l₂, hl⟩ := List.append_of_mem (Module.mem_parentInsts hmem)
  rw [hl] at hclean
  refine ⟨l₁.flatMap (wrap m), l₂.flatMap (wrap m), ?_, getLast_withPairs hm fun i hi => ?_,
    head_withPairs hm fun i hi => ?_⟩
  · rw [parentInsts_withMarks hm hgep, hl, List.flatMap_append, List.flatMap_cons, wrap_some h]
    rfl
  · exact hclean i (List.mem_append_left _ hi)
  · exact hclean i (List.mem_append_right _ (List.mem_cons_of_mem _ hi))

theorem isEndMarker_of_isPair {b e : Inst} (h : IsPair b e) : isEndMarker e = true := by
  unfold isEndMarker
  obtain ⟨-, h⟩ | ⟨-, h⟩ := h
  · rw [h]; rfl
  · rw [h, Bool.or_true]

theorem parentInsts_nodup (hwf : M.WF) (hmem : g ∈ M.insts) : (M.parentInsts g).Nodup := by
  have hnodup := hwf.insts_nodup.of_map
  rw [Module.insts_eq_flatMap] at hnodup hmem
  obtain ⟨blk, hblk, hgb⟩ := List.mem_flatMap.mp hmem
  rw [Module.parentInsts_eq hwf hblk hgb]
  exact (List.nodup_flatMap.mp hnodup).1 blk hblk

theorem mem_of_next {l : List Inst} {y : Inst} (h : next g l = some y) : y ∈ l := by
  induction l with
  | nil => cases h
  | cons x l ih =>
      rw [next] at h
      split at h
      · exact List.mem_cons_of_mem _ (List.mem_of_head? h)
      · exact List.mem_cons_of_mem _ (ih h)

/-- In a marked module, only what has a pair stands between markers. -/
theorem some_of_betweenMarkers (hwf : M₀.WF) (hM : Unmarked M₀) (hm : Pairs m)
    (hg : g.isGEP = true) (hmem : g ∈ M₀.insts) {b e : Inst}
    (h : BetweenMarkers (withMarks M₀ m) g b e) : m g = some (b, e) := by
  obtain ⟨hpair, pre, post, hl, -, -⟩ := h
  have hav := hm.avoids hg
  rw [parentInsts_withMarks hm hg] at hl
  have hgmem : g ∈ M₀.parentInsts g := Module.mem_parentInsts hmem
  -- the GEP occurs once, so its neighbours are `b` and `e`
  have hcount : ((M₀.parentInsts g).flatMap (wrap m)).count g = 1 := by
    rw [count_wrap hav]
    exact List.count_eq_one_of_mem (parentInsts_nodup hwf hmem) hgmem
  have hpre : g ∉ pre ++ [b] ∧ g ∉ e :: post := by
    rw [hl, List.count_append, List.count_cons, List.count_cons] at hcount
    simp only [beq_self_eq_true, if_true] at hcount
    rw [← List.count_eq_zero, ← List.count_eq_zero, List.count_append, List.count_singleton]
    omega
  have hl' : (M₀.parentInsts g).flatMap (wrap m) = (pre ++ [b]) ++ g :: (e :: post) := by
    rw [hl, List.append_assoc]
    rfl
  have hnext : next g ((M₀.parentInsts g).flatMap (wrap m)) = some e := by
    rw [hl', next_of_append hpre.1]
    rfl
  have hprev : prev g ((M₀.parentInsts g).flatMap (wrap m)) = some b := by
    rw [hl', prev_of_append hpre.2]
    simp
  cases hmg : m g with
  | none =>
      rw [next_wrap_none hav hmg] at hnext
      obtain ⟨y, hy, hye⟩ := Option.map_eq_some_iff.mp hnext
      have hend := isEndMarker_of_isPair hpair
      rw [← hye, wrapHead] at hend
      cases hmy : m y with
      | none =>
          rw [hmy] at hend
          have := (hM y (mem_insts_of_parentInsts (mem_of_next hy))).1
          rw [isMarker, Bool.or_eq_false_iff] at this
          exact absurd (this.2.symm.trans hend) Bool.false_ne_true
      | some p =>
          rw [hmy] at hend
          obtain ⟨-, _, id, hid⟩ := hm y p.1 p.2 hmy
          exact absurd ((begin_not_end hid).2.symm.trans hend) Bool.false_ne_true
  | some p =>
      rw [next_wrap_some hav (b := p.1) (e := p.2) hmg hgmem] at hnext
      rw [prev_wrap_some hav (b := p.1) (e := p.2) hmg hgmem] at hprev
      rw [← Option.some.inj hnext, ← Option.some.inj hprev]

/-! ## Nothing else changes -/

theorem mapBlocks_filter_self {p : Inst → Bool} (h : ∀ i ∈ M.insts, p i = true) :
    M.mapBlocks (List.filter p) = M := by
  have hfuncs : (M.funcs.map fun F => { F with blocks := F.blocks.map fun b =>
      { b with insts := b.insts.filter p } }) = M.funcs := by
    refine (List.map_congr_left fun F hF => ?_).trans (List.map_id _)
    have hblocks : (F.blocks.map fun b => { b with insts := b.insts.filter p }) = F.blocks := by
      refine (List.map_congr_left fun b hb => ?_).trans (List.map_id _)
      have : b.insts.filter p = b.insts := by
        refine List.filter_eq_self.mpr fun i hi => h i ?_
        exact List.mem_flatMap.mpr ⟨F, hF, List.mem_flatMap.mpr ⟨b, hb, hi⟩⟩
      rw [this]
      rfl
    rw [hblocks]
    rfl
  rw [Module.mapBlocks, hfuncs]

theorem deleteMarkers_withMarks (hM : Unmarked M₀) (hm : Pairs m) :
    deleteMarkers (withMarks M₀ m) = M₀ := by
  have hfilter : deleteMarkers (withMarks M₀ m) = deleteMarkers M₀ := by
    rw [deleteMarkers, withMarks, Module.mapBlocks_mapBlocks, deleteMarkers]
    congr 1
    funext l
    refine filter_wrap_new (fun i b e h => ?_) l
    obtain ⟨hgep, _, id, hid⟩ := hm i b e h
    rw [isMarker_of_isGEP hgep, isMarker, isMarker, (begin_not_end hid).1, (end_not_begin hid).1]
    simp
  rw [hfilter]
  exact mapBlocks_filter_self fun i hi => by rw [(hM i hi).1]; rfl

/-! ## What the taint pass erases -/

theorem mem_annotatedGEPs_cons {p : Inst} {l : List Inst} : g ∈ annotatedGEPs (p :: l) ↔
    g = p ∧ p.isGEP = true ∧ l.head?.any (Inst.isAsmCall MAGIC_ASM_END) = true ∨
      g ∈ annotatedGEPs l := by
  rw [annotatedGEPs]
  split
  · rename_i h
    rw [Bool.and_eq_true] at h
    simp [h]
  · rename_i h
    rw [Bool.and_eq_true] at h
    constructor
    · exact Or.inr
    · intro h'
      obtain ⟨-, h'⟩ | h' := h'
      · exact absurd h' h
      · exact h'

/-- An annotated GEP of a marked block has a pair. -/
theorem mem_annotatedGEPs_wrap (hm : Pairs m) {l : List Inst} (hl : ∀ i ∈ l, isMarker i = false)
    (h : g ∈ annotatedGEPs (l.flatMap (wrap m))) :
    g ∈ l ∧ g.isGEP = true ∧ (m g).isSome = true := by
  induction l with
  | nil => cases h
  | cons x l ih =>
      have hl' : ∀ i ∈ l, isMarker i = false := fun i hi => hl i (List.mem_cons_of_mem _ hi)
      have hrest : g ∈ annotatedGEPs (l.flatMap (wrap m)) →
          g ∈ x :: l ∧ g.isGEP = true ∧ (m g).isSome = true := by
        intro hg
        obtain ⟨hmem, h⟩ := ih hl' hg
        exact ⟨List.mem_cons_of_mem _ hmem, h⟩
      rw [List.flatMap_cons] at h
      cases hx : m x with
      | none =>
          rw [wrap_none hx, List.singleton_append, mem_annotatedGEPs_cons] at h
          obtain ⟨-, -, hend⟩ | h := h
          · -- nothing without a pair is followed by an end marker
            have hno := head_withPairs hm hl'
            obtain ⟨y, hy, hye⟩ := (Option.any_eq_true _ _).mp hend
            rw [Option.mem_def.mp hy, Option.any_some, isEndMarker, hye] at hno
            cases hno
          · exact hrest h
      | some p =>
          obtain ⟨hgep, _, id, hid⟩ := hm x p.1 p.2 hx
          rw [wrap_some (b := p.1) (e := p.2) hx, List.cons_append, List.cons_append,
            List.cons_append, List.nil_append, mem_annotatedGEPs_cons, mem_annotatedGEPs_cons,
            mem_annotatedGEPs_cons] at h
          obtain ⟨-, hb, -⟩ | ⟨rfl, -⟩ | ⟨-, he, -⟩ | h := h
          · exact absurd ((begin_marker hid "").1.symm.trans hb) Bool.false_ne_true
          · exact ⟨List.mem_cons_self, hgep, by rw [hx]; rfl⟩
          · exact absurd ((end_marker hid "").1.symm.trans he) Bool.false_ne_true
          · exact hrest h

theorem taintGEPs_withMarks (hM : Unmarked M₀) (hm : Pairs m)
    (h : g ∈ taintGEPs (withMarks M₀ m)) :
    g ∈ M₀.insts ∧ g.isGEP = true ∧ (m g).isSome = true := by
  rw [taintGEPs, withMarks, Module.blocks_mapBlocks, List.flatMap_map, List.mem_flatMap] at h
  obtain ⟨b, hb, hg⟩ := h
  have hmem : ∀ i ∈ b.insts, i ∈ M₀.insts := by
    intro i hi
    rw [Module.insts_eq_flatMap]
    exact List.mem_flatMap.mpr ⟨b, hb, hi⟩
  obtain ⟨hgb, hgep, hsome⟩ := mem_annotatedGEPs_wrap hm (fun i hi => (hM i (hmem i hi)).1) hg
  exact ⟨hmem g hgb, hgep, hsome⟩

theorem isMarker_of_mem_toBeRemoved (hM : Unmarked M₀) (hm : Pairs m)
    {firstStageGEPs : List Inst} (hfirst : ∀ g ∈ firstStageGEPs, g ∈ taintGEPs (withMarks M₀ m))
    {i : Inst} (h : i ∈ toBeRemoved (withMarks M₀ m) firstStageGEPs) : isMarker i = true := by
  obtain ⟨g, hg, hi⟩ := List.mem_flatMap.mp h
  obtain ⟨hmem, hgep, hsome⟩ := taintGEPs_withMarks hM hm (hfirst g hg)
  obtain ⟨p, hp⟩ := Option.isSome_iff_exists.mp hsome
  obtain ⟨-, _, id, hid⟩ := hm g p.1 p.2 hp
  have hav := hm.avoids hgep
  rw [Module.getPrevNode, Module.getNextNode, parentInsts_withMarks hm hgep,
    prev_wrap_some hav (b := p.1) (e := p.2) hp (Module.mem_parentInsts hmem),
    next_wrap_some hav (b := p.1) (e := p.2) hp (Module.mem_parentInsts hmem)] at hi
  simp only [Option.toList_some, List.mem_append, List.mem_singleton] at hi
  obtain rfl | rfl := hi
  · rw [isMarker, (begin_not_end hid).1, Bool.true_or]
  · rw [isMarker, (end_not_begin hid).1, Bool.or_true]

/-- **Marker discipline**, for one more run after any sequence of runs. -/
theorem marker_discipline (hwf : M₀.WF) (hM : Unmarked M₀)
    {runs : List (MarkerOptions × List Inst)} {geps : List Inst}
    (hruns : ∀ r ∈ runs, ∀ g ∈ r.2, g.isGEP = true ∧ g ∈ M₀.insts)
    (hgeps : ∀ g ∈ geps, g.isGEP = true ∧ g ∈ M₀.insts) (o : MarkerOptions) :
    let before := runMarkers runs M₀
    let after := insertMarkers o geps before
    (∀ g ∈ geps, ∃ b e, BetweenMarkers after g b e) ∧
      (∀ g ∈ M₀.insts, g.isGEP = true → ∀ b e, BetweenMarkers before g b e →
        BetweenMarkers after g b e ∧ ∀ b' e', BetweenMarkers after g b' e' → b' = b ∧ e' = e) ∧
      deleteMarkers after = M₀ ∧
      ∀ (env : TaintEnv) (order : List Inst), order.Perm (taintGEPs after) →
        ∀ i ∈ toBeRemoved after (taintAnalysis env after order).firstStageGEPs,
          isMarker i = true := by
  have hnone : Pairs fun _ => none := fun _ _ _ h => nomatch h
  obtain ⟨m, hm, heq⟩ := runMarkers_withPairs hnone hruns
  rw [withMarks_none] at heq
  obtain ⟨m', hm', heq', hkeep, hsome⟩ := insertMarkers_withPairs (o := o) hm hgeps
  simp only [heq, heq']
  refine ⟨fun g hg => ?_, fun g hg hgep b e hbe => ?_, deleteMarkers_withMarks hM hm',
    fun env order horder i hi => ?_⟩
  · obtain ⟨-, hmem⟩ := hgeps g hg
    have hend : endFollows M₀ g = false := by
      rw [endFollows_eq]
      cases hnext : M₀.getNextNode g with
      | none => rfl
      | some y => exact (hM y (mem_insts_of_parentInsts (mem_of_next hnext))).2
    obtain ⟨p, hp⟩ := Option.isSome_iff_exists.mp (hsome g hg hend)
    exact ⟨p.1, p.2, betweenMarkers_of_some hM hm' hmem hp⟩
  · have hpair := hkeep g (b, e) (some_of_betweenMarkers hwf hM hm hgep hg hbe)
    refine ⟨betweenMarkers_of_some hM hm' hg hpair, fun b' e' h' => ?_⟩
    have := (some_of_betweenMarkers hwf hM hm' hgep hg h').symm.trans hpair
    exact Prod.mk.inj (Option.some.inj this)
  · refine isMarker_of_mem_toBeRemoved hM hm' (fun g hg => horder.subset ?_) hi
    exact (List.mem_filter.mp hg).1

/-! ## Two adjacent GEPs -/

/-- `p + 1` and `q + 2`, one after the other. -/
def adjacentGEPs : Module where
  structs := fun _ => []
  globals := []
  funcs := [⟨0, "main", [.ptr (.int 8), .ptr (.int 8)], [⟨0, [
    ⟨0, .ptr (.int 8), .gep (.int 8) (.arg 0 0) [.constInt (.ofNat 64 1)]⟩,
    ⟨1, .ptr (.int 8), .gep (.int 8) (.arg 0 1) [.constInt (.ofNat 64 2)]⟩,
    ⟨2, .void, .ret none⟩]⟩]⟩]

def adjacentGEP (n : Nat) : Inst :=
  ⟨n, .ptr (.int 8), .gep (.int 8) (.arg 0 n) [.constInt (.ofNat 64 (n + 1))]⟩

theorem adjacentGEPs_wf : adjacentGEPs.WF where
  funcs_nodup := by decide
  blocks_nodup := by decide
  insts_nodup := by decide
  terminated := Module.terminated_of_last (by decide)
  targets := by decide
  operands := Module.operands_of_isStore_eq_false (by decide)

/-- A run with `UsePC` for the second GEP, then one without for both. -/
theorem adjacent_discipline :
    (∀ g ∈ [adjacentGEP 0, adjacentGEP 1], ∃ b e, BetweenMarkers
      (insertMarkers ⟨false, false⟩ [adjacentGEP 0, adjacentGEP 1]
        (runMarkers [(⟨true, false⟩, [adjacentGEP 1])] adjacentGEPs)) g b e) ∧
    deleteMarkers (insertMarkers ⟨false, false⟩ [adjacentGEP 0, adjacentGEP 1]
      (runMarkers [(⟨true, false⟩, [adjacentGEP 1])] adjacentGEPs)) = adjacentGEPs := by
  have hclean : Unmarked adjacentGEPs := by
    unfold Unmarked
    decide
  have hruns : ∀ r ∈ [(MarkerOptions.mk true false, [adjacentGEP 1])], ∀ g ∈ r.2,
      g.isGEP = true ∧ g ∈ adjacentGEPs.insts := by decide
  have hgeps : ∀ g ∈ [adjacentGEP 0, adjacentGEP 1],
      g.isGEP = true ∧ g ∈ adjacentGEPs.insts := by decide
  have h := marker_discipline adjacentGEPs_wf hclean hruns hgeps ⟨false, false⟩
  exact ⟨h.1, h.2.2.1⟩

end MSV
