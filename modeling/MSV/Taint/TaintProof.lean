import MSV.Taint.Taint

/-!
# What the taint pass taints

The searches of the first phase share one visited set, which is closed when a search ends, so a
search sees exactly what no earlier GEP reaches. The second phase takes the GEPs marked in the first
one for visited and does not go on from them.

**Theorem (`stage_independent`).** If every annotated GEP that is used as a store address has such
an address that no other annotated GEP reaches, the stage of a GEP depends neither on the order of
the annotated GEPs nor, for a GEP used as an address, on the other annotations. The set of the first
phase is independent of both exactly then.

**Theorem (`taint_closed`).** The tainted values are closed under taint steps if and only if
everything one step after a marked and tainted GEP is marked itself or tainted around the marked
GEPs.
-/

namespace MSV

variable {env : TaintEnv} {M : Module} {order : List Inst} {g i : Inst} {a c v w : Value}

/-! ## The nodes -/

theorem mem_users : i ∈ users M v ↔ i ∈ M.insts ∧ v ∈ i.kind.operands := by
  rw [users, List.mem_filter, decide_eq_true_iff]

theorem mem_taintNodes_inst (hi : i ∈ M.insts) : .inst i.id ∈ taintNodes env M := by
  unfold taintNodes
  simp only [List.mem_append, List.mem_map]
  exact Or.inl (Or.inl ⟨i, hi, rfl⟩)

theorem mem_receivingFormals {callee : Callee} {args : List Value} :
    w ∈ receivingFormals M callee args v ↔ ∃ f k, callee.getCalledFunction.bind M.func? = some f ∧
      f.isDeclaration = false ∧ args[k]? = some v ∧ k < f.params.length ∧ w = .arg f.id k := by
  unfold receivingFormals
  cases callee.getCalledFunction.bind M.func? with
  | none => simp
  | some f =>
      cases hd : f.isDeclaration with
      | true => simp [hd]
      | false =>
          simp only [hd, Bool.false_eq_true, if_false, List.mem_filterMap, List.mem_range,
            Option.ite_none_right_eq_some, Option.some.injEq]
          constructor
          · intro h
            obtain ⟨k, -, ⟨harg, hk⟩, rfl⟩ := h
            exact ⟨f, k, rfl, hd, harg, hk, rfl⟩
          · intro h
            obtain ⟨f', k, rfl, -, harg, hk, rfl⟩ := h
            refine ⟨k, ?_, ⟨harg, hk⟩, rfl⟩
            exact (List.getElem?_eq_some_iff.mp harg).1

theorem receivingFormals_nodes {callee : Callee} {args : List Value}
    (h : w ∈ receivingFormals M callee args v) : w ∈ taintNodes env M := by
  obtain ⟨f, k, hf, -, -, hk, rfl⟩ := mem_receivingFormals.mp h
  obtain ⟨fid, -, hf⟩ := Option.bind_eq_some_iff.mp hf
  unfold taintNodes
  simp only [List.mem_append, List.mem_flatMap, List.mem_map, List.mem_range]
  exact Or.inl (Or.inr ⟨f, List.mem_of_find?_eq_some hf, k, hk, rfl⟩)

theorem returnTargets_nodes (h : w ∈ returnTargets M i) : w ∈ taintNodes env M := by
  unfold returnTargets at h
  split at h
  · cases h
  · obtain ⟨call, hcall, rfl⟩ := List.mem_map.mp h
    exact mem_taintNodes_inst (mem_users.mp (List.mem_filter.mp hcall).1).1

/-- A node among nodes that are propagated to. -/
theorem mem_of_inl_mem {E : Type*} {l : List Value} (h : (Sum.inl w : Value ⊕ E) ∈ l.map Sum.inl) :
    w ∈ l :=
  (List.mem_map_of_injective Sum.inl_injective).mp h

theorem firstEffects_nodes (h : Sum.inl w ∈ firstEffects M c) : w ∈ taintNodes env M := by
  obtain ⟨user, huser, hw⟩ := List.mem_flatMap.mp h
  have hi : user ∈ M.insts := (mem_users.mp huser).1
  unfold firstUser at hw
  split at hw
  · simp at hw
  · split at hw <;> simp at hw
  · exact receivingFormals_nodes (mem_of_inl_mem hw)
  · exact receivingFormals_nodes (mem_of_inl_mem hw)
  · cases hw
  · exact returnTargets_nodes (mem_of_inl_mem hw)
  · obtain rfl : w = .inst user.id := by simpa using hw
    exact mem_taintNodes_inst hi

theorem secondEffects_nodes (h : Sum.inl w ∈ secondEffects env M c) : w ∈ taintNodes env M := by
  obtain ⟨user, huser, hw⟩ := List.mem_flatMap.mp h
  have hi : user ∈ M.insts := (mem_users.mp huser).1
  unfold secondUser at hw
  split at hw
  · exact receivingFormals_nodes (mem_of_inl_mem hw)
  · exact receivingFormals_nodes (mem_of_inl_mem hw)
  · rename_i hk
    split at hw
    · unfold taintNodes
      simp only [List.mem_append, List.mem_flatMap]
      refine Or.inr ⟨user, hi, ?_⟩
      rw [hk]
      exact mem_of_inl_mem hw
    · cases hw
  · cases hw
  · exact returnTargets_nodes (mem_of_inl_mem hw)
  · obtain rfl : w = .inst user.id := by simpa using hw
    exact mem_taintNodes_inst hi

/-! ## The first phase -/

/-- Reached from an annotated GEP in the first phase. -/
def Derived (M : Module) (g : Inst) (v : Value) : Prop :=
  Relation.ReflTransGen (Search.Edge (firstEffects M)) (.inst g.id) v

/-- The value is the address of a store. -/
def StoreAddress (M : Module) (v : Value) : Prop := Sum.inr .stored ∈ firstEffects M v

/-- A first memory operation of the GEP. -/
def FirstMemOp (M : Module) (g i : Inst) : Prop :=
  ∃ a, Derived M g a ∧ Sum.inr (.memOp i) ∈ firstEffects M a

/-- The GEP goes into `ReachableGEPs` in the first phase: it is derived to a store address that no
GEP before it is derived to. -/
def Marked (M : Module) (order : List Inst) (v : Value) : Prop :=
  ∃ l₁ g l₂, order = l₁ ++ g :: l₂ ∧ v = .inst g.id ∧
    ∃ a, Derived M g a ∧ StoreAddress M a ∧ ∀ g' ∈ l₁, ¬ Derived M g' a

/-- The state after the GEPs of a list. -/
structure FirstPhaseSpec (M : Module) (l : List Inst) (s : FirstPhase) : Prop where
  visited : ∀ v, v ∈ s.visited ↔ ∃ g ∈ l, Derived M g v
  memOps : ∀ i, (∃ e ∈ s.firstMemOpMap, i ∈ e.2) ↔ ∃ g ∈ l, FirstMemOp M g i
  marked : ∀ v, v ∈ s.ReachableGEPs ↔ Marked M l v

theorem FirstPhaseSpec.closed {l : List Inst} {s : FirstPhase} (h : FirstPhaseSpec M l s) :
    ∀ c ∈ s.visited, ∀ v, Search.Edge (firstEffects M) c v → v ∈ s.visited := by
  intro c hc v hv
  obtain ⟨g, hg, hgc⟩ := (h.visited c).mp hc
  exact (h.visited v).mpr ⟨g, hg, hgc.tail hv⟩

/-- What one search of the first phase records. -/
theorem mem_out_firstSearch {l : List Inst} {s : FirstPhase} (h : FirstPhaseSpec M l s)
    {r : FirstResult} : r ∈ (firstSearch env M s.visited g).out ↔
      ∃ a, Derived M g a ∧ a ∉ s.visited ∧ Sum.inr r ∈ firstEffects M a := by
  rw [firstSearch, Search.mem_out_run fun _ _ => firstEffects_nodes]
  constructor
  · intro hr
    obtain hr | ⟨a, ha, hr⟩ := hr
    · unfold Search.propagate at hr
      split at hr <;> cases hr
    · obtain ⟨hga, hnot⟩ := (Search.taken_propagate h.closed).mp ha
      exact ⟨a, hga, hnot, hr⟩
  · intro hr
    obtain ⟨a, hga, hnot, hr⟩ := hr
    exact Or.inr ⟨a, (Search.taken_propagate h.closed).mpr ⟨hga, hnot⟩, hr⟩

theorem marked_append (l : List Inst) : Marked M (l ++ [g]) v ↔ Marked M l v ∨
    v = .inst g.id ∧ ∃ a, Derived M g a ∧ StoreAddress M a ∧ ∀ g' ∈ l, ¬ Derived M g' a := by
  constructor
  · intro h
    obtain ⟨l₁, g', l₂, hl, hv, hmark⟩ := h
    rcases List.eq_nil_or_concat l₂ with rfl | ⟨l₃, g'', rfl⟩
    · obtain ⟨rfl, hg⟩ := List.append_inj' hl rfl
      obtain rfl := List.cons.inj hg |>.1
      exact Or.inr ⟨hv, hmark⟩
    · rw [List.concat_eq_append, ← List.cons_append, ← List.append_assoc] at hl
      obtain ⟨rfl, -⟩ := List.append_inj' hl rfl
      exact Or.inl ⟨l₁, g', l₃, rfl, hv, hmark⟩
  · intro h
    obtain ⟨l₁, g', l₂, rfl, hv, hmark⟩ | ⟨hv, hmark⟩ := h
    · exact ⟨l₁, g', l₂ ++ [g], by simp, hv, hmark⟩
    · exact ⟨l, g, [], rfl, hv, hmark⟩

theorem FirstPhaseSpec.step {l : List Inst} {s : FirstPhase} (h : FirstPhaseSpec M l s) :
    FirstPhaseSpec M (l ++ [g]) (firstPhaseGEP env M s g) where
  visited v := by
    show v ∈ (firstSearch env M s.visited g).visited ↔ _
    rw [firstSearch, Search.mem_visited_propagate (fun _ _ => firstEffects_nodes) h.closed,
      h.visited]
    constructor
    · intro hv
      obtain ⟨g', hg', hd⟩ | hd := hv
      · exact ⟨g', List.mem_append_left _ hg', hd⟩
      · exact ⟨g, by simp, hd⟩
    · intro hv
      obtain ⟨g', hg', hd⟩ := hv
      rcases List.mem_append.mp hg' with hg' | hg'
      · exact Or.inl ⟨g', hg', hd⟩
      · obtain rfl := List.mem_singleton.mp hg'
        exact Or.inr hd
  memOps i := by
    have hout : i ∈ (firstSearch env M s.visited g).out.filterMap FirstResult.asMemOp ↔
        FirstResult.memOp i ∈ (firstSearch env M s.visited g).out := by
      rw [List.mem_filterMap]
      constructor
      · intro hr
        obtain ⟨r, hr, hri⟩ := hr
        cases r with
        | memOp j => rwa [← Option.some.inj hri]
        | stored => cases hri
      · intro hr
        exact ⟨_, hr, rfl⟩
    show (∃ e ∈ s.firstMemOpMap ++ [(g, _)], i ∈ e.2) ↔ _
    constructor
    · intro hi
      obtain ⟨e, he, hie⟩ := hi
      rcases List.mem_append.mp he with he | he
      · obtain ⟨g', hg', hmem⟩ := (h.memOps i).mp ⟨e, he, hie⟩
        exact ⟨g', List.mem_append_left _ hg', hmem⟩
      · obtain rfl := List.mem_singleton.mp he
        obtain ⟨a, hga, -, ha⟩ := (mem_out_firstSearch h).mp (hout.mp hie)
        exact ⟨g, by simp, a, hga, ha⟩
    · intro hi
      obtain ⟨g', hg', a, hga, ha⟩ := hi
      -- what an earlier GEP reaches has been recorded there
      by_cases hvisited : a ∈ s.visited
      · obtain ⟨g'', hg'', hd⟩ := (h.visited a).mp hvisited
        obtain ⟨e, he, hie⟩ := (h.memOps i).mpr ⟨g'', hg'', a, hd, ha⟩
        exact ⟨e, List.mem_append_left _ he, hie⟩
      · rcases List.mem_append.mp hg' with hg' | hg'
        · exact absurd ((h.visited a).mpr ⟨g', hg', hga⟩) hvisited
        · obtain rfl := List.mem_singleton.mp hg'
          refine ⟨_, List.mem_append_right _ (List.mem_singleton_self _), ?_⟩
          exact hout.mpr ((mem_out_firstSearch h).mpr ⟨a, hga, hvisited, ha⟩)
  marked v := by
    have hstored : FirstResult.stored ∈ (firstSearch env M s.visited g).out ↔
        ∃ a, Derived M g a ∧ StoreAddress M a ∧ ∀ g' ∈ l, ¬ Derived M g' a := by
      rw [mem_out_firstSearch h]
      refine exists_congr fun a => and_congr_right fun _ => ?_
      rw [h.visited, and_comm]
      refine and_congr Iff.rfl ?_
      simp only [not_exists, not_and]
    show v ∈ (if _ then _ else _) ↔ _
    rw [marked_append, ← hstored, ← h.marked]
    split
    · rename_i hs
      simp [hs, or_comm]
    · rename_i hs
      simp [hs]

theorem firstPhase_spec (l : List Inst) : FirstPhaseSpec M l (firstPhase env M l) := by
  induction l using List.reverseRecOn with
  | nil => exact ⟨by simp [firstPhase], by simp [firstPhase], by simp [firstPhase, Marked]⟩
  | append_singleton l g ih =>
      rw [firstPhase, List.foldl_append]
      exact ih.step

theorem mem_sources : v ∈ (firstPhase env M order).sources ↔
    ∃ i, v = .inst i.id ∧ ∃ g ∈ order, FirstMemOp M g i := by
  rw [FirstPhase.sources, List.mem_dedup, List.mem_map]
  simp only [List.mem_flatMap, (firstPhase_spec order).memOps]
  constructor
  · intro h
    obtain ⟨i, hi, rfl⟩ := h
    exact ⟨i, rfl, hi⟩
  · intro h
    obtain ⟨i, rfl, hi⟩ := h
    exact ⟨i, hi, rfl⟩

/-! ## The second phase -/

/-- A first memory operation, where the second phase starts. -/
def Seed (M : Module) (order : List Inst) (v : Value) : Prop :=
  ∃ i, v = .inst i.id ∧ ∃ g ∈ order, FirstMemOp M g i

/-- Reached from a seed around the marked GEPs. -/
def TaintedAround (env : TaintEnv) (M : Module) (order : List Inst) (v : Value) : Prop :=
  Search.Reach (secondEffects env M) {v | Marked M order v} {v | Seed M order v} v

theorem mem_ReachableGEPs : v ∈ (taintAnalysis env M order).ReachableGEPs ↔
    Marked M order v ∨ TaintedAround env M order v := by
  have hspec : FirstPhaseSpec M order (firstPhase env M order) := firstPhase_spec order
  have hmarked : {v | v ∈ (firstPhase env M order).ReachableGEPs} = {v | Marked M order v} :=
    Set.ext hspec.marked
  have hseeds : {v | v ∈ (firstPhase env M order).sources} = {v | Seed M order v} :=
    Set.ext fun _ => mem_sources
  refine (Search.mem_visited_run (fun _ _ => secondEffects_nodes) _).trans ?_
  rw [hspec.marked]
  refine or_congr Iff.rfl ?_
  show Search.Reach _ {v | v ∈ (firstPhase env M order).ReachableGEPs}
    {v | v ∈ (firstPhase env M order).sources} v ↔ _
  rw [hmarked, hseeds]
  rfl

theorem mem_secondStageGEPs : g ∈ (taintAnalysis env M order).secondStageGEPs ↔
    g ∈ order ∧ (Marked M order (.inst g.id) ∨ TaintedAround env M order (.inst g.id)) := by
  rw [← mem_ReachableGEPs]
  show g ∈ List.filter _ order ↔ _
  rw [List.mem_filter, decide_eq_true_iff]
  rfl

/-! ## The order of the annotated GEPs -/

/-- The GEP is used as a store address, through values derived from it. -/
def UsedAsAddress (M : Module) (g : Inst) : Prop := ∃ a, Derived M g a ∧ StoreAddress M a

/-- It is used as one to which no other annotated GEP is derived. -/
def OwnAddress (M : Module) (G : List Inst) (g : Inst) : Prop :=
  ∃ a, Derived M g a ∧ StoreAddress M a ∧ ∀ g' ∈ G, g' ≠ g → ¬ Derived M g' a

/-- The stage depends neither on the order nor, for a GEP used as an address, on which others are
annotated. -/
structure StageIndependent (env : TaintEnv) (M : Module) (G : List Inst) : Prop where
  order : ∀ σ τ : List Inst, σ.Perm G → τ.Perm G → ∀ g ∈ G,
    (g ∈ (taintAnalysis env M σ).secondStageGEPs ↔ g ∈ (taintAnalysis env M τ).secondStageGEPs)
  annotations : ∀ σ σ' : List Inst, σ.Perm G → σ'.Subperm G → ∀ g ∈ σ', UsedAsAddress M g →
    (g ∈ (taintAnalysis env M σ').secondStageGEPs ↔ g ∈ (taintAnalysis env M σ).secondStageGEPs)

/-- So does the set of the first phase. -/
def FirstPhaseIndependent (env : TaintEnv) (M : Module) (G : List Inst) : Prop :=
  ∀ σ σ' : List Inst, σ.Perm G → σ'.Subperm G → ∀ g ∈ σ',
    (.inst g.id ∈ (firstPhase env M σ').ReachableGEPs ↔
      .inst g.id ∈ (firstPhase env M σ).ReachableGEPs)

variable {G : List Inst}

/-- With an address of its own, a GEP is marked whenever it is used as an address. -/
theorem marked_iff_used (hG : (G.map Inst.id).Nodup)
    (hown : ∀ g ∈ G, UsedAsAddress M g → OwnAddress M G g) {σ : List Inst} (hσ : σ.Subperm G) :
    Marked M σ v ↔ ∃ g ∈ σ, v = .inst g.id ∧ UsedAsAddress M g := by
  constructor
  · intro h
    obtain ⟨l₁, g, l₂, rfl, rfl, a, hga, ha, -⟩ := h
    exact ⟨g, by simp, rfl, a, hga, ha⟩
  · intro h
    obtain ⟨g, hg, rfl, hused⟩ := h
    obtain ⟨l₁, l₂, rfl⟩ := List.append_of_mem hg
    obtain ⟨a, hga, ha, hother⟩ := hown g (hσ.subset hg) hused
    refine ⟨l₁, g, l₂, rfl, rfl, a, hga, ha, fun g' hg' => hother g' ?_ ?_⟩
    · exact hσ.subset (List.mem_append_left _ hg')
    · intro heq
      obtain ⟨l, hperm, hsub⟩ := hσ
      have hnd : (l₁ ++ g :: l₂).Nodup :=
        hperm.nodup_iff.mp ((List.Nodup.of_map _ hG).sublist hsub)
      rw [List.nodup_middle, List.nodup_cons] at hnd
      exact hnd.1 (List.mem_append_left _ (heq ▸ hg'))

theorem stageIndependent_of_own (hG : (G.map Inst.id).Nodup)
    (hown : ∀ g ∈ G, UsedAsAddress M g → OwnAddress M G g) : StageIndependent env M G where
  order := by
    intro σ τ hσ hτ g hg
    have hmem : ∀ g, g ∈ σ ↔ g ∈ τ := fun g => (hσ.trans hτ.symm).mem_iff
    have hmarked : ∀ v, Marked M σ v ↔ Marked M τ v := by
      intro v
      rw [marked_iff_used hG hown hσ.subperm, marked_iff_used hG hown hτ.subperm]
      simp only [hmem]
    have hseed : ∀ v, Seed M σ v ↔ Seed M τ v := by
      intro v
      unfold Seed
      simp only [hmem]
    have hmarked' : {v | Marked M σ v} = {v | Marked M τ v} := Set.ext hmarked
    have hseed' : {v | Seed M σ v} = {v | Seed M τ v} := Set.ext hseed
    rw [mem_secondStageGEPs, mem_secondStageGEPs, hmem, hmarked, TaintedAround, TaintedAround,
      hmarked', hseed']
  annotations := by
    intro σ σ' hσ hσ' g hg hused
    have hsecond : ∀ {l : List Inst}, l.Subperm G → g ∈ l →
        g ∈ (taintAnalysis env M l).secondStageGEPs := by
      intro l hl hgl
      exact mem_secondStageGEPs.mpr ⟨hgl, Or.inl ((marked_iff_used hG hown hl).mpr
        ⟨g, hgl, rfl, hused⟩)⟩
    exact iff_of_true (hsecond hσ' hg)
      (hsecond hσ.subperm (hσ.mem_iff.mpr (hσ'.subset hg)))

theorem firstPhaseIndependent_iff (hG : (G.map Inst.id).Nodup) :
    FirstPhaseIndependent env M G ↔ ∀ g ∈ G, UsedAsAddress M g → OwnAddress M G g := by
  have hspec : ∀ l : List Inst, ∀ v, v ∈ (firstPhase env M l).ReachableGEPs ↔ Marked M l v :=
    fun l => (firstPhase_spec l).marked
  constructor
  · intro h g hg hused
    -- the GEP alone is marked, so it is marked as the last one
    have hperm : (G.erase g ++ [g]).Perm G :=
      (List.perm_append_singleton g _).trans (List.perm_cons_erase hg).symm
    have hlast : Marked M (G.erase g ++ [g]) (.inst g.id) := by
      rw [← hspec, ← h _ [g] hperm (List.singleton_subperm_iff.mpr hg) g (by simp), hspec]
      obtain ⟨a, hga, ha⟩ := hused
      exact ⟨[], g, [], rfl, rfl, a, hga, ha, fun _ hg' => nomatch hg'⟩
    obtain ⟨l₁, g', l₂, hl, hid, -⟩ | ⟨-, a, hga, ha, hother⟩ := (marked_append _).mp hlast
    · have hg' : g' ∈ G.erase g := by simp [hl]
      have hsame : g = g' :=
        List.inj_on_of_nodup_map hG hg (List.mem_of_mem_erase hg') (by simpa using hid)
      have hnot : g ∉ G.erase g := (List.Nodup.of_map _ hG).not_mem_erase
      exact absurd (hsame ▸ hg') hnot
    · refine ⟨a, hga, ha, fun g' hg' hne => hother g' ?_⟩
      exact (List.mem_erase_of_ne hne).mpr hg'
  · intro hown σ σ' hσ hσ' g hg
    rw [hspec, hspec, marked_iff_used hG hown hσ', marked_iff_used hG hown hσ.subperm]
    have hused : ∀ {l : List Inst}, l.Subperm G → g ∈ l →
        ((∃ g' ∈ l, Value.inst g.id = .inst g'.id ∧ UsedAsAddress M g') ↔ UsedAsAddress M g) := by
      intro l hl hgl
      constructor
      · intro h
        obtain ⟨g', hg', hid, hu⟩ := h
        rwa [List.inj_on_of_nodup_map hG (hl.subset hgl) (hl.subset hg') (by simpa using hid)]
      · intro hu
        exact ⟨g, hgl, rfl, hu⟩
    rw [hused hσ' hg, hused hσ.subperm (hσ.mem_iff.mpr (hσ'.subset hg))]

/-- **The stages are independent** of order and annotations if every annotated GEP used as an
address has one of its own; the first phase is exactly then. -/
theorem stage_independent (hG : (G.map Inst.id).Nodup) :
    ((∀ g ∈ G, UsedAsAddress M g → OwnAddress M G g) → StageIndependent env M G) ∧
      (FirstPhaseIndependent env M G ↔ ∀ g ∈ G, UsedAsAddress M g → OwnAddress M G g) :=
  ⟨stageIndependent_of_own hG, firstPhaseIndependent_iff hG⟩

/-- Points-to sets that are empty. -/
def emptyTaintEnv : TaintEnv where
  getExpandedFIPts _ := ∅
  getBaseObj := id
  isStackObject _ := false
  isHeapObject _ := false
  isGlobalObject _ := false
  getAlloca _ := none
  getMalloc _ := none
  getGlobal _ := none
  getPts _ := []

/-- `char *q = p + 8, *r = q + 8; *r = 0`, with both GEPs between markers. -/
def chainedGEPs : Module where
  structs := fun _ => []
  globals := []
  funcs := [⟨0, "main", [.ptr (.int 8)], [⟨0, [
    asmCall 0 MAGIC_ASM_BEGIN,
    ⟨1, .ptr (.int 8), .gep (.int 8) (.arg 0 0) [.constInt (.ofNat 64 8)]⟩,
    asmCall 2 MAGIC_ASM_END,
    asmCall 3 MAGIC_ASM_BEGIN,
    ⟨4, .ptr (.int 8), .gep (.int 8) (.inst 1) [.constInt (.ofNat 64 8)]⟩,
    asmCall 5 MAGIC_ASM_END,
    ⟨6, .void, .store (.constInt (.ofNat 8 0)) (.inst 4)⟩,
    ⟨7, .void, .ret none⟩]⟩]⟩]

def outerGEP : Inst := ⟨1, .ptr (.int 8), .gep (.int 8) (.arg 0 0) [.constInt (.ofNat 64 8)]⟩

def innerGEP : Inst := ⟨4, .ptr (.int 8), .gep (.int 8) (.inst 1) [.constInt (.ofNat 64 8)]⟩

/-- `char *q = p + 8, *r = p + 16, *s = q + 8; *q = 0; *(r + 1) = 0; c = *s`, with `q`, `r` and `s`
between markers. -/
def separateGEPs : Module where
  structs := fun _ => []
  globals := []
  funcs := [⟨0, "main", [.ptr (.int 8)], [⟨0, [
    asmCall 0 MAGIC_ASM_BEGIN,
    ⟨1, .ptr (.int 8), .gep (.int 8) (.arg 0 0) [.constInt (.ofNat 64 8)]⟩,
    asmCall 2 MAGIC_ASM_END,
    asmCall 3 MAGIC_ASM_BEGIN,
    ⟨4, .ptr (.int 8), .gep (.int 8) (.arg 0 0) [.constInt (.ofNat 64 16)]⟩,
    asmCall 5 MAGIC_ASM_END,
    asmCall 6 MAGIC_ASM_BEGIN,
    ⟨7, .ptr (.int 8), .gep (.int 8) (.inst 1) [.constInt (.ofNat 64 8)]⟩,
    asmCall 8 MAGIC_ASM_END,
    ⟨9, .ptr (.int 8), .gep (.int 8) (.inst 4) [.constInt (.ofNat 64 1)]⟩,
    ⟨10, .void, .store (.constInt (.ofNat 8 0)) (.inst 1)⟩,
    ⟨11, .void, .store (.constInt (.ofNat 8 0)) (.inst 9)⟩,
    ⟨12, .int 8, .load (.inst 7)⟩,
    ⟨13, .void, .ret none⟩]⟩]⟩]

theorem edge_iff_mem_getLeft :
    Search.Edge (firstEffects M) c w ↔ w ∈ (firstEffects M c).filterMap Sum.getLeft? := by
  simp [Search.Edge, List.mem_filterMap, Sum.getLeft?_eq_some_iff]

theorem storeAddress_iff_mem_getRight :
    StoreAddress M v ↔ .stored ∈ (firstEffects M v).filterMap Sum.getRight? := by
  simp [StoreAddress, List.mem_filterMap, Sum.getRight?_eq_some_iff]

/-- What is derived from a GEP stays in a list that is closed under the edges. -/
theorem Derived.mem_of_closed {l : List Value} (h : Derived M g v) (hg : .inst g.id ∈ l)
    (hl : ∀ c ∈ l, ∀ w ∈ (firstEffects M c).filterMap Sum.getLeft?, w ∈ l) : v ∈ l := by
  induction h with
  | refl => exact hg
  | tail _ hstep ih => exact hl _ ih _ (edge_iff_mem_getLeft.mp hstep)

/-- Two of the GEPs are stored through, each at an address of its own; the third one, which is only
loaded from, is derived from the first. -/
theorem stage_independent_separate :
    (taintGEPs separateGEPs).map Inst.id = [1, 4, 7] ∧
      (taintAnalysis emptyTaintEnv separateGEPs (taintGEPs separateGEPs)).firstStageGEPs.map
        Inst.id = [7] ∧
      StageIndependent emptyTaintEnv separateGEPs (taintGEPs separateGEPs) ∧
      FirstPhaseIndependent emptyTaintEnv separateGEPs (taintGEPs separateGEPs) := by
  have hgeps : taintGEPs separateGEPs =
      [⟨1, .ptr (.int 8), .gep (.int 8) (.arg 0 0) [.constInt (.ofNat 64 8)]⟩,
       ⟨4, .ptr (.int 8), .gep (.int 8) (.arg 0 0) [.constInt (.ofNat 64 16)]⟩,
       ⟨7, .ptr (.int 8), .gep (.int 8) (.inst 1) [.constInt (.ofNat 64 8)]⟩] := by
    decide +kernel
  have hown : ∀ g ∈ taintGEPs separateGEPs, UsedAsAddress separateGEPs g →
      OwnAddress separateGEPs (taintGEPs separateGEPs) g := by
    have hfirst : ∀ g' v, g'.id ∈ [1, 7] → Derived separateGEPs g' v →
        v ∈ [Value.inst 1, .inst 7] := by
      intro g' v hg' hv
      refine hv.mem_of_closed ?_ (by decide +kernel)
      obtain hid | hid : g'.id = 1 ∨ g'.id = 7 := by simpa using hg'
      all_goals simp [hid]
    have hsecond : ∀ g' v, g'.id = 4 → Derived separateGEPs g' v →
        v ∈ [Value.inst 4, .inst 9] := by
      intro g' v hg' hv
      exact hv.mem_of_closed (by simp [hg']) (by decide +kernel)
    have hthird : ∀ g' v, g'.id = 7 → Derived separateGEPs g' v → v ∈ [Value.inst 7] := by
      intro g' v hg' hv
      exact hv.mem_of_closed (by simp [hg']) (by decide +kernel)
    rw [hgeps]
    intro g hg hused
    simp only [List.mem_cons, List.not_mem_nil, or_false] at hg
    obtain rfl | rfl | rfl := hg
    · refine ⟨.inst 1, .refl, storeAddress_iff_mem_getRight.mpr (by decide +kernel), ?_⟩
      intro g' hg' hne hv
      simp only [List.mem_cons, List.not_mem_nil, or_false] at hg'
      obtain rfl | rfl | rfl := hg'
      · exact hne rfl
      · exact absurd (hsecond _ _ rfl hv) (by decide)
      · exact absurd (hthird _ _ rfl hv) (by decide)
    · refine ⟨.inst 9, .single (edge_iff_mem_getLeft.mpr (by decide +kernel)),
        storeAddress_iff_mem_getRight.mpr (by decide +kernel), ?_⟩
      intro g' hg' hne hv
      simp only [List.mem_cons, List.not_mem_nil, or_false] at hg'
      obtain rfl | rfl | rfl := hg'
      · exact absurd (hfirst _ _ (by decide) hv) (by decide)
      · exact hne rfl
      · exact absurd (hfirst _ _ (by decide) hv) (by decide)
    · obtain ⟨a, hga, ha⟩ := hused
      have hnot : ∀ v ∈ [Value.inst 7], ¬ StoreAddress separateGEPs v := by
        simp only [storeAddress_iff_mem_getRight]
        decide +kernel
      exact absurd ha (hnot a (hthird _ _ rfl hga))
  have hnodup : ((taintGEPs separateGEPs).map Inst.id).Nodup := by rw [hgeps]; decide
  obtain ⟨hstage, hphase⟩ := stage_independent hnodup
  exact ⟨by rw [hgeps]; rfl, by decide +kernel, hstage hown, hphase.mpr hown⟩

/-- With both, the GEP whose search comes first keeps the store address for itself; without the
other annotation the inner GEP is always in the second stage. -/
theorem stage_depends_on_order :
    taintGEPs chainedGEPs = [outerGEP, innerGEP] ∧
      innerGEP ∈ (taintAnalysis emptyTaintEnv chainedGEPs [outerGEP, innerGEP]).firstStageGEPs ∧
      innerGEP ∈ (taintAnalysis emptyTaintEnv chainedGEPs [innerGEP, outerGEP]).secondStageGEPs ∧
      innerGEP ∈ (taintAnalysis emptyTaintEnv chainedGEPs [innerGEP]).secondStageGEPs ∧
      ¬ StageIndependent emptyTaintEnv chainedGEPs [outerGEP, innerGEP] := by
  have hsecond : innerGEP ∈
      (taintAnalysis emptyTaintEnv chainedGEPs [innerGEP, outerGEP]).secondStageGEPs := by
    decide +kernel
  refine ⟨by decide +kernel, by decide +kernel, hsecond, by decide +kernel, fun h => ?_⟩
  have hnot : innerGEP ∉
      (taintAnalysis emptyTaintEnv chainedGEPs [outerGEP, innerGEP]).secondStageGEPs := by
    decide +kernel
  exact hnot ((h.order _ _ (.refl _) (.swap ..) innerGEP (by simp)).mpr hsecond)

/-! ## Taint steps -/

/-- Neither a call, nor a store, nor a return. -/
def InstKind.isOrdinary : InstKind → Bool
  | .call .. | .invoke .. | .store .. | .ret _ => false
  | _ => true

/-- How taint spreads. -/
inductive TaintStep (env : TaintEnv) (M : Module) : Value → Value → Prop
  /-- To a load, or to an ordinary instruction, that uses the value. -/
  | user {i : Inst} {v : Value} : i ∈ M.insts → v ∈ i.kind.operands → i.kind.isOrdinary = true →
      TaintStep env M v (.inst i.id)
  /-- To the formal argument of a directly called and defined function. -/
  | formal {i : Inst} {fid : FuncId} {f : Function} {args : List Value} {k : Nat} {v : Value} :
      i ∈ M.insts → i.kind.asCallBase = some (.direct fid, args) → M.func? fid = some f →
      f.isDeclaration = false → args[k]? = some v → k < f.params.length →
      TaintStep env M v (.arg f.id k)
  /-- To the direct calls of a function that returns the value. -/
  | returned {i call : Inst} {f : Function} {args : List Value} {v : Value} :
      i ∈ M.insts → i.kind = .ret (some v) → parentFunction M i = some f → call ∈ M.insts →
      call.kind.asCallBase = some (.direct f.id, args) → TaintStep env M v (.inst call.id)
  /-- To the allocation site of an object the value is stored to. -/
  | stored {i : Inst} {v ptr site : Value} : i ∈ M.insts → i.kind = .store v ptr →
      site ∈ storeSites env ptr → TaintStep env M v site

theorem mem_operands_of_asCallBase {kind : InstKind} {callee : Callee} {args : List Value}
    (h : kind.asCallBase = some (callee, args)) :
    (∀ v ∈ args, v ∈ kind.operands) ∧ ∀ f, callee = .direct f → .func f ∈ kind.operands := by
  cases kind with
  | call c as =>
      obtain ⟨rfl, rfl⟩ := Prod.mk.inj (Option.some.inj h)
      cases c <;> simp [InstKind.operands] <;> grind
  | invoke c as n u =>
      obtain ⟨rfl, rfl⟩ := Prod.mk.inj (Option.some.inj h)
      cases c <;> simp [InstKind.operands] <;> grind
  | _ => cases h

/-- The code makes every taint step. -/
theorem TaintStep.edge (h : TaintStep env M v w) : Search.Edge (secondEffects env M) v w := by
  cases h with
  | @user i _ hi hv hk =>
      refine List.mem_flatMap.mpr ⟨i, mem_users.mpr ⟨hi, hv⟩, ?_⟩
      unfold secondUser
      cases hkind : i.kind with
      | call _ _ => rw [hkind] at hk; cases hk
      | invoke _ _ _ _ => rw [hkind] at hk; cases hk
      | store _ _ => rw [hkind] at hk; cases hk
      | ret _ => rw [hkind] at hk; cases hk
      | _ => simp
  | @formal i fid f args k _ hi hcall hf hdef harg hk =>
      obtain ⟨hargs, -⟩ := mem_operands_of_asCallBase hcall
      refine List.mem_flatMap.mpr ⟨i, mem_users.mpr ⟨hi, hargs v (List.mem_of_getElem? harg)⟩, ?_⟩
      have hformal : .arg f.id k ∈ receivingFormals M (.direct fid) args v :=
        mem_receivingFormals.mpr ⟨f, k, hf, hdef, harg, hk, rfl⟩
      unfold secondUser
      cases hkind : i.kind with
      | call c as =>
          rw [hkind] at hcall
          obtain ⟨rfl, rfl⟩ := Prod.mk.inj (Option.some.inj hcall)
          exact List.mem_map.mpr ⟨_, hformal, rfl⟩
      | invoke c as n u =>
          rw [hkind] at hcall
          obtain ⟨rfl, rfl⟩ := Prod.mk.inj (Option.some.inj hcall)
          exact List.mem_map.mpr ⟨_, hformal, rfl⟩
      | _ => rw [hkind] at hcall; cases hcall
  | @returned i call f args _ hi hk hparent hcall hkind =>
      refine List.mem_flatMap.mpr ⟨i, mem_users.mpr ⟨hi, by rw [hk]; simp [InstKind.operands]⟩, ?_⟩
      have htarget : .inst call.id ∈ returnTargets M i := by
        rw [returnTargets, hparent]
        refine List.mem_map.mpr ⟨call, List.mem_filter.mpr ⟨mem_users.mpr ⟨hcall, ?_⟩, ?_⟩, rfl⟩
        · exact (mem_operands_of_asCallBase hkind).2 _ rfl
        · rw [hkind]; rfl
      rw [secondUser, hk]
      exact List.mem_map.mpr ⟨_, htarget, rfl⟩
  | @stored i _ ptr site hi hk hsite =>
      refine List.mem_flatMap.mpr ⟨i, mem_users.mpr ⟨hi, by rw [hk]; simp [InstKind.operands]⟩, ?_⟩
      rw [secondUser, hk]
      simpa using hsite

/-- Derivable from the seeds by one or more taint steps. -/
def Tainted (env : TaintEnv) (M : Module) (order : List Inst) (v : Value) : Prop :=
  ∃ z, Seed M order z ∧ Relation.TransGen (TaintStep env M) z v

/-- Nothing is lost behind a marked GEP that is tainted: every step from it leads to a marked GEP or
to what is tainted around them. -/
def NothingHidden (env : TaintEnv) (M : Module) (order : List Inst) : Prop :=
  ∀ p v, Marked M order p → Tainted env M order p → TaintStep env M p v →
    Marked M order v ∨ TaintedAround env M order v

theorem tainted_reachable (h : NothingHidden env M order) (hv : Tainted env M order v) :
    Marked M order v ∨ TaintedAround env M order v := by
  obtain ⟨z, hz, hv⟩ := hv
  induction hv with
  | single hstep =>
      rename_i v
      by_cases hm : Marked M order v
      · exact Or.inl hm
      · exact Or.inr (.first hz hstep.edge hm)
  | @tail u v hu hstep ih =>
      obtain hm | ht := ih
      · exact h u v hm ⟨z, hz, hu⟩ hstep
      · by_cases hm : Marked M order v
        · exact Or.inl hm
        · exact Or.inr (.next ht hstep.edge hm)

/-- **The tainted values are closed** exactly if nothing is hidden; that the seeds are among them
too asks for each of them in addition. -/
theorem taint_closed (env : TaintEnv) (M : Module) (order : List Inst) :
    ((∀ v, Tainted env M order v → v ∈ (taintAnalysis env M order).ReachableGEPs) ↔
      NothingHidden env M order) ∧
    ((∀ v, Seed M order v ∨ Tainted env M order v →
        v ∈ (taintAnalysis env M order).ReachableGEPs) ↔
      NothingHidden env M order ∧
        ∀ z, Seed M order z → Marked M order z ∨ TaintedAround env M order z) := by
  have hclosed : (∀ v, Tainted env M order v → v ∈ (taintAnalysis env M order).ReachableGEPs) ↔
      NothingHidden env M order := by
    constructor
    · intro h p v _ hp hstep
      obtain ⟨z, hz, hzp⟩ := hp
      exact mem_ReachableGEPs.mp (h v ⟨z, hz, hzp.tail hstep⟩)
    · intro h v hv
      exact mem_ReachableGEPs.mpr (tainted_reachable h hv)
  refine ⟨hclosed, ?_⟩
  rw [← hclosed]
  constructor
  · intro h
    exact ⟨fun v hv => h v (Or.inr hv), fun z hz => mem_ReachableGEPs.mp (h z (Or.inl hz))⟩
  · intro h v hv
    obtain hv | hv := hv
    · exact mem_ReachableGEPs.mpr (h.2 v hv)
    · exact h.1 v hv

/-- `char *q = p + x[1], *r = q + 1; *q = 0; c = *r`, with the GEPs between markers. -/
def hiddenGEP : Module where
  structs := fun _ => []
  globals := []
  funcs := [⟨0, "main", [.ptr (.int 64), .ptr (.int 8)], [⟨0, [
    asmCall 0 MAGIC_ASM_BEGIN,
    ⟨1, .ptr (.int 64), .gep (.int 64) (.arg 0 0) [.constInt (.ofNat 64 1)]⟩,
    asmCall 2 MAGIC_ASM_END,
    ⟨3, .int 64, .load (.inst 1)⟩,
    asmCall 4 MAGIC_ASM_BEGIN,
    ⟨5, .ptr (.int 8), .gep (.int 8) (.arg 0 1) [.inst 3]⟩,
    asmCall 6 MAGIC_ASM_END,
    asmCall 7 MAGIC_ASM_BEGIN,
    ⟨8, .ptr (.int 8), .gep (.int 8) (.inst 5) [.constInt (.ofNat 64 1)]⟩,
    asmCall 9 MAGIC_ASM_END,
    ⟨10, .void, .store (.constInt (.ofNat 8 0)) (.inst 5)⟩,
    ⟨11, .int 8, .load (.inst 8)⟩,
    ⟨12, .void, .ret none⟩]⟩]⟩]

/-- The third GEP is computed from the second, which is indexed by a seed; but the second is marked
already, and the search stops there. -/
theorem taint_lost_behind_marked :
    Tainted emptyTaintEnv hiddenGEP (taintGEPs hiddenGEP) (.inst 8) ∧
      .inst 8 ∉ (taintAnalysis emptyTaintEnv hiddenGEP (taintGEPs hiddenGEP)).ReachableGEPs := by
  refine ⟨⟨.inst 3, ⟨⟨3, .int 64, .load (.inst 1)⟩, rfl, ?_⟩, ?_⟩, by decide +kernel⟩
  · refine ⟨⟨1, .ptr (.int 64), .gep (.int 64) (.arg 0 0) [.constInt (.ofNat 64 1)]⟩,
      by decide +kernel, .inst 1, .refl,
      List.mem_flatMap.mpr ⟨⟨3, .int 64, .load (.inst 1)⟩, ?_, ?_⟩⟩
    · exact mem_users.mpr ⟨by decide, by decide⟩
    · exact List.mem_singleton_self _
  · have hindexed : TaintStep emptyTaintEnv hiddenGEP (.inst 3) (.inst 5) :=
      .user (i := ⟨5, .ptr (.int 8), .gep (.int 8) (.arg 0 1) [.inst 3]⟩) (by decide) (by decide)
        rfl
    have hbased : TaintStep emptyTaintEnv hiddenGEP (.inst 5) (.inst 8) :=
      .user (i := ⟨8, .ptr (.int 8), .gep (.int 8) (.inst 5) [.constInt (.ofNat 64 1)]⟩)
        (by decide) (by decide) rfl
    exact .tail (.single hindexed) hbased

end MSV
