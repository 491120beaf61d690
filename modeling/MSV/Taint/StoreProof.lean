import MSV.Taint.TaintProof

/-!
# Stored pointers

The first phase records a store of a derived value as a source of the second phase. The second phase
looks at the users of its sources, and a store has none: `handleStoreInst` never gets to see it. It
sees a store only when the stored value is tainted in the second phase itself, that is, from a load.

**Theorem (`stores_taint_iff`).** The allocation sites of what a derived value is stored to, and the
loads through them, are in `ReachableGEPs` if and only if every such site is tainted from a load
already. A site that is marked in the first phase is the exception, as nothing behind it is tainted:
there it is the loads that have to be.
-/

namespace MSV

variable {env : TaintEnv} {M : Module} {order : List Inst} {site v : Value} {i : Inst}

/-! ## Definitions -/

/-- A value derived from an annotated GEP is stored to an object that is allocated at the site. -/
def StoredSite (env : TaintEnv) (M : Module) (order : List Inst) (site : Value) : Prop :=
  ∃ g ∈ order, ∃ val, Derived M g val ∧ ∃ i ∈ M.insts, ∃ ptr, i.kind = .store val ptr ∧
    site ∈ storeSites env ptr

/-- The sites and the loads through them are in `ReachableGEPs` at the end. -/
def StoresTaint (env : TaintEnv) (M : Module) (order : List Inst) : Prop :=
  ∀ site, StoredSite env M order site → site ∈ (taintAnalysis env M order).ReachableGEPs ∧
    ∀ l ∈ M.insts, l.kind = .load site → .inst l.id ∈ (taintAnalysis env M order).ReachableGEPs

/-- A load through a value derived from an annotated GEP. -/
def LoadSeed (M : Module) (order : List Inst) (v : Value) : Prop :=
  ∃ l ∈ M.insts, v = .inst l.id ∧ ∃ ptr, l.kind = .load ptr ∧ ∃ g ∈ order, Derived M g ptr

/-- Tainted from one of these loads, around the marked GEPs. -/
def TaintedFromLoads (env : TaintEnv) (M : Module) (order : List Inst) (v : Value) : Prop :=
  Search.Reach (secondEffects env M) {v | Marked M order v} {v | LoadSeed M order v} v

/-! ## The sources of the second phase -/

/-- A first memory operation is a load through the derived value or a store of it. -/
theorem firstMemOp_iff {g : Inst} : FirstMemOp M g i ↔ i ∈ M.insts ∧ ∃ a, Derived M g a ∧
    (i.kind = .load a ∨ ∃ ptr, ptr ≠ a ∧ i.kind = .store a ptr) := by
  unfold FirstMemOp firstEffects
  constructor
  · intro h
    obtain ⟨a, hga, hmem⟩ := h
    obtain ⟨user, huser, hmem⟩ := List.mem_flatMap.mp hmem
    obtain ⟨hi, ha⟩ := mem_users.mp huser
    unfold firstUser at hmem
    cases hk : user.kind with
    | load ptr =>
        rw [hk] at hmem ha
        obtain rfl : i = user := by simpa using hmem
        obtain rfl : a = ptr := by simpa [InstKind.operands] using ha
        exact ⟨hi, a, hga, Or.inl hk⟩
    | store val ptr =>
        rw [hk] at hmem ha
        by_cases hptr : ptr = a
        · simp [hptr] at hmem
        · obtain rfl : i = user := by simpa [hptr] using hmem
          obtain rfl : a = val := by simpa [InstKind.operands, Ne.symm hptr] using ha
          exact ⟨hi, a, hga, Or.inr ⟨ptr, hptr, hk⟩⟩
    | ret v => cases v <;> simp [hk] at hmem
    | _ => simp [hk] at hmem
  · intro h
    obtain ⟨hi, a, hga, hk | ⟨ptr, hne, hk⟩⟩ := h
    · refine ⟨a, hga, List.mem_flatMap.mpr ⟨i, mem_users.mpr ⟨hi, ?_⟩, ?_⟩⟩
      · simp [hk, InstKind.operands]
      · simp [firstUser, hk]
    · refine ⟨a, hga, List.mem_flatMap.mpr ⟨i, mem_users.mpr ⟨hi, ?_⟩, ?_⟩⟩
      · simp [hk, InstKind.operands]
      · simp [firstUser, hk, hne]

/-- Nothing uses a store. -/
theorem secondEffects_store (hM : M.WF) (hi : i ∈ M.insts) {val ptr : Value}
    (hk : i.kind = .store val ptr) : secondEffects env M (.inst i.id) = [] := by
  have hkind : M.kindOf (.inst i.id) = some (.store val ptr) := by
    rw [Module.kindOf, hM.inst?_eq hi, Option.map_some, hk]
  have hnone : users M (.inst i.id) = [] := by
    refine List.eq_nil_iff_forall_not_mem.mpr fun j hj => ?_
    obtain ⟨hj, hop⟩ := mem_users.mp hj
    exact hM.operands j hj _ hop val ptr hkind
  rw [secondEffects, hnone, List.flatMap_nil]

theorem LoadSeed.seed (h : LoadSeed M order v) : Seed M order v := by
  obtain ⟨l, hl, rfl, ptr, hk, g, hg, hd⟩ := h
  exact ⟨l, rfl, g, hg, firstMemOp_iff.mpr ⟨hl, ptr, hd, Or.inl hk⟩⟩

/-- Only the loads among the sources taint anything. -/
theorem taintedAround_iff (hM : M.WF) :
    TaintedAround env M order v ↔ TaintedFromLoads env M order v := by
  constructor
  · intro h
    induction h with
    | @first c v hc hv hnot =>
        obtain ⟨i, rfl, g, hg, hop⟩ := hc
        obtain ⟨hi, a, hga, hk | ⟨ptr, -, hk⟩⟩ := firstMemOp_iff.mp hop
        · exact .first ⟨i, hi, rfl, a, hk, g, hg, hga⟩ hv hnot
        · rw [secondEffects_store hM hi hk] at hv
          cases hv
    | next _ hv hnot ih => exact .next ih hv hnot
  · intro h
    induction h with
    | first hc hv hnot => exact .first (LoadSeed.seed hc) hv hnot
    | next _ hv hnot ih => exact .next ih hv hnot

/-! ## The stores -/

/-- A load through a tainted address is tainted. -/
theorem TaintedFromLoads.load (h : TaintedFromLoads env M order v) (hi : i ∈ M.insts)
    (hk : i.kind = .load v) :
    Marked M order (.inst i.id) ∨ TaintedFromLoads env M order (.inst i.id) := by
  have hstep : TaintStep env M v (.inst i.id) :=
    .user hi (by simp [hk, InstKind.operands]) (by rw [hk]; rfl)
  by_cases hm : Marked M order (.inst i.id)
  · exact Or.inl hm
  · exact Or.inr (.next h hstep.edge hm)

/-- **The stores taint memory** exactly where a load taints it: a stored pointer counts only if it
is tainted from a load too. -/
theorem stores_taint_iff (hM : M.WF) (env : TaintEnv) (order : List Inst) :
    StoresTaint env M order ↔ ∀ site, StoredSite env M order site →
      TaintedFromLoads env M order site ∨
        Marked M order site ∧ ∀ l ∈ M.insts, l.kind = .load site →
          Marked M order (.inst l.id) ∨ TaintedFromLoads env M order (.inst l.id) := by
  unfold StoresTaint
  simp only [mem_ReachableGEPs, taintedAround_iff hM]
  refine forall_congr' fun site => imp_congr_right fun _ => ?_
  constructor
  · intro h
    obtain ⟨hm | ht, hloads⟩ := h
    · exact Or.inr ⟨hm, hloads⟩
    · exact Or.inl ht
  · intro h
    obtain ht | ⟨hm, hloads⟩ := h
    · exact ⟨Or.inr ht, fun l hl hk => ht.load hl hk⟩
    · exact ⟨Or.inl hm, hloads⟩

/-! ## A store with a load and without -/

/-- One object on the stack, allocated by the first instruction, that everything may point to. -/
def oneObjectEnv : TaintEnv where
  getExpandedFIPts _ := ∅
  getBaseObj := id
  isStackObject _ := true
  isHeapObject _ := false
  isGlobalObject _ := false
  getAlloca _ := some (.inst 0)
  getMalloc _ := none
  getGlobal _ := none
  getPts _ := [0]

theorem storeSites_oneObjectEnv {ptr : Value} :
    site ∈ storeSites oneObjectEnv ptr ↔ site = .inst 0 := by
  simp [storeSites, oneObjectEnv]

/-- `char *q = p + 8; slot = q; r = slot`, with the GEP between markers. -/
def storedGEP : Module where
  structs := fun _ => []
  globals := []
  funcs := [⟨0, "main", [.ptr (.int 8)], [⟨0, [
    ⟨0, .ptr (.ptr (.int 8)), .alloca (.ptr (.int 8)) (.constInt (.ofNat 32 1))⟩,
    asmCall 1 MAGIC_ASM_BEGIN,
    ⟨2, .ptr (.int 8), .gep (.int 8) (.arg 0 0) [.constInt (.ofNat 64 8)]⟩,
    asmCall 3 MAGIC_ASM_END,
    ⟨4, .void, .store (.inst 2) (.inst 0)⟩,
    ⟨5, .ptr (.int 8), .load (.inst 0)⟩,
    ⟨6, .void, .ret none⟩]⟩]⟩]

/-- Neither the slot nor what is read from it is tainted. -/
theorem stored_pointer_lost :
    StoredSite oneObjectEnv storedGEP (taintGEPs storedGEP) (.inst 0) ∧
      .inst 0 ∉ (taintAnalysis oneObjectEnv storedGEP (taintGEPs storedGEP)).ReachableGEPs ∧
      .inst 5 ∉ (taintAnalysis oneObjectEnv storedGEP (taintGEPs storedGEP)).ReachableGEPs ∧
      ¬ StoresTaint oneObjectEnv storedGEP (taintGEPs storedGEP) := by
  have hstored : StoredSite oneObjectEnv storedGEP (taintGEPs storedGEP) (.inst 0) :=
    ⟨⟨2, .ptr (.int 8), .gep (.int 8) (.arg 0 0) [.constInt (.ofNat 64 8)]⟩, by decide +kernel,
      .inst 2, .refl, ⟨4, .void, .store (.inst 2) (.inst 0)⟩, by decide, .inst 0, rfl,
      storeSites_oneObjectEnv.mpr rfl⟩
  have hlost : .inst 0 ∉
      (taintAnalysis oneObjectEnv storedGEP (taintGEPs storedGEP)).ReachableGEPs := by
    decide +kernel
  exact ⟨hstored, hlost, by decide +kernel, fun h => hlost (h _ hstored).1⟩

/-- `char *q = p + 8; slot = q; *(char *)&slot = *q`, with the GEP between markers. -/
def storedLoad : Module where
  structs := fun _ => []
  globals := []
  funcs := [⟨0, "main", [.ptr (.int 8)], [⟨0, [
    ⟨0, .ptr (.ptr (.int 8)), .alloca (.ptr (.int 8)) (.constInt (.ofNat 32 1))⟩,
    ⟨1, .ptr (.int 8), .cast .bitcast (.inst 0)⟩,
    asmCall 2 MAGIC_ASM_BEGIN,
    ⟨3, .ptr (.int 8), .gep (.int 8) (.arg 0 0) [.constInt (.ofNat 64 8)]⟩,
    asmCall 4 MAGIC_ASM_END,
    ⟨5, .void, .store (.inst 3) (.inst 0)⟩,
    ⟨6, .int 8, .load (.inst 3)⟩,
    ⟨7, .void, .store (.inst 6) (.inst 1)⟩,
    ⟨8, .void, .ret none⟩]⟩]⟩]

theorem storedLoad_wf : storedLoad.WF where
  funcs_nodup := by decide
  blocks_nodup := by decide
  insts_nodup := by decide
  terminated := Module.terminated_of_last (by decide)
  targets := by decide
  operands := Module.operands_of_stores_unused (by decide)

/-- The byte that is loaded through the GEP taints the slot. -/
theorem stored_byte_taints : StoresTaint oneObjectEnv storedLoad (taintGEPs storedLoad) := by
  have hgeps : taintGEPs storedLoad =
      [⟨3, .ptr (.int 8), .gep (.int 8) (.arg 0 0) [.constInt (.ofNat 64 8)]⟩] := by
    decide +kernel
  refine (stores_taint_iff storedLoad_wf oneObjectEnv _).mpr fun site hsite => Or.inl ?_
  obtain ⟨_, _, _, _, _, _, _, _, hsite⟩ := hsite
  obtain rfl := storeSites_oneObjectEnv.mp hsite
  have hload : LoadSeed storedLoad (taintGEPs storedLoad) (.inst 6) :=
    ⟨⟨6, .int 8, .load (.inst 3)⟩, by decide, rfl, .inst 3, rfl,
      ⟨3, .ptr (.int 8), .gep (.int 8) (.arg 0 0) [.constInt (.ofNat 64 8)]⟩, by simp [hgeps],
      .refl⟩
  have hstep : TaintStep oneObjectEnv storedLoad (.inst 6) (.inst 0) :=
    .stored (i := ⟨7, .void, .store (.inst 6) (.inst 1)⟩) (by decide) rfl
      (storeSites_oneObjectEnv.mpr rfl)
  refine .first hload hstep.edge fun hm => ?_
  obtain ⟨l₁, g, l₂, hl, hid, -⟩ := hm
  have hg : g ∈ taintGEPs storedLoad := by simp [hl]
  rw [hgeps] at hg
  obtain rfl := List.mem_singleton.mp hg
  cases hid

end MSV
