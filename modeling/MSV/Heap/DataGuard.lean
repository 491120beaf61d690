import MSV.Heap.Uriah

/-!
# Unsafe stack pointers

`DataGuard.cpp`: a pointer points to the stack if it is no allocation, comes from none directly and
from no global, and shares its value node with no heap pointer. The last condition was taken out of
`doesPointToStack` and put into the loop that counts the stack pointers; the loop that collects the
unsafe ones calls `doesPointToStack` alone.

**Theorem (`unsafeStack_exact`).** The unsafe stack pointers are the stack pointers classified `Seq`
or `Dyn` exactly if every such pointer `doesPointToStack` accepts has a value node, and one that no
heap pointer has.
-/

namespace MSV

/-- What is asked of the library information and of the points-to analysis. -/
structure StackEnv where
  isAllocationFn : Value → Bool
  hasPTASetup : Bool
  /-- `getValueNode`, where `hasValueNode` holds. -/
  valueNode : Value → Option Nat

/-- The sets `identifyDifferentKindsOfUnsafeStackPointers` builds. -/
structure StackSets where
  totalStackPointerSet : List Value
  unsafeStackPointerSet : List Value
  stackSeqPointerSet : PointerSet
  stackDynPointerSet : PointerSet
  /-- The casts among the `Dyn` pointers. -/
  stackDynPtrSet : PointerSet

def StackSets.empty : StackSets := ⟨[], [], ∅, ∅, ∅⟩

section

variable (env : StackEnv) (M : Module)

def isGlobalVariable : Value → Bool
  | .global _ => true
  | _ => false

def doesPointToStack (v : Value) : Bool :=
  match M.kindOf v with
  | none => false
  | some kind =>
      (kind.operands.all fun op => !(env.isAllocationFn op || isGlobalVariable op)) &&
        !env.isAllocationFn v

/-- The node ids of the heap pointers. -/
def heapNodeIdSet (heapPointerSet : PointerSet) : List Nat :=
  heapPointerSet.entries.filterMap fun e => env.valueNode e.1

/-- One round of the loop over all stack pointers. -/
def countStackPointer (heapPointerSet : PointerSet) (s : StackSets) (v : Value) : StackSets :=
  match env.valueNode v with
  | none => s
  | some nodeId =>
      if doesPointToStack env M v && !(heapNodeIdSet env heapPointerSet).contains nodeId then
        { s with totalStackPointerSet := s.totalStackPointerSet.insert v }
      else s

/-- One round of the loop over the unsafe ones. -/
def classifyStackPointer (s : StackSets) (v : Value) (info : VariableInfo) : StackSets :=
  if info.classification.isUnsafe && doesPointToStack env M v then
    let s := { s with unsafeStackPointerSet := s.unsafeStackPointerSet.insert v }
    if info.classification = .seq then
      { s with stackSeqPointerSet := s.stackSeqPointerSet.set v info }
    else
      { s with
        stackDynPointerSet := s.stackDynPointerSet.set v info
        stackDynPtrSet := if isCast M v then s.stackDynPtrSet.set v info else s.stackDynPtrSet }
  else s

def identifyDifferentKindsOfUnsafeStackPointers (heapPointerSet : PointerSet)
    (st : AnalysisState) : StackSets :=
  if env.hasPTASetup then
    let s := st.Variables.entries.foldl
      (fun s e => countStackPointer env M heapPointerSet s e.1) .empty
    st.Variables.entries.foldl (fun s e => classifyStackPointer env M s e.1 e.2) s
  else .empty

/-- `doesPointToStack` before the check was taken out of it. -/
def doesPointToStackPlain (heapPointerSet : PointerSet) (v : Value) : Bool :=
  doesPointToStack env M v &&
    match env.valueNode v with
    | none => false
    | some nodeId => heapPointerSet.entries.all fun e => env.valueNode e.1 != some nodeId

end

/-! ## What the two loops collect -/

section

variable {env : StackEnv} {M : Module} {heapPointerSet : PointerSet} {st : AnalysisState}

theorem notMem_heapNodeIdSet {n : Nat} :
    n ∉ heapNodeIdSet env heapPointerSet ↔
      ∀ e ∈ heapPointerSet.entries, env.valueNode e.1 ≠ some n := by
  rw [heapNodeIdSet, List.mem_filterMap]
  constructor
  · intro h e he hn
    exact h ⟨e, he, hn⟩
  · intro h hmem
    obtain ⟨e, he, hn⟩ := hmem
    exact h e he hn

/-- The plain predicate, spelled out. -/
theorem doesPointToStackPlain_iff {v : Value} :
    doesPointToStackPlain env M heapPointerSet v = true ↔ doesPointToStack env M v = true ∧
      ∃ n, env.valueNode v = some n ∧
        ∀ e ∈ heapPointerSet.entries, env.valueNode e.1 ≠ some n := by
  unfold doesPointToStackPlain
  cases env.valueNode v with
  | none => simp
  | some n => simp

theorem mem_countStackPointer {s : StackSets} {v w : Value} :
    w ∈ (countStackPointer env M heapPointerSet s v).totalStackPointerSet ↔
      w ∈ s.totalStackPointerSet ∨
        w = v ∧ doesPointToStackPlain env M heapPointerSet v = true := by
  rw [doesPointToStackPlain_iff, countStackPointer]
  cases hn : env.valueNode v with
  | none => simp
  | some n =>
      have hplain : (∃ m, some n = some m ∧
          ∀ e ∈ heapPointerSet.entries, env.valueNode e.1 ≠ some m) ↔
          n ∉ heapNodeIdSet env heapPointerSet := by
        rw [notMem_heapNodeIdSet]
        simp
      rw [hplain]
      dsimp only
      by_cases h : doesPointToStack env M v = true ∧ n ∉ heapNodeIdSet env heapPointerSet
      · simp [h, or_comm]
      · rw [if_neg (by simpa using h)]
        simp [h]

theorem mem_foldl_countStackPointer {w : Value} (l : List (Sigma fun _ : Value => VariableInfo))
    (s : StackSets) :
    w ∈ (l.foldl (fun s e => countStackPointer env M heapPointerSet s e.1)
        s).totalStackPointerSet ↔
      w ∈ s.totalStackPointerSet ∨
        (∃ e ∈ l, e.1 = w) ∧ doesPointToStackPlain env M heapPointerSet w = true := by
  induction l generalizing s with
  | nil => simp
  | cons e l ih =>
      rw [List.foldl_cons, ih, mem_countStackPointer]
      constructor
      · intro h
        obtain (h | ⟨rfl, h⟩) | ⟨⟨e', he', rfl⟩, h⟩ := h
        · exact Or.inl h
        · exact Or.inr ⟨⟨e, by simp, rfl⟩, h⟩
        · exact Or.inr ⟨⟨e', by simp [he'], rfl⟩, h⟩
      · intro h
        obtain h | ⟨⟨e', he', rfl⟩, h⟩ := h
        · exact Or.inl (Or.inl h)
        · obtain rfl | he' := List.mem_cons.mp he'
          · exact Or.inl (Or.inr ⟨rfl, h⟩)
          · exact Or.inr ⟨⟨e', he', rfl⟩, h⟩

/-- The second loop leaves the set of all stack pointers as it is, and takes the unsafe ones that
`doesPointToStack` accepts. -/
theorem foldl_classifyStackPointer (l : List (Sigma fun _ : Value => VariableInfo))
    (s : StackSets) :
    (l.foldl (fun s e => classifyStackPointer env M s e.1 e.2) s).totalStackPointerSet =
        s.totalStackPointerSet ∧
      ∀ w, w ∈ (l.foldl (fun s e => classifyStackPointer env M s e.1 e.2)
          s).unsafeStackPointerSet ↔
        w ∈ s.unsafeStackPointerSet ∨
          (∃ e ∈ l, e.1 = w ∧ e.2.classification.isUnsafe = true) ∧
            doesPointToStack env M w = true := by
  induction l generalizing s with
  | nil => simp
  | cons e l ih =>
      have htotal : (classifyStackPointer env M s e.1 e.2).totalStackPointerSet =
          s.totalStackPointerSet := by
        unfold classifyStackPointer
        split_ifs <;> rfl
      have hmem : ∀ w, w ∈ (classifyStackPointer env M s e.1 e.2).unsafeStackPointerSet ↔
          w ∈ s.unsafeStackPointerSet ∨ w = e.1 ∧ e.2.classification.isUnsafe = true ∧
            doesPointToStack env M w = true := by
        intro w
        unfold classifyStackPointer
        by_cases h : e.2.classification.isUnsafe = true ∧ doesPointToStack env M e.1 = true
        · by_cases hw : w = e.1 <;> split_ifs <;> simp_all
        · rw [if_neg (by simpa using h)]
          grind
      refine ⟨(ih _).1.trans htotal, fun w => ?_⟩
      rw [List.foldl_cons, (ih _).2 w, hmem w]
      constructor
      · intro h
        obtain (h | ⟨rfl, hu, h⟩) | ⟨⟨e', he', rfl, hu⟩, h⟩ := h
        · exact Or.inl h
        · exact Or.inr ⟨⟨e, by simp, rfl, hu⟩, h⟩
        · exact Or.inr ⟨⟨e', by simp [he'], rfl, hu⟩, h⟩
      · intro h
        obtain h | ⟨⟨e', he', rfl, hu⟩, h⟩ := h
        · exact Or.inl (Or.inl h)
        · obtain rfl | he' := List.mem_cons.mp he'
          · exact Or.inl (Or.inr ⟨rfl, hu, h⟩)
          · exact Or.inr ⟨⟨e', he', rfl, hu⟩, h⟩

/-- An unsafe classification in the state. -/
def AnalysisState.IsUnsafe (st : AnalysisState) (v : Value) : Prop :=
  ∃ info, st.Variables.find v = some info ∧ info.classification.isUnsafe = true

theorem mem_entries_isUnsafe {v : Value} :
    (∃ e ∈ st.Variables.entries, e.1 = v ∧ e.2.classification.isUnsafe = true) ↔
      st.IsUnsafe v := by
  constructor
  · intro h
    obtain ⟨⟨w, info⟩, he, rfl, hu⟩ := h
    exact ⟨info, AList.mem_lookup_iff.mpr he, hu⟩
  · intro h
    obtain ⟨info, hf, hu⟩ := h
    exact ⟨⟨v, info⟩, AList.mem_lookup_iff.mp hf, rfl, hu⟩

theorem mem_totalStackPointerSet (hsetup : env.hasPTASetup = true) {v : Value} :
    v ∈ (identifyDifferentKindsOfUnsafeStackPointers env M heapPointerSet
        st).totalStackPointerSet ↔
      st.Variables.has v ∧ doesPointToStackPlain env M heapPointerSet v = true := by
  rw [identifyDifferentKindsOfUnsafeStackPointers, if_pos hsetup,
    (foldl_classifyStackPointer _ _).1, mem_foldl_countStackPointer, FMap.mem_keys_iff_has]
  simp [StackSets.empty]

theorem mem_unsafeStackPointerSet (hsetup : env.hasPTASetup = true) {v : Value} :
    v ∈ (identifyDifferentKindsOfUnsafeStackPointers env M heapPointerSet
        st).unsafeStackPointerSet ↔
      st.IsUnsafe v ∧ doesPointToStack env M v = true := by
  have hnil : ∀ (l : List (Sigma fun _ : Value => VariableInfo)) (s : StackSets),
      (l.foldl (fun s e => countStackPointer env M heapPointerSet s e.1)
        s).unsafeStackPointerSet = s.unsafeStackPointerSet := by
    intro l s
    refine List.foldlRecOn
      (motive := fun r : StackSets => r.unsafeStackPointerSet = s.unsafeStackPointerSet) l _ rfl
      fun r hr e _ => ?_
    dsimp only [countStackPointer]
    split
    · exact hr
    · split_ifs <;> exact hr
  rw [identifyDifferentKindsOfUnsafeStackPointers, if_pos hsetup,
    (foldl_classifyStackPointer _ _).2, hnil, mem_entries_isUnsafe]
  simp [StackSets.empty]

/-! ## The two separations -/

/-- The unsafe stack pointers are the stack pointers classified unsafe; none of them lacks a value
node or shares it with a heap pointer. -/
structure SeparationAgrees (env : StackEnv) (heapPointerSet : PointerSet) (st : AnalysisState)
    (s : StackSets) : Prop where
  exact : ∀ v, v ∈ s.unsafeStackPointerSet ↔ v ∈ s.totalStackPointerSet ∧ st.IsUnsafe v
  notHeap : ∀ v ∈ s.unsafeStackPointerSet, ∃ n, env.valueNode v = some n ∧
    ∀ w, heapPointerSet.has w → env.valueNode w ≠ some n

/-- Once points-to information is there, the separations agree exactly if the second loop meets no
unsafe pointer that only the check of the first loop would leave out. -/
theorem unsafeStack_exact (env : StackEnv) (M : Module) (heapPointerSet : PointerSet)
    (st : AnalysisState) :
    SeparationAgrees env heapPointerSet st
        (identifyDifferentKindsOfUnsafeStackPointers env M heapPointerSet st) ↔
      (env.hasPTASetup = true → ∀ v, st.IsUnsafe v → doesPointToStack env M v = true →
        ∃ n, env.valueNode v = some n ∧ ∀ w, heapPointerSet.has w → env.valueNode w ≠ some n) := by
  constructor
  · intro h hsetup v hu hd
    exact h.notHeap v ((mem_unsafeStackPointerSet hsetup).mpr ⟨hu, hd⟩)
  · intro h
    cases hsetup : env.hasPTASetup with
    | false =>
        have hempty : identifyDifferentKindsOfUnsafeStackPointers env M heapPointerSet st =
            .empty := by
          rw [identifyDifferentKindsOfUnsafeStackPointers, hsetup]
          rfl
        rw [hempty]
        exact ⟨by simp [StackSets.empty], by simp [StackSets.empty]⟩
    | true =>
        have hnode : ∀ v, st.IsUnsafe v → doesPointToStack env M v = true →
            doesPointToStackPlain env M heapPointerSet v = true := by
          intro v hu hd
          obtain ⟨n, hn, hheap⟩ := h hsetup v hu hd
          refine doesPointToStackPlain_iff.mpr ⟨hd, n, hn, fun e he => hheap e.1 ?_⟩
          exact FMap.mem_keys_iff_has.mp ⟨e, he, rfl⟩
        refine ⟨fun v => ?_, fun v hv => ?_⟩
        · rw [mem_unsafeStackPointerSet hsetup, mem_totalStackPointerSet hsetup]
          constructor
          · intro hv
            obtain ⟨info, hf, _⟩ := hv.1
            exact ⟨⟨FMap.has_of_find hf, hnode v hv.1 hv.2⟩, hv.1⟩
          · intro hv
            exact ⟨hv.2, (doesPointToStackPlain_iff.mp hv.1.2).1⟩
        · obtain ⟨hu, hd⟩ := (mem_unsafeStackPointerSet hsetup).mp hv
          exact h hsetup v hu hd

end

/-- `int *p = malloc(40); p[1]`, with `p` kept in a stack slot: the load is classified `Seq`, it is
a heap pointer, and neither an allocation nor a global is among its operands. -/
def heapLoadModule : Module where
  structs := fun _ => []
  globals := []
  funcs := [⟨0, "malloc", [.int 64], []⟩, ⟨1, "main", [], [⟨0, [
    ⟨0, .ptr (.ptr (.int 32)), .alloca (.ptr (.int 32)) (.constInt (.ofNat 32 1))⟩,
    ⟨1, .ptr (.int 8), .call (.direct 0) [sizeConst 40]⟩,
    ⟨2, .ptr (.int 32), .cast .bitcast (.inst 1)⟩,
    ⟨3, .void, .store (.inst 2) (.inst 0)⟩,
    ⟨4, .ptr (.int 32), .load (.inst 0)⟩,
    ⟨5, .ptr (.int 32), .gep (.int 32) (.inst 4) [.constInt (.ofNat 64 1)]⟩,
    ⟨6, .void, .ret none⟩]⟩]⟩]

/-- Instructions have value nodes; the call is the allocation. -/
def heapLoadEnv : StackEnv where
  isAllocationFn v := v == .inst 1
  hasPTASetup := true
  valueNode
    | .inst i => some i
    | _ => none

/-- The entry of the load. -/
def heapLoadInfo : VariableInfo := { VariableInfo.registered with classification := .seq }

/-- The load is a heap pointer and is counted as an unsafe stack pointer all the same. -/
theorem heap_load_on_stack :
    ¬ SeparationAgrees heapLoadEnv (FMap.set ∅ (.inst 4) heapLoadInfo)
      ⟨1, FMap.set ∅ (.inst 4) heapLoadInfo⟩
      (identifyDifferentKindsOfUnsafeStackPointers heapLoadEnv heapLoadModule
        (FMap.set ∅ (.inst 4) heapLoadInfo) ⟨1, FMap.set ∅ (.inst 4) heapLoadInfo⟩) := by
  intro h
  obtain ⟨n, hn, hheap⟩ := h.notHeap (.inst 4) (by decide)
  exact hheap (.inst 4) (by decide) hn

end MSV
