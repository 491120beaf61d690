import MSV.Dataflow.Coverage
import MSV.Range.VerdictProof

/-!
# GEPs that are never looked at

The verdict looks at the GEPs that are keys of the results, and at no others: a GEP the range
analysis did not visit is neither examined nor put in `heapUnsafeSeqPointerSet`. The comment at
`getCalledFunction` promises that what indirect calls hide is classified unsafe later; nothing
does so.

**Theorem (`examined_or_unsafe_iff`).** A sequential pointer GEP is examined or unsafe exactly when
it is in the entry function, or in a reachable block of a function that is called from it.
-/

namespace MSV

/-- The GEP is a key of the results of some context and function. -/
def Examined (results : RangeResults) (g : InstId) : Prop :=
  ∃ x ∈ results.entries, x.2.has (.inst g)

theorem examined_iff (e : Engine RangeValue) (g : InstId) :
    Examined e.allResults g ↔ ∃ cf, (e.results cf).has (.inst g) := by
  unfold Examined Engine.results FMap.get
  constructor
  · rintro ⟨⟨cf, r⟩, hx, hk⟩
    refine ⟨cf, ?_⟩
    have hfind : e.allResults.find cf = some r := AList.mem_lookup_iff.mpr hx
    rw [hfind]
    exact hk
  · rintro ⟨cf, hk⟩
    cases hfind : e.allResults.find cf with
    | none =>
        rw [hfind] at hk
        exact absurd hk (FMap.not_has_empty _)
    | some r =>
        rw [hfind] at hk
        exact ⟨⟨cf, r⟩, AList.mem_lookup_iff.mp hfind, hk⟩

/-- An instruction is in one function only. -/
theorem Module.WF.func_of_inst {M : Module} (hM : M.WF) {f f' : Function} (hf : f ∈ M.funcs)
    (hf' : f' ∈ M.funcs) {i i' : Inst} (hi : i ∈ f.insts) (hi' : i' ∈ f'.insts)
    (hid : i.id = i'.id) : f = f' := by
  have hmem : ∀ {f i}, f ∈ M.funcs → i ∈ f.insts → i ∈ M.insts :=
    fun hf hi => List.mem_flatMap.mpr ⟨_, hf, hi⟩
  obtain rfl : i = i' :=
    List.inj_on_of_nodup_map hM.insts_nodup (hmem hf hi) (hmem hf' hi') hid
  have hnd : M.insts.Nodup := List.Nodup.of_map _ hM.insts_nodup
  by_contra hne
  have : Std.Symm (Function.onFun List.Disjoint Function.insts) := ⟨fun _ _ h => h.symm⟩
  exact (List.nodup_flatMap.mp hnd).2.forall hf hf' hne hi hi'

section

variable {M : Module} {DL : DataLayout} {usePC : Bool} {rpot : FuncId → List BlockId}
  {entry f : Function} {e : Engine RangeValue} {heapSeqPointerSet : FMap Value VariableInfo}
  {T : AnalysisState} {g : Inst} {src : Ty} {base : Value} {indices : List Value}
  {info : VariableInfo}

/-- **Coverage.** At the end of the range analysis, a sequential GEP of function `f` is examined or
unsafe exactly when `f` is the entry function, or the GEP is in a reachable block of `f` and `f` is
called from the entry function by direct calls in reachable blocks. -/
theorem examined_or_unsafe_iff (hM : M.WF) (he : entry ∈ M.funcs)
    (hrpo : ReversePostOrder M rpot)
    (hrun : Run (Engine.step M (rangePolicy M DL) usePC rpot) (fun _ => True)
      (Engine.initial [entry.id]) e)
    (hend : e.step M (rangePolicy M DL) usePC rpot = none) (hf : f ∈ M.funcs) (hg : g ∈ f.insts)
    (hgep : g.kind = .gep src base indices) (hseq : heapSeqPointerSet.has (.inst g.id))
    (hinfo : T.GetPointerVariableInfo (.inst g.id) = some info) :
    (Examined e.allResults g.id ∨
        (heapUnsafeSeqPointerSet M DL heapSeqPointerSet T e.allResults).has (.inst g.id)) ↔
      f = entry ∨ Called M entry f ∧ ∃ b ∈ f.blocks, CFGReachable f b.id ∧ g ∈ b.insts := by
  have hmem : ∀ {f i}, f ∈ M.funcs → i ∈ f.insts → i ∈ M.insts :=
    fun hf hi => List.mem_flatMap.mpr ⟨_, hf, hi⟩
  have hunsafe : (heapUnsafeSeqPointerSet M DL heapSeqPointerSet T e.allResults).has
      (.inst g.id) → Examined e.allResults g.id := by
    intro h
    have hkind : M.kindOf (.inst g.id) = some (.gep src base indices) := by
      rw [hM.kindOf_eq (hmem hf hg), hgep]
    obtain ⟨x, hx, hk, -⟩ := (has_heapUnsafeSeqPointerSet hkind hinfo hseq _).mp h
    exact ⟨x, hx, hk⟩
  rw [or_iff_left_of_imp hunsafe, examined_iff, Engine.visited_iff hM he hrpo hrun hend]
  constructor
  · rintro ⟨f', hf', hv⟩
    rcases hv with ⟨rfl, i, hi, hid⟩ | ⟨hc, b, hb, hr, i, hi, hid⟩
    · exact Or.inl (hM.func_of_inst hf hf' hg hi hid.symm)
    · have hi' : i ∈ f'.insts := List.mem_flatMap.mpr ⟨b, hb, hi⟩
      obtain rfl := hM.func_of_inst hf hf' hg hi' hid.symm
      obtain rfl := List.inj_on_of_nodup_map hM.insts_nodup (hmem hf hg) (hmem hf hi') hid.symm
      exact Or.inr ⟨hc, b, hb, hr, hi⟩
  · rintro (rfl | ⟨hc, b, hb, hr, hi⟩)
    · exact ⟨f, hf, Or.inl ⟨rfl, g, hg, rfl⟩⟩
    · exact ⟨f, hf, Or.inr ⟨hc, b, hb, hr, g, hi, rfl⟩⟩

end

/-! ## A function behind a call -/

/-- `%g = getelementptr [10 x i32], [10 x i32]* @a, i64 0, i64 20`. -/
def helperGEP : Inst :=
  ⟨3, .ptr (.int 32), .gep (.array 10 (.int 32)) (.global 0) [sizeConst 0, sizeConst 20]⟩

def helperBlock : Block := ⟨1, [helperGEP, ⟨4, .void, .ret none⟩]⟩

def helperFunction : Function := ⟨1, "helper", [], [helperBlock]⟩

def callerBlock (callee : Callee) : Block :=
  ⟨0, [⟨0, .ptr (.func 0), .load (.global 1)⟩, ⟨1, .void, .call callee []⟩, ⟨2, .void, .ret none⟩]⟩

/-- The entry function, which calls `callee`. -/
def callerFunction (callee : Callee) : Function := ⟨0, "main", [], [callerBlock callee]⟩

def helperModule (callee : Callee) : Module where
  structs := fun _ => []
  globals := [(0, .array 10 (.int 32)), (1, .ptr (.func 0))]
  funcs := [callerFunction callee, helperFunction]

/-- One step of the range analysis of that module. -/
def helperStep (callee : Callee) : Engine RangeValue → Option (Engine RangeValue) :=
  Engine.step (helperModule callee) (rangePolicy (helperModule callee) structlessLayout) false
    fun f => [f]

def helperEnd (callee : Callee) : Engine RangeValue :=
  stepN (helperStep callee) 20 (Engine.initial [0])

/-- The GEP, as the classification hands it over. -/
def helperSeqPointers : FMap Value VariableInfo :=
  FMap.set ∅ (.inst 3) { VariableInfo.registered with classification := .seq }

theorem cfgReachable_single {f : Function} {b : Block} (hb : f.blocks = [b])
    (hs : b.successors = []) (x : BlockId) : CFGReachable f x ↔ x = b.id := by
  constructor
  · intro h
    induction h with
    | entry h => rw [hb] at h; rw [(List.cons.inj h).1]
    | succ _ hmem hsucc _ =>
        rw [hb, List.mem_singleton] at hmem
        rw [hmem, hs] at hsucc
        cases hsucc
  · rintro rfl
    exact .entry hb

theorem helperModule_wf (callee : Callee) : (helperModule callee).WF where
  funcs_nodup := by simp [helperModule, callerFunction, helperFunction]
  blocks_nodup := by
    simp [helperModule, Module.blocks, callerFunction, helperFunction, callerBlock, helperBlock]
  insts_nodup := by
    simp [helperModule, Module.insts, Function.insts, callerFunction, helperFunction, callerBlock,
      helperBlock, helperGEP]
  terminated := Module.terminated_of_last <| by
    simp [helperModule, Module.blocks, callerFunction, helperFunction, callerBlock, helperBlock,
      helperGEP, InstKind.isTerminator]
  targets := by
    simp [helperModule, callerFunction, helperFunction, callerBlock, helperBlock, Block.successors,
      Block.terminator, InstKind.successors]
  operands := Module.operands_of_isStore_eq_false <| by
    simp [helperModule, Module.insts, Function.insts, callerFunction, helperFunction, callerBlock,
      helperBlock, helperGEP, InstKind.isStore]

theorem helperModule_rpo (callee : Callee) :
    ReversePostOrder (helperModule callee) fun f => [f] := by
  intro f hf b
  rw [List.mem_singleton]
  simp only [helperModule, List.mem_cons, List.not_mem_nil, or_false] at hf
  rcases hf with rfl | rfl
  · exact (cfgReachable_single (b := callerBlock callee) rfl rfl b).symm
  · exact (cfgReachable_single (b := helperBlock) rfl rfl b).symm

/-- Behind a direct call the GEP is looked at. -/
theorem examined_behind_direct_call :
    Examined (helperEnd (.direct 1)).allResults 3 ∨
      (heapUnsafeSeqPointerSet (helperModule (.direct 1)) structlessLayout helperSeqPointers
        ⟨1, helperSeqPointers⟩ (helperEnd (.direct 1)).allResults).has (.inst 3) := by
  have hrun : Run (Engine.step (helperModule (.direct 1))
      (rangePolicy (helperModule (.direct 1)) structlessLayout) false fun f => [f]) (fun _ => True)
      (Engine.initial [(callerFunction (.direct 1)).id]) (helperEnd (.direct 1)) :=
    run_stepN (helperStep (.direct 1)) 20 (Engine.initial [0])
  have hcalled : Called (helperModule (.direct 1)) (callerFunction (.direct 1)) helperFunction :=
    .call (b := callerBlock (.direct 1)) .entry List.mem_cons_self (.entry rfl)
      (List.mem_cons_of_mem _ List.mem_cons_self) rfl
  exact (examined_or_unsafe_iff (f := helperFunction) (g := helperGEP) (helperModule_wf _)
    List.mem_cons_self (helperModule_rpo _) hrun (by decide)
    (List.mem_cons_of_mem _ List.mem_cons_self) List.mem_cons_self rfl (by decide) rfl).mpr
    (Or.inr ⟨hcalled, helperBlock, List.mem_cons_self, .entry rfl, List.mem_cons_self⟩)

/-- Behind an indirect call it is neither examined nor unsafe, although it is out of bounds. -/
theorem unexamined_behind_indirect_call :
    (helperModule (.indirect (.inst 0))).WF ∧
      Run (helperStep (.indirect (.inst 0))) (fun _ => True) (Engine.initial [0])
        (helperEnd (.indirect (.inst 0))) ∧
      helperStep (.indirect (.inst 0)) (helperEnd (.indirect (.inst 0))) = none ∧
      helperSeqPointers.has (.inst 3) ∧
      ¬ (Examined (helperEnd (.indirect (.inst 0))).allResults 3 ∨
        (heapUnsafeSeqPointerSet (helperModule (.indirect (.inst 0))) structlessLayout
          helperSeqPointers ⟨1, helperSeqPointers⟩
          (helperEnd (.indirect (.inst 0))).allResults).has (.inst 3)) := by
  refine ⟨helperModule_wf _, run_stepN _ 20 _, by decide, by decide, ?_⟩
  unfold Examined
  decide

end MSV
