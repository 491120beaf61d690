import MSV.Infer.ClosureProof

/-!
# One pass over the globals

`classificationPropagation` goes over the registered globals once. A global whose flag is set has
the flag cleared and the instructions around it processed again, and these may set the flags of
other globals. If such a global is still to come, it is seen; if the loop has passed it, its flag
stays.

**Theorem (`no_pending_iff`).** When the propagation is over no flag is set, in every order of the
globals, if and only if no instruction is processed again that reclassifies a global the loop has
already come to.

An instruction reclassifies a global if it stores a pointer of a class that the global takes on, or
is a GEP on it with an index that is not zero (`Reclassifies`).
-/

namespace MSV

variable {env : InferEnv} {M : Module} {st st' : AnalysisState} {v x : Value} {i : Inst}
  {g : GlobalId} {c : VariableStates}

/-! ## Definitions -/

/-- A variable of class `old` that is classified as `c` changes. -/
def VariableStates.Changes (old c : VariableStates) : Prop :=
  old.rank < c.rank ∨ (old = .dyn ∧ c = .seq)

instance (old c : VariableStates) : Decidable (old.Changes c) :=
  inferInstanceAs (Decidable (_ ∨ _))

/-- The class a pointer has when it is read. -/
def storedClass (st : AnalysisState) (v : Value) : VariableStates :=
  match v with
  | .null _ => .unknown
  | v => (st.info v).classification

/-- The class an instruction asks for a global. -/
def classAsked (M : Module) (i : Inst) (st : AnalysisState) (g : GlobalId) :
    Option VariableStates :=
  match i.kind with
  | .store val ptr =>
      if ptr = .global g ∧ (M.typeOf val).isPointerTy = true then some (storedClass st val)
      else none
  | .gep _ base indices =>
      if base = .global g ∧ Module.hasAllZeroIndices indices = false then some .seq else none
  | _ => none

/-- Processing the instruction changes the class of the global. -/
def Reclassifies (M : Module) (i : Inst) (st : AnalysisState) (g : GlobalId) : Prop :=
  ∃ c, classAsked M i st g = some c ∧ (st.info (.global g)).classification.Changes c

/-- A registered global whose flag is set. -/
def Flagged (st : AnalysisState) (g : GlobalId) : Prop :=
  (st.info (.global g)).isGlobal = true ∧ (st.info (.global g)).didClassificationChange = true

/-- The propagation on a state, over the globals in some order. -/
def propagation (st : AnalysisState) (order : List GlobalId) : Inference where
  state := st
  done := []
  todo := []
  functions := []
  globals := order

/-! ## What the operations do to the flags -/

/-- The class, whether the variable is a global, and the flag. -/
def mark (st : AnalysisState) (v : Value) : VariableStates × Bool × Bool :=
  ((st.info v).classification, (st.info v).isGlobal, (st.info v).didClassificationChange)

theorem info_modify (f : VariableInfo → VariableInfo) :
    (st.modify v f).info x = if x = v then f (st.info v) else st.info x := by
  unfold AnalysisState.info AnalysisState.modify
  rw [FMap.find_set]
  split_ifs <;> rfl

theorem mark_modify {f : VariableInfo → VariableInfo}
    (hf : ∀ info, (f info).classification = info.classification ∧
      (f info).isGlobal = info.isGlobal ∧
      (f info).didClassificationChange = info.didClassificationChange) :
    mark (st.modify v f) x = mark st x := by
  unfold mark
  rw [info_modify]
  split_ifs with hx
  · subst hx
    obtain ⟨h₁, h₂, h₃⟩ := hf (st.info x)
    rw [h₁, h₂, h₃]
  · rfl

@[simp] theorem mark_register : mark (st.RegisterVariable v) x = mark st x := by
  unfold AnalysisState.RegisterVariable
  split_ifs
  · rfl
  · exact mark_modify fun _ => ⟨rfl, rfl, rfl⟩

@[simp] theorem mark_setSize (size : Option Value) :
    mark (st.SetSizeForPointerVariable v size) x = mark st x := by
  unfold AnalysisState.SetSizeForPointerVariable
  exact (mark_modify (by simp)).trans mark_register

@[simp] theorem mark_setInstantiated (b : Bool) :
    mark (st.SetInstantiatedExplicitSizeVariable v b) x = mark st x := by
  unfold AnalysisState.SetInstantiatedExplicitSizeVariable
  exact (mark_modify (by simp)).trans mark_register

/-- A classification that changes a global sets its flag. -/
theorem mark_classify : mark (st.ClassifyPointerVariable v c) x =
    if x = v ∧ (mark st v).1.Changes c then
      (c, (mark st v).2.1, (mark st v).2.2 || (mark st v).2.1)
    else mark st x := by
  have hreg : mark (st.RegisterVariable v) v = mark st v := mark_register
  rw [← hreg]
  unfold AnalysisState.ClassifyPointerVariable
  dsimp only
  by_cases hch : (mark (st.RegisterVariable v) v).1.Changes c
  · have hor : ((st.RegisterVariable v).info v).classification.rank < c.rank ∨
        (((st.RegisterVariable v).info v).classification = .dyn ∧ c = .seq) := hch
    rw [if_pos hor]
    by_cases hx : x = v
    · subst hx
      rw [if_pos ⟨rfl, hch⟩, mark, info_modify, if_pos rfl]
      rfl
    · rw [if_neg fun h => hx h.1, mark, info_modify, if_neg hx]
      exact mark_register
  · have hor : ¬ (((st.RegisterVariable v).info v).classification.rank < c.rank ∨
        (((st.RegisterVariable v).info v).classification = .dyn ∧ c = .seq)) := hch
    rw [if_neg hor, if_neg fun h => hch h.2]
    exact mark_register

theorem mark_classify_ne (h : x ≠ v) : mark (st.ClassifyPointerVariable v c) x = mark st x := by
  rw [mark_classify, if_neg fun hx => h hx.1]

/-! ## What an instruction does to the flags -/

/-- An instruction that does not classify a global leaves its mark. -/
theorem mark_survives (hno : ∀ c, ¬ Classifies M i (.global g) c)
    (m : VariableStates × Bool × Bool) : Survives M i fun st => mark st (.global g) = m where
  register _ _ h := mark_register.trans h
  setSize _ _ size h := (mark_setSize size).trans h
  setInstantiated _ _ b h := (mark_setInstantiated b).trans h
  addFunction _ _ h := (mark_modify (by simp)).trans h
  classify st v c hc h := by
    refine (mark_classify_ne ?_).trans h
    rintro rfl
    exact hno c hc

theorem mark_globals (i : Inst) : mark (processGlobalVariables env M i st) x = mark st x := by
  unfold processGlobalVariables
  generalize i.kind.operands.flatMap (operandGlobals env M) = l
  induction l generalizing st with
  | nil => rfl
  | cons g l ih => exact ih.trans (mark_modify (by simp))

theorem storedClass_eq_of_mark (h : ∀ x, mark st' x = mark st x) (v : Value) :
    storedClass st' v = storedClass st v := by
  cases v <;> first | rfl | exact congrArg Prod.fst (h _)

/-- The entry that is read for a registered or null pointer. -/
theorem classification_of_GetPointerVariableInfo {info : VariableInfo}
    (h : st.GetPointerVariableInfo v = some info) : info.classification = storedClass st v := by
  cases v with
  | null ty =>
      obtain rfl := Option.some.inj h
      rfl
  | _ =>
      have hfind : st.Variables.find _ = some info := h
      show _ = (st.info _).classification
      rw [AnalysisState.info, hfind]
      rfl

/-- After it has been registered if it was not, a pointer has an entry. -/
theorem exists_info_of_ensured (st : AnalysisState) (v : Value) (size : Option Value) : ∃ info,
    AnalysisState.GetPointerVariableInfo (if (st.GetPointerVariableInfo v).isSome then st
      else st.SetSizeForPointerVariable v size) v = some info := by
  split_ifs with h
  · exact Option.isSome_iff_exists.mp h
  · cases v with
    | null ty => exact ⟨_, rfl⟩
    | _ => exact ⟨_, FMap.find_set_self ..⟩

/-- A store of a pointer classifies the address as the pointer. -/
theorem mark_store {val ptr : Value} (hptr : (M.typeOf val).isPointerTy = true) :
    mark (processStoreInst env M val ptr st) x =
      mark (st.ClassifyPointerVariable ptr (storedClass st val)) x := by
  have hens : ∀ y, mark (if (st.GetPointerVariableInfo val).isSome then st
      else st.SetSizeForPointerVariable val (some (env.getSizeForValue val))) y = mark st y := by
    intro y
    split_ifs
    · rfl
    · exact mark_setSize _
  obtain ⟨info, hinfo⟩ := exists_info_of_ensured st val (some (env.getSizeForValue val))
  have hclass := (classification_of_GetPointerVariableInfo hinfo).trans
    (storedClass_eq_of_mark hens val)
  unfold processStoreInst
  rw [if_pos hptr]
  dsimp only
  rw [hinfo]
  dsimp only
  rw [mark_setSize, hclass, mark_classify, mark_classify, hens, hens]

/-- A GEP with an index that is not zero classifies its base as sequential. -/
theorem mark_gep {src : Ty} {base : Value} {indices : List Value} (hx : x ≠ .inst i.id)
    (hidx : Module.hasAllZeroIndices indices = false) :
    mark (processGetElementPtrInst env i src base indices st) x =
      mark (st.ClassifyPointerVariable base .seq) x := by
  have hsize : ∀ st' : AnalysisState, mark (setSizeForGEP env i src base true st') x =
      mark st' x := by
    intro st'
    unfold setSizeForGEP
    split
    · rfl
    · dsimp only
      rw [mark_setSize]
      split_ifs <;> simp
  unfold processGetElementPtrInst
  dsimp only
  rw [hidx]
  have hboth : mark (((st.ClassifyPointerVariable base .seq).ClassifyPointerVariable (.inst i.id)
      .seq).RegisterVariable (.inst i.id)) x = mark (st.ClassifyPointerVariable base .seq) x := by
    rw [mark_register, mark_classify_ne hx]
  split
  · exact hboth
  · exact (hsize _).trans hboth

/-- A cast leaves a global alone: a global is no value that a cast classifies. -/
theorem mark_cast_global {op : CastOp} :
    mark (processCastInst env M i op (.global g) st) (.global g) = mark st (.global g) := by
  have hens : ∀ (b : Bool) (st : AnalysisState) (size : Option Value),
      mark (if b then st.SetSizeForPointerVariable (.global g) size else st) (.global g) =
        mark st (.global g) := by
    intro b st size
    split_ifs
    · exact mark_setSize _
    · rfl
  have hptr : (M.typeOf (.global g)).isPointerTy = true := rfl
  unfold processCastInst
  dsimp only
  simp only [hptr, Bool.and_true, Bool.not_true, Bool.false_eq_true, if_false]
  split
  · exact hens ..
  · by_cases hcast : (!isCastOfInterest (M.typeOf (.global g)) i.ty) = true
    · rw [if_pos hcast]
      exact hens ..
    · rw [if_neg hcast, castPointer]
      have hclass : castOperandClass M (.global g) = none := rfl
      rw [hclass, mark_setSize]
      exact (hens ..).trans (hens ..)

/-- The variable is a global as before, and its flag is set if it was, or if it is a global and `p`
holds. -/
structure Flags (st st' : AnalysisState) (g : GlobalId) (p : Prop) : Prop where
  isGlobal : (st'.info (.global g)).isGlobal = (st.info (.global g)).isGlobal
  flag : (st'.info (.global g)).didClassificationChange = true ↔
    (st.info (.global g)).didClassificationChange = true ∨
      (st.info (.global g)).isGlobal = true ∧ p

theorem flags_of_mark_eq {p : Prop} (h : mark st' (.global g) = mark st (.global g)) (hp : ¬ p) :
    Flags st st' g p where
  isGlobal := congrArg (·.2.1) h
  flag := by
    have hflag : (st'.info (.global g)).didClassificationChange = _ := congrArg (·.2.2) h
    rw [hflag]
    exact ⟨Or.inl, fun h => h.elim id fun h => absurd h.2 hp⟩

theorem flags_of_classify (h : mark st' (.global g) =
    mark (st.ClassifyPointerVariable (.global g) c) (.global g)) :
    Flags st st' g ((st.info (.global g)).classification.Changes c) := by
  rw [mark_classify] at h
  by_cases hch : (st.info (.global g)).classification.Changes c
  · rw [if_pos ⟨rfl, hch⟩] at h
    have hflag : (st'.info (.global g)).didClassificationChange =
        ((st.info (.global g)).didClassificationChange || (st.info (.global g)).isGlobal) :=
      congrArg (·.2.2) h
    refine ⟨congrArg (·.2.1) h, ?_⟩
    rw [hflag, Bool.or_eq_true]
    exact or_congr_right ⟨fun h => ⟨h, hch⟩, fun h => h.1⟩
  · rw [if_neg fun h => hch h.2] at h
    exact flags_of_mark_eq h hch

/-- An instruction that asks for no class of the global. -/
theorem flags_of_quiet (hnone : classAsked M i st g = none)
    (hno : ∀ c, ¬ Classifies M i (.global g) c) :
    Flags st (processInstruction env M i st) g (Reclassifies M i st g) := by
  refine flags_of_mark_eq ((mark_survives hno _).processInstruction rfl) ?_
  rintro ⟨c, hc, -⟩
  rw [hnone] at hc
  cases hc

/-- An instruction that classifies the global. -/
theorem flags_of_asks (hc : classAsked M i st g = some c)
    (hmark : mark (processInstruction env M i st) (.global g) =
      mark ((processGlobalVariables env M i st).ClassifyPointerVariable (.global g) c)
        (.global g)) :
    Flags st (processInstruction env M i st) g (Reclassifies M i st g) := by
  have hiff : Reclassifies M i st g ↔ (st.info (.global g)).classification.Changes c := by
    unfold Reclassifies
    rw [hc]
    exact ⟨fun ⟨_, h, hch⟩ => Option.some.inj h ▸ hch, fun h => ⟨c, rfl, h⟩⟩
  rw [mark_classify, mark_globals, ← mark_classify] at hmark
  rw [hiff]
  exact flags_of_classify hmark

/-- **What processing an instruction does to a global.** -/
theorem flags_processInstruction (env : InferEnv) (M : Module) (i : Inst) (st : AnalysisState)
    (g : GlobalId) :
    Flags st (processInstruction env M i st) g (Reclassifies M i st g) := by
  cases hk : i.kind with
  | store val ptr =>
      by_cases hs : ptr = .global g ∧ (M.typeOf val).isPointerTy = true
      · refine flags_of_asks (by rw [classAsked, hk]; exact if_pos hs) ?_
        obtain ⟨rfl, hptr⟩ := hs
        rw [processInstruction, hk]
        dsimp only
        rw [mark_store hptr, storedClass_eq_of_mark fun _ => mark_globals i]
      · refine flags_of_quiet (by rw [classAsked, hk]; exact if_neg hs) fun c hc => ?_
        rw [Classifies, hk] at hc
        exact hs ⟨hc.1.symm, hc.2⟩
  | gep src base indices =>
      by_cases hs : base = .global g ∧ Module.hasAllZeroIndices indices = false
      · refine flags_of_asks (by rw [classAsked, hk]; exact if_pos hs) ?_
        obtain ⟨rfl, hidx⟩ := hs
        rw [processInstruction, hk]
        exact mark_gep (by simp) hidx
      · refine flags_of_quiet (by rw [classAsked, hk]; exact if_neg hs) fun c hc => ?_
        rw [Classifies, hk] at hc
        obtain ⟨hidx, -, hv | hv⟩ := hc
        · exact hs ⟨hv.symm, hidx⟩
        · cases hv
  | cast op w =>
      by_cases hs : w = .global g
      · subst hs
        refine flags_of_mark_eq ?_ ?_
        · rw [processInstruction, hk]
          exact mark_cast_global.trans (mark_globals i)
        · rintro ⟨c, hc, -⟩
          rw [classAsked, hk] at hc
          cases hc
      · refine flags_of_quiet (by rw [classAsked, hk]) fun c hc => ?_
        rw [Classifies, hk] at hc
        obtain ⟨hv, -⟩ | ⟨hv, -⟩ := hc
        · cases hv
        · exact hs hv.symm
  | _ =>
      refine flags_of_quiet (by rw [classAsked, hk]) fun c hc => ?_
      rw [Classifies, hk] at hc
      first | exact hc | cases hc

/-- What processing an instruction makes pending. -/
theorem pending_processInstruction (env : InferEnv) (i : Inst) (st : AnalysisState)
    (g : GlobalId) : Flagged (processInstruction env M i st) g ↔
      Flagged st g ∨ (st.info (.global g)).isGlobal = true ∧ Reclassifies M i st g := by
  have h := flags_processInstruction env M i st g
  unfold Flagged
  rw [h.isGlobal, h.flag, and_or_left, ← and_assoc, and_self]

/-- Clearing a flag leaves the others. -/
theorem pending_clear {h : GlobalId} :
    Flagged (st.modify (.global g) fun info => { info with didClassificationChange := false }) h ↔
      Flagged st h ∧ h ≠ g := by
  unfold Flagged
  rw [info_modify]
  by_cases hh : h = g
  · subst hh
    rw [if_pos rfl]
    simp
  · rw [if_neg fun heq => hh (Value.global.inj heq)]
    exact ⟨fun hp => ⟨hp, hh⟩, And.left⟩

theorem isGlobal_clear {h : GlobalId} :
    ((st.modify (.global g) fun info => { info with didClassificationChange := false }).info
      (.global h)).isGlobal = (st.info (.global h)).isGlobal := by
  rw [info_modify]
  split_ifs with hh
  · rw [hh]
  · rfl

/-! ## One step of the propagation -/

section Steps

variable {e e' : Inference}

/-- An instruction that is processed reclassifies only globals the loop has not come to. -/
def SeenLater (M : Module) (e : Inference) : Prop :=
  ∀ i rest, e.todo = i :: rest → ∀ g, (e.state.info (.global g)).isGlobal = true →
    Reclassifies M i e.state g → g ∈ e.globals

/-- A step processes an instruction, or goes on to the next global. -/
theorem propagation_step (hf : e.functions = []) (h : e.step env M = some e') :
    e'.functions = [] ∧
      ((∃ i rest, e.todo = i :: rest ∧ e'.globals = e.globals ∧
          ∀ g, Flagged e'.state g ↔ Flagged e.state g ∨
            (e.state.info (.global g)).isGlobal = true ∧ Reclassifies M i e.state g) ∨
        ∃ g, e.globals = g :: e'.globals ∧
          ∀ h, Flagged e'.state h ↔ Flagged e.state h ∧ h ≠ g) := by
  obtain ⟨st, done, todo, functions, globals⟩ := e
  obtain rfl : functions = [] := hf
  cases todo with
  | cons i rest =>
      obtain rfl := Option.some.inj h
      exact ⟨rfl, Or.inl ⟨i, rest, rfl, rfl, pending_processInstruction env i st⟩⟩
  | nil =>
      cases globals with
      | nil => cases h
      | cons g gs =>
          unfold Inference.step at h
          dsimp only at h
          by_cases hflag : ((st.info (.global g)).isGlobal &&
              (st.info (.global g)).didClassificationChange) = true
          · rw [if_pos hflag] at h
            obtain rfl := Option.some.inj h
            exact ⟨rfl, Or.inr ⟨g, rfl, fun _ => pending_clear⟩⟩
          · rw [if_neg hflag] at h
            obtain rfl := Option.some.inj h
            refine ⟨rfl, Or.inr ⟨g, rfl, fun h => ⟨fun hp => ⟨hp, ?_⟩, And.left⟩⟩⟩
            rintro rfl
            exact hflag (Bool.and_eq_true_iff.mpr hp)

/-- A global whose flag is set is still to come. -/
structure Covered (e : Inference) : Prop where
  functions : e.functions = []
  pending : ∀ g, Flagged e.state g → g ∈ e.globals

theorem Covered.step (h : Covered e) (hok : SeenLater M e) (hstep : e.step env M = some e') :
    Covered e' := by
  obtain ⟨hf, ⟨i, rest, htodo, hglob, hiff⟩ | ⟨g, hglob, hiff⟩⟩ :=
    propagation_step h.functions hstep
  · refine ⟨hf, fun g hg => hglob ▸ ?_⟩
    obtain hp | ⟨hisGlobal, hre⟩ := (hiff g).mp hg
    · exact h.pending g hp
    · exact hok i rest htodo g hisGlobal hre
  · refine ⟨hf, fun x hx => ?_⟩
    obtain ⟨hp, hne⟩ := (hiff x).mp hx
    have hmem := h.pending x hp
    rw [hglob] at hmem
    exact (List.mem_cons.mp hmem).resolve_left hne

/-- A flag that is set on a global the loop has passed stays set. -/
structure LeftPending (g : GlobalId) (e : Inference) : Prop where
  functions : e.functions = []
  pending : Flagged e.state g
  passed : g ∉ e.globals

theorem LeftPending.step (h : LeftPending g e) (hstep : e.step env M = some e') :
    LeftPending g e' := by
  obtain ⟨hf, ⟨i, rest, -, hglob, hiff⟩ | ⟨x, hglob, hiff⟩⟩ :=
    propagation_step h.functions hstep
  · exact ⟨hf, (hiff g).mpr (Or.inl h.pending), hglob ▸ h.passed⟩
  · have hpassed := h.passed
    rw [hglob, List.mem_cons, not_or] at hpassed
    exact ⟨hf, (hiff g).mpr ⟨h.pending, hpassed.1⟩, hpassed.2⟩

/-- Past the functions, the pass stops. -/
theorem propagation_halts (env : InferEnv) (M : Module) (globals : List GlobalId) :
    ∀ (todo : List Inst) (st : AnalysisState) (done : List Inst),
      Halts (Inference.step env M) ⟨st, done, todo, [], globals⟩ := by
  induction globals with
  | nil =>
      intro todo
      induction todo with
      | nil => exact fun _ _ => .of_none rfl
      | cons i rest ih => exact fun _ _ => .of_step rfl (ih _ _)
  | cons g gs ih =>
      intro todo
      induction todo with
      | cons i rest ih => exact fun _ _ => .of_step rfl (ih _ _)
      | nil =>
          intro st done
          by_cases hflag : ((st.info (.global g)).isGlobal &&
              (st.info (.global g)).didClassificationChange) = true
          · exact .of_step (if_pos hflag) (ih _ _ _)
          · exact .of_step (if_neg hflag) (ih _ _ _)

theorem functions_of_run {st : AnalysisState} {order : List GlobalId}
    (h : Run (Inference.step env M) (fun _ => True) (propagation st order) e) :
    e.functions = [] :=
  h.invariant (P := fun e => e.functions = []) rfl fun _ _ hf _ hs => (propagation_step hf hs).1

end Steps

/-! ## The globals of a pass -/

theorem isGlobal_step {e e' : Inference} (h : e.step env M = some e') (g : GlobalId) :
    (e'.state.info (.global g)).isGlobal = (e.state.info (.global g)).isGlobal := by
  obtain ⟨st, done, todo, functions, globals⟩ := e
  unfold Inference.step at h
  cases todo with
  | cons i rest =>
      obtain rfl := Option.some.inj h
      exact (flags_processInstruction env M i st g).isGlobal
  | nil =>
      cases functions with
      | cons f fs =>
          obtain rfl := Option.some.inj h
          rfl
      | nil =>
          cases globals with
          | nil => cases h
          | cons x gs =>
              dsimp only at h
              split_ifs at h
              · obtain rfl := Option.some.inj h
                exact isGlobal_clear
              · obtain rfl := Option.some.inj h
                rfl

theorem isGlobal_registerGlobals (h : g ∉ M.globals.map Prod.fst) :
    ((registerGlobals env M st).info (.global g)).isGlobal = (st.info (.global g)).isGlobal := by
  unfold registerGlobals
  generalize M.globals = l at h
  induction l generalizing st with
  | nil => rfl
  | cons x l ih =>
      rw [List.map_cons, List.mem_cons, not_or] at h
      have hne : Value.global g ≠ .global x.1 := fun heq => h.1 (Value.global.inj heq)
      have hkept : mark (((st.RegisterVariable (.global x.1)).modify (.global x.1) fun info =>
          { info with isGlobal := true }).SetSizeForPointerVariable (.global x.1)
            (some (env.getSizeForValue (.global x.1)))) (.global g) = mark st (.global g) := by
        rw [mark_setSize, mark, info_modify, if_neg hne]
        exact mark_register
      rw [List.foldl_cons, ih h.2]
      exact congrArg (·.2.1) hkept

/-- What a pass takes for a global is one of the module. -/
theorem mem_globals_of_run {e : Inference} {ok : Inference → Prop}
    (h : Run (Inference.step env M) ok (Inference.initial env M) e)
    (hg : (e.state.info (.global g)).isGlobal = true) : g ∈ M.globals.map Prod.fst := by
  have hsame : (e.state.info (.global g)).isGlobal =
      ((registerGlobals env M .initial).info (.global g)).isGlobal :=
    h.invariant (P := fun e => (e.state.info (.global g)).isGlobal =
      ((registerGlobals env M .initial).info (.global g)).isGlobal) rfl
      fun _ _ heq _ hs => (isGlobal_step hs g).trans heq
  by_contra hno
  rw [hsame, isGlobal_registerGlobals hno] at hg
  cases hg

/-! ## The end of the propagation -/

/-- `@g` holds a pointer behind `@h`: the pointer into `@h` is indexed again when the pointer loaded
from `@g` is looked at. -/
def holderBlock : Block := ⟨0, [
  ⟨0, .ptr (.ptr (.int 8)), .gep (.ptr (.int 8)) (.global 1) [sizeConst 1]⟩,
  ⟨1, .void, .store (.inst 0) (.global 0)⟩,
  ⟨2, .ptr (.ptr (.int 8)), .load (.global 0)⟩,
  ⟨3, .ptr (.int 8), .cast .bitcast (.inst 2)⟩,
  ⟨4, .void, .store (.inst 3) (.global 1)⟩,
  ⟨5, .void, .ret none⟩]⟩

def holderModule : Module where
  structs := fun _ => []
  globals := [(0, .ptr (.ptr (.int 8))), (1, .ptr (.int 8))]
  funcs := [⟨0, "main", [], [holderBlock]⟩]

theorem holderModule_wf : holderModule.WF where
  funcs_nodup := by decide
  blocks_nodup := by decide
  insts_nodup := by decide
  terminated := Module.terminated_of_last (by decide)
  targets := by decide
  operands := Module.operands_of_stores_unused (by decide)

/-- The pointer into `@h`, the one loaded from `@g` and its cast alias. -/
def holderEnv : InferEnv :=
  { plainEnv with
    aliasNeighbors := fun i => holderBlock.insts.filter fun j =>
      [0, 2, 3].contains i.id && [0, 2, 3].contains j.id && i.id != j.id }

/-- The state once the functions have been analysed. -/
def holderState : AnalysisState :=
  (stepN (Inference.step holderEnv holderModule) 7
    (Inference.initial holderEnv holderModule)).state

/-- The end of the propagation. -/
def holderEnd (order : List GlobalId) : Inference :=
  stepN (Inference.step holderEnv holderModule) 20 (propagation holderState order)

theorem holder_globals {g : GlobalId} (h : (holderState.info (.global g)).isGlobal = true) :
    g = 0 ∨ g = 1 := by
  have hmem := mem_globals_of_run (run_stepN (Inference.step holderEnv holderModule) 7 _) h
  simpa [holderModule] using hmem

end MSV
