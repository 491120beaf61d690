import MSV.Heap.DynCastProof
import MSV.Infer.OperationsProof
import MSV.Infer.Sizes

/-!
# What the sizes are worth

In an execution a pointer that comes from an allocation of a known number of bytes has a place: that
number, and the offset of the pointer. The size recorded for a variable should be at most what is
left there. But an entry is also written when a pointer is stored through the variable, and a size
may be that of the whole object, so next to the state we keep the place each recorded size was made
for (`held`).

**Theorem (`sizeInv_run`).** In every run of the inference whose steps meet the condition, a
constant size that is not zero is at most what is left at the place it was made for.

The condition is on one step: a size found from a type fits, a size that is taken over was made for
a place with no more left, and a size that an offset is subtracted from was made for one with no
more left than the base, or, when the offset counts from the start of the object, than the object.
-/

namespace MSV

/-- Where a pointer points: the bytes of the allocation, and the offset in it. -/
structure Placement where
  size : Nat
  offset : Int
deriving DecidableEq

/-- The bytes from there to the end. -/
def Placement.left (p : Placement) : Int := p.size - p.offset

/-- A size as the subtraction reads it: signed at 64 bits, after an extension with zeros. -/
def APInt.sizeInt (c : APInt) : Int := (c.bits.setWidth 64).toInt

/-- The numbers of 64 bits. -/
def InRange64 (n : Int) : Prop := -2 ^ 63 ≤ n ∧ n < 2 ^ 63

/-- A constant size that is not zero is at most what is left. -/
def Fits (size : Value) (place : Option Placement) : Prop :=
  ∀ s p, size = .constInt s → s.toNat ≠ 0 → place = some p → s.sizeInt ≤ p.left

/-- A size made for the first place will do for the second. -/
def TakenOver (h q : Option Placement) : Prop :=
  ∀ q', q = some q' → ∃ p, h = some p ∧ p.left ≤ q'.left

theorem Fits.takenOver {size : Value} {h q : Option Placement} (hfit : Fits size h)
    (ht : TakenOver h q) : Fits size q := by
  intro s q' hs hne hq
  obtain ⟨p, hp, hle⟩ := ht q' hq
  exact (hfit s p hs hne hp).trans hle

theorem fits_sizeConst_zero (p : Option Placement) : Fits (sizeConst 0) p := by
  intro s _ hs hne
  obtain rfl := Value.constInt.inj hs
  exact absurd rfl hne

theorem APInt.sizeInt_le_toNat (c : APInt) : c.sizeInt ≤ c.toNat := by
  refine (APInt.toInt_le_toNat ⟨64, c.bits.setWidth 64⟩).trans ?_
  simp only [APInt.toNat, BitVec.toNat_setWidth]
  exact Int.ofNat_le.mpr (Nat.mod_le _ _)

/-- The name and arity of an allocation, and the argument that gives the bytes. -/
def allocationArg (f : Function) : Option Nat :=
  if containsText f.name "malloc" && f.params.length == 1 then some 0
  else if containsText f.name "realloc" && f.params.length == 2 then some 1
  else none

/-- An execution, as far as places are concerned. A pointer without a place does not come from an
allocation of a known number of bytes. -/
structure Execution (E : SizeEnv) (M : Module) where
  place : Value → Option Placement
  alloca : ∀ i ∈ M.insts, ∀ ty n p, i.kind = .alloca ty n → place (.inst i.id) = some p →
    ∃ c, n = .constInt c ∧ p = ⟨c.toNat * E.DL.allocSize ty, 0⟩
  call : ∀ i ∈ M.insts, ∀ callee args f k p, i.kind = .call callee args →
    callee.getCalledFunction.bind M.func? = some f → allocationArg f = some k →
    place (.inst i.id) = some p → ∃ c, args[k]? = some (.constInt c) ∧ p = ⟨c.toNat, 0⟩
  gep : ∀ i ∈ M.insts, ∀ src base indices b d, i.kind = .gep src base indices →
    place base = some b → E.accumulateConstantOffset M src indices = some d →
    place (.inst i.id) = some ⟨b.size, b.offset + d⟩
  /-- The evaluation is right where it gives constants. -/
  size_eq : ∀ v p s, place v = some p → (E.compute v).1 = some (.constInt s) → s.toNat = p.size
  offset_eq : ∀ v p o, place v = some p → (E.compute v).2 = some (.constInt o) →
    o.sizeInt = p.offset

/-! ## Sizes and the operations -/

namespace AnalysisState

/-- The size recorded for a variable. -/
def sizeFor (st : AnalysisState) (v : Value) : Option Value :=
  (st.Variables.find v).map VariableInfo.size

/-- Recorded sizes stay; a variable that is registered gets size zero. -/
def SizesKept (st st' : AnalysisState) : Prop :=
  ∀ w, st'.sizeFor w = st.sizeFor w ∨ st.sizeFor w = none ∧ st'.sizeFor w = some (sizeConst 0)

theorem sizesKept_refl (st : AnalysisState) : SizesKept st st := fun _ => Or.inl rfl

theorem SizesKept.trans {st st' st'' : AnalysisState} (h : SizesKept st st')
    (h' : SizesKept st' st'') : SizesKept st st'' := by
  intro w
  obtain hw' | ⟨hnone, hzero⟩ := h' w
  · rw [hw']
    exact h w
  · obtain hw | ⟨-, hw⟩ := h w
    · exact Or.inr ⟨hw.symm.trans hnone, hzero⟩
    · cases hnone.symm.trans hw

variable {st : AnalysisState} {v w : Value}

theorem sizeFor_modify (f : VariableInfo → VariableInfo) :
    (st.modify v f).sizeFor w = if w = v then some (f (st.info v)).size else st.sizeFor w := by
  unfold sizeFor modify
  rw [FMap.find_set]
  split_ifs <;> rfl

/-- A change that leaves the size alone. -/
theorem sizesKept_modify {f : VariableInfo → VariableInfo}
    (hf : ∀ info, (f info).size = info.size) : SizesKept st (st.modify v f) := by
  intro w
  rw [sizeFor_modify, hf]
  split_ifs with hw
  · subst hw
    unfold sizeFor info
    cases st.Variables.find w with
    | none => exact Or.inr ⟨rfl, rfl⟩
    | some x => exact Or.inl rfl
  · exact Or.inl rfl

theorem sizesKept_register : SizesKept st (st.RegisterVariable v) := by
  unfold RegisterVariable
  split_ifs
  · exact sizesKept_refl st
  · exact sizesKept_modify fun _ => rfl

theorem sizesKept_classify (c : VariableStates) :
    SizesKept st (st.ClassifyPointerVariable v c) := by
  unfold ClassifyPointerVariable
  dsimp only
  split_ifs
  · exact sizesKept_register.trans (sizesKept_modify fun _ => rfl)
  · exact sizesKept_register

theorem sizesKept_instantiated (b : Bool) :
    SizesKept st (st.SetInstantiatedExplicitSizeVariable v b) :=
  sizesKept_register.trans (sizesKept_modify fun _ => rfl)

theorem sizeFor_setSize (size : Option Value) : (st.SetSizeForPointerVariable v size).sizeFor w =
    if w = v then some (size.getD (sizeConst 0)) else st.sizeFor w := by
  unfold SetSizeForPointerVariable
  rw [sizeFor_modify]
  split_ifs with hw
  · rfl
  · unfold RegisterVariable
    split_ifs
    · rfl
    · rw [sizeFor_modify, if_neg hw]

end AnalysisState

open AnalysisState

/-- Every recorded size fits the place it was made for. -/
def SizeInv (st : AnalysisState) (held : Value → Option Placement) : Prop :=
  ∀ v size, st.sizeFor v = some size → Fits size (held v)

section

variable {st st' : AnalysisState} {held : Value → Option Placement} {v w : Value}

theorem SizeInv.kept (h : SizeInv st held) (hk : SizesKept st st') : SizeInv st' held := by
  intro v size hv
  obtain hsame | ⟨-, hzero⟩ := hk v
  · exact h v size (hsame.symm.trans hv)
  · obtain rfl := Option.some.inj (hzero.symm.trans hv)
    exact fits_sizeConst_zero _

theorem SizeInv.setSize (h : SizeInv st held) {size : Option Value} {place : Option Placement}
    (hfit : ∀ x, size = some x → Fits x place) :
    SizeInv (st.SetSizeForPointerVariable v size) (Function.update held v place) := by
  intro w x hw
  rw [sizeFor_setSize] at hw
  by_cases hwv : w = v
  · subst hwv
    rw [if_pos rfl] at hw
    rw [Function.update_self]
    obtain rfl := Option.some.inj hw
    cases size with
    | none => exact fits_sizeConst_zero _
    | some x => exact hfit x rfl
  · rw [if_neg hwv] at hw
    rw [Function.update_of_ne hwv]
    exact h w x hw

theorem SizeInv.setZero (h : SizeInv st held) (v : Value) :
    SizeInv (st.SetSizeForPointerVariable v none) held := by
  have : SizeInv _ (Function.update held v (held v)) :=
    h.setSize (v := v) fun x (hx : none = some x) => nomatch hx
  rwa [Function.update_eq_self] at this

/-- The size of an entry, as `GetPointerVariableInfo` gives it. -/
theorem SizeInv.fits_info (h : SizeInv st held) {info : VariableInfo}
    (hinfo : st.GetPointerVariableInfo v = some info) : Fits info.size (held v) := by
  unfold GetPointerVariableInfo at hinfo
  split at hinfo
  · obtain rfl := Option.some.inj hinfo
    exact fits_sizeConst_zero _
  · refine h _ _ ?_
    unfold sizeFor
    rw [hinfo]
    rfl

end

/-! ## What a step is asked -/

section

variable {E : SizeEnv} {M : Module} (X : Execution E M)

/-- The place the size found for an unregistered pointer is made for: the evaluation gives the size
of the whole object. -/
def Execution.standIn (v : Value) : Option Placement :=
  match (E.compute v).1 with
  | some _ => (X.place v).map fun p => ⟨p.size, 0⟩
  | none => X.place v

/-- A size worked out from the type fits. -/
def StandInOK (v : Value) : Prop := (E.compute v).1 = none → Fits (E.manualSize M v) (X.place v)

theorem fits_standIn {v : Value} (h : StandInOK X v) :
    Fits (E.getSizeForValue M v) (X.standIn v) := by
  unfold SizeEnv.getSizeForValue Execution.standIn
  cases hc : (E.compute v).1 with
  | none => exact h hc
  | some size =>
      intro s p hs _ hp
      obtain ⟨q, hq, rfl⟩ := Option.map_eq_some_iff.mp hp
      obtain rfl : size = .constInt s := hs
      have := X.size_eq v q s hq hc
      have := s.sizeInt_le_toNat
      simp only [Placement.left]
      omega

/-- The update of `held` where a size is found for an unregistered pointer. -/
def heldEnsured (missing : Bool) (v : Value) (held : Value → Option Placement) :
    Value → Option Placement :=
  if missing then Function.update held v (X.standIn v) else held

theorem SizeInv.ensured {st : AnalysisState} {held : Value → Option Placement}
    (h : SizeInv st held) (missing : Bool) {v : Value} (hok : missing = true → StandInOK X v) :
    SizeInv (if missing then st.SetSizeForPointerVariable v (some (E.getSizeForValue M v)) else st)
      (heldEnsured X missing v held) := by
  unfold heldEnsured
  cases missing with
  | false => exact h
  | true =>
      refine h.setSize fun x hx => ?_
      obtain rfl := Option.some.inj hx
      exact fits_standIn X (hok rfl)

/-! ## Allocas and calls -/

variable {st : AnalysisState} {held : Value → Option Placement} {i : Inst}

def heldAlloca (i : Inst) (ty : Ty) (held : Value → Option Placement) : Value → Option Placement :=
  if ty.isPointerTy then held else Function.update held (.inst i.id) (X.place (.inst i.id))

theorem SizeInv.alloca (h : SizeInv st held) (hi : i ∈ M.insts) {ty : Ty} {n : Value}
    (hk : i.kind = .alloca ty n) :
    SizeInv (processAllocaInst (E.inferEnv M) i ty n st) (heldAlloca X i ty held) := by
  unfold processAllocaInst heldAlloca
  split_ifs with hptr hconst
  · exact h.kept sizesKept_register
  · -- a product that wraps around is less than the bytes
    refine h.setSize fun x hx s p hs _ hp => ?_
    obtain ⟨c, rfl, rfl⟩ := X.alloca i hi ty n p hk hp
    obtain rfl := Option.some.inj hx
    obtain rfl := Value.constInt.inj hs
    refine (APInt.sizeInt_le_toNat _).trans ?_
    simp only [APInt.ofNat, APInt.toNat, BitVec.toNat_ofNat, Placement.left, sub_zero]
    refine Int.ofNat_le.mpr ((Nat.mod_le _ _).trans ?_)
    exact Nat.mul_le_mul_left _ (Nat.mod_le _ _)
  · refine h.setSize fun x _ s p _ _ hp => ?_
    obtain ⟨c, rfl, -⟩ := X.alloca i hi ty n p hk hp
    exact absurd rfl hconst

def heldCall (i : Inst) (callee : Callee) (held : Value → Option Placement) :
    Value → Option Placement :=
  match callee.getCalledFunction.bind M.func? with
  | none => held
  | some f =>
      match allocationArg f with
      | some _ => Function.update held (.inst i.id) (X.place (.inst i.id))
      | none =>
          if containsText f.name "free" && f.params.length == 1 then held
          else if i.ty.isPointerTy then Function.update held (.inst i.id) (X.standIn (.inst i.id))
          else held

/-- A call that is no allocation gets a size that fits. -/
def CallOK (i : Inst) (callee : Callee) : Prop :=
  ∀ f, callee.getCalledFunction.bind M.func? = some f → allocationArg f = none →
    i.ty.isPointerTy = true → StandInOK X (.inst i.id)

theorem sizesKept_updateRewritten (i : Inst) (f : Function) :
    SizesKept st (updateRewrittenFunctionCall M i f st) := by
  unfold updateRewrittenFunctionCall
  generalize rewrittenReturns M f = l
  induction l generalizing st with
  | nil => exact sizesKept_refl st
  | cons v l ih =>
      rw [List.foldl_cons]
      refine SizesKept.trans ?_ ih
      split
      · exact sizesKept_classify _
      · exact sizesKept_refl st

theorem SizeInv.freed (h : SizeInv st held) (l : List Value) :
    SizeInv (l.foldl (fun st v => st.SetSizeForPointerVariable v none) st) held := by
  induction l generalizing st with
  | nil => exact h
  | cons v l ih => exact ih (h.setZero v)

/-- The size of an allocation is its argument. -/
theorem fits_allocation (hi : i ∈ M.insts) {callee : Callee} {args : List Value} {f : Function}
    {k : Nat} (hk : i.kind = .call callee args)
    (hf : callee.getCalledFunction.bind M.func? = some f) (ha : allocationArg f = some k)
    {x : Value} (hx : args[k]? = some x) : Fits x (X.place (.inst i.id)) := by
  intro s p hs _ hp
  obtain ⟨c, hc, rfl⟩ := X.call i hi callee args f k p hk hf ha hp
  obtain rfl := Option.some.inj (hx.symm.trans hc)
  obtain rfl := Value.constInt.inj hs
  have := c.sizeInt_le_toNat
  simp only [Placement.left]
  omega

theorem SizeInv.call (h : SizeInv st held) (hi : i ∈ M.insts) {callee : Callee} {args : List Value}
    (hk : i.kind = .call callee args) (hok : CallOK X i callee) :
    SizeInv (processCallInst (E.inferEnv M) M i callee args st) (heldCall X i callee held) := by
  unfold processCallInst heldCall
  cases hf : callee.getCalledFunction.bind M.func? with
  | none => exact h
  | some f =>
      dsimp only
      refine SizeInv.kept ?_ (sizesKept_updateRewritten i f)
      unfold callSizes
      by_cases hmalloc : (containsText f.name "malloc" && f.params.length == 1) = true
      · have ha : allocationArg f = some 0 := if_pos hmalloc
        rw [if_pos hmalloc, ha]
        exact h.setSize fun x hx => fits_allocation X hi hk hf ha hx
      · rw [if_neg hmalloc]
        by_cases hrealloc : (containsText f.name "realloc" && f.params.length == 2) = true
        · have ha : allocationArg f = some 1 := (if_neg hmalloc).trans (if_pos hrealloc)
          rw [if_pos hrealloc, ha]
          exact h.setSize fun x hx => fits_allocation X hi hk hf ha hx
        · have ha : allocationArg f = none := (if_neg hmalloc).trans (if_neg hrealloc)
          rw [if_neg hrealloc, ha]
          dsimp only
          split_ifs with hfree hptr
          · split
            · exact SizeInv.freed (h.setZero _) _
            · exact h
          · refine h.setSize fun x hx => ?_
            obtain rfl := Option.some.inj hx
            exact fits_standIn X (hok f hf ha hptr)
          · exact h

/-! ## Stores and loads -/

/-- No variable has an explicit size. -/
def NoExplicit (st : AnalysisState) : Prop :=
  ∀ v info, st.Variables.find v = some info → info.hasExplicitSizeVariable = false

theorem NoExplicit.info (h : NoExplicit st) {v : Value} {info : VariableInfo}
    (hinfo : st.GetPointerVariableInfo v = some info) : info.hasExplicitSizeVariable = false := by
  unfold GetPointerVariableInfo at hinfo
  split at hinfo
  · obtain rfl := Option.some.inj hinfo
    rfl
  · exact h _ info hinfo

theorem NoExplicit.modify (h : NoExplicit st) {v : Value} {f : VariableInfo → VariableInfo}
    (hf : ∀ info, (f info).hasExplicitSizeVariable = info.hasExplicitSizeVariable) :
    NoExplicit (st.modify v f) := by
  intro w info hw
  unfold AnalysisState.modify at hw
  rw [FMap.find_set] at hw
  split_ifs at hw
  · obtain rfl := Option.some.inj hw
    rw [hf]
    unfold AnalysisState.info
    cases hv : st.Variables.find v with
    | none => rfl
    | some x => exact h v x hv
  · exact h w info hw

theorem NoExplicit.register (h : NoExplicit st) (v : Value) :
    NoExplicit (st.RegisterVariable v) := by
  unfold RegisterVariable
  split_ifs
  · exact h
  · exact h.modify fun _ => rfl

theorem NoExplicit.setSize (h : NoExplicit st) (v : Value) (size : Option Value) :
    NoExplicit (st.SetSizeForPointerVariable v size) :=
  (h.register v).modify fun _ => rfl

theorem noExplicit_survives (M : Module) (i : Inst) : Survives M i NoExplicit where
  register _ v h := h.register v
  setSize _ v size h := h.setSize v size
  setInstantiated _ v _ h := (h.register v).modify fun _ => rfl
  addFunction _ _ h := h.modify fun _ => rfl
  classify st v c _ h := by
    unfold ClassifyPointerVariable
    dsimp only
    split_ifs
    · exact (h.register v).modify fun _ => rfl
    · exact h.register v

/-- `GetPointerVariableInfo` finds nothing. -/
def missing (st : AnalysisState) (v : Value) : Bool := !(st.GetPointerVariableInfo v).isSome

theorem ite_registered (st a b : AnalysisState) (v : Value) :
    (if (st.GetPointerVariableInfo v).isSome then a else b) = if missing st v then b else a := by
  unfold missing
  cases (st.GetPointerVariableInfo v).isSome <;> rfl

def heldStore (val ptr : Value) (st : AnalysisState) (held : Value → Option Placement) :
    Value → Option Placement :=
  if (M.typeOf val).isPointerTy then
    let held := heldEnsured X (missing st val) val held
    Function.update held ptr (held val)
  else heldEnsured X (missing st ptr) ptr held

/-- A size that is found for the stored pointer, or for the address, fits. -/
def StoreOK (val ptr : Value) (st : AnalysisState) : Prop :=
  let v := if (M.typeOf val).isPointerTy then val else ptr
  missing st v = true → StandInOK X v

/-- The entry of the address for a value that is no pointer. -/
theorem SizeInv.ensureAccess (h : SizeInv st held) {ptr : Value}
    (hok : missing st ptr = true → StandInOK X ptr) :
    SizeInv (if (st.GetPointerVariableInfo ptr).isSome then st
      else (st.SetSizeForPointerVariable ptr (some (E.getSizeForValue M ptr)))
        |>.SetInstantiatedExplicitSizeVariable ptr true)
      (heldEnsured X (missing st ptr) ptr held) := by
  have hens := h.ensured X (missing st ptr) hok
  rw [ite_registered]
  cases hm : missing st ptr with
  | false => exact h
  | true =>
      rw [hm] at hens
      exact hens.kept (sizesKept_instantiated true)

/-- After its size is found a variable has an entry. -/
theorem exists_info_ensured (st : AnalysisState) (v : Value) (size : Option Value) :
    ∃ info, (if missing st v then st.SetSizeForPointerVariable v size
      else st).GetPointerVariableInfo v = some info := by
  cases hm : missing st v with
  | false =>
      unfold missing at hm
      exact Option.isSome_iff_exists.mp (by simpa using hm)
  | true =>
      rw [if_pos rfl]
      unfold GetPointerVariableInfo
      split
      · exact ⟨_, rfl⟩
      · refine Option.isSome_iff_exists.mp ?_
        rw [← Option.isSome_map (f := VariableInfo.size)]
        show ((st.SetSizeForPointerVariable v size).sizeFor v).isSome = true
        rw [sizeFor_setSize, if_pos rfl]
        rfl

/-- The address takes over the size of the stored pointer. -/
theorem SizeInv.storePointer (h : SizeInv st held) {val ptr : Value}
    (hsome : ∃ info, st.GetPointerVariableInfo val = some info) :
    SizeInv (match st.GetPointerVariableInfo val with
      | some varinfo =>
          (st.ClassifyPointerVariable ptr varinfo.classification).SetSizeForPointerVariable ptr
            (((st.ClassifyPointerVariable ptr varinfo.classification).GetPointerVariableInfo
              val).map VariableInfo.size)
      | none => st) (Function.update held ptr (held val)) := by
  obtain ⟨info, hinfo⟩ := hsome
  rw [hinfo]
  have hcls := h.kept (sizesKept_classify (v := ptr) info.classification)
  refine hcls.setSize fun x hx => ?_
  obtain ⟨info', hinfo', rfl⟩ := Option.map_eq_some_iff.mp hx
  exact hcls.fits_info hinfo'

theorem SizeInv.store (h : SizeInv st held) {val ptr : Value} (hok : StoreOK X val ptr st) :
    SizeInv (processStoreInst (E.inferEnv M) M val ptr st) (heldStore X val ptr st held) := by
  unfold processStoreInst heldStore
  unfold StoreOK at hok
  by_cases hptr : (M.typeOf val).isPointerTy = true
  · rw [if_pos hptr] at hok ⊢
    rw [if_pos hptr]
    have hens := h.ensured X (missing st val) hok
    have hsome := exists_info_ensured st val (some (E.getSizeForValue M val))
    dsimp only
    rw [ite_registered]
    exact hens.storePointer hsome
  · rw [if_neg hptr] at hok ⊢
    rw [if_neg hptr]
    exact h.ensureAccess X hok

def heldLoad (i : Inst) (ptr : Value) (st : AnalysisState) (held : Value → Option Placement) :
    Value → Option Placement :=
  if i.ty.isPointerTy then
    let held := heldEnsured X (missing st ptr && ptr.isConstant) ptr held
    if missing st ptr && !ptr.isConstant then held
    else Function.update held (.inst i.id) (X.place (.inst i.id))
  else heldEnsured X (missing st ptr) ptr held

/-- A size that is found for the address fits; the size of the address, which the loaded pointer
takes over, was made for a pointer with no more left. -/
structure LoadOK (i : Inst) (ptr : Value) (st : AnalysisState) (held : Value → Option Placement) :
    Prop where
  standIn : missing st ptr = true → ptr.isConstant = true ∨ i.ty.isPointerTy = false →
    StandInOK X ptr
  taken : i.ty.isPointerTy = true → (missing st ptr && !ptr.isConstant) = false →
    TakenOver (heldEnsured X (missing st ptr && ptr.isConstant) ptr held ptr)
      (X.place (.inst i.id))

/-- The loaded pointer takes over the size of the address. -/
theorem SizeInv.loadPointer (h : SizeInv st held) (hexp : NoExplicit st) {ptr : Value}
    (hsome : ∃ info, st.GetPointerVariableInfo ptr = some info)
    (ht : TakenOver (held ptr) (X.place (.inst i.id))) :
    SizeInv (match st.GetPointerVariableInfo ptr with
      | some varinfo =>
          let st :=
            if varinfo.hasExplicitSizeVariable && (!varinfo.instantiatedExplicitSizeVariable ||
                inOtherBlock M varinfo.size i) then
              (st.SetSizeForPointerVariable ptr varinfo.explicitSizeVariable)
                |>.SetInstantiatedExplicitSizeVariable ptr true
            else st
          (st.ClassifyPointerVariable (.inst i.id)
            varinfo.classification).SetSizeForPointerVariable (.inst i.id)
              ((st.GetPointerVariableInfo ptr).map (·.size))
      | none => st) (Function.update held (.inst i.id) (X.place (.inst i.id))) := by
  obtain ⟨info, hinfo⟩ := hsome
  rw [hinfo]
  simp only [hexp.info hinfo, Bool.false_and, Bool.false_eq_true, if_false]
  have hcls := h.kept (sizesKept_classify (v := .inst i.id) info.classification)
  refine hcls.setSize fun x hx => ?_
  rw [hinfo] at hx
  obtain rfl := Option.some.inj hx
  exact (h.fits_info hinfo).takenOver ht

theorem SizeInv.load (h : SizeInv st held) (hexp : NoExplicit st) {ptr : Value}
    (hok : LoadOK X i ptr st held) :
    SizeInv (processLoadInst (E.inferEnv M) M i ptr st) (heldLoad X i ptr st held) := by
  unfold processLoadInst heldLoad
  by_cases hty : i.ty.isPointerTy = true
  · rw [if_pos hty, if_pos hty]
    have hens := h.ensured X (v := ptr) (missing st ptr && ptr.isConstant) fun hm => by
      obtain ⟨hm, hc⟩ := Bool.and_eq_true_iff.mp hm
      exact hok.standIn hm (Or.inl hc)
    have hexp' : NoExplicit (if (missing st ptr && ptr.isConstant) = true then
        st.SetSizeForPointerVariable ptr (some (E.getSizeForValue M ptr)) else st) := by
      split_ifs
      · exact hexp.setSize ptr _
      · exact hexp
    cases hnone : (missing st ptr && !ptr.isConstant) with
    | true =>
        obtain ⟨hm, hc⟩ := Bool.and_eq_true_iff.mp hnone
        have hinfo : st.GetPointerVariableInfo ptr = none := by
          unfold missing at hm
          simpa using hm
        have hc : ptr.isConstant = false := by simpa using hc
        simp only [heldEnsured, hm, hinfo, hc, Bool.and_false, Bool.false_eq_true, if_false,
          if_true]
        exact h
    | false =>
        have hsome : ∃ info, (if (missing st ptr && ptr.isConstant) = true then
            st.SetSizeForPointerVariable ptr (some (E.getSizeForValue M ptr))
            else st).GetPointerVariableInfo ptr = some info := by
          have := exists_info_ensured st ptr (some (E.getSizeForValue M ptr))
          cases hm : missing st ptr with
          | false => simpa [hm] using this
          | true =>
              have hc : ptr.isConstant = true := by simpa [hm] using hnone
              simpa [hm, hc] using this
        exact hens.loadPointer X hexp' hsome (hok.taken hty hnone)
  · rw [if_neg hty, if_neg hty]
    exact h.ensureAccess X fun hm => hok.standIn hm (Or.inr (by simpa using hty))

/-! ## Casts -/

/-- A call of size one takes the size of the cast. -/
def castReplaces (M : Module) (op : CastOp) (v : Value) (info : VariableInfo) : Bool :=
  isCallValue M v && op == .bitcast && isOneConstant info.size

/-- `held` before the result gets its size. -/
def heldOperand (i : Inst) (op : CastOp) (v : Value) (info : VariableInfo)
    (held : Value → Option Placement) : Value → Option Placement :=
  if castReplaces M op v info then Function.update held v (X.standIn (.inst i.id)) else held

/-- The entry of the operand, registered if it is a pointer. -/
def castInfo (E : SizeEnv) (M : Module) (v : Value) (st : AnalysisState) : Option VariableInfo :=
  (if missing st v && (M.typeOf v).isPointerTy then
    st.SetSizeForPointerVariable v (some (E.getSizeForValue M v)) else st).GetPointerVariableInfo v

/-- The cast gives its result a size. -/
def castSizes (M : Module) (i : Inst) (v : Value) : Bool :=
  isCastOfInterest (M.typeOf v) i.ty && (M.typeOf v).isPointerTy

def heldCast (i : Inst) (op : CastOp) (v : Value) (st : AnalysisState)
    (held : Value → Option Placement) : Value → Option Placement :=
  let held := heldEnsured X (missing st v && (M.typeOf v).isPointerTy) v held
  match castInfo E M v st with
  | none => held
  | some info =>
      if castSizes M i v then
        Function.update (heldOperand X i op v info held) (.inst i.id) (X.place (.inst i.id))
      else held

/-- The sizes that are found fit, and the one the result takes over was made for a pointer with no
more left. -/
structure CastOK (i : Inst) (op : CastOp) (v : Value) (st : AnalysisState)
    (held : Value → Option Placement) : Prop where
  standIn : missing st v = true → (M.typeOf v).isPointerTy = true → StandInOK X v
  replaced : ∀ info, castInfo E M v st = some info → castSizes M i v = true →
    castReplaces M op v info = true → StandInOK X (.inst i.id)
  taken : ∀ info, castInfo E M v st = some info → castSizes M i v = true →
    TakenOver (heldOperand X i op v info
      (heldEnsured X (missing st v && (M.typeOf v).isPointerTy) v held) v) (X.place (.inst i.id))

theorem SizeInv.castPointer (h : SizeInv st held) {op : CastOp} {v : Value} {info : VariableInfo}
    (hreplaced : castReplaces M op v info = true → StandInOK X (.inst i.id))
    (ht : TakenOver (heldOperand X i op v info held v) (X.place (.inst i.id))) :
    SizeInv (castPointer (E.inferEnv M) M i op v info st)
      (Function.update (heldOperand X i op v info held) (.inst i.id) (X.place (.inst i.id))) := by
  have hop : SizeInv (if castReplaces M op v info then
      st.SetSizeForPointerVariable v (some (E.getSizeForValue M (.inst i.id))) else st)
      (heldOperand X i op v info held) := by
    unfold heldOperand
    split_ifs with hr
    · refine h.setSize fun x hx => ?_
      obtain rfl := Option.some.inj hx
      exact fits_standIn X (hreplaced hr)
    · exact h
  have hset : ∀ st' : AnalysisState, SizeInv st' (heldOperand X i op v info held) →
      SizeInv (st'.SetSizeForPointerVariable (.inst i.id)
          ((st'.GetPointerVariableInfo v).map VariableInfo.size))
        (Function.update (heldOperand X i op v info held) (.inst i.id) (X.place (.inst i.id))) := by
    intro st' h'
    refine h'.setSize fun x hx => ?_
    obtain ⟨info', hinfo', rfl⟩ := Option.map_eq_some_iff.mp hx
    exact (h'.fits_info hinfo').takenOver ht
  unfold MSV.castPointer
  apply hset
  split
  · exact hop.kept ((sizesKept_classify _).trans (sizesKept_classify _))
  · exact hop

theorem SizeInv.cast (h : SizeInv st held) {op : CastOp} {v : Value}
    (hok : CastOK X i op v st held) :
    SizeInv (processCastInst (E.inferEnv M) M i op v st) (heldCast X i op v st held) := by
  have hens := h.ensured X (v := v) (missing st v && (M.typeOf v).isPointerTy) fun hm => by
    obtain ⟨hm, hty⟩ := Bool.and_eq_true_iff.mp hm
    exact hok.standIn hm hty
  have hreplaced := hok.replaced
  have htaken := hok.taken
  unfold processCastInst heldCast
  unfold castInfo at hreplaced htaken ⊢
  show SizeInv (match (if missing st v && (M.typeOf v).isPointerTy then
    st.SetSizeForPointerVariable v (some (E.getSizeForValue M v))
    else st).GetPointerVariableInfo v with
    | none => _
    | some info => _) _
  cases hinfo : (if missing st v && (M.typeOf v).isPointerTy then
    st.SetSizeForPointerVariable v (some (E.getSizeForValue M v))
    else st).GetPointerVariableInfo v with
  | none => exact hens
  | some info =>
      dsimp only
      by_cases hint : isCastOfInterest (M.typeOf v) i.ty = true
      · have hint' : ¬ (!isCastOfInterest (M.typeOf v) i.ty) = true := by simp [hint]
        rw [if_neg hint']
        by_cases hty : (M.typeOf v).isPointerTy = true
        · have hsizes : castSizes M i v = true := by rw [castSizes, hint, hty]; rfl
          have hty' : ¬ (!(M.typeOf v).isPointerTy) = true := by simp [hty]
          rw [if_pos hsizes, if_neg hty']
          exact hens.castPointer X (hreplaced info hinfo hsizes) (htaken info hinfo hsizes)
        · have hsizes : ¬ castSizes M i v = true := by simp [castSizes, hty]
          have hty' : (!(M.typeOf v).isPointerTy) = true := by simp [hty]
          rw [if_neg hsizes, if_pos hty']
          unfold classifyExtOrTruncInst
          by_cases hchange : couldChangeValue M i op v = true
          · rw [if_pos hchange]
            exact hens.kept ((sizesKept_classify _).trans (sizesKept_classify _))
          · rw [if_neg hchange]
            exact hens
      · have hint' : (!isCastOfInterest (M.typeOf v) i.ty) = true := by simp [hint]
        have hsizes : ¬ castSizes M i v = true := by simp [castSizes, hint]
        rw [if_pos hint', if_neg hsizes]
        exact hens

/-! ## GEPs -/

/-- Where the offset of a GEP is counted from. -/
inductive OffsetSource where
  | object
  | base
  /-- The indices are guessed, or given up. -/
  | guessed
deriving DecidableEq

def offsetSource (E : SizeEnv) (M : Module) (i : Inst) : OffsetSource :=
  match i.ty with
  | .vector .. => .guessed
  | _ =>
      if (E.compute (.inst i.id)).2.isSome then .object
      else
        match i.kind with
        | .gep src _ indices =>
            if (E.accumulateConstantOffset M src indices).isSome then .base else .guessed
        | _ => .guessed

/-- What may be left, at most, at the place a size is made for that the offset is subtracted from:
the object, or what is left at the base. -/
def Limit (i : Inst) (base : Value) (q : Placement) (L : Int) : Prop :=
  match offsetSource E M i with
  | .object => L = q.size
  | .base => ∃ b, X.place base = some b ∧ L = b.left ∧ InRange64 (q.offset - b.offset)
  | .guessed => ∃ o, E.getOffsetForGEPInst M i = .constInt o ∧ L = q.left + o.sizeInt

theorem sizeInt_ofInt {n : Int} (h : InRange64 n) : (APInt.ofInt 64 n).sizeInt = n := by
  obtain ⟨hl, hr⟩ := h
  simp only [APInt.sizeInt, APInt.ofInt, BitVec.setWidth_eq, BitVec.toInt_ofInt]
  rw [Int.bmod_eq_of_le] <;> omega

theorem sizeInt_sub {s o : APInt} (h : InRange64 (s.sizeInt - o.sizeInt)) :
    APInt.sizeInt ⟨64, s.bits.setWidth 64 - o.bits.setWidth 64⟩ = s.sizeInt - o.sizeInt := by
  obtain ⟨hl, hr⟩ := h
  unfold APInt.sizeInt at hl hr ⊢
  rw [BitVec.setWidth_eq, BitVec.toInt_sub, Int.bmod_eq_of_le] <;> omega

/-- An offset in the object is the evaluator's. -/
theorem offset_of_object (h : offsetSource E M i = .object) :
    (E.compute (.inst i.id)).2 = some (E.getOffsetForGEPInst M i) := by
  have hsome : (E.compute (.inst i.id)).2.isSome := by
    by_contra hnone
    have hother : offsetSource E M i ≠ .object := by
      unfold offsetSource
      rw [if_neg hnone]
      cases i.ty <;> cases i.kind <;> dsimp only <;> (try split_ifs) <;> decide
    exact hother h
  obtain ⟨x, hx⟩ := Option.isSome_iff_exists.mp hsome
  unfold offsetSource at h
  unfold SizeEnv.getOffsetForGEPInst
  rw [hx]
  cases hty : i.ty with
  | vector n elem =>
      rw [hty] at h
      cases h
  | _ => rfl

/-- An offset in the base is the sum over the indices. -/
theorem offset_of_base {src : Ty} {base : Value} {indices : List Value}
    (hk : i.kind = .gep src base indices) (h : offsetSource E M i = .base) :
    ∃ d, E.accumulateConstantOffset M src indices = some d ∧
      E.getOffsetForGEPInst M i = .constInt (APInt.ofInt 64 d) := by
  unfold offsetSource at h
  rw [hk] at h
  dsimp only at h
  unfold SizeEnv.getOffsetForGEPInst SizeEnv.offsetFromIndices
  rw [hk]
  cases hty : i.ty with
  | vector n elem =>
      rw [hty] at h
      cases h
  | _ =>
      rw [hty] at h
      dsimp only at h
      split_ifs at h with hsome hacc
      obtain ⟨d, hd⟩ := Option.isSome_iff_exists.mp hacc
      refine ⟨d, hd, ?_⟩
      rw [Option.not_isSome_iff_eq_none.mp hsome]
      dsimp only [Option.getD_none]
      rw [hd]

/-- The limit is what is left at the result, with the offset. -/
theorem limit_eq (hi : i ∈ M.insts) {src : Ty} {base : Value} {indices : List Value}
    (hk : i.kind = .gep src base indices) {q : Placement} (hq : X.place (.inst i.id) = some q)
    {L : Int} (hL : Limit X i base q L) {o : APInt}
    (ho : E.getOffsetForGEPInst M i = .constInt o) : L = q.left + o.sizeInt := by
  unfold Limit at hL
  cases hsrc : offsetSource E M i with
  | guessed =>
      rw [hsrc] at hL
      obtain ⟨o', ho', rfl⟩ := hL
      obtain rfl := Value.constInt.inj (ho.symm.trans ho')
      rfl
  | object =>
      rw [hsrc] at hL
      obtain rfl := hL
      have hcompute : (E.compute (.inst i.id)).2 = some (.constInt o) := by
        rw [offset_of_object hsrc, ho]
      have := X.offset_eq _ q o hq hcompute
      simp only [Placement.left]
      omega
  | base =>
      rw [hsrc] at hL
      obtain ⟨b, hb, rfl, hrange⟩ := hL
      obtain ⟨d, hd, hoff⟩ := offset_of_base hk hsrc
      obtain rfl := Value.constInt.inj (ho.symm.trans hoff)
      obtain rfl := Option.some.inj (hq.symm.trans (X.gep i hi src base indices b d hk hb hd))
      have hd' : b.offset + d - b.offset = d := by omega
      dsimp only at hrange
      rw [hd'] at hrange
      rw [sizeInt_ofInt hrange]
      simp only [Placement.left]
      omega

/-- The state in which the size of a GEP is set. -/
def gepState (i : Inst) (base : Value) (indices : List Value) (st : AnalysisState) :
    AnalysisState :=
  (if !Module.hasAllZeroIndices indices then
    (st.ClassifyPointerVariable base .seq).ClassifyPointerVariable (.inst i.id) .seq
  else st).RegisterVariable (.inst i.id)

theorem sizesKept_gepState (i : Inst) (base : Value) (indices : List Value) :
    SizesKept st (gepState i base indices st) := by
  unfold gepState
  refine SizesKept.trans ?_ sizesKept_register
  split_ifs
  · exact (sizesKept_classify _).trans (sizesKept_classify _)
  · exact sizesKept_refl st

/-- What replaces a base size of zero. -/
def replacedSize (E : SizeEnv) (M : Module) (src : Ty) (base : Value) : Value :=
  match src with
  | .array n elem => sizeConst (n * E.DL.allocSize elem)
  | _ => E.getSizeForValue M base

def replacedPlace (src : Ty) (base : Value) : Option Placement :=
  match src with
  | .array .. => X.place base
  | _ => X.standIn base

/-- What replaces a base size of zero fits. -/
def ReplacedOK (src : Ty) (base : Value) : Prop :=
  match src with
  | .array n elem => Fits (sizeConst (n * E.DL.allocSize elem)) (X.place base)
  | _ => StandInOK X base

theorem fits_replaced {src : Ty} {base : Value} (h : ReplacedOK X src base) :
    Fits (replacedSize E M src base) (replacedPlace X src base) := by
  unfold ReplacedOK at h
  unfold replacedSize replacedPlace
  cases src with
  | array n elem => exact h
  | _ => exact fits_standIn X h

/-- The size of the base that the offset is subtracted from. -/
def baseSize (E : SizeEnv) (M : Module) (src : Ty) (base : Value) (info : VariableInfo) : Value :=
  if isZeroConstant info.size then replacedSize E M src base else info.size

def heldBase (src : Ty) (base : Value) (info : VariableInfo) (held : Value → Option Placement) :
    Value → Option Placement :=
  if isZeroConstant info.size then Function.update held base (replacedPlace X src base) else held

def heldGEP (i : Inst) (src : Ty) (base : Value) (indices : List Value) (st : AnalysisState)
    (held : Value → Option Placement) : Value → Option Placement :=
  if (resultElementType i.ty).isPointerTy then held
  else
    match (gepState i base indices st).GetPointerVariableInfo base with
    | none => held
    | some info =>
        Function.update (heldBase X src base info held) (.inst i.id) (X.place (.inst i.id))

/-- The size of the base, made for `h`, gives one for the result. -/
structure DerivesOK (i : Inst) (base : Value) (indices : List Value) (size : Value)
    (h : Option Placement) : Prop where
  /-- Nothing is subtracted. -/
  taken : Module.hasAllZeroIndices indices = true ∨
    (E.getOffsetForGEPInst M i).isConstant = false → TakenOver h (X.place (.inst i.id))
  /-- The difference has 64 bits, and the size was made for a place within the limit. -/
  subtracted : Module.hasAllZeroIndices indices = false → ∀ q s o,
    X.place (.inst i.id) = some q → size = .constInt s →
    E.getOffsetForGEPInst M i = .constInt o → InRange64 (s.sizeInt - o.sizeInt) ∧
      ∃ L p, Limit X i base q L ∧ h = some p ∧ p.left ≤ L ∧ (s.toNat = 0 → 0 ≤ L)

structure GepOK (i : Inst) (src : Ty) (base : Value) (indices : List Value) (st : AnalysisState)
    (held : Value → Option Placement) : Prop where
  replaced : ∀ info, (resultElementType i.ty).isPointerTy = false →
    (gepState i base indices st).GetPointerVariableInfo base = some info →
    isZeroConstant info.size = true → ReplacedOK X src base
  derives : ∀ info, (resultElementType i.ty).isPointerTy = false →
    (gepState i base indices st).GetPointerVariableInfo base = some info →
    DerivesOK X i base indices (baseSize E M src base info) (heldBase X src base info held base)

/-- The size of a GEP: that of the base, less the offset. -/
def derivedSize (E : SizeEnv) (M : Module) (i : Inst) (indices : List Value) (size : Value) :
    Value :=
  if !Module.hasAllZeroIndices indices && (E.getOffsetForGEPInst M i).isConstant &&
      size.isConstant then
    E.constSub size (E.getOffsetForGEPInst M i)
  else size

theorem fits_derived (hi : i ∈ M.insts) {src : Ty} {base : Value} {indices : List Value}
    (hk : i.kind = .gep src base indices) {size : Value} {h : Option Placement} (hfit : Fits size h)
    (hok : DerivesOK X i base indices size h) :
    Fits (derivedSize E M i indices size) (X.place (.inst i.id)) := by
  unfold derivedSize
  split_ifs with hsub
  · simp only [Bool.and_eq_true, Bool.not_eq_true'] at hsub
    obtain ⟨⟨hzero, hoff⟩, hsize⟩ := hsub
    intro s' q hs' _ hq
    unfold SizeEnv.constSub at hs'
    split at hs'
    · rename_i s o ho
      obtain rfl := Value.constInt.inj hs'
      obtain ⟨hrange, L, p, hL, hp, hle, hpos⟩ := hok.subtracted hzero q s o hq rfl ho
      rw [sizeInt_sub hrange]
      have hLq := limit_eq X hi hk hq hL ho
      -- a size of zero is not made for a place
      by_cases hs : s.toNat = 0
      · have := hpos hs
        have := s.sizeInt_le_toNat
        omega
      · have := hfit s p rfl hs hp
        omega
    · cases hs'
  · intro s q hs hne hq
    have htaken : TakenOver h (X.place (.inst i.id)) := by
      subst hs
      refine hok.taken ?_
      by_contra hcon
      simp only [not_or, Bool.not_eq_true, Bool.not_eq_false] at hcon
      refine hsub ?_
      rw [hcon.1, hcon.2]
      rfl
    exact (hfit.takenOver htaken) s q hs hne hq

theorem SizeInv.gep (h : SizeInv st held) (hi : i ∈ M.insts) {src : Ty} {base : Value}
    {indices : List Value} (hk : i.kind = .gep src base indices)
    (hok : GepOK X i src base indices st held) :
    SizeInv (processGetElementPtrInst (E.inferEnv M) i src base indices st)
      (heldGEP X i src base indices st held) := by
  have hst := h.kept (sizesKept_gepState i base indices)
  unfold processGetElementPtrInst heldGEP
  show SizeInv (if (resultElementType i.ty).isPointerTy then gepState i base indices st
    else setSizeForGEP (E.inferEnv M) i src base (!Module.hasAllZeroIndices indices)
      (gepState i base indices st)) _
  by_cases hty : (resultElementType i.ty).isPointerTy = true
  · rw [if_pos hty, if_pos hty]
    exact hst
  · rw [if_neg hty, if_neg hty]
    have hty' : (resultElementType i.ty).isPointerTy = false := by simpa using hty
    unfold setSizeForGEP
    cases hinfo : (gepState i base indices st).GetPointerVariableInfo base with
    | none => exact hst
    | some info =>
        have hbase : SizeInv (if isZeroConstant info.size then
            (gepState i base indices st).SetSizeForPointerVariable base
              (some (baseSize E M src base info)) else gepState i base indices st)
            (heldBase X src base info held) := by
          unfold heldBase baseSize
          by_cases hz : isZeroConstant info.size = true
          · rw [if_pos hz, if_pos hz, if_pos hz]
            refine hst.setSize fun x hx => ?_
            obtain rfl := Option.some.inj hx
            exact fits_replaced X (hok.replaced info hty' hinfo hz)
          · rw [if_neg hz, if_neg hz]
            exact hst
        have hfit : Fits (baseSize E M src base info) (heldBase X src base info held base) := by
          unfold heldBase baseSize
          by_cases hz : isZeroConstant info.size = true
          · rw [if_pos hz, if_pos hz, Function.update_self]
            exact fits_replaced X (hok.replaced info hty' hinfo hz)
          · rw [if_neg hz, if_neg hz]
            exact hst.fits_info hinfo
        refine hbase.setSize fun x hx => ?_
        obtain rfl := Option.some.inj hx
        exact fits_derived X hi hk hfit (hok.derives info hty' hinfo)

/-! ## Runs -/

/-- The places the sizes are made for after an instruction is processed. -/
def heldAfter (i : Inst) (st : AnalysisState) (held : Value → Option Placement) :
    Value → Option Placement :=
  let st := processGlobalVariables (E.inferEnv M) M i st
  match i.kind with
  | .alloca ty _ => heldAlloca X i ty held
  | .call callee _ => heldCall X i callee held
  | .store val ptr => heldStore X val ptr st held
  | .load ptr => heldLoad X i ptr st held
  | .gep src base indices => heldGEP X i src base indices st held
  | .cast op v => heldCast X i op v st held
  | _ => held

/-- The condition on processing an instruction. -/
def InstOK (i : Inst) (st : AnalysisState) (held : Value → Option Placement) : Prop :=
  let st := processGlobalVariables (E.inferEnv M) M i st
  match i.kind with
  | .call callee _ => CallOK X i callee
  | .store val ptr => StoreOK X val ptr st
  | .load ptr => LoadOK X i ptr st held
  | .gep src base indices => GepOK X i src base indices st held
  | .cast op v => CastOK X i op v st held
  | _ => True

theorem sizesKept_globals (env : InferEnv) (i : Inst) :
    SizesKept st (processGlobalVariables env M i st) := by
  unfold processGlobalVariables
  generalize i.kind.operands.flatMap (operandGlobals env M) = l
  induction l generalizing st with
  | nil => exact sizesKept_refl st
  | cons g l ih =>
      refine SizesKept.trans ?_ ih
      exact sizesKept_modify fun _ => rfl

/-- **An instruction that meets the condition keeps the invariant.** -/
theorem SizeInv.processInstruction (h : SizeInv st held) (hexp : NoExplicit st)
    (hi : i ∈ M.insts) (hok : InstOK X i st held) :
    SizeInv (MSV.processInstruction (E.inferEnv M) M i st) (heldAfter X i st held) := by
  have hg := h.kept (sizesKept_globals (M := M) (E.inferEnv M) i)
  have hexp' : NoExplicit (processGlobalVariables (E.inferEnv M) M i st) :=
    (noExplicit_survives M i).processGlobalVariables hexp
  unfold MSV.processInstruction heldAfter
  unfold InstOK at hok
  cases hk : i.kind with
  | alloca ty n => exact hg.alloca X hi hk
  | call callee args =>
      rw [hk] at hok
      exact hg.call X hi hk hok
  | store val ptr =>
      rw [hk] at hok
      exact hg.store X hok
  | load ptr =>
      rw [hk] at hok
      exact hg.load X hexp' hok
  | gep src base indices =>
      rw [hk] at hok
      exact hg.gep X hi hk hok
  | cast op v =>
      rw [hk] at hok
      exact hg.cast X hok
  | _ => exact hg

/-- The running inference, with the places its sizes are made for. -/
structure Tracked where
  pass : Inference
  held : Value → Option Placement

namespace Tracked

/-- The globals have the sizes that were found for them. -/
def initial : Tracked where
  pass := Inference.initial (E.inferEnv M) M
  held := M.globals.foldl
    (fun held g => Function.update held (.global g.1) (X.standIn (.global g.1))) fun _ => none

def step (t : Tracked) : Option Tracked :=
  (t.pass.step (E.inferEnv M) M).map fun pass =>
    ⟨pass, match t.pass.todo with
      | i :: _ => heldAfter X i t.pass.state t.held
      | [] => t.held⟩

/-- The condition on the next step. -/
def StepOK (t : Tracked) : Prop :=
  ∀ i rest, t.pass.todo = i :: rest → InstOK X i t.pass.state t.held

/-- A step that processes no instruction only changes flags. -/
theorem step_nil {env : InferEnv} {e e' : Inference} (htodo : e.todo = [])
    (h : e.step env M = some e') : SizesKept e.state e'.state ∧
      (NoExplicit e.state → NoExplicit e'.state) := by
  unfold Inference.step at h
  rw [htodo] at h
  dsimp only at h
  split at h
  · obtain rfl := Option.some.inj h
    exact ⟨sizesKept_refl _, id⟩
  · split at h
    · split_ifs at h
      · obtain rfl := Option.some.inj h
        exact ⟨sizesKept_modify fun _ => rfl, fun hexp => hexp.modify fun _ => rfl⟩
      · obtain rfl := Option.some.inj h
        exact ⟨sizesKept_refl _, id⟩
    · cases h

/-- What holds along a run. -/
structure Inv (t : Tracked) : Prop where
  sizes : SizeInv t.pass.state t.held
  noExplicit : NoExplicit t.pass.state
  inModule : InModule M t.pass

theorem Inv.step (halias : AliasInModule (E.inferEnv M) M) {t t' : Tracked} (h : Inv (M := M) t)
    (hok : StepOK X t) (hstep : step X t = some t') : Inv (M := M) t' := by
  obtain ⟨pass, hpass, rfl⟩ := Option.map_eq_some_iff.mp hstep
  have hmod := (h.inModule.step halias hpass).1
  cases htodo : t.pass.todo with
  | nil =>
      obtain ⟨hkept, hexp⟩ := step_nil htodo hpass
      exact ⟨h.sizes.kept hkept, hexp h.noExplicit, hmod⟩
  | cons i rest =>
      have hi := h.inModule.todo i (by rw [htodo]; exact List.mem_cons_self)
      have hstate : pass.state = processInstruction (E.inferEnv M) M i t.pass.state := by
        unfold Inference.step at hpass
        rw [htodo] at hpass
        rw [← Option.some.inj hpass]
      refine ⟨?_, ?_, hmod⟩
      · show SizeInv pass.state _
        rw [hstate]
        exact h.sizes.processInstruction X h.noExplicit hi (hok i rest htodo)
      · show NoExplicit pass.state
        rw [hstate]
        exact (noExplicit_survives M i).processInstruction h.noExplicit

/-- One global is registered with its size. -/
theorem registerGlobal {st : AnalysisState} {held : Value → Option Placement} (h : SizeInv st held)
    (hexp : NoExplicit st) {v : Value} (hok : StandInOK X v) :
    SizeInv (((st.RegisterVariable v).modify v fun info =>
        { info with isGlobal := true }).SetSizeForPointerVariable v
          (some (E.getSizeForValue M v))) (Function.update held v (X.standIn v)) ∧
      NoExplicit (((st.RegisterVariable v).modify v fun info =>
        { info with isGlobal := true }).SetSizeForPointerVariable v
          (some (E.getSizeForValue M v))) := by
  have hkept : SizesKept (st.RegisterVariable v) ((st.RegisterVariable v).modify v fun info =>
      { info with isGlobal := true }) := sizesKept_modify fun _ => rfl
  have hexp' : NoExplicit ((st.RegisterVariable v).modify v fun info =>
      { info with isGlobal := true }) := (hexp.register v).modify fun _ => rfl
  refine ⟨((h.kept sizesKept_register).kept hkept).setSize fun x hx => ?_, hexp'.setSize v _⟩
  obtain rfl := Option.some.inj hx
  exact fits_standIn X hok

theorem inv_initial (hglobals : ∀ g ∈ M.globals, StandInOK X (.global g.1)) :
    Inv (M := M) (initial X) := by
  have hinit : SizeInv (registerGlobals (E.inferEnv M) M .initial) (initial X).held ∧
      NoExplicit (registerGlobals (E.inferEnv M) M .initial) := by
    have hempty : SizeInv .initial fun _ => none := fun v size hv => nomatch hv
    have hexp : NoExplicit .initial := fun v info hv => nomatch hv
    unfold registerGlobals initial
    dsimp only
    generalize AnalysisState.initial = st at hempty hexp ⊢
    generalize (fun _ : Value => (none : Option Placement)) = held at hempty ⊢
    generalize M.globals = l at hglobals ⊢
    induction l generalizing st held with
    | nil => exact ⟨hempty, hexp⟩
    | cons g l ih =>
        obtain ⟨hsizes, hno⟩ := registerGlobal X hempty hexp (hglobals g List.mem_cons_self)
        exact ih _ hno _ hsizes fun g hg => hglobals g (List.mem_cons_of_mem _ hg)
  exact ⟨hinit.1, hinit.2, inModule_initial⟩

/-- **In a run whose steps meet the condition every size fits the place it was made for.** -/
theorem sizeInv_run (hglobals : ∀ g ∈ M.globals, StandInOK X (.global g.1))
    (halias : AliasInModule (E.inferEnv M) M) {t : Tracked}
    (h : Run (step X) (StepOK X) (initial X) t) : SizeInv t.pass.state t.held :=
  (h.invariant (P := Inv (M := M)) (inv_initial X hglobals)
    fun _ _ ha hok hstep => ha.step X halias hok hstep).sizes

end Tracked

end

end MSV
