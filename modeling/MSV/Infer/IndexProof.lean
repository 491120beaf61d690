import Mathlib.Logic.Relation
import Mathlib.Tactic.IntervalCases
import MSV.Infer.Sizes
import MSV.Range.CastProof
import MSV.Range.OffsetProof

/-!
# The manual offset of a GEP

When LLVM does not know the offset of a GEP, `getOffsetForGEPInst` resolves every index to a
constant: the constant itself, the constant of one store where a load from an alloca is indexed
with, or what is under a cast. The sum of these times one element size is the offset.

This module runs a function: a path through its blocks with the numbers in the registers and in the
allocas. Which store a load sees is decided by the path, and a cast may change the number.

**Theorem (`manual_offset_iff`).** In a run in which every alloca read for an index holds the
constant of the store the code takes, and every cast for an index keeps the number, a GEP has the
offset that was returned if and only if the byte offset of its index values is their sum times that
one element size.

The invariant is that a register an index goes through is empty or holds the number it is resolved
to. It holds in every state of the run, so each time the GEP is executed. An alloca that only ever
gets one constant and is only loaded from meets the condition in every run (`load_of_oneConstant`),
and a single index scales where the element is stored in the bytes it is allocated
(`scalesAt_single`).
-/

namespace MSV

open SizeEnv

/-! ## Executions -/

/-- The numbers in the registers and in the allocas of a call of the function. -/
structure Locals where
  regs : Value → Option APInt
  cells : InstId → Option APInt

/-- The number a value stands for. -/
def Locals.value (c : Locals) : Value → Option APInt
  | .constInt a => some a
  | v => c.regs v

/-- What a cast makes of a number, where the number alone decides it. -/
def castNumber (op : CastOp) (dest : Ty) : Option (APInt → APInt) :=
  match op, dest with
  | .trunc, .int w | .zext, .int w | .sext, .int w | .ptrtoint, .int w =>
      some fun a => ⟨w, castBits op a.bits w⟩
  | .bitcast, .int _ | .bitcast, .ptr _ => some id
  | .inttoptr, .ptr _ => some fun a => ⟨64, castBits op a.bits 64⟩
  | _, _ => none

section

variable (M : Module)

def IsAlloca (a : InstId) : Prop := ∃ ty n, M.kindOf (.inst a) = some (.alloca ty n)

/-- The alloca is used for more than to load from it and to store to it. -/
def Escapes (a : InstId) : Prop :=
  ∃ i ∈ M.insts, .inst a ∈ i.kind.operands ∧ i.kind ≠ .load (.inst a) ∧
    ∀ val, i.kind = .store val (.inst a) → val = .inst a

/-- Instruction `i` may change the number in the alloca. -/
def MayChange (i : Inst) (a : InstId) : Prop :=
  match i.kind with
  | .store _ ptr => ptr = .inst a ∨ Escapes M a ∧ ∀ b, ptr = .inst b → ¬ IsAlloca M b
  | .alloca .. => i.id = a
  | .call .. | .invoke .. | .otherTerm .. | .other _ => Escapes M a
  | _ => False

/-- What instruction `i` does. The result of an instruction that is left out may be anything. -/
structure Executes (i : Inst) (c c' : Locals) : Prop where
  regs : ∀ v, v ≠ .inst i.id → c'.regs v = c.regs v
  load : ∀ a, i.kind = .load (.inst a) → IsAlloca M a → c'.regs (.inst i.id) = c.cells a
  cast : ∀ op v g, i.kind = .cast op v → castNumber op i.ty = some g →
    c'.regs (.inst i.id) = (c.value v).map g
  alloca : ∀ ty n, i.kind = .alloca ty n → c'.cells i.id = none
  store : ∀ val a, i.kind = .store val (.inst a) → IsAlloca M a → c'.cells a = c.value val
  frame : ∀ a, IsAlloca M a → ¬ MayChange M i a → c'.cells a = c.cells a

/-- A place in a function, and the numbers. -/
structure ExecState where
  block : Block
  todo : List Inst
  locals : Locals

/-- One step of a path. -/
inductive ExecStep (f : Function) : ExecState → ExecState → Prop
  | exec {b : Block} {i : Inst} {rest : List Inst} {c c' : Locals} (h : Executes M i c c') :
      ExecStep f ⟨b, i :: rest, c⟩ ⟨b, rest, c'⟩
  | edge {b b' : Block} {c : Locals} (hb' : b' ∈ f.blocks) (hsucc : b'.id ∈ b.successors) :
      ExecStep f ⟨b, [], c⟩ ⟨b', b'.insts, c⟩

/-- At the start no instruction has a result and the allocas hold nothing. -/
structure ExecStart (f : Function) (st : ExecState) : Prop where
  block : st.block ∈ f.blocks
  todo : st.todo = st.block.insts
  regs : ∀ i, st.locals.regs (.inst i) = none
  cells : ∀ a, st.locals.cells a = none

/-! ## The condition -/

/-- A value an index goes through. -/
inductive OnChain (indices : List Value) : Value → Prop
  | index {v : Value} (h : v ∈ indices) : OnChain indices v
  | cast {v w : Value} {op : CastOp} (h : OnChain indices v)
      (hk : M.kindOf v = some (.cast op w)) : OnChain indices w

/-- The store a load is resolved to: the only one that uses the alloca, when it stores a constant
to it, or the last one before the load in the text of the function. -/
def pickedStore (load alloca : Inst) : Option Inst :=
  match storeUsers M (.inst alloca.id) with
  | [store] =>
      if ((storedTo alloca store).bind Value.asConstInt).isSome then some store else lastStore
  | _ => lastStore
where
  lastStore : Option Inst :=
    if (M.funcs.find? fun f => load ∈ f.insts) ≠ (M.funcs.find? fun f => alloca ∈ f.insts) then
      none
    else (scannedInsts M load).reverse.find? fun i => (storedTo alloca i).isSome

/-- The condition on a step. -/
structure IndexOK (indices : List Value) (st : ExecState) : Prop where
  /-- A number read from an alloca for an index is the constant of the store the code takes. -/
  load : ∀ i rest alloca store a x, st.todo = i :: rest → OnChain M indices (.inst i.id) →
    i.kind = .load (.inst alloca.id) → M.inst? alloca.id = some alloca →
    pickedStore M i alloca = some store → storedTo alloca store = some (.constInt a) →
    st.locals.cells alloca.id = some x → x.toInt = a.toInt
  /-- A cast for an index keeps the number. -/
  cast : ∀ i rest op v, st.todo = i :: rest → OnChain M indices (.inst i.id) →
    i.kind = .cast op v → ∃ g, castNumber op i.ty = some g ∧
      ∀ x, st.locals.value v = some x → (g x).toInt = x.toInt

/-- The values of the indices. -/
def IndexValues (c : Locals) (indices : List Value) (xs : List Int) : Prop :=
  List.Forall₂ (fun v x => ∃ a, c.value v = some a ∧ a.toInt = x) indices xs

/-- The byte offset of the index values is their sum times the size of the result's element. -/
def ScalesAt (DL : DataLayout) (ty src : Ty) (indices : List Value) (c : Locals) : Prop :=
  ∀ xs, IndexValues c indices xs → addressOffset M DL src xs =
    ((xs.map fun x => x * (DL.storeSize (resultElementType ty) : Int)).sum % 2 ^ 64).toNat

end

/-- The manual part returns the constant `k` for the GEP. -/
structure ManualOffset (E : SizeEnv) (M : Module) (gep : Inst) (src : Ty) (indices : List Value)
    (k : APInt) : Prop where
  kind : ∃ base, gep.kind = .gep src base indices
  compute : (E.compute (.inst gep.id)).2 = none
  accumulate : E.accumulateConstantOffset M src indices = none
  offset : E.getOffsetForGEPInst M gep = .constInt k
  known : Value.constInt k ≠ UnknownSizeConstInt

variable {M : Module} {E : SizeEnv} {DL : DataLayout} {f : Function} {i gep load alloca : Inst}
  {ty src : Ty} {indices : List Value} {st st₀ : ExecState} {c c' : Locals} {v : Value}

/-! ## What the code resolves -/

theorem exists_lastStore (h : getLastConstantStore M load alloca ≠ -1) :
    ∃ store a, pickedStore.lastStore M load alloca = some store ∧
      storedTo alloca store = some (.constInt a) ∧
      getLastConstantStore M load alloca = a.toInt := by
  unfold getLastConstantStore at h ⊢
  unfold pickedStore.lastStore
  by_cases hsame : (M.funcs.find? fun f => load ∈ f.insts) ≠
      (M.funcs.find? fun f => alloca ∈ f.insts)
  · rw [if_pos hsame] at h
    exact absurd rfl h
  · rw [if_neg hsame] at h ⊢
    rw [if_neg hsame]
    generalize (scannedInsts M load).reverse = l at h ⊢
    induction l with
    | nil => exact absurd rfl h
    | cons i l ih =>
        rw [List.findSome?_cons] at h ⊢
        rw [List.find?_cons]
        cases hs : storedTo alloca i with
        | none =>
            rw [hs] at h
            exact ih h
        | some v =>
            rw [hs] at h
            cases v with
            | constInt a => exact ⟨i, a, rfl, hs, rfl⟩
            | _ => exact absurd rfl h

/-- The only store, when it stores a constant to the alloca, else the last one. -/
theorem resolveAllocaStore_cases (M : Module) (load alloca : Inst) :
    (∃ store c, storeUsers M (.inst alloca.id) = [store] ∧
      storedTo alloca store = some (.constInt c) ∧
      resolveAllocaStore M load alloca = c.toInt) ∨
    (∀ store, storeUsers M (.inst alloca.id) = [store] →
      (storedTo alloca store).bind Value.asConstInt = none) ∧
      resolveAllocaStore M load alloca = getLastConstantStore M load alloca := by
  unfold resolveAllocaStore
  obtain hnil | ⟨store, hone⟩ | ⟨s₁, s₂, l, hmany⟩ : storeUsers M (.inst alloca.id) = [] ∨
      (∃ store, storeUsers M (.inst alloca.id) = [store]) ∨
      ∃ s₁ s₂ l, storeUsers M (.inst alloca.id) = s₁ :: s₂ :: l := by
    rcases storeUsers M (.inst alloca.id) with _ | ⟨s₁, _ | ⟨s₂, l⟩⟩
    · exact Or.inl rfl
    · exact Or.inr (Or.inl ⟨_, rfl⟩)
    · exact Or.inr (Or.inr ⟨_, _, _, rfl⟩)
  · rw [hnil]
    exact Or.inr ⟨fun _ h => absurd h (List.cons_ne_nil _ _).symm, rfl⟩
  · rw [hone]
    obtain ⟨id, ty, kind⟩ := store
    have hother : ∀ store, [(⟨id, ty, kind⟩ : Inst)] = [store] →
        (storedTo alloca ⟨id, ty, kind⟩).bind Value.asConstInt = none →
        (storedTo alloca store).bind Value.asConstInt = none := fun _ heq hnone =>
      List.singleton_inj.mp heq ▸ hnone
    cases kind with
    | store val ptr =>
        by_cases hptr : ptr = .inst alloca.id
        · have hstored : storedTo alloca ⟨id, ty, .store val ptr⟩ = some val := if_pos hptr
          cases val with
          | constInt c => exact Or.inl ⟨_, c, rfl, hstored, if_pos hptr⟩
          | _ => exact Or.inr ⟨fun s hs => hother s hs (by rw [hstored]; rfl), rfl⟩
        · have hstored : storedTo alloca ⟨id, ty, .store val ptr⟩ = none := if_neg hptr
          refine Or.inr ⟨fun s hs => hother s hs (by rw [hstored]; rfl), ?_⟩
          cases val with
          | constInt c => exact if_neg hptr
          | _ => rfl
    | _ => exact Or.inr ⟨fun s hs => hother s hs rfl, rfl⟩
  · rw [hmany]
    refine Or.inr ⟨fun _ h => absurd (List.cons.inj h).2 (List.cons_ne_nil _ _), ?_⟩
    split
    · rename_i heq
      exact absurd (List.cons.inj heq).2 (List.cons_ne_nil _ _)
    · rfl

/-- A load that is resolved is resolved to the constant of the store the code takes. -/
theorem exists_pickedStore (h : resolveAllocaStore M load alloca ≠ -1) :
    ∃ store a, pickedStore M load alloca = some store ∧
      storedTo alloca store = some (.constInt a) ∧
      resolveAllocaStore M load alloca = a.toInt := by
  obtain ⟨store, a, hone, hstored, hres⟩ | ⟨hno, hres⟩ := resolveAllocaStore_cases M load alloca
  · refine ⟨store, a, ?_, hstored, hres⟩
    unfold pickedStore
    rw [hone]
    dsimp only
    rw [hstored]
    rfl
  · rw [hres] at h ⊢
    have hlast : pickedStore M load alloca = pickedStore.lastStore M load alloca := by
      unfold pickedStore
      split
      · rename_i store hone
        rw [hno store hone]
        rfl
      · rfl
    rw [hlast]
    exact exists_lastStore h

/-! ## The registers an index goes through -/

/-- What a resolved value is: a constant, a load that is resolved to a store, or a cast of a
resolved value. -/
theorem resolve_inst (hM : M.WF) (hi : i ∈ M.insts) {n : Nat}
    (h : resolveConstantIndex M n (.inst i.id) ≠ -1) :
    (∃ alloca, i.kind = .load (.inst alloca.id) ∧ M.inst? alloca.id = some alloca ∧
      IsAlloca M alloca.id ∧
      resolveConstantIndex M n (.inst i.id) = resolveAllocaStore M i alloca) ∨
    ∃ m op v, i.kind = .cast op v ∧
      resolveConstantIndex M n (.inst i.id) = resolveConstantIndex M m v := by
  cases n with
  | zero => exact absurd rfl h
  | succ n =>
      rw [resolveConstantIndex, hM.inst?_eq hi] at h ⊢
      dsimp only at h ⊢
      cases hk : i.kind with
      | cast op v => exact Or.inr ⟨n, op, v, rfl, rfl⟩
      | load ptr =>
          rw [hk] at h
          cases ptr with
          | inst a =>
              dsimp only at h ⊢
              cases ha : M.inst? a with
              | none =>
                  rw [ha] at h
                  exact absurd rfl h
              | some alloca =>
                  rw [ha] at h
                  have hid : alloca.id = a := by simpa using List.find?_some ha
                  subst hid
                  dsimp only at h ⊢
                  cases hka : alloca.kind with
                  | alloca ty n =>
                      refine Or.inl ⟨alloca, rfl, ha, ⟨ty, n, ?_⟩, rfl⟩
                      rw [Module.kindOf, ha, Option.map_some, hka]
                  | _ =>
                      rw [hka] at h
                      exact absurd rfl h
          | _ => exact absurd rfl h
      | _ =>
          rw [hk] at h
          exact absurd rfl h

/-- A register an index goes through is empty or holds the number it is resolved to. -/
structure Resolved (M : Module) (f : Function) (indices : List Value) (st : ExecState) : Prop where
  todo : st.todo <:+ st.block.insts
  block : st.block ∈ f.blocks
  value : ∀ v n x, OnChain M indices v → resolveConstantIndex M n v ≠ -1 →
    st.locals.value v = some x → x.toInt = resolveConstantIndex M n v

theorem resolve_constInt (n : Nat) (a : APInt) :
    resolveConstantIndex M n (.constInt a) = a.toInt := by
  cases n <;> rfl

theorem ExecStart.resolved (h : ExecStart f st) : Resolved M f indices st where
  todo := by rw [h.todo]
  block := h.block
  value := by
    intro v n x _ hres hx
    cases v with
    | constInt a =>
        obtain rfl := Option.some.inj hx
        rw [resolve_constInt]
    | inst i => cases (h.regs i).symm.trans hx
    | _ => cases n <;> exact absurd rfl hres

/-- **A step that meets the condition keeps the registers resolved.** -/
theorem Resolved.step (hM : M.WF) (hf : f ∈ M.funcs) (h : Resolved M f indices st)
    (hok : IndexOK M indices st) {st' : ExecState} (hstep : ExecStep M f st st') :
    Resolved M f indices st' := by
  cases hstep with
  | edge hb' hsucc => exact ⟨List.suffix_rfl, hb', h.value⟩
  | @exec b i rest c c' he =>
      have hi : i ∈ M.insts := List.mem_flatMap.mpr ⟨f, hf, List.mem_flatMap.mpr
        ⟨b, h.block, h.todo.subset List.mem_cons_self⟩⟩
      refine ⟨(List.suffix_cons i rest).trans h.todo, h.block, fun v n x hv hres hx => ?_⟩
      by_cases hself : v = .inst i.id
      · -- the register the instruction writes
        subst hself
        have hx : c'.regs (.inst i.id) = some x := hx
        obtain ⟨alloca, hk, hinst, halloca, heq⟩ | ⟨m, op, w, hk, heq⟩ := resolve_inst hM hi hres
        · rw [he.load _ hk halloca] at hx
          rw [heq] at hres ⊢
          obtain ⟨store, a, hpick, hstored, ha⟩ := exists_pickedStore hres
          rw [ha]
          exact hok.load i rest alloca store a x rfl hv hk hinst hpick hstored hx
        · obtain ⟨g, hg, hkeep⟩ := hok.cast i rest op w rfl hv hk
          rw [he.cast op w g hk hg] at hx
          obtain ⟨y, hy, rfl⟩ := Option.map_eq_some_iff.mp hx
          have hchain : OnChain M indices w := .cast hv (by
            rw [Module.kindOf, hM.inst?_eq hi, Option.map_some, hk])
          rw [heq] at hres ⊢
          rw [hkeep y hy]
          exact h.value w m y hchain hres hy
      · refine h.value v n x hv hres ?_
        cases v with
        | constInt a => exact hx
        | _ => exact (he.regs _ hself).symm.trans hx

theorem resolved_run (hM : M.WF) (hf : f ∈ M.funcs) (hstart : ExecStart f st₀)
    (hpath : Relation.ReflTransGen (fun a b => ExecStep M f a b ∧ IndexOK M indices a) st₀ st) :
    Resolved M f indices st := by
  induction hpath with
  | refl => exact hstart.resolved
  | tail _ hstep ih => exact ih.step hM hf hstep.2 hstep.1

/-! ## The offset -/

/-- The constant that is returned is the sum of the resolved indices. -/
theorem ManualOffset.eq {k : APInt} (h : ManualOffset E M gep src indices k) :
    -1 ∉ indices.map (resolveConstantIndex M M.insts.length) ∧
      k = APInt.ofInt 64 ((indices.map (resolveConstantIndex M M.insts.length)).map
        fun x => x * (E.DL.storeSize (resultElementType gep.ty) : Int)).sum := by
  obtain ⟨⟨base, hkind⟩, hcompute, hacc, hoff, hknown⟩ := h
  have hindices : E.getOffsetForGEPInst M gep = UnknownSizeConstInt ∨
      E.getOffsetForGEPInst M gep = E.manualOffset M gep indices := by
    unfold getOffsetForGEPInst
    split
    · exact Or.inl rfl
    · rw [hcompute, Option.getD_none, offsetFromIndices, hkind]
      dsimp only
      rw [hacc]
      exact Or.inr rfl
  rw [hoff] at hindices
  have hmanual : Value.constInt k = E.manualOffset M gep indices := hindices.resolve_left hknown
  unfold manualOffset at hmanual
  by_cases hmem : -1 ∈ indices.map (resolveConstantIndex M M.insts.length)
  · rw [if_pos hmem] at hmanual
    exact absurd hmanual hknown
  · rw [if_neg hmem] at hmanual
    exact ⟨hmem, Value.constInt.inj hmanual⟩

/-- The values of indices that are all resolved are what they are resolved to. -/
theorem Resolved.indexValues (h : Resolved M f indices st) {n : Nat} :
    ∀ {vs : List Value} {xs : List Int}, (∀ v ∈ vs, v ∈ indices) →
      -1 ∉ vs.map (resolveConstantIndex M n) → IndexValues st.locals vs xs →
      xs = vs.map (resolveConstantIndex M n)
  | [], _, _, _, .nil => rfl
  | v :: vs, _, hsub, hno, .cons ⟨a, ha, hx⟩ hrest => by
    rw [List.map_cons, List.mem_cons, not_or] at hno
    rw [List.map_cons, h.indexValues (fun w hw => hsub w (List.mem_cons_of_mem _ hw)) hno.2 hrest,
      ← hx, h.value v n a (.index (hsub v List.mem_cons_self)) (Ne.symm hno.1) ha]

/-- **The returned offset is that of the execution if and only if the index values scale.** -/
theorem manual_offset_iff {k : APInt} (hM : M.WF) (hf : f ∈ M.funcs)
    (hmanual : ManualOffset E M gep src indices k) (hstart : ExecStart f st₀)
    (hpath : Relation.ReflTransGen (fun a b => ExecStep M f a b ∧ IndexOK M indices a) st₀ st) :
    (∀ xs, IndexValues st.locals indices xs → addressOffset M E.DL src xs = k.toNat) ↔
      ScalesAt M E.DL gep.ty src indices st.locals := by
  obtain ⟨hno, hk⟩ := hmanual.eq
  have hresolved : Resolved M f indices st := resolved_run hM hf hstart hpath
  have hnat : k.toNat = (((indices.map (resolveConstantIndex M M.insts.length)).map
      fun x => x * (E.DL.storeSize (resultElementType gep.ty) : Int)).sum % 2 ^ 64).toNat := by
    rw [hk]
    exact BitVec.toNat_ofInt ..
  refine forall₂_congr fun xs hxs => ?_
  rw [hresolved.indexValues (fun _ hv => hv) hno hxs, hnat]

/-- With one index the two sizes are that of the source element, allocated and stored. -/
theorem scalesAt_single (hsize : DL.allocSize src = DL.storeSize src) :
    ScalesAt M DL (.ptr src) src [v] c := by
  intro xs hxs
  obtain _ | ⟨-, _ | _⟩ := hxs
  rename_i x
  have hinner : innerByteOffset M DL src [] = 0 := by cases src <;> rfl
  rw [addressOffset, gepByteOffset, hinner, hsize, List.map_singleton, List.sum_singleton, add_zero]
  rfl

/-! ## Allocas that hold one constant -/

/-- Every store to the alloca stores the constant, and the alloca is used for nothing but stores and
loads. -/
structure OneConstant (M : Module) (a : InstId) (n : APInt) : Prop where
  isAlloca : IsAlloca M a
  noEscape : ¬ Escapes M a
  store : ∀ i ∈ M.insts, ∀ val, i.kind = .store val (.inst a) → val = .constInt n

/-- The alloca is empty or holds the constant. -/
structure HoldsConstant (f : Function) (a : InstId) (n : APInt) (st : ExecState) : Prop where
  todo : st.todo <:+ st.block.insts
  block : st.block ∈ f.blocks
  cell : ∀ x, st.locals.cells a = some x → x = n

theorem HoldsConstant.step {a : InstId} {n : APInt} {st' : ExecState} (hf : f ∈ M.funcs)
    (hone : OneConstant M a n) (h : HoldsConstant f a n st) (hstep : ExecStep M f st st') :
    HoldsConstant f a n st' := by
  cases hstep with
  | edge hb' hsucc => exact ⟨List.suffix_rfl, hb', h.cell⟩
  | @exec b i rest c c' he =>
      have hi : i ∈ M.insts := List.mem_flatMap.mpr ⟨f, hf, List.mem_flatMap.mpr
        ⟨b, h.block, h.todo.subset List.mem_cons_self⟩⟩
      refine ⟨(List.suffix_cons i rest).trans h.todo, h.block, fun x hx => ?_⟩
      by_cases hchange : MayChange M i a
      · unfold MayChange at hchange
        split at hchange
        · rename_i val ptr hk
          obtain rfl | ⟨hesc, -⟩ := hchange
          · have hval : c'.cells a = some n := by
              rw [he.store val a hk hone.isAlloca, hone.store i hi val hk]
              rfl
            exact (Option.some.inj (hval.symm.trans hx)).symm
          · exact absurd hesc hone.noEscape
        · rename_i ty m hk
          subst hchange
          cases (he.alloca ty m hk).symm.trans hx
        all_goals first | exact absurd hchange hone.noEscape | exact hchange.elim
      · exact h.cell x ((he.frame a hone.isAlloca hchange).symm.trans hx)

/-- In every run such an alloca is empty or holds the constant, and so every load from it meets the
condition. -/
theorem cell_of_oneConstant {a : InstId} {n : APInt} (hf : f ∈ M.funcs) (hone : OneConstant M a n)
    (hstart : ExecStart f st₀) (hpath : Relation.ReflTransGen (ExecStep M f) st₀ st) :
    ∀ x, st.locals.cells a = some x → x = n := by
  have hholds : HoldsConstant f a n st := by
    induction hpath with
    | refl =>
        refine ⟨by rw [hstart.todo], hstart.block, fun x hx => ?_⟩
        cases (hstart.cells a).symm.trans hx
    | tail _ hstep ih => exact ih.step hf hone hstep
  exact hholds.cell

theorem mem_insts_of_scanned (h : i ∈ scannedInsts M load) : i ∈ M.insts := by
  have hmem := (List.takeWhile_prefix _).subset h
  cases hfun : M.funcs.find? fun f => load ∈ f.insts with
  | none =>
      rw [hfun] at hmem
      cases hmem
  | some f =>
      rw [hfun] at hmem
      exact List.mem_flatMap.mpr ⟨f, List.mem_of_find?_eq_some hfun, hmem⟩

theorem mem_insts_of_pickedStore {store : Inst} (h : pickedStore M load alloca = some store) :
    store ∈ M.insts := by
  have hlast : pickedStore.lastStore M load alloca = some store → store ∈ M.insts := by
    intro h
    unfold pickedStore.lastStore at h
    split_ifs at h
    exact mem_insts_of_scanned (List.mem_reverse.mp (List.mem_of_find?_eq_some h))
  unfold pickedStore at h
  split at h
  · rename_i only hone
    split_ifs at h
    · obtain rfl := Option.some.inj h
      have hmem : only ∈ storeUsers M (.inst alloca.id) := by
        rw [hone]
        exact List.mem_cons_self
      exact (List.mem_filter.mp hmem).1
    · exact hlast h
  · exact hlast h

theorem storedTo_eq_some {store : Inst} {val : Value} (h : storedTo alloca store = some val) :
    store.kind = .store val (.inst alloca.id) := by
  unfold storedTo at h
  split at h
  · rename_i w ptr hk
    split_ifs at h with hptr
    obtain rfl := Option.some.inj h
    rw [hk, hptr]
  · cases h

/-- So a load from such an alloca meets the condition, whichever store the code takes. -/
theorem load_of_oneConstant {n : APInt} (hf : f ∈ M.funcs)
    (hone : OneConstant M alloca.id n) (hstart : ExecStart f st₀)
    (hpath : Relation.ReflTransGen (ExecStep M f) st₀ st) {store : Inst} {a x : APInt}
    (hpick : pickedStore M load alloca = some store)
    (hstored : storedTo alloca store = some (.constInt a))
    (hx : st.locals.cells alloca.id = some x) : x.toInt = a.toInt := by
  have ha : Value.constInt a = .constInt n :=
    hone.store store (mem_insts_of_pickedStore hpick) _ (storedTo_eq_some hstored)
  rw [cell_of_oneConstant hf hone hstart hpath x hx, Value.constInt.inj ha]

/-! ## An index that is extended with zeros -/

/-- `getelementptr i8, i8* %p, i64 %z`, where `%z` extends what was stored as an `i8`. -/
def extendedBlock (n : Nat) : Block := ⟨0, [
  ⟨0, .ptr (.int 8), .alloca (.int 8) (sizeConst 1)⟩,
  ⟨1, .void, .store (.constInt (APInt.ofNat 8 n)) (.inst 0)⟩,
  ⟨2, .int 8, .load (.inst 0)⟩,
  ⟨3, .int 64, .cast .zext (.inst 2)⟩,
  ⟨4, .ptr (.int 8), .gep (.int 8) (.arg 0 0) [.inst 3]⟩,
  ⟨5, .void, .ret none⟩]⟩

def extendedFunction (n : Nat) : Function := ⟨0, "main", [.ptr (.int 8)], [extendedBlock n]⟩

def extendedModule (n : Nat) : Module where
  structs := fun _ => []
  globals := []
  funcs := [extendedFunction n]

/-- Nothing is known of the object behind the argument. -/
def extendedEnv : SizeEnv where
  DL := structlessLayout
  compute := fun _ => (none, none)
  svfSize := fun _ => 0
  constantExpr := fun _ _ => 0
  gepOperatorGlobals := fun _ => []
  aliasNeighbors := fun _ => []
  globalOrder := []

/-- What is stored, loaded, and extended. -/
def extendedNumber (n : Nat) : APInt := ⟨64, castBits .zext (APInt.ofNat 8 n).bits 64⟩

/-- The numbers once `k` instructions have been executed. -/
def extendedLocals (n k : Nat) : Locals where
  regs v :=
    if v = .inst 2 ∧ 2 < k then some (APInt.ofNat 8 n)
    else if v = .inst 3 ∧ 3 < k then some (extendedNumber n)
    else none
  cells a := if a = 0 ∧ 1 < k then some (APInt.ofNat 8 n) else none

def extendedState (n k : Nat) : ExecState :=
  ⟨extendedBlock n, (extendedBlock n).insts.drop k, extendedLocals n k⟩

theorem mem_extendedModule {n : Nat} (h : i ∈ (extendedModule n).insts) :
    i ∈ (extendedBlock n).insts := by
  simpa [extendedModule, extendedFunction, Module.insts, Function.insts] using h

theorem extendedModule_wf (n : Nat) : (extendedModule n).WF where
  funcs_nodup := List.nodup_singleton _
  blocks_nodup := List.nodup_singleton _
  insts_nodup := by
    show ([0, 1, 2, 3, 4, 5] : List Nat).Nodup
    decide
  terminated := Module.terminated_of_last <| by
    simp [extendedModule, extendedFunction, extendedBlock, Module.blocks, InstKind.isTerminator]
  targets := by
    intro f hf b hb s hs
    obtain rfl := List.mem_singleton.mp hf
    obtain rfl := List.mem_singleton.mp hb
    cases hs
  operands := Module.operands_of_stores_unused fun j hj hstore i hi => by
    have hid : j.id = 1 := by
      have hmem := mem_extendedModule hj
      simp only [extendedBlock, List.mem_cons, List.not_mem_nil, or_false] at hmem
      obtain rfl | rfl | rfl | rfl | rfl | rfl := hmem <;> first | rfl | cases hstore
    rw [hid]
    have hmem := mem_extendedModule hi
    simp only [extendedBlock, List.mem_cons, List.not_mem_nil, or_false] at hmem
    obtain rfl | rfl | rfl | rfl | rfl | rfl := hmem <;> simp [InstKind.operands, sizeConst]

theorem extended_cell {n k : Nat} {a : InstId} {x : APInt}
    (h : (extendedLocals n k).cells a = some x) : x = .ofNat 8 n := by
  simp only [extendedLocals] at h
  split_ifs at h
  exact (Option.some.inj h).symm

theorem extended_reg {n k : Nat} {x : APInt}
    (h : (extendedLocals n k).value (.inst 2) = some x) : x = .ofNat 8 n := by
  simp only [Locals.value, extendedLocals] at h
  split_ifs at h with _ hthree
  · exact (Option.some.inj h).symm
  · cases hthree.1

theorem extended_start (n : Nat) : ExecStart (extendedFunction n) (extendedState n 0) where
  block := List.mem_singleton_self _
  todo := rfl
  regs i := by simp [extendedState, extendedLocals]
  cells a := by simp [extendedState, extendedLocals]

theorem extended_executes {n k : Nat} (hk : k < 4) (hi : (extendedBlock n).insts[k]? = some i) :
    Executes (extendedModule n) i (extendedLocals n k) (extendedLocals n (k + 1)) := by
  interval_cases k <;> obtain rfl := Option.some.inj hi
  · exact {
      regs := fun v _ => by simp [extendedLocals]
      load := fun _ h => by cases h
      cast := fun _ _ _ h => by cases h
      alloca := fun _ _ _ => by simp [extendedLocals]
      store := fun _ _ h => by cases h
      frame := fun a _ _ => by simp [extendedLocals] }
  · exact {
      regs := fun v _ => by simp [extendedLocals]
      load := fun _ h => by cases h
      cast := fun _ _ _ h => by cases h
      alloca := fun _ _ h => by cases h
      store := fun _ _ h _ => by
        obtain ⟨rfl, ha⟩ := InstKind.store.inj h
        obtain rfl := Value.inst.inj ha
        rfl
      frame := fun a _ h => by
        have ha : a ≠ 0 := fun ha => h (Or.inl (by rw [ha]))
        simp [extendedLocals, ha] }
  · exact {
      regs := fun v h => by
        have hv : v ≠ .inst 2 := h
        simp [extendedLocals, hv]
      load := fun _ h _ => by
        obtain rfl := Value.inst.inj (InstKind.load.inj h)
        rfl
      cast := fun _ _ _ h => by cases h
      alloca := fun _ _ h => by cases h
      store := fun _ _ h => by cases h
      frame := fun a _ _ => by simp [extendedLocals] }
  · exact {
      regs := fun v h => by
        have hv : v ≠ .inst 3 := h
        simp [extendedLocals, hv]
      load := fun _ h => by cases h
      cast := fun _ _ _ h hg => by
        obtain ⟨rfl, rfl⟩ := InstKind.cast.inj h
        obtain rfl := Option.some.inj hg
        rfl
      alloca := fun _ _ h => by cases h
      store := fun _ _ h => by cases h
      frame := fun a _ _ => by simp [extendedLocals] }

theorem extended_path {P : ExecState → Prop} {n : Nat} (hP : ∀ k < 4, P (extendedState n k)) :
    ∀ k ≤ 4, Relation.ReflTransGen
      (fun a b => ExecStep (extendedModule n) (extendedFunction n) a b ∧ P a)
      (extendedState n 0) (extendedState n k)
  | 0, _ => .refl
  | k + 1, hk => by
    refine (extended_path hP k (by omega)).tail ⟨?_, hP k (by omega)⟩
    have hlt : k < (extendedBlock n).insts.length := by
      show k < 6
      omega
    unfold extendedState
    rw [List.drop_eq_getElem_cons hlt]
    exact .exec (extended_executes (by omega) (List.getElem?_eq_getElem hlt))

/-- Of what is stored as 200 the GEP is said to have offset -56, and it has offset 200. -/
theorem extended_offset_wrong :
    (extendedModule 200).WF ∧ ExecStart (extendedFunction 200) (extendedState 200 0) ∧
      Relation.ReflTransGen (ExecStep (extendedModule 200) (extendedFunction 200))
        (extendedState 200 0) (extendedState 200 4) ∧
      ∃ gep rest k, (extendedState 200 4).todo = gep :: rest ∧
        ManualOffset extendedEnv (extendedModule 200) gep (.int 8) [.inst 3] k ∧
        IndexValues (extendedState 200 4).locals [.inst 3] [200] ∧
        addressOffset (extendedModule 200) extendedEnv.DL (.int 8) [200] ≠ k.toNat := by
  refine ⟨extendedModule_wf 200, extended_start 200, ?_, _, _, .ofInt 64 (-56), rfl, ?_, ?_, ?_⟩
  · exact Relation.ReflTransGen.mono (fun _ _ h => h.1) _ _
      (extended_path (P := fun _ => True) (fun _ _ => trivial) 4 le_rfl)
  · exact ⟨⟨_, rfl⟩, rfl, rfl, by decide, by decide⟩
  · exact .cons ⟨extendedNumber 200, by decide, by decide⟩ .nil
  · decide

theorem extended_indexOK (k : Nat) :
    IndexOK (extendedModule 5) [.inst 3] (extendedState 5 k) where
  load := by
    intro i rest alloca store a x _ _ _ _ hpick hstored hx
    have hconst : ∀ store ∈ (extendedModule 5).insts, store.kind.isStore = true →
        store.kind = .store (.constInt (.ofNat 8 5)) (.inst 0) := by decide
    have hkind := storedTo_eq_some hstored
    have hsame := hconst store (mem_insts_of_pickedStore hpick) (by rw [hkind]; rfl)
    rw [hkind] at hsame
    obtain rfl := Value.constInt.inj (InstKind.store.inj hsame).1
    rw [extended_cell hx]
  cast := by
    intro i rest op v htodo _ hkind
    have hmem : i ∈ (extendedBlock 5).insts := by
      have htodo : (extendedBlock 5).insts.drop k = i :: rest := htodo
      refine List.mem_of_mem_drop (i := k) ?_
      rw [htodo]
      exact List.mem_cons_self
    simp only [extendedBlock, List.mem_cons, List.not_mem_nil, or_false] at hmem
    obtain rfl | rfl | rfl | rfl | rfl | rfl := hmem <;> cases hkind
    refine ⟨_, rfl, fun x hx => ?_⟩
    rw [extended_reg hx]
    decide

/-- Of what is stored as 5 the offset is the right one. -/
theorem extended_offset_right : IndexValues (extendedState 5 4).locals [.inst 3] [5] ∧
    addressOffset (extendedModule 5) structlessLayout (.int 8) [5] = 5 := by
  have hmanual : ManualOffset extendedEnv (extendedModule 5)
      ⟨4, .ptr (.int 8), .gep (.int 8) (.arg 0 0) [.inst 3]⟩ (.int 8) [.inst 3] (.ofInt 64 5) :=
    ⟨⟨_, rfl⟩, rfl, rfl, by decide, by decide⟩
  have hvalues : IndexValues (extendedState 5 4).locals [.inst 3] [5] :=
    .cons ⟨extendedNumber 5, by decide, by decide⟩ .nil
  exact ⟨hvalues, (manual_offset_iff (extendedModule_wf 5) (List.mem_singleton_self _) hmanual
    (extended_start 5) (extended_path (fun k _ => extended_indexOK k) 4 le_rfl)).mpr
    (scalesAt_single rfl) [5] hvalues⟩

end MSV
