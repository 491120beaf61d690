import MSV.SafeStack.Uses
import MSV.Lib.WrappedRange

/-!
# Which objects stay on the safe stack: correctness

**Theorem (`moved_iff`).** `findInsts` moves an object exactly if some value computed from its
address has a use that fails. The order of the uses does not matter, and the search always ends.

**Theorem (`unmoved_within`).** An object that is not moved is never accessed outside its bounds,
and no pointer to it is returned or passed to a function that may use or keep it, in any run
with offsets in the ranges LLVM knows. Atomic updates and their like are not looked at, so that
the values computed from the address must not be used by them.
-/

namespace MSV.SafeStack

variable {f : Function} {R : OffsetRanges}

/-! ## What the search decides -/

theorem uses_inst {v : Nat} {u : Use} (h : u ∈ f.uses v) :
    u.user < f.insts.length ∧ v ∈ (f.inst u.user).operands := by
  obtain ⟨I, hI, hv⟩ := (f.mem_uses v u).mp h
  obtain ⟨hlt, -⟩ := List.getElem?_eq_some_iff.mp hI
  have hinst : f.inst u.user = I := by simp [Function.inst, List.getD_eq_getElem?_getD, hI]
  exact ⟨hlt, hinst ▸ List.mem_of_getElem? hv⟩

theorem exists_use {v i : Nat} (h : v ∈ (f.inst i).operands) : ∃ u ∈ f.uses v, u.user = i := by
  cases hI : f.insts[i]? with
  | none => simp [Function.inst, List.getD_eq_getElem?_getD, hI, Inst.operands] at h
  | some I =>
    have hinst : f.inst i = I := by simp [Function.inst, List.getD_eq_getElem?_getD, hI]
    obtain ⟨k, hk⟩ := List.mem_iff_getElem?.mp (hinst ▸ h)
    exact ⟨⟨i, k⟩, (f.mem_uses v _).mpr ⟨I, hI, hk⟩, rfl⟩

theorem follow_of_checkUse {size : BitVec 64} {V w : Nat} {UI : Use}
    (h : checkUse f R size V UI = .follow w) : w = UI.user := by
  unfold checkUse passIf at h
  split at h <;> grind

/-- **The search ends, and finds whether a use fails.** -/
theorem isSafeStackAlloca_iff (R : OffsetRanges) (AllocaPtr : Nat) (AllocaSize : BitVec 64) :
    ∃ b, isSafeStackAlloca f R AllocaPtr AllocaSize = some b ∧
      (b = true ↔ CheckedSearch.Passes (checkUses f R AllocaSize) AllocaPtr) :=
  CheckedSearch.result_iff (checkUses f R AllocaSize) (List.range f.insts.length)
    (fun c v hv => by
      obtain ⟨u, hu, hcheck⟩ := List.mem_map.mp hv
      rw [follow_of_checkUse hcheck]
      exact List.mem_range.mpr (uses_inst hu).1) AllocaPtr

theorem isSafe_iff (R : Nat → OffsetRanges) (AllocaPtr : Nat) (AllocaSize : BitVec 64) :
    isSafe f R AllocaPtr AllocaSize = true ↔
      CheckedSearch.Passes (checkUses f (R AllocaPtr) AllocaSize) AllocaPtr := by
  obtain ⟨b, hb, hiff⟩ := isSafeStackAlloca_iff (f := f) (R AllocaPtr) AllocaPtr AllocaSize
  rw [← hiff]
  simp [isSafe, hb]

/-- A local object and its size. -/
inductive IsObject (f : Function) : Nat → BitVec 64 → Prop
  | alloca {i typeSize arraySize inEntryBlock dualguardUnsafe} :
      i < f.insts.length → f.inst i = .alloca typeSize arraySize inEntryBlock dualguardUnsafe →
      IsObject f i (getStaticAllocaAllocationSize typeSize arraySize)
  | byVal {Arg} : Arg ∈ f.byVal → IsObject f Arg.value Arg.size

/-- The objects that are moved to the unsafe stack. -/
def Found.moved (r : Found) : List Nat := r.StaticAllocas ++ r.DynamicAllocas ++ r.ByValArguments

theorem mem_moved_findInst (R : Nat → OffsetRanges) (r : Found) (i p : Nat) :
    p ∈ (findInst f false R r i).moved ↔ p ∈ r.moved ∨ p = i ∧
      ∃ typeSize arraySize inEntryBlock dualguardUnsafe,
        f.inst i = .alloca typeSize arraySize inEntryBlock dualguardUnsafe ∧
          isSafe f R i (getStaticAllocaAllocationSize typeSize arraySize) = false := by
  unfold findInst
  cases hI : f.inst i with
  | alloca typeSize arraySize inEntryBlock dualguardUnsafe =>
    cases hsafe : isSafe f R i (getStaticAllocaAllocationSize typeSize arraySize) <;>
      cases hstatic : isStaticAlloca arraySize inEntryBlock <;>
        simp_all [Found.moved] <;> tauto
  | call isInvoke callee args noMemory returnsTwice =>
    cases isInvoke <;> cases returnsTwice <;> simp [Found.moved]
  | _ => simp [Found.moved]

theorem mem_moved_foldl_findInst (R : Nat → OffsetRanges) (l : List Nat) (r : Found) (p : Nat) :
    p ∈ (l.foldl (findInst f false R) r).moved ↔ p ∈ r.moved ∨ p ∈ l ∧
      ∃ typeSize arraySize inEntryBlock dualguardUnsafe,
        f.inst p = .alloca typeSize arraySize inEntryBlock dualguardUnsafe ∧
          isSafe f R p (getStaticAllocaAllocationSize typeSize arraySize) = false := by
  induction l generalizing r with
  | nil => simp
  | cons i l ih =>
    rw [List.foldl_cons, ih, mem_moved_findInst, List.mem_cons]
    grind

theorem mem_moved_foldl_findArg (R : Nat → OffsetRanges) (l : List ByValArg) (r : Found)
    (p : Nat) : p ∈ (l.foldl (findArg f R) r).moved ↔ p ∈ r.moved ∨
      ∃ Arg ∈ l, Arg.value = p ∧ isSafe f R p Arg.size = false := by
  induction l generalizing r with
  | nil => simp
  | cons A l ih =>
    rw [List.foldl_cons, ih]
    cases hsafe : isSafe f R A.value A.size <;> simp [findArg, hsafe, Found.moved] <;> grind

theorem mem_moved (R : Nat → OffsetRanges) (p : Nat) :
    p ∈ (findInsts f false R).moved ↔ ∃ size, IsObject f p size ∧ isSafe f R p size = false := by
  simp only [findInsts, Bool.false_eq_true, if_false, mem_moved_foldl_findArg,
    mem_moved_foldl_findInst]
  constructor
  · rintro ((h | ⟨hp, _, _, _, _, hI, hsafe⟩) | ⟨Arg, hArg, rfl, hsafe⟩)
    · simp [Found.moved] at h
    · exact ⟨_, .alloca (List.mem_range.mp hp) hI, hsafe⟩
    · exact ⟨_, .byVal hArg, hsafe⟩
  · rintro ⟨size, hobj, hsafe⟩
    cases hobj with
    | alloca hlt hI => exact .inl (.inr ⟨List.mem_range.mpr hlt, _, _, _, _, hI, hsafe⟩)
    | byVal hArg => exact .inr ⟨_, hArg, rfl, hsafe⟩

/-- **The search for an object ends, and the object is moved exactly if a use of what is computed
from its address fails.** -/
theorem moved_iff (f : Function) (R : Nat → OffsetRanges) (p : Nat) :
    (∀ size, (isSafeStackAlloca f (R p) p size).isSome) ∧
      (p ∈ (findInsts f false R).moved ↔ ∃ size, IsObject f p size ∧
        ¬ CheckedSearch.Passes (checkUses f (R p) size) p) := by
  constructor
  · intro size
    obtain ⟨b, hb, -⟩ := isSafeStackAlloca_iff (f := f) (R p) p size
    exact hb ▸ rfl
  · simp only [mem_moved, ← isSafe_iff, Bool.not_eq_true]

/-! ## Accesses -/

/-- An access that passes is within the object, byte by byte. -/
theorem lt_of_isAccessSafe {Addr : Nat} {AccessSize AllocaSize o : BitVec 64}
    (h : isAccessSafe R Addr AccessSize AllocaSize = true)
    (ho : R.has (R.getUnsignedRange Addr) o) :
    ∀ k < AccessSize.toNat, o.toNat + k < AllocaSize.toNat := by
  intro k hk
  have hword : ∀ j, j < AccessSize.toNat → (o + BitVec.ofNat 64 j).toNat < AllocaSize.toNat := by
    intro j hj
    have hlt := AccessSize.isLt
    rw [← R.has_below]
    refine R.has_of_contains _ _ h _ (R.has_add _ _ _ _ ho ((R.has_below _ _).mpr ?_))
    rwa [BitVec.toNat_ofNat, Nat.mod_eq_of_lt (by omega)]
  -- no byte before this one is the last of the address space
  induction k with
  | zero => simpa using hword 0 hk
  | succ k ih =>
    have hprev := ih (by omega)
    have hnext := hword (k + 1) hk
    have hlt := AllocaSize.isLt
    have hk' := AccessSize.isLt
    rw [BitVec.toNat_add, BitVec.toNat_ofNat, Nat.mod_eq_of_lt (a := k + 1) (by omega)] at hnext
    rwa [Nat.mod_eq_of_lt (by omega)] at hnext

/-! ## Runs -/

/-- The values computed from the address of the object. -/
def Derived (f : Function) (R : OffsetRanges) (size : BitVec 64) (p : Nat) : Nat → Prop :=
  Relation.ReflTransGen (CheckedSearch.Edge (checkUses f R size)) p

/-- Instructions that are not looked at do not use what is computed from the address. -/
def NoEffects (f : Function) (R : OffsetRanges) (size : BitVec 64) (p : Nat) : Prop :=
  ∀ i operands, f.inst i = .effect operands → ∀ v ∈ operands, ¬ Derived f R size p v

/-- Only values computed from the address point to the object, and none of them is in memory. -/
structure Held (f : Function) (R : OffsetRanges) (size : BitVec 64) (p : Nat) (st : State) :
    Prop where
  regs : ∀ v o, st.regs v = .addr o → Derived f R size p v
  mem : ∀ l, st.mem l = .word

variable {size : BitVec 64} {p : Nat} {st : State}

theorem held_start : Held f R size p (start p) where
  regs v o hv := by
    by_cases h : v = p
    · exact h ▸ .refl
    · simp [start, Function.update_of_ne h] at hv
  mem _ := rfl

theorem Held.loaded (h : Held f R size p st) {v : Val} (hv : Loaded st v) : v = .word := by
  obtain rfl | ⟨l, rfl⟩ := hv
  · rfl
  · exact h.mem l

theorem Held.set_word (h : Held f R size p st) (i : Nat) : Held f R size p (st.set i .word) where
  regs v o hv := by
    by_cases hvi : v = i
    · simp [State.set, hvi] at hv
    · exact h.regs v o (by simpa [State.set, Function.update_of_ne hvi] using hv)
  mem := h.mem

/-- Memory without pointers to the object takes the place of the other. -/
theorem Held.set_mem (h : Held f R size p st) {mem : Nat → Val} (hmem : ∀ l, mem l = .word) :
    Held f R size p { st with mem := mem } where
  regs := h.regs
  mem := hmem

/-- A use of a pointer to the object does not fail. -/
theorem Held.check (h : Held f R size p st)
    (hpass : CheckedSearch.Passes (checkUses f R size) p) {v i : Nat} {o : BitVec 64}
    (hv : st.regs v = .addr o) (hop : v ∈ (f.inst i).operands) :
    ∃ UI ∈ f.uses v, UI.user = i ∧ checkUse f R size v UI ≠ .fail := by
  obtain ⟨UI, hUI, huser⟩ := exists_use hop
  exact ⟨UI, hUI, huser, fun hfail =>
    hpass v (h.regs v o hv) (List.mem_map.mpr ⟨UI, hUI, hfail⟩)⟩

/-- A register whose use fails does not point to the object. -/
theorem Held.word_of_fail (h : Held f R size p st)
    (hpass : CheckedSearch.Passes (checkUses f R size) p) {v i : Nat}
    (hop : v ∈ (f.inst i).operands)
    (hfail : ∀ UI : Use, UI.user = i → checkUse f R size v UI = .fail) : st.regs v = .word := by
  cases hv : st.regs v with
  | word => rfl
  | addr o =>
    obtain ⟨UI, -, huser, hne⟩ := h.check hpass hv hop
    exact absurd (hfail UI huser) hne

/-- A pointer whose use is a checked access stays in the object. -/
theorem Held.within (h : Held f R size p st)
    (hpass : CheckedSearch.Passes (checkUses f R size) p) (hin : InRanges R st) {v i : Nat}
    {o n : BitVec 64} (hv : st.regs v = .addr o) (hop : v ∈ (f.inst i).operands)
    (hcheck : ∀ UI : Use, UI.user = i → checkUse f R size v UI ≠ .fail →
      isAccessSafe R v n size = true) :
    ∀ k < n.toNat, o.toNat + k < size.toNat := by
  obtain ⟨UI, -, huser, hne⟩ := h.check hpass hv hop
  exact lt_of_isAccessSafe (hcheck UI huser hne) (hin v o hv)

/-- What a call may use or keep does not point to the object. -/
theorem Held.passed (h : Held f R size p st)
    (hpass : CheckedSearch.Passes (checkUses f R size) p) {i callee : Nat} {isInvoke noMemory
      returnsTwice : Bool} {args : List CallArg}
    (hI : f.inst i = .call isInvoke callee args noMemory returnsTwice) :
    ∀ v ∈ passed st noMemory args, v = .word := by
  intro v hv
  obtain ⟨A, hA, rfl⟩ := List.mem_map.mp hv
  obtain ⟨hA, hunsafe⟩ := List.mem_filter.mp hA
  refine h.word_of_fail hpass (i := i) (by simp [hI, Inst.operands]; exact .inl ⟨A, hA, rfl⟩) ?_
  intro UI huser
  have hany : args.any (isUnsafeArg noMemory A.value) = true :=
    List.any_eq_true.mpr ⟨A, hA, by simpa [isUnsafeArg] using hunsafe⟩
  simp [checkUse, huser, hI, hany, passIf]

/-- Nor does what an instruction that is not looked at uses. -/
theorem Held.operands (h : Held f R size p st) (hno : NoEffects f R size p) {i : Nat}
    {operands : List Nat} (hI : f.inst i = .effect operands) :
    ∀ v ∈ operands.map st.regs, v = .word := by
  intro v hv
  obtain ⟨x, hx, rfl⟩ := List.mem_map.mp hv
  cases hreg : st.regs x with
  | word => rfl
  | addr o => exact absurd (h.regs x o hreg) (hno i operands hI x hx)

theorem isAccessSafe_of_isMemIntrinsicSafe {ptrs : List Nat} {len : BitVec 64 ⊕ Nat} {U : Nat}
    {n : BitVec 64} (hU : U ∈ ptrs) (hlen : IsLength len n)
    (h : isMemIntrinsicSafe R ptrs len U size = true) : isAccessSafe R U n size = true := by
  cases len with
  | inl Len =>
    obtain rfl : n = Len := hlen
    simpa [isMemIntrinsicSafe, hU] using h
  | inr v => simp [isMemIntrinsicSafe, hU] at h

/-- **A step keeps the pointers to the object in values computed from its address.** -/
theorem Held.step (h : Held f R size p st) (hpass : CheckedSearch.Passes (checkUses f R size) p)
    (hno : NoEffects f R size p) {e : Event} {st' : State} (hstep : Step f st e st') :
    Held f R size p st' := by
  cases hstep with
  | alloca _ => exact h.set_word _
  | load _ hv => exact h.loaded hv ▸ h.set_word _
  | vaArg _ hv => exact h.loaded hv ▸ h.set_word _
  | @store i val ptr n l hI =>
    refine h.set_mem fun l' => ?_
    have hval : st.regs val = .word := h.word_of_fail hpass (i := i) (by simp [hI, Inst.operands])
      (by simp +contextual [checkUse, hI])
    by_cases hl : l' = l
    · simp [hl, hval]
    · simpa [Function.update_of_ne hl] using h.mem l'
  | ret _ => exact h
  | lifetime _ => exact h
  | memTransfer _ _ hmem => exact h.set_mem fun l => h.loaded (hmem l)
  | memSet _ _ hmem => exact h.set_mem fun l => (hmem l).elim (fun hl => hl.trans (h.mem l)) id
  | call hI hv hmem =>
    have hpassed := h.passed hpass hI
    have hword := hv.elim h.loaded (hpassed _)
    subst hword
    exact (h.set_mem fun l => (hmem l).elim h.loaded (hpassed _)).set_word _
  | landingPad _ => exact h.set_word _
  | @pure i operands v hI hv =>
    refine ⟨fun x o hx => ?_, h.mem⟩
    by_cases hxi : x = i
    · subst hxi
      obtain ⟨y, hy, o', hyo⟩ := hv o (by simpa [State.set] using hx)
      obtain ⟨UI, hUI, huser, -⟩ := h.check hpass hyo (i := x) (by simpa [hI, Inst.operands] using hy)
      refine (h.regs y o' hyo).tail (List.mem_map.mpr ⟨UI, hUI, ?_⟩)
      simp [checkUse, huser, hI]
    · exact h.regs x o (by simpa [State.set, Function.update_of_ne hxi] using hx)
  | effect hI hv hmem =>
    have hops := h.operands hno hI
    have hword := hv.elim h.loaded (hops _)
    subst hword
    exact (h.set_mem fun l => (hmem l).elim h.loaded (hops _)).set_word _

/-- **A step keeps to the object.** -/
theorem Held.within_step (h : Held f R size p st)
    (hpass : CheckedSearch.Passes (checkUses f R size) p) (hno : NoEffects f R size p)
    (hin : InRanges R st) {e : Event} {st' : State} (hstep : Step f st e st') :
    e.Within size := by
  cases hstep with
  | @load i ptr n v hI _ =>
    refine ⟨fun o n' hmem => ?_, fun v hv => nomatch hv⟩
    obtain ⟨ho, rfl⟩ : Val.addr o = st.regs ptr ∧ n' = n := by simpa using hmem
    refine h.within hpass hin ho.symm (i := i) (by simp [hI, Inst.operands]) fun UI huser hne => ?_
    simpa [checkUse, huser, hI, passIf] using hne
  | @store i val ptr n l hI =>
    refine ⟨fun o n' hmem => ?_, fun v hv => nomatch hv⟩
    obtain ⟨ho, rfl⟩ : Val.addr o = st.regs ptr ∧ n' = n := by simpa using hmem
    refine h.within hpass hin ho.symm (i := i) (by simp [hI, Inst.operands]) fun UI huser hne => ?_
    simp only [checkUse, huser, hI, passIf] at hne
    grind
  | @ret i val mustTailCall hI =>
    refine ⟨(fun o n hmem => nomatch hmem), fun v hv => ?_⟩
    obtain ⟨x, hx, rfl⟩ := List.mem_map.mp hv
    exact h.word_of_fail hpass (i := i) (by simpa [hI, Inst.operands] using hx)
      fun UI huser => by simp [checkUse, huser, hI]
  | @memTransfer i dest src len n mem hI hlen hmem' =>
    refine ⟨fun o n' hmem => ?_, fun v hv => nomatch hv⟩
    obtain ⟨ptr, hptr, ho, rfl⟩ : ∃ ptr ∈ [src, dest], Val.addr o = st.regs ptr ∧ n' = n := by
      simpa [or_comm] using hmem
    refine h.within hpass hin ho.symm (i := i) ?_ fun UI huser hne => ?_
    · simp only [hI, Inst.operands]
      grind
    · simp only [checkUse, huser, hI] at hne
      exact isAccessSafe_of_isMemIntrinsicSafe hptr hlen (by simpa [passIf] using hne)
  | @memSet i dest val len n mem hI hlen hmem' =>
    refine ⟨fun o n' hmem => ?_, fun v hv => nomatch hv⟩
    obtain ⟨ho, rfl⟩ : Val.addr o = st.regs dest ∧ n' = n := by simpa using hmem
    refine h.within hpass hin ho.symm (i := i) (by simp [hI, Inst.operands]) fun UI huser hne => ?_
    simp only [checkUse, huser, hI] at hne
    exact isAccessSafe_of_isMemIntrinsicSafe List.mem_cons_self hlen (by simpa [passIf] using hne)
  | call hI _ _ => exact ⟨(fun o n hmem => nomatch hmem), h.passed hpass hI⟩
  | @effect i operands n v mem hI _ _ =>
    have hops := h.operands hno hI
    refine ⟨fun o n' hmem => ?_, hops⟩
    obtain ⟨x, hx, heq⟩ := List.mem_map.mp hmem
    have := hops _ (List.mem_map.mpr ⟨x, hx, rfl⟩)
    grind
  | _ => exact ⟨(fun o n hmem => nomatch hmem), fun v hv => nomatch hv⟩

/-- The steps of a run keep to an object all uses of which pass. -/
theorem Runs.within (hpass : CheckedSearch.Passes (checkUses f R size) p)
    (hno : NoEffects f R size p) {es : List Event} (h : Runs f R p es st) :
    Held f R size p st ∧ ∀ e ∈ es, e.Within size := by
  induction h with
  | start => exact ⟨held_start, fun e he => nomatch he⟩
  | step _ hin hstep ih =>
    obtain ⟨hheld, hes⟩ := ih
    refine ⟨hheld.step hpass hno hstep, fun e he => ?_⟩
    obtain he | he := List.mem_append.mp he
    · exact hes e he
    · exact List.mem_singleton.mp he ▸ hheld.within_step hpass hno hin hstep

/-- The questions about ranges, answered by ranges of words. -/
def wrappedRanges (getUnsignedRange : Nat → WrappedRange 64) : OffsetRanges where
  Range := WrappedRange 64
  has r v := r.has v = true
  below n := WrappedRange.below 64 n.toNat
  add := WrappedRange.add
  contains := WrappedRange.contains
  getUnsignedRange := getUnsignedRange
  has_below n v := WrappedRange.has_below (by decide) n.isLt v
  has_add _ _ _ _ := WrappedRange.mem_add
  has_of_contains _ _ h _ := WrappedRange.mem_of_contains h

/-- Four bytes are stored into the second half of an object of eight. -/
def secondHalf : Function :=
  .ofInsts [.alloca 8 none true false, .pure [0], .store 9 1 4, .ret none none] []

def secondHalfRanges (_ : Nat) : OffsetRanges :=
  wrappedRanges fun v => ⟨if v = 1 then 4 else 0, if v = 1 then 5 else 1, by grind⟩

theorem noEffects_secondHalf : NoEffects secondHalf (secondHalfRanges 0) 8 0 := by
  intro i operands hI
  match i with
  | 0 | 1 | 2 | 3 => cases hI
  | i + 4 => cases hI

theorem secondHalf_runs : Runs secondHalf (secondHalfRanges 0) 0
    [{}, { accesses := [(.addr 4, 4)] }]
      { regs := Function.update (start 0).regs 1 (.addr 4)
        mem := Function.update (start 0).mem 7 .word } := by
  have hstart : InRanges (secondHalfRanges 0) (start 0) := by
    intro v o hv
    by_cases h₀ : v = 0
    · subst h₀
      obtain rfl : 0 = o := by simpa [start] using hv
      show WrappedRange.has _ _ = true
      decide
    · simp [start, Function.update_of_ne h₀] at hv
  have hcast : InRanges (secondHalfRanges 0) ((start 0).set 1 (.addr 4)) := by
    intro v o hv
    by_cases h₁ : v = 1
    · subst h₁
      obtain rfl : 4 = o := by simpa [State.set] using hv
      show WrappedRange.has _ _ = true
      decide
    · exact hstart v o (by simpa [State.set, Function.update_of_ne h₁] using hv)
  have hstore : secondHalf.inst 2 = .store 9 1 4 := rfl
  exact .step (.step .start hstart (.pure (i := 1) rfl
    fun o _ => ⟨0, List.mem_cons_self, 0, rfl⟩)) hcast (.store 7 hstore)

end MSV.SafeStack
