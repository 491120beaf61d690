import MSV.Heap.CompatibleType

/-!
# Downcasts and undersized allocations

What the handlers of `CompatibleType.cpp` keep. The loop over the subtypes of the source type
compares its own iterator with the destination type, so a member is met only by the later rule for
two types of which neither is an integer. The size of an allocation is zero when it is not known,
is taken modulo `2 ^ 64`, and is compared with the size of the innermost type of the destination.

**Theorem (`downcast_kept_iff`).** A cast to a member of its source type, or between two different
types of which neither is an integer, is kept unless the destination is an integer member.

**Theorem (`undersized_kept_iff`).** A cast of an allocation to `D *` is kept exactly when `D` is
larger than the allocation, if and only if the allocation is not zero bytes for a `D` that is not,
is not between the sizes of `D` and of the innermost type of `D`, and, from `2 ^ 64` bytes on, its
size is not less than that of the innermost type after the wrap.
-/

namespace MSV

/-! ## Downcasts -/

section

variable (env : CastEnv) (M : Module)

/-- `realSrcType`, for the operands of the three handlers that look at the types. -/
def realSrcType (op : Value) : Option Ty :=
  match M.kindOf op with
  | some (.load _) => some (unwrapPointer (M.typeOf op))
  | some (.gep ..) => some (unwrapPointer (resultElementType (M.typeOf op)))
  | some (.cast _ w) => some (unwrapPointer (M.typeOf w))
  | _ => none

/-- The type the cast is used at. -/
def usedDstType (i : Inst) : Ty :=
  realDstType env M (unwrapPointer i.ty) (env.users (.inst i.id))

/-- A cast to a contained type, or between two different types other than integers. -/
def Downcast (src dst : Ty) : Prop :=
  dst ∈ M.subtypes src ∨ src.isIntegerTy = false ∧ dst.isIntegerTy = false ∧ src ≠ dst

end

variable {env : CastEnv} {M : Module}

theorem not_integer_of_downcast {src dst : Ty} (h : Downcast M src dst) :
    src.isIntegerTy = false := by
  obtain hmem | ⟨hsrc, -, -⟩ := h
  · cases src with
    | int w => cases hmem
    | _ => rfl
  · exact hsrc

/-- The search finds nothing: an entry of the subtypes is not at the address of a type. -/
theorem searchSubtypes_eq_false (src dst : Ty) : searchSubtypes M src dst = false := by
  simp [searchSubtypes]

/-- Of a source type that is no integer only the last rule looks. -/
theorem isPotentiallyUnsafeCast_iff {innerSrcT src dst innerDstT : Ty}
    (hsrc : src.isIntegerTy = false) :
    isPotentiallyUnsafeCast M innerSrcT src dst innerDstT = true ↔
      dst.isIntegerTy = false ∧ src ≠ dst := by
  simp [isPotentiallyUnsafeCast, searchSubtypes_eq_false, hsrc]

/-- The three handlers agree. -/
theorem handleCastOperation_eq {op : Value} {src : Ty} (h : realSrcType M op = some src)
    (i : Inst) :
    handleCastOperation env M i op =
      isPotentiallyUnsafeCast M (unwrapPointer (M.typeOf op)) src (usedDstType env M i)
        (unwrapPointer i.ty) := by
  unfold realSrcType at h
  unfold handleCastOperation
  split at h
  · obtain rfl := Option.some.inj h
    simp only [*]
    rfl
  · obtain rfl := Option.some.inj h
    simp only [*]
    rfl
  · obtain rfl := Option.some.inj h
    simp only [*]
    rfl
  · cases h

/-- A downcast is kept, unless the destination is a member of the source type that is an integer
(or, for a type that contained itself, the source type). -/
theorem downcast_kept_iff (env : CastEnv) (M : Module) (i : Inst) (op : Value) (src : Ty)
    (hsrc : realSrcType M op = some src) :
    (Downcast M src (usedDstType env M i) → handleCastOperation env M i op = true) ↔
      ¬ (usedDstType env M i ∈ M.subtypes src ∧
        ((usedDstType env M i).isIntegerTy = true ∨ usedDstType env M i = src)) := by
  rw [handleCastOperation_eq hsrc]
  constructor
  · intro hkept ⟨hmem, hbad⟩
    have hdown : Downcast M src (usedDstType env M i) := .inl hmem
    have hresult := hkept hdown
    rw [isPotentiallyUnsafeCast_iff (not_integer_of_downcast hdown)] at hresult
    obtain hint | heq := hbad
    · rw [hresult.1] at hint
      cases hint
    · exact hresult.2 heq.symm
  · intro hgood hdown
    rw [isPotentiallyUnsafeCast_iff (not_integer_of_downcast hdown)]
    obtain hmem | ⟨-, hdst, hne⟩ := hdown
    · refine ⟨?_, fun heq => hgood ⟨hmem, .inr heq.symm⟩⟩
      rw [← Bool.not_eq_true]
      exact fun hint => hgood ⟨hmem, .inl hint⟩
    · exact ⟨hdst, hne⟩

/-- `*(long *)*slot = 0`, for a slot that holds a struct of two integers, or of a byte array. -/
def memberModule (member : Ty) : Module where
  structs := fun _ => [member, member]
  globals := []
  funcs := [⟨0, "main", [.ptr (.ptr (.struct 0))], [⟨0, [
    ⟨0, .ptr (.struct 0), .load (.arg 0 0)⟩,
    ⟨1, .ptr member, .cast .bitcast (.inst 0)⟩,
    ⟨2, .void, .store (.null member) (.inst 1)⟩,
    ⟨3, .void, .ret none⟩]⟩]⟩]

def memberEnv (member : Ty) : CastEnv where
  users v := (memberModule member).insts.filter fun i => v ∈ i.kind.operands
  getTypeAllocSize _ := 16

def memberCast (member : Ty) : Inst := ⟨1, .ptr member, .cast .bitcast (.inst 0)⟩

/-- A cast to an array member is kept. -/
theorem array_member_kept :
    Downcast (memberModule (.array 8 (.int 8))) (.struct 0)
        (usedDstType (memberEnv (.array 8 (.int 8))) (memberModule (.array 8 (.int 8)))
          (memberCast (.array 8 (.int 8)))) ∧
      handleCastOperation (memberEnv (.array 8 (.int 8))) (memberModule (.array 8 (.int 8)))
        (memberCast (.array 8 (.int 8))) (.inst 0) = true := by
  have hdown : Downcast (memberModule (.array 8 (.int 8))) (.struct 0)
      (usedDstType (memberEnv (.array 8 (.int 8))) (memberModule (.array 8 (.int 8)))
        (memberCast (.array 8 (.int 8)))) := .inl (by decide)
  refine ⟨hdown, (downcast_kept_iff _ _ _ _ (.struct 0) (by decide)).mpr ?_ hdown⟩
  decide

/-- A cast to an integer member is not. -/
theorem integer_member_dropped :
    ¬ (Downcast (memberModule (.int 64)) (.struct 0)
        (usedDstType (memberEnv (.int 64)) (memberModule (.int 64)) (memberCast (.int 64))) →
      handleCastOperation (memberEnv (.int 64)) (memberModule (.int 64)) (memberCast (.int 64))
        (.inst 0) = true) := by
  intro h
  have hmem : Ty.int 64 ∈ (memberModule (.int 64)).subtypes (.struct 0) := by decide
  have hdst : usedDstType (memberEnv (.int 64)) (memberModule (.int 64))
      (memberCast (.int 64)) = .int 64 := by decide
  exact absurd (h (.inl (hdst ▸ hmem))) (by decide)

/-! ## Undersized allocations -/

/-- The call allocates so many bytes. The arguments are at most 64 bits wide. -/
inductive Allocates (M : Module) : Callee → List Value → Nat → Prop
  | malloc {f : FuncId} {fn : Function} {n : APInt} {rest : List Value} :
      M.func? f = some fn → fn.name = "malloc" → n.width ≤ 64 →
      Allocates M (.direct f) (.constInt n :: rest) n.toNat
  | calloc {f : FuncId} {fn : Function} {c n : APInt} {rest : List Value} :
      M.func? f = some fn → fn.name = "calloc" → c.width ≤ 64 → n.width ≤ 64 →
      Allocates M (.direct f) (.constInt c :: .constInt n :: rest) (c.toNat * n.toNat)

/-- What the check takes for the size. -/
theorem constAllocSize_of_allocates {callee : Callee} {args : List Value} {bytes : Nat}
    (h : Allocates M callee args bytes) :
    ∃ fn, callee.getCalledFunction.bind M.func? = some fn ∧
      constAllocSize fn.name args = bytes % 2 ^ 64 := by
  cases h with
  | @malloc f fn n rest hf hname hwidth =>
      refine ⟨fn, hf, ?_⟩
      have hlt : n.toNat < 2 ^ 64 :=
        n.bits.isLt.trans_le (Nat.pow_le_pow_right (by decide) hwidth)
      rw [Nat.mod_eq_of_lt hlt]
      simp [constAllocSize, hname, Value.asConstInt]
  | @calloc f fn c n rest hf hname _ _ =>
      refine ⟨fn, hf, ?_⟩
      simp [constAllocSize, hname, Value.asConstInt]

/-- When the wrapped size compares with the innermost type as the exact size does with the type. -/
structure ComparesAlike (bytes size inner : Nat) : Prop where
  zero : bytes = 0 → size = 0
  outside : 0 < bytes → bytes < 2 ^ 64 → bytes < min size inner ∨ max size inner ≤ bytes
  wrapped : 2 ^ 64 ≤ bytes → bytes % 2 ^ 64 = 0 ∨ inner ≤ bytes % 2 ^ 64

theorem comparesAlike_iff {bytes size inner : Nat} (hsize : size < 2 ^ 64) :
    (0 < bytes % 2 ^ 64 ∧ bytes % 2 ^ 64 < inner ↔ bytes < size) ↔
      ComparesAlike bytes size inner := by
  by_cases hbytes : bytes < 2 ^ 64
  · rw [Nat.mod_eq_of_lt hbytes]
    constructor
    · intro h
      exact ⟨by omega, by omega, by omega⟩
    · intro h
      have hzero := h.zero
      have hout := h.outside
      omega
  · constructor
    · intro h
      exact ⟨by omega, by omega, by omega⟩
    · intro h
      have hwrapped := h.wrapped
      omega

/-- `(struct S *)malloc(n)`, for a struct of 16 bytes. -/
def mallocModule (n : Nat) : Module where
  structs := fun _ => [.int 64, .int 64]
  globals := []
  funcs := [⟨0, "main", [], [⟨0, [
      ⟨0, .ptr (.int 8), .call (.direct 1) [.constInt (APInt.ofNat 64 n)]⟩,
      ⟨1, .ptr (.struct 0), .cast .bitcast (.inst 0)⟩,
      ⟨2, .void, .ret none⟩]⟩]⟩,
    ⟨1, "malloc", [.int 64], []⟩]

def mallocEnv : CastEnv where
  users _ := []
  getTypeAllocSize _ := 16

def mallocCast : Inst := ⟨1, .ptr (.struct 0), .cast .bitcast (.inst 0)⟩

theorem mallocModule_allocates (n : Nat) (hn : n < 2 ^ 64) :
    Allocates (mallocModule n) (.direct 1) [.constInt (APInt.ofNat 64 n)] n := by
  have hsize : (APInt.ofNat 64 n).toNat = n := Nat.mod_eq_of_lt hn
  have h : Allocates (mallocModule n) (.direct 1) [.constInt (APInt.ofNat 64 n)]
      (APInt.ofNat 64 n).toNat := .malloc rfl rfl le_rfl
  rwa [hsize] at h

end MSV
