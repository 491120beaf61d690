import MSV.Heap.Uriah

/-!
# Compatible types of casts

`CompatibleType.cpp`: a loop over the ordered map of the `Dyn` casts. A cast whose own check finds
nothing unsafe is erased, and with it the entry of its operand, whatever the check of that one
would say. The iterator has moved on by then; if it names the operand, it dangles, and the loop
goes on with an erased entry. `castLoop` ends with `none` there.

**Theorem (`casts_exact`).** For every order of the keys exactly the casts that their own check does
not find safe remain, if and only if no cast that is found safe has another entry of the map as its
operand.
-/

namespace MSV

/-- An entry of the map. -/
abbrev CastEntry := Sigma fun _ : Value => VariableInfo

/-- What is asked of LLVM. -/
structure CastEnv where
  /-- The users of a value, in the order of its use list. -/
  users : Value → List Inst
  getTypeAllocSize : Ty → Nat

/-- `subtype_begin()` to `subtype_end()`. -/
def Module.subtypes (M : Module) : Ty → List Ty
  | .ptr t | .array _ t | .vector _ t => [t]
  | .struct s => M.structs s
  | .func sig => M.signatures sig
  | .void | .int _ | .float _ => []

/-- The pointers that are compared: to a type, or to an entry of the subtypes of one. -/
inductive TypePtr where
  | type (t : Ty)
  | subtype (container : Ty) (i : Nat)
deriving DecidableEq

/-- The search through the subtypes. It compares the iterator with the type. -/
def searchSubtypes (M : Module) (realSrcType realDstType : Ty) : Bool :=
  (List.range (M.subtypes realSrcType).length).any fun i =>
    decide (TypePtr.subtype realSrcType i = .type realDstType)

def isPotentiallyUnsafeCast (M : Module) (innerSrcT realSrcType realDstType innerDstT : Ty) :
    Bool :=
  searchSubtypes M realSrcType realDstType ||
    (innerSrcT.isIntegerTy && realSrcType.isIntegerTy &&
      (!realDstType.isIntegerTy || !innerDstT.isIntegerTy)) ||
    (!realSrcType.isIntegerTy && !realDstType.isIntegerTy && realSrcType != realDstType)

section

variable (env : CastEnv) (M : Module)

/-- The type a loaded value is used at: that of the first cast of it, else its own. -/
def loadedDstType (load : Inst) : Ty :=
  match (env.users (.inst load.id)).find? fun j => isCast M (.inst j.id) with
  | some cast => unwrapPointer cast.ty
  | none => unwrapPointer load.ty

/-- `realDstType`: decided by the first use that is a store, a load or a cast. -/
def realDstType (innerDstT : Ty) : List Inst → Ty
  | [] => innerDstT
  | user :: rest =>
      match user.kind with
      | .store _ ptr => unwrapPointer (M.typeOf ptr)
      | .load _ => loadedDstType env M user
      | .cast .. => unwrapPointer user.ty
      | _ => realDstType innerDstT rest

/-- The check three of the handlers share, from the type the operand really has. -/
def isUnsafeCastFrom (realSrcType : Ty) (i : Inst) (innerSrcT innerDstT : Ty) : Bool :=
  isPotentiallyUnsafeCast M innerSrcT realSrcType
    (realDstType env M innerDstT (env.users (.inst i.id))) innerDstT

/-- The check of `handleLoadCast`. -/
def handleLoadCast (i : Inst) (loadTy : Ty) (innerSrcT innerDstT : Ty) : Bool :=
  isUnsafeCastFrom env M (unwrapPointer loadTy) i innerSrcT innerDstT

/-- The check of `handleGetElementPtrCast`. -/
def handleGetElementPtrCast (i : Inst) (gepTy : Ty) (innerSrcT innerDstT : Ty) : Bool :=
  isUnsafeCastFrom env M (unwrapPointer (resultElementType gepTy)) i innerSrcT innerDstT

/-- The check of `handleCastInstCast`. -/
def handleCastInstCast (i : Inst) (nestedSrcTy : Ty) (innerSrcT innerDstT : Ty) : Bool :=
  isUnsafeCastFrom env M (unwrapPointer nestedSrcTy) i innerSrcT innerDstT

/-- The constant size of an allocation, zero if it is not known. -/
def constAllocSize (name : String) (args : List Value) : Nat :=
  if name = "malloc" then
    match args[0]?.bind Value.asConstInt with
    | some c => c.toNat
    | none => 0
  else if name = "calloc" then
    match args[0]?.bind Value.asConstInt, args[1]?.bind Value.asConstInt with
    | some n, some c => n.toNat * c.toNat % 2 ^ 64
    | _, _ => 0
  else 0

/-- The check of `handleCallInstCast`: the allocation is too small for the type. -/
def handleCallInstCast (i : Inst) (callee : Callee) (args : List Value) : Bool :=
  match callee.getCalledFunction.bind M.func? with
  | none => false
  | some f =>
      let allocSize := constAllocSize f.name args
      decide (0 < allocSize) && i.ty.isPointerTy &&
        decide (allocSize < env.getTypeAllocSize (unwrapPointer i.ty))

/-- `handleCastOperation`: false if the cast is found safe. -/
def handleCastOperation (i : Inst) (op : Value) : Bool :=
  let innerSrcT := unwrapPointer (M.typeOf op)
  let innerDstT := unwrapPointer i.ty
  match M.kindOf op with
  | some (.load _) => handleLoadCast env M i (M.typeOf op) innerSrcT innerDstT
  | some (.gep ..) => handleGetElementPtrCast env M i (M.typeOf op) innerSrcT innerDstT
  | some (.cast _ w) => handleCastInstCast env M i (M.typeOf w) innerSrcT innerDstT
  | some (.call callee args) => handleCallInstCast env M i callee args
  | _ => true

/-- A sign extension or a truncation. -/
def CastOp.isExtOrTrunc : CastOp → Bool
  | .sext | .trunc => true
  | _ => false

/-- Whether `safeTypeCastAnalysis` hands the cast to `handleCastOperation`. -/
def isHandledCast (i : Inst) (op : CastOp) (v : Value) : Bool :=
  ((M.typeOf v).isPointerTy && isCastOfInterest (M.typeOf v) i.ty) || !op.isExtOrTrunc

/-- The operand of a cast that is found safe. -/
def safeCastOperand (v : Value) : Option Value :=
  match v with
  | .inst id =>
      match M.inst? id with
      | some ⟨id, ty, .cast op w⟩ =>
          let i : Inst := ⟨id, ty, .cast op w⟩
          if isHandledCast M i op w && !handleCastOperation env M i w then some w else none
      | _ => none
  | _ => none

def eraseKey (l : List CastEntry) (v : Value) : List CastEntry := l.filter (·.1 ≠ v)

theorem length_eraseKey_le (l : List CastEntry) (v : Value) : (eraseKey l v).length ≤ l.length :=
  List.length_filter_le _ l

/-- The loop of `safeTypeCastAnalysis`: the entries before the iterator and those from it on. -/
def castLoop (before : List CastEntry) : List CastEntry → Option (List CastEntry)
  | [] => some before
  | e :: rest =>
      match safeCastOperand env M e.1 with
      | none => castLoop (before ++ [e]) rest
      | some op =>
          -- the entry after the erased one is erased under the iterator
          if (rest.head?).map (·.1) = some op then none
          else castLoop (eraseKey before op) (eraseKey rest op)
termination_by rest => rest.length
decreasing_by
  · simp
  · exact Nat.lt_succ_of_le (length_eraseKey_le rest op)

/-- The entries that remain, for a map given in the order of its keys. -/
def safeTypeCastAnalysis (heapDynPointerSet : List CastEntry) : Option (List CastEntry) :=
  castLoop env M [] heapDynPointerSet

end

/-! ## What remains -/

section

variable {env : CastEnv} {M : Module}

theorem eraseKey_of_forall_ne {l : List CastEntry} {v : Value} (h : ∀ d ∈ l, d.1 ≠ v) :
    eraseKey l v = l := by
  apply List.filter_eq_self.mpr
  intro d hd
  simpa using h d hd

/-- The check of the cast itself does not find it safe. -/
def keptCast (env : CastEnv) (M : Module) (e : CastEntry) : Bool :=
  (safeCastOperand env M e.1).isNone

/-- A safe cast whose operand has no other entry takes nothing with it. -/
theorem castLoop_of_forall {before rest : List CastEntry}
    (hnd : ((before ++ rest).map Sigma.fst).Nodup)
    (h : ∀ e ∈ rest, ∀ op, safeCastOperand env M e.1 = some op →
      ∀ d ∈ before ++ rest, d.1 = op → d.1 = e.1) :
    castLoop env M before rest = some (before ++ rest.filter (keptCast env M)) := by
  induction rest generalizing before with
  | nil => simp [castLoop]
  | cons e rest ih =>
      rw [castLoop]
      cases hop : safeCastOperand env M e.1 with
      | none =>
          have hkept : keptCast env M e = true := by simp [keptCast, hop]
          have hassoc : before ++ [e] ++ rest = before ++ e :: rest := by simp
          dsimp only
          rw [ih (by rwa [hassoc]) (fun e' he' => by
            rw [hassoc]
            exact h e' (List.mem_cons_of_mem _ he'))]
          rw [List.filter_cons_of_pos hkept]
          simp
      | some op =>
          have hkept : ¬ keptCast env M e = true := by simp [keptCast, hop]
          -- the operand has no entry besides the one just erased
          have hne : ∀ d ∈ before ++ rest, d.1 ≠ op := by
            intro d hd hdop
            have hde := h e (by simp) op hop d (by
              rcases List.mem_append.mp hd with hd | hd <;> simp [hd]) hdop
            have : e.1 ∉ (before ++ rest).map Sigma.fst := by
              rw [List.map_append, List.map_cons, List.nodup_middle, List.nodup_cons] at hnd
              simpa using hnd.1
            exact this (List.mem_map.mpr ⟨d, hd, hde⟩)
          have hbefore : eraseKey before op = before :=
            eraseKey_of_forall_ne fun d hd => hne d (List.mem_append_left _ hd)
          have hrest : eraseKey rest op = rest :=
            eraseKey_of_forall_ne fun d hd => hne d (List.mem_append_right _ hd)
          have hhead : (rest.head?).map (·.1) ≠ some op := by
            intro hh
            obtain ⟨d, hd, hdop⟩ := Option.map_eq_some_iff.mp hh
            exact hne d (List.mem_append_right _ (List.mem_of_mem_head? hd)) hdop
          dsimp only
          rw [if_neg hhead, hbefore, hrest, List.filter_cons_of_neg hkept]
          apply ih
          · rw [List.map_append, List.map_cons, List.nodup_middle, List.nodup_cons] at hnd
            simpa using hnd.2
          · intro e' he' op' hop' d hd
            exact h e' (List.mem_cons_of_mem _ he') op' hop' d (by
              rcases List.mem_append.mp hd with hd | hd <;> simp [hd])

/-- The loop loses its iterator on a safe cast that comes right before its operand. -/
theorem castLoop_dangling {before rest : List CastEntry} {e d : CastEntry}
    (h : safeCastOperand env M e.1 = some d.1) :
    castLoop env M before (e :: d :: rest) = none := by
  rw [castLoop, h]
  simp

end

/-- Exactly the entries their own check keeps remain, in every order of the keys, if and only if no
cast found safe has another entry as operand. -/
theorem casts_exact (env : CastEnv) (M : Module) (heapDynPointerSet : PointerSet) :
    (∀ order : List CastEntry, order.Perm heapDynPointerSet.entries →
        safeTypeCastAnalysis env M order = some (order.filter (keptCast env M))) ↔
      ∀ e ∈ heapDynPointerSet.entries, ∀ op, safeCastOperand env M e.1 = some op →
        ∀ d ∈ heapDynPointerSet.entries, d.1 = op → d.1 = e.1 := by
  constructor
  · intro h e he op hop d hd hdop
    by_contra hne
    -- the order with the cast first and its operand second
    obtain ⟨l₁, l₂, hl⟩ := List.append_of_mem he
    have hd' : d ∈ l₁ ++ l₂ := by
      rw [hl] at hd
      rcases List.mem_append.mp hd with hd | hd
      · exact List.mem_append_left _ hd
      · rcases List.mem_cons.mp hd with rfl | hd
        · exact absurd rfl hne
        · exact List.mem_append_right _ hd
    obtain ⟨r₁, r₂, hr⟩ := List.append_of_mem hd'
    have hperm : (e :: d :: (r₁ ++ r₂)).Perm heapDynPointerSet.entries := by
      rw [hl]
      refine List.Perm.trans ?_ List.perm_middle.symm
      rw [hr]
      exact List.Perm.cons _ List.perm_middle.symm
    have hnone : safeTypeCastAnalysis env M (e :: d :: (r₁ ++ r₂)) = none :=
      castLoop_dangling (hdop ▸ hop)
    rw [h _ hperm] at hnone
    cases hnone
  · intro h order hperm
    have hnd : (order.map Sigma.fst).Nodup :=
      (hperm.map _).nodup_iff.mpr heapDynPointerSet.nodupKeys
    refine castLoop_of_forall (by simpa using hnd) fun e he op hop d hd => ?_
    exact h e (hperm.subset he) op hop d (hperm.subset (by simpa using hd))

/-- `(char *)(struct S *)*slot`: the inner cast makes a struct of bytes, the outer one takes it
back. -/
def nestedCastModule : Module where
  structs := fun _ => [.int 64, .int 64]
  globals := []
  funcs := [⟨0, "main", [.ptr (.ptr (.int 8))], [⟨0, [
    ⟨0, .ptr (.int 8), .load (.arg 0 0)⟩,
    ⟨1, .ptr (.struct 0), .cast .bitcast (.inst 0)⟩,
    ⟨2, .ptr (.int 8), .cast .bitcast (.inst 1)⟩,
    ⟨3, .void, .ret none⟩]⟩]⟩]

def nestedCastEnv : CastEnv where
  users v := nestedCastModule.insts.filter fun i => v ∈ i.kind.operands
  getTypeAllocSize _ := 16

/-- Both casts as `Dyn` pointers, with the smaller key for the inner one. -/
def nestedCasts : List CastEntry :=
  [⟨.inst 1, { VariableInfo.registered with classification := .dyn }⟩,
    ⟨.inst 2, { VariableInfo.registered with classification := .dyn }⟩]

/-- The inner cast is found unsafe and kept, until the outer one, which is safe, takes it along. -/
theorem unsafe_cast_erased :
    (safeTypeCastAnalysis nestedCastEnv nestedCastModule nestedCasts).map (·.map Sigma.fst) =
        some [] ∧
      (nestedCasts.filter (keptCast nestedCastEnv nestedCastModule)).map Sigma.fst =
        [.inst 1] := by
  have hinner : safeCastOperand nestedCastEnv nestedCastModule (.inst 1) = none := by decide
  have houter : safeCastOperand nestedCastEnv nestedCastModule (.inst 2) = some (.inst 1) := by
    decide
  constructor
  · simp [safeTypeCastAnalysis, nestedCasts, castLoop, hinner, houter, eraseKey]
  · simp [nestedCasts, keptCast, hinner, houter]

end MSV
