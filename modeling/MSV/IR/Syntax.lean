import Mathlib.Data.List.Nodup
import Mathlib.Data.List.Pairwise
import MSV.Lib.APInt

/-!
# The intermediate representation

The part of LLVM IR the analyses look at. Values are named by identity, as the pointers of the
source are: an instruction, a block, a function, an argument and a global each have a number, and
two `ConstantInt`s of one width and value are the same value. A module owns its functions, a
function its blocks, a block its instructions; the last instruction of a block is its terminator.

Only what the passes read is kept. Debug locations, names of values and metadata are left out,
except the names of functions, which the passes do read.
-/

namespace MSV

/-- What is in two parts of a list without repetitions makes them the same part. -/
theorem eq_of_mem_flatMap {α β : Type*} {l : List α} {f : α → List β} (h : (l.flatMap f).Nodup)
    {a b : α} (ha : a ∈ l) (hb : b ∈ l) {x : β} (hxa : x ∈ f a) (hxb : x ∈ f b) : a = b := by
  by_contra hab
  have : Std.Symm (Function.onFun List.Disjoint f) := ⟨fun _ _ h => h.symm⟩
  exact (List.nodup_flatMap.mp h).2.forall ha hb hab hxa hxb

abbrev FuncId := Nat
abbrev BlockId := Nat
abbrev InstId := Nat
abbrev GlobalId := Nat
abbrev StructId := Nat
abbrev SignatureId := Nat

inductive FloatKind where
  | half | bfloat | float | double | x86_fp80 | fp128 | ppc_fp128
deriving DecidableEq, Repr

/-- Types. A struct is named, and so is a function type; the module says what they are made of. -/
inductive Ty where
  | void
  | int (width : Nat)
  | float (kind : FloatKind)
  | ptr (elem : Ty)
  | array (n : Nat) (elem : Ty)
  | vector (n : Nat) (elem : Ty)
  | struct (s : StructId)
  | func (sig : SignatureId)
deriving DecidableEq, Repr

namespace Ty

def isPointerTy : Ty → Bool
  | .ptr _ => true
  | _ => false

def isIntegerTy : Ty → Bool
  | .int _ => true
  | _ => false

def isArrayTy : Ty → Bool
  | .array _ _ => true
  | _ => false

end Ty

/-- `getResultElementType()`: the pointee of the GEP's own type. -/
def resultElementType (ty : Ty) : Ty :=
  match ty with
  | .ptr t => t
  | t => t

/-- Values, which are also the keys of the abstract states. -/
inductive Value where
  | constInt (c : APInt)
  /-- `ConstantPointerNull`. -/
  | null (ty : Ty)
  /-- Any other constant: `undef`, a constant expression, a floating-point literal. -/
  | constant (n : Nat) (ty : Ty)
  | global (g : GlobalId)
  | func (f : FuncId)
  | arg (f : FuncId) (i : Nat)
  | inst (i : InstId)
  | block (b : BlockId)
deriving DecidableEq

namespace Value

/-- `isa<Constant>`. -/
def isConstant : Value → Bool
  | .constInt _ | .null _ | .constant .. | .global _ | .func _ => true
  | _ => false

/-- `dyn_cast<ConstantInt>`. -/
def asConstInt : Value → Option APInt
  | .constInt c => some c
  | _ => none

end Value

inductive BinOp where
  | add | sub | mul | sdiv | udiv | and | other
deriving DecidableEq

inductive CastOp where
  | trunc | zext | sext | bitcast | addrspacecast | ptrtoint | inttoptr | other
deriving DecidableEq

inductive Pred where
  | eq | ne | ugt | uge | ult | ule | sgt | sge | slt | sle
deriving DecidableEq

/-- What a call calls: a function of matching type, an inline asm string, or anything else. -/
inductive Callee where
  | direct (f : FuncId)
  | asm (text : String)
  | indirect (v : Value)
deriving DecidableEq

inductive InstKind where
  | alloca (ty : Ty) (arraySize : Value)
  | load (ptr : Value)
  | store (val ptr : Value)
  /-- A GEP over the source element type `src`; its operands are the base and the indices. -/
  | gep (src : Ty) (base : Value) (indices : List Value)
  | cast (op : CastOp) (val : Value)
  | binop (op : BinOp) (lhs rhs : Value)
  | icmp (pred : Pred) (lhs rhs : Value)
  | phi (incoming : List Value)
  | call (callee : Callee) (args : List Value)
  | invoke (callee : Callee) (args : List Value) (normal unwind : BlockId)
  | br (target : BlockId)
  | condBr (cond : Value) (ifTrue ifFalse : BlockId)
  | switch (cond : Value) (default : BlockId) (cases : List (APInt × BlockId))
  | ret (val : Option Value)
  /-- Any other terminator: `unreachable`, `resume`, `indirectbr`, `callbr`. -/
  | otherTerm (operands : List Value) (targets : List BlockId)
  | other (operands : List Value)
deriving DecidableEq

/-- An instruction: its identity, the type of its result, and what it does. -/
structure Inst where
  id : InstId
  ty : Ty
  kind : InstKind
deriving DecidableEq

namespace InstKind

/-- The successors, in the order of the terminator's operands. -/
def successors : InstKind → List BlockId
  | .br t => [t]
  | .condBr _ t f => [t, f]
  | .switch _ d cs => d :: cs.map Prod.snd
  | .invoke _ _ n u => [n, u]
  | .otherTerm _ ts => ts
  | _ => []

def isTerminator : InstKind → Bool
  | .br _ | .condBr .. | .switch .. | .ret _ | .invoke .. | .otherTerm .. => true
  | _ => false

/-- The operands, in order. The blocks a terminator names are operands too. -/
def operands : InstKind → List Value
  | .alloca _ n => [n]
  | .load p => [p]
  | .store v p => [v, p]
  | .gep _ b is => b :: is
  | .cast _ v => [v]
  | .binop _ a b => [a, b]
  | .icmp _ a b => [a, b]
  | .phi vs => vs
  | .call (.direct f) as => as ++ [.func f]
  | .call (.indirect v) as => as ++ [v]
  | .call (.asm _) as => as
  | .invoke (.direct f) as n u => as ++ [.block n, .block u, .func f]
  | .invoke (.indirect v) as n u => as ++ [.block n, .block u, v]
  | .invoke (.asm _) as n u => as ++ [.block n, .block u]
  | .br t => [.block t]
  | .condBr c t f => [c, .block f, .block t]
  | .switch c d cs => c :: .block d :: cs.flatMap fun p => [.constInt p.1, .block p.2]
  | .ret (some v) => [v]
  | .ret none => []
  | .otherTerm vs ts => vs ++ ts.map .block
  | .other vs => vs

/-- `dyn_cast<CallBase>`: the callee and the arguments of a call or an invoke. -/
def asCallBase : InstKind → Option (Callee × List Value)
  | .call c as => some (c, as)
  | .invoke c as _ _ => some (c, as)
  | _ => none

def isGEP : InstKind → Bool
  | .gep .. => true
  | _ => false

def isStore : InstKind → Bool
  | .store .. => true
  | _ => false

end InstKind

namespace Callee

/-- `getCalledFunction()`: null for an indirect call and for inline asm. -/
def getCalledFunction : Callee → Option FuncId
  | .direct f => some f
  | _ => none

end Callee

/-- A basic block. -/
structure Block where
  id : BlockId
  insts : List Inst
deriving DecidableEq

namespace Block

def terminator (b : Block) : Option Inst := b.insts.getLast?

def successors (b : Block) : List BlockId :=
  match b.terminator with
  | some t => t.kind.successors
  | none => []

end Block

/-- A function. One without blocks is a declaration. -/
structure Function where
  id : FuncId
  name : String
  /-- The argument types. -/
  params : List Ty
  blocks : List Block
deriving DecidableEq

namespace Function

def isDeclaration (f : Function) : Bool := f.blocks.isEmpty

def insts (f : Function) : List Inst := f.blocks.flatMap Block.insts

def block? (f : Function) (b : BlockId) : Option Block := f.blocks.find? (·.id == b)

/-- `successors(bb)`. -/
def successors (f : Function) (b : BlockId) : List BlockId :=
  ((f.block? b).map Block.successors).getD []

/-- `predecessors(bb)`: one entry for every terminator operand that names the block. -/
def predecessors (f : Function) (b : BlockId) : List Block :=
  f.blocks.flatMap fun p => List.replicate (p.successors.count b) p

/-- `getSinglePredecessor()`: the predecessor, when there is exactly one entry. -/
def getSinglePredecessor (f : Function) (b : BlockId) : Option Block :=
  match f.predecessors b with
  | [p] => some p
  | _ => none

end Function

/-- A module. -/
structure Module where
  structs : StructId → List Ty
  globals : List (GlobalId × Ty)
  funcs : List Function
  /-- The result and the parameters of a function type. -/
  signatures : SignatureId → List Ty := fun _ => []
  signatureOf : FuncId → SignatureId := fun _ => 0

namespace Module

variable (M : Module)

def func? (f : FuncId) : Option Function := M.funcs.find? (·.id == f)

/-- `getFunction(name)`. -/
def getFunction (name : String) : Option Function := M.funcs.find? (·.name == name)

def blocks : List Block := M.funcs.flatMap Function.blocks

def insts : List Inst := M.funcs.flatMap Function.insts

def inst? (i : InstId) : Option Inst := M.insts.find? (·.id == i)

/-- What an instruction value does. -/
def kindOf : Value → Option InstKind
  | .inst i => (M.inst? i).map Inst.kind
  | _ => none

theorem exists_of_kindOf {v : Value} {k : InstKind} (h : M.kindOf v = some k) :
    ∃ i ∈ M.insts, v = .inst i.id ∧ i.kind = k := by
  cases v with
  | inst j =>
      obtain ⟨i, hi, rfl⟩ := Option.map_eq_some_iff.mp h
      have hid : i.id = j := by simpa using List.find?_some hi
      exact ⟨i, List.mem_of_find?_eq_some hi, by rw [hid], rfl⟩
  | _ => cases h

/-- `getType()`. A global and a function are pointers to what they hold. -/
def typeOf : Value → Ty
  | .constInt c => .int c.width
  | .null ty => ty
  | .constant _ ty => ty
  | .global g => .ptr (((M.globals.find? (·.1 == g)).map Prod.snd).getD .void)
  | .func f => .ptr (.func (M.signatureOf f))
  | .arg f i => (((M.func? f).map Function.params).getD []).getD i .void
  | .inst i => ((M.inst? i).map Inst.ty).getD .void
  | .block _ => .void

/-- All indices are the constant zero. -/
def hasAllZeroIndices (indices : List Value) : Bool :=
  indices.all fun v => match v with
    | .constInt c => c.toNat == 0
    | _ => false

/-- `stripPointerCasts()`: follow pointer casts and zero-index GEPs, at most `fuel` of them. -/
def stripFuel : Nat → Value → Value
  | 0, v => v
  | fuel + 1, v =>
      match M.kindOf v with
      | some (.cast .bitcast w) | some (.cast .addrspacecast w) =>
          if (M.typeOf w).isPointerTy then stripFuel fuel w else v
      | some (.gep _ base indices) =>
          if hasAllZeroIndices indices then stripFuel fuel base else v
      | _ => v

/-- A chain of casts is no longer than the module. -/
def stripPointerCasts (v : Value) : Value := M.stripFuel M.insts.length v

/-- Every identity names one thing, and every block ends in its only terminator. -/
structure WF : Prop where
  funcs_nodup : (M.funcs.map Function.id).Nodup
  blocks_nodup : (M.blocks.map Block.id).Nodup
  insts_nodup : (M.insts.map Inst.id).Nodup
  terminated : ∀ b ∈ M.blocks, ∃ is t, b.insts = is ++ [t] ∧ t.kind.isTerminator = true ∧
    ∀ i ∈ is, i.kind.isTerminator = false
  /-- Branches stay inside their function. -/
  targets : ∀ f ∈ M.funcs, ∀ b ∈ f.blocks, ∀ s ∈ b.successors, ∃ b' ∈ f.blocks, b'.id = s
  /-- A store has no value, so it is no operand. -/
  operands : ∀ i ∈ M.insts, ∀ v ∈ i.kind.operands, ∀ val ptr, M.kindOf v ≠ some (.store val ptr)

variable {M}

/-- The last instruction of every block is a terminator, and no other one is. -/
theorem terminated_of_last (h : ∀ b ∈ M.blocks,
    (b.insts.getLast?.any fun t => t.kind.isTerminator) = true ∧
      ∀ i ∈ b.insts.dropLast, i.kind.isTerminator = false) :
    ∀ b ∈ M.blocks, ∃ is t, b.insts = is ++ [t] ∧ t.kind.isTerminator = true ∧
      ∀ i ∈ is, i.kind.isTerminator = false := by
  intro b hb
  obtain ⟨hlast, hinit⟩ := h b hb
  obtain ⟨t, ht, hterm⟩ := (Option.any_eq_true _ _).mp hlast
  exact ⟨b.insts.dropLast, t, (List.dropLast_append_getLast? t ht).symm, hterm, hinit⟩

/-- Without a store, no operand is one. -/
theorem operands_of_isStore_eq_false (h : ∀ j ∈ M.insts, j.kind.isStore = false) :
    ∀ i ∈ M.insts, ∀ v ∈ i.kind.operands, ∀ val ptr, M.kindOf v ≠ some (.store val ptr) := by
  intro i _ v _ val ptr hstore
  obtain ⟨j, hj, rfl, hk⟩ := M.exists_of_kindOf hstore
  have hno := h j hj
  rw [hk] at hno
  cases hno

/-- No operand is a store when no store is named by an operand. -/
theorem operands_of_stores_unused (h : ∀ j ∈ M.insts, j.kind.isStore = true →
    ∀ i ∈ M.insts, .inst j.id ∉ i.kind.operands) :
    ∀ i ∈ M.insts, ∀ v ∈ i.kind.operands, ∀ val ptr, M.kindOf v ≠ some (.store val ptr) := by
  intro i hi v hv val ptr hstore
  obtain ⟨j, hj, rfl, hk⟩ := M.exists_of_kindOf hstore
  exact h j hj (by rw [hk]; rfl) i hi hv

/-- An instruction is found under its number. -/
theorem WF.inst?_eq (hM : M.WF) {i : Inst} (hi : i ∈ M.insts) : M.inst? i.id = some i := by
  unfold inst?
  cases hfind : M.insts.find? (·.id == i.id) with
  | none =>
      have := List.find?_eq_none.mp hfind i hi
      simp at this
  | some j =>
      rw [List.inj_on_of_nodup_map hM.insts_nodup (List.mem_of_find?_eq_some hfind) hi
        (by simpa using List.find?_some hfind)]

theorem WF.kindOf_eq (hM : M.WF) {i : Inst} (hi : i ∈ M.insts) :
    M.kindOf (.inst i.id) = some i.kind := by
  rw [kindOf, hM.inst?_eq hi]
  rfl

section Parts

variable (hM : M.WF) {f : Function} (hf : f ∈ M.funcs)

include hM hf

theorem WF.insts_nodup_of_func : (f.insts.map Inst.id).Nodup :=
  hM.insts_nodup.sublist (List.Sublist.map _ (List.sublist_flatten_of_mem (List.mem_map_of_mem hf)))

theorem WF.insts_nodup_of_block {b : Block} (hb : b ∈ f.blocks) : (b.insts.map Inst.id).Nodup :=
  (hM.insts_nodup_of_func hf).sublist
    (List.Sublist.map _ (List.sublist_flatten_of_mem (List.mem_map_of_mem hb)))

theorem WF.insts_ne_nil {b : Block} (hb : b ∈ f.blocks) : b.insts ≠ [] := by
  obtain ⟨is, t, heq, -⟩ := hM.terminated b (List.mem_flatMap.mpr ⟨f, hf, hb⟩)
  rw [heq]
  simp

end Parts

end Module

end MSV
