import MSV.SLH.MarkerProof

/-!
# What a block asks for

What the two walks do with an access is decided by the instructions of its block. The address of an
access is hardened, or its result, unless it depends on an access whose address is (`Planned`). The
filter looks for a `DUMMY_AFTER` before it (`Marked`), unless the access computes the condition of a
branch (`ComputesCondition`) or its timing varies. A result may be hardened further down, or not at
all, depending on the results that are still to be hardened when the second walk gets there
(`awaiting`).

Nothing here mentions the sets of the walks. That these are what the walks compute is proved in the
modules that follow.
-/

namespace MSV.SLH

variable (O : Options) (T : Target) (F : MachineFunction) (bb : MachineBasicBlock)

/-! ## Dependence between registers -/

/-- One instruction passes a dependence on from what it reads to what it defines. -/
def taintStep (R : List Reg) (mi : MachineInstr) : List Reg :=
  if mi.uses.any (· ∈ R) then mi.defs ++ R else R

/-- The registers that depend on `R` after a stretch of instructions. -/
def taint (R : List Reg) (l : List MachineInstr) : List Reg := l.foldl taintStep R

/-! ## Accesses -/

/-- The instruction that computes the condition of the branches of the block, if these are
hardened. -/
def branchCondition : Option MachineInstr :=
  if O.HardenOneBranchCondition || O.HardenAllBranchConditions then findCondition [] bb.reverse
  else none

/-- A conditional branch that no other one precedes. -/
def FirstBranch (p : List MachineInstr) (x : MachineInstr) : Prop :=
  x.isConditionalBranch = true ∧ ∀ b ∈ p, b.opcode ≠ .MFENCE → b.isConditionalBranch = false

/-- The pass looks at the instruction `x` behind `p`: it loads, its timing varies, it is a store and
these are hardened, or it is a branch whose condition is. -/
def Considered (p : List MachineInstr) (x : MachineInstr) : Prop :=
  O.HardenLoads = true ∧ (x.mayLoad = true ∨ mayVariant O x = true ∨
    (O.HardenStoreAddress && x.mayStore) = true ∨
    (branchCondition O bb).isSome = true ∧ FirstBranch p x)

/-- What is to be hardened of an access. -/
inductive Way where
  | addr
  | result
deriving DecidableEq

/-- The access `x` behind `p` is to be hardened in this way. It must not depend on an earlier access
whose address is. Its result is, where that is possible and no register of its address is hardened
before. -/
def Planned (p : List MachineInstr) (x : MachineInstr) (way : Way) : Prop :=
  Considered O bb p x ∧ x.addrRegs ≠ [] ∧
    (∀ q J m, p = q ++ J :: m → Planned q J .addr → ∀ r ∈ x.addrRegs, r ∉ taint J.defs (m ++ [x])) ∧
    (way = .result ↔ postLoadCompatible O T x [] = true ∧ ∀ q J m, p = q ++ J :: m →
      (Planned q J .addr → ∀ r ∈ x.addrRegs, r ∉ J.addrRegs) ∧
        (Planned q J .result → ∀ r ∈ x.addrRegs, r ∉ J.defs))
termination_by p.length
decreasing_by all_goals simp_all

/-- No fence keeps the first walk from the instruction behind `p`. -/
def Unfenced (p : List MachineInstr) : Prop := ∀ y ∈ p, ¬ Stops O y

/-- An access of the block that is to be hardened in this way. -/
def PlannedIn (x : MachineInstr) (way : Way) : Prop :=
  ∃ p q, bb = p ++ x :: q ∧ Unfenced O (p ++ [x]) ∧ Planned O T bb p x way

/-- The instruction computes the condition of a branch of the block. -/
def ComputesCondition (x : MachineInstr) : Prop :=
  O.HardenLoads = true ∧ branchCondition O bb = some x ∧ ∃ p b q, bb = p ++ b :: q ∧
    Unfenced O (p ++ [b]) ∧ b.isConditionalBranch = true ∧ b.opcode ≠ .MFENCE

/-- A store that is hardened as one. -/
def storeHardened (x : MachineInstr) : Bool := O.HardenStoreAddress && x.mayStore && !x.mayLoad

/-! ## Markers -/

/-- A marker of a stand-alone GEP. -/
def StandAlone (x : MachineInstr) : Prop :=
  O.HardenLoads = true ∧ ∃ p b q, bb = p ++ b :: q ∧ Unfenced O p ∧ b.isBefore = true ∧
    betweenMarkers q ≠ [] ∧ (x = b ∨ nextAfter q = some x)

/-- The instruction is directly behind a `DUMMY_AFTER`, markers of stand-alone GEPs left out. -/
def Marked (x : MachineInstr) : Prop :=
  ∃ p A m q, bb = p ++ A :: (m ++ x :: q) ∧ A.isAfter = true ∧ ¬ StandAlone O bb A ∧
    ∀ y ∈ m, StandAlone O bb y

/-! ## Results -/

/-- Where the hardening of the result of `x` goes, when those in `A` are to be hardened as well. -/
def resultTarget (A : List Nat) (x : MachineInstr) : Option MachineInstr :=
  sinkTarget T F bb x { HardenPostLoad := A.filter (· ≠ x.id) }

/-- The second walk gets to the result of `x`: it is not done after the address. -/
def GetsToResult (x : MachineInstr) : Prop :=
  PlannedIn O T bb x .addr →
    O.HardenAllBranchConditions = true ∧ ComputesCondition O bb x ∧ storeHardened O x = false

/-- The results to be hardened when that of `x` has been, or its hardening has been moved. -/
def moveResult (A : List Nat) (x : MachineInstr) : List Nat :=
  match resultTarget T F bb A x with
  | none => A.filter (· ≠ x.id)
  | some u =>
      if u.id = x.id then A.filter (· ≠ x.id) else (A.filter (· ≠ x.id)).insert u.id

open Classical in
/-- The results to be hardened behind `x`, where `A` are before it. -/
noncomputable def passResult (A : List Nat) (x : MachineInstr) : List Nat :=
  if x.id ∈ A ∧ GetsToResult O T bb x then moveResult T F bb A x else A

open Classical in
/-- The results to be hardened when the second walk has passed `p`. -/
noncomputable def awaiting (p : List MachineInstr) : List Nat :=
  p.foldl (passResult O T F bb)
    ((bb.filter fun x => PlannedIn O T bb x .result).map MachineInstr.id)

end MSV.SLH
