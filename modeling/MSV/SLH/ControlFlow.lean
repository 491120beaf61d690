import Mathlib.Data.List.Basic
import Mathlib.Logic.Function.Basic
import MSV.SLH.MachineIR

/-!
# The control flow of a machine function

A function is seen as its control flow: the layout of the blocks, and for each block its PHIs, the
conditional moves at its start, its terminators and its list of successors.

Execution is speculative: a block may be left through any of its exits, whatever the flags say. The
other instructions of a block are a parameter, a function on the registers and the flags. The
predicate state goes along with the registers, and only the conditional moves change it.
-/

namespace MSV.SLH

/-! ## Condition codes -/

/-- `X86::CondCode`, as far as a conditional branch has one. -/
inductive CondCode where
  | COND_O | COND_NO | COND_B | COND_AE | COND_E | COND_NE | COND_BE | COND_A
  | COND_S | COND_NS | COND_P | COND_NP | COND_L | COND_GE | COND_LE | COND_G
deriving DecidableEq

/-- The bits of EFLAGS that conditions read. -/
structure Flags where
  CF : Bool
  PF : Bool
  ZF : Bool
  SF : Bool
  OF : Bool
deriving DecidableEq

namespace CondCode

/-- The numbers of the enumeration. -/
def toNat : CondCode → Nat
  | COND_O => 0 | COND_NO => 1 | COND_B => 2 | COND_AE => 3
  | COND_E => 4 | COND_NE => 5 | COND_BE => 6 | COND_A => 7
  | COND_S => 8 | COND_NS => 9 | COND_P => 10 | COND_NP => 11
  | COND_L => 12 | COND_GE => 13 | COND_LE => 14 | COND_G => 15

/-- Whether the condition holds of the flags. -/
def holds (f : Flags) : CondCode → Bool
  | COND_O => f.OF | COND_NO => !f.OF
  | COND_B => f.CF | COND_AE => !f.CF
  | COND_E => f.ZF | COND_NE => !f.ZF
  | COND_BE => f.CF || f.ZF | COND_A => !(f.CF || f.ZF)
  | COND_S => f.SF | COND_NS => !f.SF
  | COND_P => f.PF | COND_NP => !f.PF
  | COND_L => f.SF != f.OF | COND_GE => !(f.SF != f.OF)
  | COND_LE => f.ZF || f.SF != f.OF | COND_G => !(f.ZF || f.SF != f.OF)

/-- `X86::GetOppositeBranchCondition`. -/
def GetOppositeBranchCondition : CondCode → CondCode
  | COND_O => COND_NO | COND_NO => COND_O | COND_B => COND_AE | COND_AE => COND_B
  | COND_E => COND_NE | COND_NE => COND_E | COND_BE => COND_A | COND_A => COND_BE
  | COND_S => COND_NS | COND_NS => COND_S | COND_P => COND_NP | COND_NP => COND_P
  | COND_L => COND_GE | COND_GE => COND_L | COND_LE => COND_G | COND_G => COND_LE

theorem holds_opposite (f : Flags) (c : CondCode) :
    c.GetOppositeBranchCondition.holds f = !c.holds f := by
  cases c <;> simp [GetOppositeBranchCondition, holds]

end CondCode

/-! ## The control flow of a function -/

/-- A PHI: the register it defines, and a register for each predecessor. -/
structure PHI where
  dst : Reg
  ops : List (Reg × Nat)
deriving DecidableEq

/-- Terminators. -/
inductive Terminator where
  /-- `JCC_1`. -/
  | jcc (cond : CondCode) (target : Nat)
  /-- `JMP_1`. -/
  | jmp (target : Nat)
  /-- A branch without a condition of its own, and the blocks it may go to. -/
  | indirect (targets : List Nat)
  /-- A terminator that is no branch. -/
  | other
deriving DecidableEq

namespace Terminator

def isJcc : Terminator → Bool
  | jcc .. => true
  | _ => false

def isBranch : Terminator → Bool
  | other => false
  | _ => true

/-- The condition of a conditional branch. -/
def cond? : Terminator → Option CondCode
  | jcc c _ => some c
  | _ => none

/-- `getOperand(0).getMBB()`. -/
def getMBB : Terminator → Option Nat
  | jcc _ t => some t
  | jmp t => some t
  | _ => none

/-- `getOperand(0).setMBB(n)`. -/
def setMBB (n : Nat) : Terminator → Terminator
  | jcc c _ => jcc c n
  | jmp _ => jmp n
  | t => t

end Terminator

/-- A block. Its instructions other than these do not matter to the control flow. -/
structure MBB where
  phis : List PHI := []
  /-- The conditions of the conditional moves at its start. -/
  checks : List CondCode := []
  /-- An LFENCE at its start. -/
  fenced : Bool := false
  terms : List Terminator := []
  succs : List Nat := []
  isEHPad : Bool := false
  liveInEFLAGS : Bool := false
  /-- Made by `splitEdge`: there is nothing in it but conditional moves and a jump. -/
  inserted : Bool := false

/-- A function: the layout, the blocks by their address, and the next free address. -/
structure MachineCFG where
  layout : List Nat
  mbb : Nat → MBB
  fresh : Nat

namespace MachineCFG

def modify (F : MachineCFG) (b : Nat) (g : MBB → MBB) : MachineCFG :=
  { F with mbb := Function.update F.mbb b (g (F.mbb b)) }

/-- The block after `b` in a layout. -/
def nextIn : List Nat → Nat → Option Nat
  | x :: y :: rest, b => if x = b then some y else nextIn (y :: rest) b
  | _, _ => none

def layoutSucc (F : MachineCFG) (b : Nat) : Option Nat := nextIn F.layout b

/-- `n` directly after `b`. -/
def insertAfter (b n : Nat) : List Nat → List Nat
  | [] => []
  | x :: rest => if x = b then x :: n :: rest else x :: insertAfter b n rest

def predecessors (F : MachineCFG) (b : Nat) : List Nat :=
  F.layout.filter fun c => b ∈ (F.mbb c).succs

end MachineCFG

/-! ## The ways out of a block -/

/-- A way out of a block. -/
inductive Exit where
  /-- The conditional branch at this position is taken. -/
  | cond (i : Nat)
  /-- No conditional branch is taken: an unconditional branch, or into the next block. -/
  | uncond
  | indirect (t : Nat)
  /-- To an EH pad. -/
  | unwind (t : Nat)
deriving DecidableEq

/-- The conditional branches that are reached. -/
def conds (terms : List Terminator) : List Terminator := terms.takeWhile Terminator.isJcc

/-- Their conditions. -/
def codes (terms : List Terminator) : List CondCode :=
  (conds terms).filterMap Terminator.cond?

/-- The terminator behind them. -/
def barrier (terms : List Terminator) : Option Terminator :=
  (terms.dropWhile Terminator.isJcc).head?

namespace MachineCFG

/-- Where an exit of `b` leads. -/
def target (F : MachineCFG) (b : Nat) : Exit → Option Nat
  | .cond i => (conds (F.mbb b).terms)[i]?.bind Terminator.getMBB
  | .uncond =>
      match barrier (F.mbb b).terms with
      | none => (F.layoutSucc b).filter fun t => t ∈ (F.mbb b).succs
      | some (.jmp t) => some t
      | some _ => none
  | .indirect t =>
      match barrier (F.mbb b).terms with
      | some (.indirect targets) => if t ∈ targets then some t else none
      | _ => none
  | .unwind t => if t ∈ (F.mbb b).succs ∧ (F.mbb t).isEHPad then some t else none

end MachineCFG

/-- The register a PHI reads when `b` is left for its block. -/
def PHI.lookup (phi : PHI) (b : Nat) : Option Reg :=
  (phi.ops.find? fun op => op.2 == b).map Prod.fst

/-- What happens on the way into a block: the moves of its PHIs and the conditional moves. -/
structure Arrival where
  block : Nat
  moves : List (Reg × Option Reg)
  checks : List CondCode
deriving DecidableEq

namespace MachineCFG

def edge (F : MachineCFG) (b t : Nat) : Arrival :=
  { block := t
    moves := (F.mbb t).phis.map fun phi => (phi.dst, phi.lookup b)
    checks := (F.mbb t).checks }

end MachineCFG

/-! ## Runs -/

/-- `PS->PoisonReg`. -/
def PoisonVal : BitVec 64 := BitVec.allOnes 64

/-- The conditional moves: the state is poisoned if one of the conditions holds. -/
def runChecks (f : Flags) (checks : List CondCode) (state : BitVec 64) : BitVec 64 :=
  checks.foldl (fun state c => if c.holds f then PoisonVal else state) state

variable {V : Type}

/-- The start of a block, with the values of the registers, the flags and the predicate state. -/
@[ext] structure Config (V : Type) where
  block : Nat
  env : Reg → V
  flags : Flags
  state : BitVec 64

/-- All PHIs of a block at once. -/
def assign (moves : List (Reg × Option Reg)) (env : Reg → V) : Reg → V := fun r =>
  match moves.find? fun m => m.1 == r with
  | some (_, some src) => env src
  | _ => env r

/-- Into a block. -/
def Config.enter (c : Config V) (a : Arrival) : Config V :=
  { block := a.block
    env := assign a.moves c.env
    flags := c.flags
    state := runChecks c.flags a.checks c.state }

/-- What the other instructions of each block do. -/
abbrev Body (V : Type) := Nat → (Reg → V) × Flags → (Reg → V) × Flags

/-- The instructions of a block; a block that `splitEdge` made has none of its own. -/
def Config.exec (F : MachineCFG) (body : Body V) (c : Config V) : Config V :=
  if (F.mbb c.block).inserted then c
  else { c with
    env := (body c.block (c.env, c.flags)).1
    flags := (body c.block (c.env, c.flags)).2 }

/-- From the start of a block through one of its exits to the start of the next. -/
def MachineCFG.step (F : MachineCFG) (body : Body V) (c : Config V) (e : Exit) :
    Option (Config V) :=
  (F.target c.block e).map fun t => (c.exec F body).enter (F.edge c.block t)

/-- What the pass relies on. Its assertions say that no branch leads to an EH pad and that a block
without an unconditional branch falls through to a successor. -/
structure MachineCFG.WellFormed (F : MachineCFG) : Prop where
  nodup : F.layout.Nodup
  lt_fresh : ∀ b ∈ F.layout, b < F.fresh
  succs_mem : ∀ b ∈ F.layout, ∀ t ∈ (F.mbb b).succs, t ∈ F.layout
  target_succ : ∀ b ∈ F.layout, ∀ e t, F.target b e = some t → t ∈ (F.mbb b).succs
  not_pad : ∀ b ∈ F.layout, ∀ e t, (∀ x, e ≠ .unwind x) →
    F.target b e = some t → (F.mbb t).isEHPad = false
  falls : ∀ b ∈ F.layout, 1 < (F.mbb b).succs.length → barrier (F.mbb b).terms = none →
    (F.target b .uncond).isSome
  phi_mem : ∀ b ∈ F.layout, ∀ phi ∈ (F.mbb b).phis, ∀ op ∈ phi.ops, op.2 ∈ F.layout
  /-- A jump table does not share targets with the branches in front of it. -/
  disjoint : ∀ b ∈ F.layout, ∀ i t x,
    F.target b (.cond i) = some t → F.target b (.indirect x) ≠ some t
  /-- The function has not been traced. -/
  plain : ∀ b ∈ F.layout, (F.mbb b).inserted = false ∧ (F.mbb b).checks = []

/-- The runs from one block to another, with the exits of the blocks that are not inserted. Which
exits these may take depends on the flags; in a speculative run they may take any. -/
inductive MachineCFG.Runs (F : MachineCFG) (body : Body V) (allowed : Nat → Flags → Exit → Prop) :
    Config V → List Exit → Config V → Prop
  | refl (c : Config V) : Runs F body allowed c [] c
  | step {c c₁ c₂ : Config V} {e : Exit} {es : List Exit}
      (old : (F.mbb c.block).inserted = false)
      (hallowed : allowed c.block (c.exec F body).flags e)
      (hstep : F.step body c e = some c₁) (rest : Runs F body allowed c₁ es c₂) :
      Runs F body allowed c (e :: es) c₂
  | silent {c c₁ c₂ : Config V} {e : Exit} {es : List Exit}
      (new : (F.mbb c.block).inserted = true)
      (hstep : F.step body c e = some c₁) (rest : Runs F body allowed c₁ es c₂) :
      Runs F body allowed c es c₂

/-- The exit that the flags ask for. -/
def follows (cs : List CondCode) (f : Flags) : Exit → Bool
  | .cond i => (cs.take i).all (fun c => !c.holds f) && cs[i]?.any fun c => c.holds f
  | .uncond | .indirect _ => cs.all fun c => !c.holds f
  | .unwind _ => true

end MSV.SLH
