import Mathlib.Data.List.Basic

/-!
# Machine code, as the load hardening sees it

A machine function is a list of blocks and a block a list of instructions. An instruction carries
the answers to the questions the pass asks about it: what it is, what it reads and defines, its
memory operand, and the properties the target description knows of its opcode.

The dummy markers are inline assembly with a fixed text. They have no operands.
-/

namespace MSV.SLH

/-- Registers. -/
inductive Reg where
  | NoRegister
  | RIP
  | RSP
  | phys (n : Nat)
  | virt (n : Nat)
deriving DecidableEq

/-- The opcodes the pass asks for by name. -/
inductive Opcode where
  | LFENCE
  | MFENCE
  /-- A comparison with an immediate in the accumulator: `isFlagSet` answers 3. -/
  | CMPi
  /-- A conditional move or set: `isFlagSet` answers 5. -/
  | CMOVorSETCC
  /-- A repeated string operation or a 64-bit division: variant timing. -/
  | variantTiming
  | other
deriving DecidableEq

/-- The address of a memory access: a frame index (`none`) or a base register, and an index
register. -/
structure MemRef where
  base : Option Reg
  index : Reg
deriving DecidableEq

/-- A machine instruction. -/
structure MachineInstr where
  id : Nat
  /-- The text of an inline assembly instruction. -/
  asm : Option String := none
  isDebugInstr : Bool := false
  opcode : Opcode := .other
  /-- The registers among `defs()`. -/
  defs : List Reg := []
  /-- The registers among `uses()`. -/
  uses : List Reg := []
  mem : Option MemRef := none
  mayLoad : Bool := false
  mayStore : Bool := false
  isCall : Bool := false
  isReturn : Bool := false
  isBranch : Bool := false
  isConditionalBranch : Bool := false
  /-- EFLAGS is among the implicit operands. -/
  implicitEFLAGS : Bool := false
  /-- `isEFLAGSDefLive`. -/
  isEFLAGSDefLive : Bool := false
  /-- The `NoFPExcept` flag or `mayRaiseFPException`. -/
  isFP : Bool := false
  /-- The first virtual register among the explicit operands is of an x87 class. -/
  isX87 : Bool := false
  isDataInvariantLoad : Bool := false
  isDataInvariant : Bool := false
deriving DecidableEq

abbrev MachineBasicBlock := List MachineInstr

abbrev MachineFunction := List MachineBasicBlock

/-- The first marker. -/
def DUMMY_BEFORE : String := "addq 123456, %rax"

/-- The second marker. -/
def DUMMY_AFTER : String := "addq 654321, %rax"

namespace MachineInstr

def isBefore (mi : MachineInstr) : Bool := mi.asm == some DUMMY_BEFORE

def isAfter (mi : MachineInstr) : Bool := mi.asm == some DUMMY_AFTER

def isMarker (mi : MachineInstr) : Bool := mi.isBefore || mi.isAfter

/-- `BaseReg`: the base, unless it is a frame index, RIP or absent. -/
def baseReg (mi : MachineInstr) : Option Reg :=
  match mi.mem.bind MemRef.base with
  | some .RIP => none
  | some .NoRegister => none
  | r => r

/-- `IndexReg`. -/
def indexReg (mi : MachineInstr) : Option Reg :=
  match mi.mem.map MemRef.index with
  | some .NoRegister => none
  | r => r

/-- The registers of the address. -/
def addrRegs (mi : MachineInstr) : List Reg := mi.baseReg.toList ++ mi.indexReg.toList

theorem not_isAfter_of_isBefore {mi : MachineInstr} (h : mi.isBefore = true) :
    mi.isAfter = false := by
  simp only [isBefore, beq_iff_eq] at h
  simp only [isAfter, h]
  decide

end MachineInstr

/-- The command line. -/
structure Options where
  HardenLoads : Bool := true
  EnablePostLoadHardening : Bool := true
  HardenInterprocedurally : Bool := true
  HardenIndirectCallsAndJumps : Bool := true
  HardenOneBranchCondition : Bool := false
  HardenAllBranchConditions : Bool := false
  HardenFixedAddress : Bool := false
  HardenStoreAddress : Bool := false
  HardenVariantTimingInstr : Bool := false
  EnableFilter : Bool := false
  EnableStoreFilter : Bool := false
  HardenStandAloneGEPs : Bool := false

/-- What the pass asks the target about registers and stores. -/
structure Target where
  canHardenRegister : Reg → Bool
  /-- `hardenStore` hardened every address register it found. -/
  hardenStore : MachineInstr → Bool

/-! ## Well-formed functions -/

/-- The memory operand and the flags of an instruction fit its kind. -/
structure MachineInstr.WF (mi : MachineInstr) : Prop where
  /-- A marker is a bare inline assembly. -/
  marker : mi.isMarker = true → mi = { id := mi.id, asm := mi.asm }
  /-- A debug instruction reads registers and does nothing else. -/
  debug : mi.isDebugInstr = true → mi = { id := mi.id, isDebugInstr := true, uses := mi.uses }
  fence : mi.opcode = .MFENCE ∨ mi.opcode = .LFENCE → mi.mem = none
  /-- What the target calls data invariant does not load. -/
  invariant : mi.isDataInvariant = true → mi.mayLoad = false
  /-- The address registers are read. -/
  addr : ∀ r ∈ mi.addrRegs, r ∈ mi.uses

/-- Instructions have distinct identities, and only terminators and debug instructions follow a
conditional branch. -/
structure WF (F : MachineFunction) : Prop where
  nodup : (F.flatten.map MachineInstr.id).Nodup
  instr : ∀ mi ∈ F.flatten, mi.WF
  terminators : ∀ bb ∈ F, ∀ pre post mi, bb = pre ++ mi :: post → mi.isConditionalBranch = true →
    ∀ x ∈ post, x.isBranch = true ∨ x.isReturn = true ∨ x.isDebugInstr = true
  /-- A terminator is no marker, no fence and no floating-point instruction. -/
  terminator : ∀ mi ∈ F.flatten, mi.isBranch = true ∨ mi.isReturn = true →
    mi.isMarker = false ∧ mi.opcode ≠ .LFENCE ∧ mi.isX87 = false
  branch : ∀ mi ∈ F.flatten, mi.isConditionalBranch = true → mi.isBranch = true

/-- The first marker, as an instruction. -/
def dummyBefore (id : Nat) : MachineInstr := { id := id, asm := some DUMMY_BEFORE }

/-- The second marker, as an instruction. -/
def dummyAfter (id : Nat) : MachineInstr := { id := id, asm := some DUMMY_AFTER }

theorem dummyBefore_wf (id : Nat) : (dummyBefore id).WF :=
  ⟨fun _ => rfl, fun h => Bool.noConfusion h, fun _ => rfl, fun _ => rfl, fun _ h => absurd h
    (by simp [dummyBefore, MachineInstr.addrRegs, MachineInstr.baseReg, MachineInstr.indexReg])⟩

theorem dummyAfter_wf (id : Nat) : (dummyAfter id).WF :=
  ⟨fun _ => rfl, fun h => Bool.noConfusion h, fun _ => rfl, fun _ => rfl, fun _ h => absurd h
    (by simp [dummyAfter, MachineInstr.addrRegs, MachineInstr.baseReg, MachineInstr.indexReg])⟩

/-- A function without branches and returns is well formed when its instructions are. -/
theorem WF.of_no_terminators {F : MachineFunction} (hnd : (F.flatten.map MachineInstr.id).Nodup)
    (hinstr : ∀ mi ∈ F.flatten, mi.WF)
    (hno : ∀ mi ∈ F.flatten, mi.isBranch = false ∧ mi.isReturn = false ∧
      mi.isConditionalBranch = false) : WF F where
  nodup := hnd
  instr := hinstr
  terminators := by
    intro bb hbb pre post mi heq hcb
    have := (hno mi (List.mem_flatten.mpr ⟨bb, hbb, by simp [heq]⟩)).2.2
    simp [this] at hcb
  terminator := by
    intro mi hmi h
    obtain ⟨h1, h2, -⟩ := hno mi hmi
    simp [h1, h2] at h
  branch := by
    intro mi hmi h
    simp [(hno mi hmi).2.2] at h

end MSV.SLH
