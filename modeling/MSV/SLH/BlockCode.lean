import MSV.Lib.FMap
import MSV.SLH.Harden
import MSV.SLH.InsertedCode

/-!
# Hardening the accesses of a block

The second walk calls `hardenLoadAddr` for an access whose address is hardened, `hardenPostLoad` for
a load whose result is, and `hardenIndirectCallOrJumpInstr` for a call or branch. They put code into
the block, and replace registers by hardened ones. The registers of addresses and targets that have
been hardened are remembered, and not hardened again.

Where the flags are live, an address is hardened by a shift, which does not change them, and all but
one bit of it is lost on a wrong path. Everything else is merged with the predicate state by an OR.

A block is taken to be free of calls behind which the predicate state is another one, and of
instructions that the walk hardens in other ways.
-/

namespace MSV.SLH.InBlock

/-- An instruction of a block. What it reads besides its address has a register and a number of
bits. -/
structure Instr where
  id : Nat
  uses : List (Reg × Nat) := []
  defs : List Reg := []
  mem : Option MemRef := none
  /-- The bits of the index register: an index may be a vector. -/
  indexBits : Nat := 64
  /-- The first operand is a register, which is called or jumped to. -/
  hasTargetReg : Bool := false
  /-- A far call or far jump. -/
  isFar : Bool := false
  /-- The definition of EFLAGS is dead. -/
  isDead : Bool := false
  /-- A use of EFLAGS is the last one. -/
  killsEFLAGS : Bool := false

/-- What stands in a block. -/
inductive Item where
  | instr (MI : Instr)
  | inserted (I : Inserted)
  | SHRX64rr (dst src count : Reg)

/-! ## Live flags -/

/-- The operand that defines EFLAGS, if there is one: is it dead? -/
def Item.definesEFLAGS : Item → Option Bool
  | .instr MI => if EFLAGS ∈ MI.defs then some MI.isDead else none
  | .inserted I =>
      if I.dst = EFLAGS then some false else if I.opcode.setsFlags then some true else none
  | .SHRX64rr .. => none

def Item.killsEFLAGS : Item → Bool
  | .instr MI => MI.killsEFLAGS
  | _ => false

/-- The loop of `isEFLAGSLive`, which goes upwards. -/
def liveAbove (liveIn : Bool) : List Item → Bool
  | [] => liveIn
  | MI :: rest =>
      match MI.definesEFLAGS with
      | some isDead => !isDead
      | none => if MI.killsEFLAGS then false else liveAbove liveIn rest

/-- `isEFLAGSLive`, behind these items. -/
def isEFLAGSLive (liveIn : Bool) (items : List Item) : Bool := liveAbove liveIn items.reverse

/-! ## The state of the walk -/

/-- What the block has become so far, the registers that are hardened, those that are replaced in
what is to come, and the virtual registers with their classes. -/
structure State where
  items : List Item := []
  AddrRegToHardenedReg : FMap Reg Reg := ∅
  replaced : FMap Reg Reg := ∅
  regClass : Nat → RegClass
  nextReg : Nat

def State.getRegClass (s : State) : Reg → RegClass
  | .virt n => s.regClass n
  | _ => .other 0

abbrev Emit := StateM State

def createVirtualRegister (RC : RegClass) : Emit Reg := fun s =>
  (.virt s.nextReg,
    { s with regClass := Function.update s.regClass s.nextReg RC, nextReg := s.nextReg + 1 })

def insert (item : Item) : Emit Unit := modify fun s => { s with items := s.items ++ [item] }

def buildMI (opcode : InsertedOp) (dst : Reg) (srcs : List Reg) (subReg : Option SubReg) :
    Emit Unit := insert (.inserted ⟨opcode, dst, srcs, subReg⟩)

/-- `FlagsReg`, if the flags have to be saved. -/
def saveEFLAGS (live : Bool) : Emit (Option Reg) :=
  if live then do
    let Reg ← createVirtualRegister .GR32
    buildMI .COPY Reg [EFLAGS] none
    return some Reg
  else return none

def restoreEFLAGS : Option Reg → Emit Unit
  | some Reg => buildMI .COPY EFLAGS [Reg] none
  | none => return ()

/-- `AddrRegToHardenedReg[Reg] = HardenedReg`. -/
def remember (r HardenedReg : Reg) : Emit Unit :=
  modify fun s => { s with AddrRegToHardenedReg := s.AddrRegToHardenedReg.set r HardenedReg }

/-- `MRI->replaceRegWith`, for the rest of the block. -/
def replaceRegWith (FromReg ToReg : Reg) : Emit Unit :=
  modify fun s => { s with replaced := s.replaced.set FromReg ToReg }

/-! ## Addresses -/

inductive AddrOperand where
  | BaseMO
  | IndexMO
deriving DecidableEq

def getReg (m : MemRef) : AddrOperand → Option Reg
  | .BaseMO => m.base
  | .IndexMO => some m.index

def setReg (m : MemRef) : AddrOperand → Reg → MemRef
  | .BaseMO, r => { m with base := some r }
  | .IndexMO, r => { m with index := r }

/-- The base of an address, unless it has none or it is fixed. -/
def baseOperands : Option Reg → List (AddrOperand × Reg)
  | none | some .RSP | some .RIP | some .NoRegister => []
  | some r => [(.BaseMO, r)]

/-- `HardenOpRegs` at first: the base, and the index, unless it is the same register. -/
def hardenedOperands (m : MemRef) : List (AddrOperand × Reg) :=
  let bases := baseOperands m.base
  if m.index ≠ .NoRegister ∧ ∀ op ∈ bases, op.2 ≠ m.index then bases ++ [(.IndexMO, m.index)]
  else bases

section

variable (T : VTTarget) (liveIn : Bool)

/-- The state merged into a vector, with AVX2. -/
def mergeVector (OpRC : RegClass) (TmpReg OpReg : Reg) : Emit Unit := do
  let Is128Bit := T.hasSuperClassEq OpRC .VR128
  let VStateReg ← createVirtualRegister .VR128
  buildMI .VMOV64toPQIrr VStateReg [T.StateReg] none
  let VBStateReg ← createVirtualRegister OpRC
  buildMI (if Is128Bit then .VPBROADCASTQrr else .VPBROADCASTQYrr) VBStateReg [VStateReg] none
  buildMI (if Is128Bit then .VPORrr else .VPORYrr) TmpReg [VBStateReg, OpReg] none

/-- The state merged into a vector, with AVX-512. -/
def mergeVectorX (OpRC : RegClass) (TmpReg OpReg : Reg) : Emit Unit := do
  let Is128Bit := T.hasSuperClassEq OpRC .VR128X
  let Is256Bit := T.hasSuperClassEq OpRC .VR256X
  let VStateReg ← createVirtualRegister OpRC
  buildMI
    (if Is128Bit then .VPBROADCASTQrZ128rr
      else if Is256Bit then .VPBROADCASTQrZ256rr else .VPBROADCASTQrZrr)
    VStateReg [T.StateReg] none
  buildMI (if Is128Bit then .VPORQZ128rr else if Is256Bit then .VPORQZ256rr else .VPORQZrr)
    TmpReg [VStateReg, OpReg] none

/-- The state merged into a general register. The shift keeps the flags. -/
def mergeGeneral (EFLAGSLive : Bool) (TmpReg OpReg : Reg) : Emit Unit :=
  if !EFLAGSLive then buildMI .OR64rr TmpReg [T.StateReg, OpReg] none
  else insert (.SHRX64rr TmpReg OpReg T.StateReg)

/-- The body of the loop over `HardenOpRegs`. -/
def hardenAddrReg (EFLAGSLive : Bool) (OpReg : Reg) : Emit Reg := do
  let s ← get
  let OpRC := s.getRegClass OpReg
  let TmpReg ← createVirtualRegister OpRC
  if !T.hasVLX ∧ (T.hasSuperClassEq OpRC .VR128 ∨ T.hasSuperClassEq OpRC .VR256) then
    mergeVector T OpRC TmpReg OpReg
  else if T.hasSuperClassEq OpRC .VR128X ∨ T.hasSuperClassEq OpRC .VR256X ∨
      T.hasSuperClassEq OpRC .VR512 then
    mergeVectorX T OpRC TmpReg OpReg
  else mergeGeneral T EFLAGSLive TmpReg OpReg
  remember OpReg TmpReg
  return TmpReg

/-- The loop over `HardenOpRegs`. -/
def hardenAddrRegs (EFLAGSLive : Bool) : List (AddrOperand × Reg) → MemRef → Emit MemRef
  | [], m => return m
  | (op, OpReg) :: rest, m => do
      let TmpReg ← hardenAddrReg T EFLAGSLive OpReg
      hardenAddrRegs EFLAGSLive rest (setReg m op TmpReg)

/-- An operand whose register has been hardened before takes the hardened one. -/
def reuseOperand (AddrRegToHardenedReg : FMap Reg Reg) (m : MemRef) (op : AddrOperand × Reg) :
    MemRef :=
  match AddrRegToHardenedReg.find op.2 with
  | some r => setReg m op.1 r
  | none => m

def reuseHardened (AddrRegToHardenedReg : FMap Reg Reg) (m : MemRef)
    (HardenOpRegs : List (AddrOperand × Reg)) : MemRef :=
  HardenOpRegs.foldl (reuseOperand AddrRegToHardenedReg) m

/-- `hardenLoadAddr`: the address the access has now. -/
def hardenLoadAddr (m : MemRef) : Emit MemRef := do
  let s ← get
  let EFLAGSLive := isEFLAGSLive liveIn s.items
  let m' := reuseHardened s.AddrRegToHardenedReg m (hardenedOperands m)
  let HardenOpRegs := (hardenedOperands m).filter fun op => s.AddrRegToHardenedReg.find op.2 = none
  if HardenOpRegs = [] then return m'
  else do
    let FlagsReg ← saveEFLAGS (EFLAGSLive && !T.hasBMI2)
    let m' ← hardenAddrRegs T (EFLAGSLive && T.hasBMI2) HardenOpRegs m'
    restoreEFLAGS FlagsReg
    return m'

/-! ## Values -/

/-- The part of the predicate state that fits a register of so many bytes. -/
def narrowState (Bytes : Nat) (RC : RegClass) : Emit Reg := do
  if Bytes ≠ 8 then do
    let NarrowStateReg ← createVirtualRegister RC
    buildMI .COPY NarrowStateReg [T.StateReg]
      [SubReg.sub_8bit, .sub_16bit, .sub_32bit][Nat.log2 Bytes]?
    return NarrowStateReg
  else return T.StateReg

/-- `hardenValueInRegister`: the hardened register. -/
def hardenValueInRegister (r : Reg) : Emit Reg := do
  let s ← get
  let RC := s.getRegClass r
  let Bytes := T.getRegSizeInBits RC / 8
  let StateReg ← narrowState T Bytes RC
  let s ← get
  let FlagsReg ← saveEFLAGS (isEFLAGSLive liveIn s.items)
  let NewReg ← createVirtualRegister RC
  buildMI ([InsertedOp.OR8rr, .OR16rr, .OR32rr, .OR64rr].getD (Nat.log2 Bytes) .OR64rr)
    NewReg [StateReg, r] none
  restoreEFLAGS FlagsReg
  return NewReg

/-- `hardenPostLoad`, and what its caller does with the result. The result of the instruction goes
to a register of its own, which only the code behind the instruction reads. -/
def hardenPostLoad (MI : Instr) : Emit Unit :=
  match MI.defs with
  | [] => insert (.instr MI)
  | OldDefReg :: defs => do
      let s ← get
      let UnhardenedReg ← createVirtualRegister (s.getRegClass OldDefReg)
      insert (.instr { MI with defs := UnhardenedReg :: defs })
      let HardenedReg ← hardenValueInRegister T liveIn UnhardenedReg
      replaceRegWith OldDefReg HardenedReg
      remember HardenedReg HardenedReg

/-- `hardenIndirectCallOrJumpInstr`: what the instruction reads now. -/
def hardenIndirectCallOrJumpInstr (MI : Instr) : Emit Instr :=
  if MI.isFar then return MI
  else if !MI.hasTargetReg then return MI
  else
    match MI.uses with
    | [] => return MI
    | (OldTargetReg, bits) :: uses => do
        let s ← get
        match s.AddrRegToHardenedReg.find OldTargetReg with
        | some HardenedTargetReg => return { MI with uses := (HardenedTargetReg, bits) :: uses }
        | none => do
            let HardenedTargetReg ← hardenValueInRegister T liveIn OldTargetReg
            remember OldTargetReg HardenedTargetReg
            return { MI with uses := (HardenedTargetReg, bits) :: uses }

/-! ## The walk -/

/-- The register that stands where this one did. -/
def subst (replaced : FMap Reg Reg) (r : Reg) : Reg := (replaced.find r).getD r

def substMem (replaced : FMap Reg Reg) (m : MemRef) : MemRef :=
  { base := m.base.map (subst replaced), index := subst replaced m.index }

def Instr.subst (replaced : FMap Reg Reg) (MI : Instr) : Instr :=
  { MI with
    uses := MI.uses.map fun use => (InBlock.subst replaced use.1, use.2)
    defs := MI.defs.map (InBlock.subst replaced)
    mem := MI.mem.map (substMem replaced) }

/-- The address of an access that is to be hardened there. -/
def visitAddr (hardened : Bool) (MI : Instr) : Emit Instr :=
  match hardened, MI.mem with
  | true, some m => do
      let m ← hardenLoadAddr T liveIn m
      return { MI with mem := some m }
  | _, _ => return MI

def visitTarget (hardened : Bool) (MI : Instr) : Emit Instr :=
  if hardened then hardenIndirectCallOrJumpInstr T liveIn MI else return MI

/-- The visits of the address and the target, for what `log` says is hardened. -/
def visit (log : List (Hardening × Nat)) (MI : Instr) : Emit Instr := do
  let MI ← visitAddr T liveIn (decide ((Hardening.loadAddr, MI.id) ∈ log)) MI
  visitTarget T liveIn (decide ((Hardening.indirectTarget, MI.id) ∈ log)) MI

/-- The body of the walk. -/
def hardenInstr (log : List (Hardening × Nat)) (MI : Instr) : Emit Unit := do
  let s ← get
  let MI ← visit T liveIn log (MI.subst s.replaced)
  if (.postLoad, MI.id) ∈ log then hardenPostLoad T liveIn MI else insert (.instr MI)

/-- The walk over the rest of a block. -/
def hardenInstrs (log : List (Hardening × Nat)) (l : List Instr) (s : State) : State :=
  l.foldl (fun s MI => (hardenInstr T liveIn log MI s).2) s

end

/-! ## Running a block -/

/-- What an instruction reads: its operands, and the base and index of its address. -/
@[ext]
structure Event where
  id : Nat
  reads : List Nat
  base : Option Nat
  index : Option Nat
deriving DecidableEq

/-- What the instructions compute from what they read, with `M` for the memory. -/
structure Semantics (M : Type*) where
  result : Event → M → Nat → BitVec 512
  memory : Event → M → M

structure Machine (M : Type*) where
  regs : RegFile
  mem : M
  events : List Event

/-- A register of an address. Without a register, or relative to the instruction, the address is
part of what the instruction is. -/
def addrValue (ρ : RegFile) (bits : Nat) : Reg → Option Nat
  | .NoRegister | .RIP => none
  | r => some (ρ.read bits r).toNat

def Instr.event (MI : Instr) (ρ : RegFile) : Event where
  id := MI.id
  reads := MI.uses.map fun use => (ρ.read use.2 use.1).toNat
  base := MI.mem.bind fun m => m.base.bind (addrValue ρ 64)
  index := MI.mem.bind fun m => addrValue ρ MI.indexBits m.index

/-- The results of an instruction go to the registers it defines. -/
def define (ρ : RegFile) (defs : List Reg) (v : Nat → BitVec 512) : RegFile := fun q =>
  if q ∈ defs then v (defs.idxOf q) else ρ q

/-- A logical shift to the right by the low six bits of the count. -/
def shrx (v count : BitVec 512) : BitVec 512 :=
  (v.setWidth 64 >>> ((count.setWidth 64).toNat % 64)).setWidth 512

section

variable {M : Type*} (sem : Semantics M) (flagsOf : BitVec 512 → BitVec 512)

def Item.exec (m : Machine M) : Item → Machine M
  | .instr MI =>
      let e := MI.event m.regs
      { regs := define m.regs MI.defs (sem.result e m.mem)
        mem := sem.memory e m.mem
        events := m.events ++ [e] }
  | .inserted I => { m with regs := I.exec flagsOf m.regs }
  | .SHRX64rr dst src count =>
      { m with regs := Function.update m.regs dst (shrx (m.regs src) (m.regs count)) }

def run (items : List Item) (m : Machine M) : Machine M := items.foldl (Item.exec sem flagsOf) m

end

end MSV.SLH.InBlock
