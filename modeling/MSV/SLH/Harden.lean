import MSV.SLH.MachineIR

/-!
# The hardening pass

`tracePredStateThroughBlocksAndHarden`, with the options and the dummy markers this repository
adds. Every block is walked twice. The first walk collects: which loads are to be hardened and
how, which markers stand alone and which prefix an access. The second walk hardens what was
collected, dropping queued accesses that are not marked when the filter is on. At the end the
markers are erased.

The instructions that hardening inserts go directly before or after the hardened instruction, or
replace its operands; nothing is inserted between two markers. They are left out here, and a log
records what was hardened and how.
-/

namespace MSV.SLH

/-! ## The first walk -/

/-- The sets the first walk fills, by instruction identity. -/
structure Collected where
  HardenPostLoad : List Nat := []
  HardenLoadAddr : List Nat := []
  HardenStoreAddr : List Nat := []
  HardenCondition : List Nat := []
  HardenVTInstr : List Nat := []
  HardenFixedAddressRSP : List Nat := []
  HardenFixedAddressRBP : List Nat := []
  DummyInstr : List Nat := []
  StandAloneGEPDummyInstr : List Nat := []
  HardenStandAloneGEP : List Nat := []
  HardenedAddrRegs : List Reg := []
  LoadDepRegs : List Reg := []
  hardened_RSP : Bool := false

/-- Insert an instruction that may be missing. Inserting a null pointer, which the source does
when a marker has no partner, is left out. -/
def insertInstr (l : List Nat) (mi : Option MachineInstr) : List Nat :=
  match mi with
  | some mi => l.insert mi.id
  | none => l

/-- The instructions between a marker and the next `DUMMY_AFTER`. -/
def betweenMarkers (rest : List MachineInstr) : List MachineInstr :=
  rest.takeWhile fun x => !x.isAfter

/-- The next `DUMMY_AFTER`. -/
def nextAfter (rest : List MachineInstr) : Option MachineInstr := rest.find? MachineInstr.isAfter

/-- At a `DUMMY_BEFORE`, with `rest` after it: the pair is a regular one when nothing stands in
between, and a stand-alone one otherwise. -/
def collectMarker (mi : MachineInstr) (rest : List MachineInstr) (c : Collected) : Collected :=
  if mi.isBefore then
    if (betweenMarkers rest).length > 0 then
      let last := ((betweenMarkers rest).filter fun x => !x.isDebugInstr).getLast?
      { c with
        HardenStandAloneGEP := insertInstr c.HardenStandAloneGEP last
        StandAloneGEPDummyInstr :=
          insertInstr (c.StandAloneGEPDummyInstr.insert mi.id) (nextAfter rest) }
    else
      { c with DummyInstr := insertInstr (c.DummyInstr.insert mi.id) (nextAfter rest) }
  else c

/-- Every register an instruction defines depends on every register it reads. -/
def propagateLoadDep (mi : MachineInstr) (c : Collected) : Collected :=
  if mi.uses.any (· ∈ c.LoadDepRegs) then
    { c with LoadDepRegs := mi.defs ++ c.LoadDepRegs }
  else c

section

variable (O : Options) (T : Target)

/-- The search of `mayBranch`, from the end of the block. -/
def findCondition (HardenCondition : List Nat) : List MachineInstr → Option MachineInstr
  | [] => none
  | mi :: mis =>
      if mi.isBranch || !mi.implicitEFLAGS || mi.opcode == .CMOVorSETCC then
        findCondition HardenCondition mis
      else if mi.opcode == .CMPi then none
      else if mi.id ∈ HardenCondition then none
      else some mi

/-- `mayBranch`: the instruction that computes the condition of a branch of block `bb`. -/
def mayBranch (bb : MachineBasicBlock) (mi : MachineInstr) (HardenCondition : List Nat) :
    Option MachineInstr :=
  if !mi.isConditionalBranch then none
  else if !O.HardenOneBranchCondition && !O.HardenAllBranchConditions then none
  else findCondition HardenCondition bb.reverse

/-- `mayVariant`. -/
def mayVariant (mi : MachineInstr) : Bool :=
  O.HardenVariantTimingInstr && (mi.isFP || mi.opcode == .variantTiming)

/-- The first walk inserts an LFENCE here and stops. -/
def stopsX87 (mi : MachineInstr) : Bool :=
  mayVariant O mi && mi.opcode != .MFENCE && mi.isX87

/-- A load that can be hardened after the fact: data invariant, one hardenable result, and no
address register that is hardened anyway. -/
def postLoadCompatible (mi : MachineInstr) (HardenedAddrRegs : List Reg) : Bool :=
  O.EnablePostLoadHardening && mi.isDataInvariantLoad && !mi.isEFLAGSDefLive &&
    (match mi.defs with
     | [r] => T.canHardenRegister r
     | _ => false) &&
    !mi.addrRegs.any (· ∈ HardenedAddrRegs)

/-- The instruction that computes a branch condition is no longer a variant timing one. -/
def collectCondition (condition : Option MachineInstr) (c : Collected) : Collected :=
  match condition with
  | some x =>
      { c with
        HardenCondition := c.HardenCondition.insert x.id
        HardenVTInstr := c.HardenVTInstr.filter (· ≠ x.id) }
  | none => c

def collectVTInstr (mi : MachineInstr) (c : Collected) : Collected :=
  if mayVariant O mi then { c with HardenVTInstr := c.HardenVTInstr.insert mi.id } else c

def collectStore (mi : MachineInstr) (c : Collected) : Collected :=
  if O.HardenStoreAddress && mi.mayStore && !mi.mayLoad then
    { c with HardenStoreAddr := c.HardenStoreAddr.insert mi.id }
  else c

/-- An access without address registers: the first one off the frame is hardened, and the first
one off the stack pointer. -/
def collectFixedAddress (mi : MachineInstr) (m : MemRef) (c : Collected) : Collected :=
  if O.HardenFixedAddress then
    { c with
      hardened_RSP := c.hardened_RSP || m.base == some .RSP
      HardenFixedAddressRBP :=
        if m.base = none ∧ c.HardenFixedAddressRBP = [] then [mi.id] else c.HardenFixedAddressRBP
      HardenFixedAddressRSP :=
        if m.base = some .RSP ∧ c.HardenFixedAddressRSP = [] then [mi.id]
        else c.HardenFixedAddressRSP
      HardenStoreAddr := c.HardenStoreAddr.filter (· ≠ mi.id) }
  else c

/-- Queue a load for post-load hardening. -/
def queuePostLoad (mi : MachineInstr) (c : Collected) : Collected :=
  { c with
    HardenPostLoad := c.HardenPostLoad.insert mi.id
    HardenedAddrRegs := mi.defs ++ c.HardenedAddrRegs }

/-- Queue an access for address hardening; its results then count as load dependent. -/
def queueLoadAddr (mi : MachineInstr) (c : Collected) : Collected :=
  { c with
    HardenLoadAddr := c.HardenLoadAddr.insert mi.id
    HardenedAddrRegs := mi.addrRegs ++ c.HardenedAddrRegs
    LoadDepRegs := mi.defs ++ c.LoadDepRegs }

/-- The memory operand of an access decides how it is to be hardened. -/
def collectAccess (mi : MachineInstr) (c : Collected) : Collected :=
  match mi.mem with
  | none => c
  | some m =>
      if mi.addrRegs.isEmpty then collectFixedAddress O mi m c
      else if mi.addrRegs.any (· ∈ c.LoadDepRegs) then c
      else if postLoadCompatible O T mi c.HardenedAddrRegs then queuePostLoad mi c
      else queueLoadAddr mi c

/-- The instruction is of no interest to the first walk. -/
def skips (mi : MachineInstr) (condition : Option MachineInstr) : Bool :=
  !mi.mayLoad && condition.isNone && !mayVariant O mi && !(O.HardenStoreAddress && mi.mayStore)

/-- The rest of the first walk's body. An x87 instruction stops the walk halfway through it. -/
def collectInstr (bb : MachineBasicBlock) (mi : MachineInstr) (c : Collected) : Collected :=
  if skips O mi (mayBranch O bb mi c.HardenCondition) then c
  else if mi.opcode = .MFENCE then c
  else if stopsX87 O mi then collectCondition (mayBranch O bb mi c.HardenCondition) c
  else
    collectAccess O T mi (collectStore O mi (collectVTInstr O mi
      (collectCondition (mayBranch O bb mi c.HardenCondition) c)))

/-- The LFENCE put before an x87 instruction. -/
def newLFENCE (fresh : Nat) : MachineInstr := { id := fresh, opcode := .LFENCE }

/-- The first walk over what is left of block `bb`: the sets, and the block with the LFENCE an x87
instruction gets. It stops at a fence. -/
def collect (fresh : Nat) (bb : MachineBasicBlock) :
    List MachineInstr → Collected → Collected × List MachineInstr
  | [], c => (c, [])
  | mi :: rest, c =>
      let c := propagateLoadDep mi (collectMarker mi rest c)
      if mi.opcode = .LFENCE then (c, mi :: rest)
      else
        let c := collectInstr O T bb mi c
        if stopsX87 O mi then (c, newLFENCE fresh :: mi :: rest)
        else
          let r := collect fresh bb rest c
          (r.1, mi :: r.2)

/-! ## The second walk -/

/-- Ways of hardening an instruction. -/
inductive Hardening where
  | loadAddr
  | postLoad
  /-- Post-load hardening moved down to a single use. -/
  | sunk (target : Nat)
  | store
  | stackPointer
  | condition
  | fixedAddress
  | variantTiming
  | standAloneGEP
  | indirectTarget
  | return
  | call
deriving DecidableEq

/-! The second walk takes instructions out of the sets as it passes them. -/

namespace Collected

def removeLoadAddr (i : Nat) (c : Collected) : Collected :=
  { c with HardenLoadAddr := c.HardenLoadAddr.filter (· ≠ i) }

def removeStoreAddr (i : Nat) (c : Collected) : Collected :=
  { c with HardenStoreAddr := c.HardenStoreAddr.filter (· ≠ i) }

def removeCondition (i : Nat) (c : Collected) : Collected :=
  { c with HardenCondition := c.HardenCondition.filter (· ≠ i) }

def removeVTInstr (i : Nat) (c : Collected) : Collected :=
  { c with HardenVTInstr := c.HardenVTInstr.filter (· ≠ i) }

/-- The second set is only consulted when the first does not have the instruction. -/
def removeFixedAddress (i : Nat) (c : Collected) : Collected :=
  { c with
    HardenFixedAddressRBP := c.HardenFixedAddressRBP.filter (· ≠ i)
    HardenFixedAddressRSP :=
      if i ∈ c.HardenFixedAddressRBP then c.HardenFixedAddressRSP
      else c.HardenFixedAddressRSP.filter (· ≠ i) }

/-- A load to be hardened after the fact leaves the other sets as well. -/
def removePostLoad (O : Options) (i : Nat) (c : Collected) : Collected :=
  { c with
    HardenPostLoad := c.HardenPostLoad.filter (· ≠ i)
    HardenStoreAddr := c.HardenStoreAddr.filter (· ≠ i)
    HardenCondition :=
      if O.HardenOneBranchCondition then c.HardenCondition.filter (· ≠ i) else c.HardenCondition }

def insertPostLoad (i : Nat) (c : Collected) : Collected :=
  { c with HardenPostLoad := c.HardenPostLoad.insert i }

def setHardenedRSP (c : Collected) : Collected := { c with hardened_RSP := true }

end Collected

/-- The state of the second walk. -/
structure Hardened where
  sets : Collected
  DummyInstrHardenedBySLH : List Nat := []
  log : List (Hardening × Nat) := []

namespace Hardened

def record (w : Hardened) (h : Hardening) (mi : MachineInstr) : Hardened :=
  { w with log := w.log ++ [(h, mi.id)] }

def update (w : Hardened) (f : Collected → Collected) : Hardened := { w with sets := f w.sets }

end Hardened

/-- `isPrefixedByDummies`, of an instruction whose previous node is `prev`. -/
def isPrefixedByDummies (prev : Option MachineInstr) : Bool := prev.any MachineInstr.isAfter

/-- `markAsProtected`: the two previous nodes, when the nearer is a `DUMMY_AFTER`. -/
def markAsProtected (prev prevPrev : Option MachineInstr) (w : Hardened) : Hardened :=
  if isPrefixedByDummies prev then
    { w with DummyInstrHardenedBySLH :=
        insertInstr (insertInstr w.DummyInstrHardenedBySLH prev) prevPrev }
  else w

/-- The registers `hardenLoadAddr` hardens. Without any the source fails an assertion. -/
def hardenOpRegs (mi : MachineInstr) : List Reg :=
  (mi.baseReg.filter (· ≠ .RSP)).toList ++
    (mi.indexReg.filter fun r => mi.baseReg.filter (· ≠ .RSP) ≠ some r).toList

/-- `SinkCheckToSingleUse` over the users of a register: `none` to give up, `some none` when every
use is hardened already. The users are those of the whole function, debug instructions included. -/
def sinkCheckToSingleUse (bb : MachineBasicBlock) (HardenPostLoad : List Nat) (defReg : Reg) :
    List MachineInstr → Option MachineInstr → Option (Option MachineInstr)
  | [], single => some single
  | u :: us, single =>
      if u.id ∈ HardenPostLoad then
        if u.isDataInvariantLoad && !u.isEFLAGSDefLive && defReg ∈ u.addrRegs then none
        else sinkCheckToSingleUse bb HardenPostLoad defReg us single
      else if single.isSome then none
      else if !u.isDataInvariant || u ∉ bb || u.isEFLAGSDefLive then none
      else if u.defs.length > 1 then none
      else
        match u.defs with
        | .virt n :: _ =>
            if T.canHardenRegister (.virt n) then
              sinkCheckToSingleUse bb HardenPostLoad defReg us (some u)
            else none
        | _ => none

/-- `sinkPostLoadHardenedInst`, following at most `fuel` single uses. -/
def sinkPostLoadHardenedInst (F : MachineFunction) (bb : MachineBasicBlock)
    (HardenPostLoad : List Nat) : Nat → MachineInstr → Option MachineInstr
  | 0, mi => some mi
  | fuel + 1, mi =>
      match mi.defs with
      | [] => some mi
      | r :: _ =>
          match sinkCheckToSingleUse T bb HardenPostLoad r (F.flatten.filter (r ∈ ·.uses)) none with
          | none => some mi
          | some none => none
          | some (some u) => sinkPostLoadHardenedInst F bb HardenPostLoad fuel u

/-- `inOtherHardenList`. -/
def inOtherHardenList (c : Collected) (i : Nat) : Prop :=
  i ∈ c.HardenCondition ∨ i ∈ c.HardenFixedAddressRBP ∨ i ∈ c.HardenFixedAddressRSP ∨
    i ∈ c.HardenVTInstr

instance (c : Collected) (i : Nat) : Decidable (inOtherHardenList c i) :=
  inferInstanceAs (Decidable (_ ∨ _ ∨ _ ∨ _))

/-- The filter drops a queued access: it is in no other list, and no markers prefix it. -/
def Filtered (prev : Option MachineInstr) (i : Nat) (c : Collected) : Prop :=
  O.EnableFilter = true ∧ ¬ inOtherHardenList c i ∧
    (O.EnableStoreFilter = false → i ∉ c.HardenStoreAddr) ∧ isPrefixedByDummies prev = false

instance (prev : Option MachineInstr) (i : Nat) (c : Collected) : Decidable (Filtered O prev i c) :=
  inferInstanceAs (Decidable (_ ∧ _ ∧ _ ∧ _))

/-- After hardening a load, the walk goes on to its condition only when all are hardened. -/
def doneWith (i : Nat) (c : Collected) : Bool :=
  !(O.HardenAllBranchConditions && decide (i ∈ c.HardenCondition))

/-- Hardening a queued access: a store as a store, a load by its address registers. -/
def hardenAccess (mi : MachineInstr) (w : Hardened) : Hardened × Bool :=
  if mi.id ∈ w.sets.HardenStoreAddr then
    ((w.update (Collected.removeStoreAddr mi.id)).record .store mi, true)
  else if hardenOpRegs mi = [] then (w, doneWith O mi.id w.sets)
  else (w.record .loadAddr mi, doneWith O mi.id w.sets)

/-- The case of an access whose address is to be hardened. The flag says the instruction is
done. -/
def visitLoadAddr (prev prevPrev : Option MachineInstr) (mi : MachineInstr) (w : Hardened) :
    Hardened × Bool :=
  if mi.id ∈ w.sets.HardenLoadAddr then
    if Filtered O prev mi.id w.sets then (w.update (Collected.removeLoadAddr mi.id), true)
    else
      hardenAccess O mi (markAsProtected prev prevPrev (w.update (Collected.removeLoadAddr mi.id)))
  else (w, false)

/-- A chain of single uses is no longer than the function. -/
def sinkFuel (F : MachineFunction) : Nat := (F.flatten.filter fun x => !x.isDebugInstr).length

/-- Where the hardening of a load's result ends up. -/
def sinkTarget (F : MachineFunction) (bb : MachineBasicBlock) (mi : MachineInstr) (c : Collected) :
    Option MachineInstr :=
  if mi.isDataInvariantLoad && !mi.isEFLAGSDefLive then
    sinkPostLoadHardenedInst T F bb c.HardenPostLoad (sinkFuel F) mi
  else some mi

def finishPostLoad (mi : MachineInstr) (target : Option MachineInstr) (w : Hardened) :
    Hardened × Bool :=
  match target with
  -- every use is hardened already, or there is none
  | none => (w, true)
  | some u =>
      if u.id = mi.id then (w.record .postLoad mi, doneWith O mi.id w.sets)
      else ((w.update (Collected.insertPostLoad u.id)).record (.sunk u.id) mi, true)

/-- The case of a load whose result is to be hardened. -/
def visitPostLoad (F : MachineFunction) (bb : MachineBasicBlock) (mi : MachineInstr)
    (w : Hardened) : Hardened × Bool :=
  if mi.id ∈ w.sets.HardenPostLoad then
    finishPostLoad O mi (sinkTarget T F bb mi (Collected.removePostLoad O mi.id w.sets))
      (w.update (Collected.removePostLoad O mi.id))
  else (w, false)

/-- The case of a fixed address; the instruction is not done after it. -/
def visitFixedAddress (prev prevPrev : Option MachineInstr) (mi : MachineInstr) (w : Hardened) :
    Hardened :=
  if mi.id ∈ w.sets.HardenFixedAddressRBP ∨ mi.id ∈ w.sets.HardenFixedAddressRSP then
    (markAsProtected prev prevPrev
      (w.update (Collected.removeFixedAddress mi.id))).record .fixedAddress mi
  else w

/-- The case of the instruction that computes a branch condition. -/
def visitCondition (prev prevPrev : Option MachineInstr) (mi : MachineInstr) (w : Hardened) :
    Hardened × Bool :=
  if mi.id ∈ w.sets.HardenCondition then
    ((markAsProtected prev prevPrev
      (w.update (Collected.removeCondition mi.id))).record .condition mi, true)
  else (w, false)

/-- The case of a variant timing instruction. -/
def visitVTInstr (prev prevPrev : Option MachineInstr) (mi : MachineInstr) (w : Hardened) :
    Hardened × Bool :=
  if mi.id ∈ w.sets.HardenVTInstr then
    ((markAsProtected prev prevPrev
      (w.update (Collected.removeVTInstr mi.id))).record .variantTiming mi, true)
  else (w, false)

/-- A push or pop has no address register: the stack pointer is hardened, once in a block. -/
def hardenPush (mi : MachineInstr) (w : Hardened) : Hardened :=
  if !T.hardenStore mi && !w.sets.hardened_RSP then
    (w.update Collected.setHardenedRSP).record .stackPointer mi
  else w

/-- The case of a store; the instruction is not done after it. -/
def visitStoreAddr (prev prevPrev : Option MachineInstr) (mi : MachineInstr) (w : Hardened) :
    Hardened :=
  if mi.id ∈ w.sets.HardenStoreAddr then
    hardenPush T mi ((markAsProtected prev prevPrev
      (w.update (Collected.removeStoreAddr mi.id))).record .store mi)
  else w

/-- Indirect targets. -/
def visitIndirect (mi : MachineInstr) (w : Hardened) : Hardened :=
  if O.HardenLoads && (mi.isCall || mi.isBranch) && O.HardenIndirectCallsAndJumps then
    w.record .indirectTarget mi
  else w

/-- Returns and calls. -/
def visitInterprocedural (mi : MachineInstr) (w : Hardened) : Hardened :=
  if !O.HardenInterprocedurally then w
  else if !mi.isCall && !mi.isReturn then w
  else if mi.isReturn && !mi.isCall then w.record .return mi
  else w.record .call mi

/-- Go on with the next case unless the instruction is done. -/
def orElse (r : Hardened × Bool) (next : Hardened → Hardened × Bool) : Hardened × Bool :=
  if r.2 then r else next r.1

/-- The hardening of one instruction when loads are hardened; the flag says it is done. -/
def visitLoads (F : MachineFunction) (bb : MachineBasicBlock) (prev prevPrev : Option MachineInstr)
    (mi : MachineInstr) (w : Hardened) : Hardened × Bool :=
  orElse (visitLoadAddr O prev prevPrev mi w) fun w =>
  orElse (visitPostLoad O T F bb mi w) fun w =>
  orElse (visitCondition prev prevPrev mi (visitFixedAddress prev prevPrev mi w)) fun w =>
  orElse (visitVTInstr prev prevPrev mi w) fun w =>
  (visitStoreAddr T prev prevPrev mi w, false)

/-- The body of the second walk. -/
def visitInstr (F : MachineFunction) (bb : MachineBasicBlock) (prev prevPrev : Option MachineInstr)
    (mi : MachineInstr) (w : Hardened) : Hardened :=
  if O.HardenLoads then
    (orElse (visitLoads O T F bb prev prevPrev mi w) fun w =>
      (visitInterprocedural O mi (visitIndirect O mi w), false)).1
  else visitInterprocedural O mi w

/-- The second walk over what is left of block `bb`. -/
def hardenWalk (F : MachineFunction) (bb : MachineBasicBlock) :
    Option MachineInstr → Option MachineInstr → List MachineInstr → Hardened → Hardened
  | _, _, [], w => w
  | prevPrev, prev, mi :: rest, w =>
      hardenWalk F bb prev (some mi) rest (visitInstr O T F bb prev prevPrev mi w)

/-! ## A block and a function -/

/-- `MBB.erase` of every instruction of a set. -/
def eraseAll (ids : List Nat) (bb : List MachineInstr) : List MachineInstr :=
  bb.filter fun mi => mi.id ∉ ids

/-- What a block becomes: its instructions, the log, and the erasures in order. -/
structure BlockResult where
  instrs : List MachineInstr
  log : List (Hardening × Nat)
  erased : List Nat

/-- An identity that no instruction of the function has. -/
def freshId (F : MachineFunction) : Nat := (F.flatten.map MachineInstr.id).foldr max 0 + 1

/-- What the first walk makes of a block. Without `HardenLoads` it is skipped. -/
def collectBlock (F : MachineFunction) (bb : MachineBasicBlock) : Collected × List MachineInstr :=
  if O.HardenLoads then collect O T (freshId F) bb bb {} else ({}, bb)

/-- The events of hardening the stand-alone GEPs. -/
def hardenStandAlone (c : Collected) : List (Hardening × Nat) :=
  if O.HardenStandAloneGEPs then c.HardenStandAloneGEP.map fun i => (.standAloneGEP, i) else []

/-- The state the second walk starts with. -/
def startHardening (c : Collected) : Hardened := { sets := c, log := hardenStandAlone O c }

/-- The two walks and the erasures, for one block. -/
def hardenBlock (F : MachineFunction) (bb : MachineBasicBlock) : BlockResult :=
  let c := collectBlock O T F bb
  let walked := eraseAll c.1.StandAloneGEPDummyInstr c.2
  let w := hardenWalk O T F walked none none walked (startHardening O c.1)
  let remaining := c.1.DummyInstr.filter (· ∉ w.DummyInstrHardenedBySLH)
  { instrs := eraseAll remaining (eraseAll w.DummyInstrHardenedBySLH walked)
    log := w.log
    erased := c.1.StandAloneGEPDummyInstr ++ w.DummyInstrHardenedBySLH ++ remaining }

/-- `tracePredStateThroughBlocksAndHarden`. -/
def tracePredStateThroughBlocksAndHarden (F : MachineFunction) : List BlockResult :=
  F.map (hardenBlock O T F)

end

end MSV.SLH
