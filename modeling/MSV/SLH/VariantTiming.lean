import Mathlib.Logic.Function.Basic
import MSV.Lib.Run
import MSV.SLH.MachineIR

/-!
# Hardening instructions of variant timing

`hardenVariantTimingInstr` goes through the operands of an instruction until one is hardened. With
`special` set it looks at the operand `idx` only: at the start of every round the loop counter is
set back to `idx`. So the loop ends only if the round returns; two of the four `continue`s return
first when `special` is set, two do not, and the end of the body does not either.

**Theorem (`hardenVariantTimingInstr_halts_iff`).** The loop ends, if and only if `special` is not
set, or `idx` is the last operand, or the operand is no virtual register that is read, or the
instruction is a floating-point one, or repeated, or a division whose operand can be hardened.
-/

namespace MSV.SLH

/-! ## The target -/

/-- The register classes the pass asks for by name. -/
inductive RegClass where
  | GR8 | GR16 | GR32 | GR64
  | GR8_NOREX | GR16_NOREX | GR32_NOREX | GR64_NOREX
  | FR32 | FR64
  | VR128 | VR256 | VR512 | VR128X | VR256X
  | other (n : Nat)
deriving DecidableEq

/-- The opcodes of variant timing, and all others. -/
inductive VTOpcode where
  | REP_MOVSB_32 | REP_MOVSW_32 | REP_MOVSD_32 | REP_MOVSQ_32
  | REP_MOVSB_64 | REP_MOVSW_64 | REP_MOVSD_64 | REP_MOVSQ_64
  | REP_STOSB_32 | REP_STOSW_32 | REP_STOSD_32 | REP_STOSQ_32
  | REP_STOSB_64 | REP_STOSW_64 | REP_STOSD_64 | REP_STOSQ_64
  | REP_PREFIX | REPNE_PREFIX
  | DIV64r | IDIV64r
  | other (n : Nat)
deriving DecidableEq

/-- An operand: a register, which is defined or read, or anything else. -/
inductive MachineOperand where
  | reg (r : Reg) (isDef : Bool)
  | other
deriving DecidableEq

/-- What the loop asks the instruction, besides its operands. -/
structure VTInstr where
  opcode : VTOpcode
  NoFPExcept : Bool := false
  mayRaiseFPException : Bool := false

/-- What the loop asks the target, and the block of the instruction. -/
structure VTTarget where
  hasSuperClassEq : RegClass → RegClass → Bool
  getRegSizeInBits : RegClass → Nat
  hasVLX : Bool
  hasBMI2 : Bool
  isEFLAGSLive : Bool
  /-- The register of the predicate state at the end of the block. -/
  StateReg : Reg

/-! ## Instructions that are inserted -/

inductive InsertedOp where
  | COPY
  | VMOV64toPQIrr | VPBROADCASTQrr | VPBROADCASTQYrr | VPORrr | VPORYrr
  | VPBROADCASTQrZ128rr | VPBROADCASTQrZ256rr | VPBROADCASTQrZrr
  | VPORQZ128rr | VPORQZ256rr | VPORQZrr
  | OR8rr | OR16rr | OR32rr | OR64rr
deriving DecidableEq

inductive SubReg where
  | sub_8bit | sub_16bit | sub_32bit
deriving DecidableEq

/-- An inserted instruction. A copy may read a part of a register. -/
structure Inserted where
  opcode : InsertedOp
  dst : Reg
  srcs : List Reg
  subReg : Option SubReg := none

def EFLAGS : Reg := .phys 0

def RCX : Reg := .phys 1

/-- What the loop changes: the operands, the code before the instruction, and the virtual
registers with their classes. -/
structure VTState where
  operands : List MachineOperand
  inserted : List Inserted
  regClass : Nat → RegClass
  nextReg : Nat

abbrev Emit := StateM VTState

def createVirtualRegister (RC : RegClass) : Emit Reg := fun s =>
  (.virt s.nextReg,
    { s with regClass := Function.update s.regClass s.nextReg RC, nextReg := s.nextReg + 1 })

def buildMI (opcode : InsertedOp) (dst : Reg) (srcs : List Reg) (subReg : Option SubReg) :
    Emit Unit :=
  modify fun s => { s with inserted := s.inserted ++ [⟨opcode, dst, srcs, subReg⟩] }

/-- `MI.getOperand(OpIdx).setReg(r)`, for an operand that is read. -/
def setReg (OpIdx : Nat) (r : Reg) : Emit Unit :=
  modify fun s => { s with operands := s.operands.set OpIdx (.reg r false) }

/-- `FlagsReg`, if the flags have to be saved. -/
def saveEFLAGS (live : Bool) : Emit (Option Reg) :=
  if live then do
    let r ← createVirtualRegister .GR32
    buildMI .COPY r [EFLAGS] none
    return some r
  else return none

def restoreEFLAGS (FlagsReg : Option Reg) : Emit Unit :=
  match FlagsReg with
  | some r => buildMI .COPY EFLAGS [r] none
  | none => return ()

/-- The part of the predicate state that fits a register of so many bytes. -/
def narrowState (T : VTTarget) (bytes : Nat) (RC : RegClass) : Emit Reg :=
  if bytes ≠ 8 then do
    let NarrowStateReg ← createVirtualRegister RC
    buildMI .COPY NarrowStateReg [T.StateReg]
      [SubReg.sub_8bit, .sub_16bit, .sub_32bit][Nat.log2 bytes]?
    return NarrowStateReg
  else return T.StateReg

/-! ## One round of the loop -/

/-- `canHardenRegister`, of a register of this class. -/
def canHardenRegister (T : VTTarget) (RC : RegClass) : Bool :=
  let RegBytes := T.getRegSizeInBits RC / 8
  if RegBytes > 8 then false
  else
    let RegIdx := Nat.log2 RegBytes
    if [RegClass.GR8_NOREX, .GR16_NOREX, .GR32_NOREX, .GR64_NOREX][RegIdx]? = some RC then false
    else
      match [RegClass.GR8, .GR16, .GR32, .GR64][RegIdx]? with
      | some GPR => T.hasSuperClassEq RC GPR
      | none => false

/-- `analyseVariantTimingInstruction`: 1 for a repetition, 2 for a division. -/
def analyseVariantTimingInstruction : VTOpcode → Nat
  | .other _ => 0
  | .DIV64r | .IDIV64r => 2
  | _ => 1

def VTInstr.isFP (mi : VTInstr) : Bool := mi.NoFPExcept || mi.mayRaiseFPException

/-- What the function returns: zero, one, or a register. -/
inductive Returned where
  | zero
  | one
  | hardened (r : Reg)

section

variable (T : VTTarget) (OpIdx : Nat) (r : Reg) (RC : RegClass)

/-- A vector register, with AVX2. -/
def hardenVector : Emit Returned := do
  let Is128Bit := T.hasSuperClassEq RC .VR128
  let FlagsReg ← saveEFLAGS (T.isEFLAGSLive && !T.hasBMI2)
  let HardenedReg ← createVirtualRegister RC
  let VStateReg ← createVirtualRegister .VR128
  buildMI .VMOV64toPQIrr VStateReg [T.StateReg] none
  let VBStateReg ← createVirtualRegister RC
  buildMI (if Is128Bit then .VPBROADCASTQrr else .VPBROADCASTQYrr) VBStateReg [VStateReg] none
  buildMI (if Is128Bit then .VPORrr else .VPORYrr) HardenedReg [VBStateReg, r] none
  setReg OpIdx HardenedReg
  restoreEFLAGS FlagsReg
  return .hardened HardenedReg

/-- A vector register, with AVX-512. -/
def hardenVectorX : Emit Returned := do
  let Is128Bit := T.hasSuperClassEq RC .VR128X
  let Is256Bit := T.hasSuperClassEq RC .VR256X
  let FlagsReg ← saveEFLAGS (T.isEFLAGSLive && !T.hasBMI2)
  let HardenedReg ← createVirtualRegister RC
  let VStateReg ← createVirtualRegister RC
  buildMI
    (if Is128Bit then .VPBROADCASTQrZ128rr
      else if Is256Bit then .VPBROADCASTQrZ256rr else .VPBROADCASTQrZrr)
    VStateReg [T.StateReg] none
  buildMI (if Is128Bit then .VPORQZ128rr else if Is256Bit then .VPORQZ256rr else .VPORQZrr)
    HardenedReg [VStateReg, r] none
  setReg OpIdx HardenedReg
  restoreEFLAGS FlagsReg
  return .hardened HardenedReg

/-- A scalar register: its value goes through a general register. -/
def hardenScalar : Emit Returned := do
  let generalRC : RegClass := if RC = .FR32 then .GR32 else .GR64
  let generalReg ← createVirtualRegister generalRC
  let newReg ← createVirtualRegister generalRC
  let FlagsReg ← saveEFLAGS T.isEFLAGSLive
  buildMI .COPY generalReg [r] none
  let StateReg ← narrowState T (T.getRegSizeInBits RC / 8) generalRC
  buildMI (if RC = .FR32 then .OR32rr else .OR64rr) newReg [generalReg, StateReg] none
  let HardenedReg ← createVirtualRegister RC
  buildMI .COPY HardenedReg [newReg] none
  setReg OpIdx HardenedReg
  restoreEFLAGS FlagsReg
  return .hardened HardenedReg

/-- A register of a floating-point instruction. One of another class counts as hardened. -/
def hardenFP : Emit Returned :=
  if RC ≠ .FR32 ∧ RC ≠ .FR64 ∧ ¬ (T.hasSuperClassEq RC .VR128 ∨ T.hasSuperClassEq RC .VR256 ∨
      T.hasSuperClassEq RC .VR512) then
    return .one
  else if !T.hasVLX ∧ (T.hasSuperClassEq RC .VR128 ∨ T.hasSuperClassEq RC .VR256) then
    hardenVector T OpIdx r RC
  else if T.hasSuperClassEq RC .VR128X ∨ T.hasSuperClassEq RC .VR256X ∨
      T.hasSuperClassEq RC .VR512 then
    hardenVectorX T OpIdx r RC
  else hardenScalar T OpIdx r RC

/-- The counter of a repetition, which is always in RCX. -/
def hardenRCX : Emit Returned := do
  let FlagsReg ← saveEFLAGS T.isEFLAGSLive
  buildMI .OR64rr RCX [RCX, T.StateReg] none
  restoreEFLAGS FlagsReg
  return .one

/-- `hardenValueInCondition`: the hardened register, which takes the place of the operand. -/
def hardenValueInCondition : Emit Reg := do
  let FlagsReg ← saveEFLAGS T.isEFLAGSLive
  let Bytes := T.getRegSizeInBits RC / 8
  let StateReg ← narrowState T Bytes RC
  let HardenedReg ← createVirtualRegister RC
  buildMI ([InsertedOp.OR8rr, .OR16rr, .OR32rr, .OR64rr].getD (Nat.log2 Bytes) .OR64rr)
    HardenedReg [r, StateReg] none
  setReg OpIdx HardenedReg
  restoreEFLAGS FlagsReg
  return HardenedReg

end

section

variable (T : VTTarget) (mi : VTInstr) (AddrRegToHardenedReg : List Reg) (special : Bool)

/-- The body of the loop for a virtual register that is read. Without a result, the loop goes on. -/
def hardenRegister (OpIdx n : Nat) (RC : RegClass) : Emit (Option Returned) :=
  if mi.isFP then some <$> hardenFP T OpIdx (.virt n) RC
  else if analyseVariantTimingInstruction mi.opcode = 1 then some <$> hardenRCX T
  else if analyseVariantTimingInstruction mi.opcode = 2 then
    if !canHardenRegister T RC then return none
    else if .virt n ∈ AddrRegToHardenedReg then return some .one
    else do
      let success ← hardenValueInCondition T OpIdx (.virt n) RC
      if success = .NoRegister then return none else return some .one
  else return none

/-- The body of the loop. -/
def hardenOperand (OpIdx : Nat) : Emit (Option Returned) := do
  let s ← get
  match s.operands[OpIdx]? with
  | some (.reg (.virt n) false) =>
      hardenRegister T mi AddrRegToHardenedReg OpIdx n (s.regClass n)
  | _ => return if special then some .zero else none

/-- The loop is at its head, or the function returns. -/
inductive LoopState where
  | head (OpIdx : Nat) (s : VTState)
  | done (value : Returned) (s : VTState)

/-- A round of the loop. Behind it, the fixed address is hardened, if it is not yet. -/
def hardenVariantTimingInstr (idx : Nat) : LoopState → Option LoopState
  | .done .. => none
  | .head OpIdx s =>
      if OpIdx < s.operands.length then
        let OpIdx := if special then idx else OpIdx
        match hardenOperand T mi AddrRegToHardenedReg special OpIdx s with
        | (some value, s) => some (.done value s)
        | (none, s) => some (.head (OpIdx + 1) s)
      else some (.done .one s)

end

/-! ## When a round returns -/

/-- The instruction is one that returns for a virtual register of the class. -/
def Returns (T : VTTarget) (mi : VTInstr) (RC : RegClass) : Prop :=
  mi.isFP = true ∨ analyseVariantTimingInstruction mi.opcode = 1 ∨
    (analyseVariantTimingInstruction mi.opcode = 2 ∧ canHardenRegister T RC = true)

section

variable {T : VTTarget} {mi : VTInstr} {AddrRegToHardenedReg : List Reg} {special : Bool}
  {OpIdx idx n : Nat} {r : Reg} {RC : RegClass} {s : VTState}

/-- A value is always hardened, so the last `continue` is never reached. -/
theorem hardenValueInCondition_eq_virt (T : VTTarget) (OpIdx : Nat) (r : Reg) (RC : RegClass)
    (s : VTState) : ∃ n, (hardenValueInCondition T OpIdx r RC s).1 = .virt n := ⟨_, rfl⟩

theorem hardenRegister_of_returns (h : Returns T mi RC) :
    ∃ value s', hardenRegister T mi AddrRegToHardenedReg OpIdx n RC s = (some value, s') := by
  unfold hardenRegister
  split_ifs with hFP h1 h2 hc hmem
  · exact ⟨_, _, rfl⟩
  · exact ⟨_, _, rfl⟩
  · obtain h | h | ⟨-, h⟩ := h
    · exact absurd h hFP
    · exact absurd h h1
    · simp [h] at hc
  · exact ⟨_, _, rfl⟩
  · obtain ⟨m, hm⟩ := hardenValueInCondition_eq_virt T OpIdx (.virt n) RC s
    refine ⟨.one, (hardenValueInCondition T OpIdx (.virt n) RC s).2, ?_⟩
    show (if (hardenValueInCondition T OpIdx (.virt n) RC s).1 = .NoRegister then return none
      else return some .one : Emit (Option Returned)) _ = _
    rw [hm]
    rfl
  · obtain h | h | ⟨h, -⟩ := h
    · exact absurd h hFP
    · exact absurd h h1
    · exact absurd h h2

/-- A round that does not return changes nothing. -/
theorem hardenRegister_of_not_returns (h : ¬ Returns T mi RC) :
    hardenRegister T mi AddrRegToHardenedReg OpIdx n RC s = (none, s) := by
  unfold hardenRegister
  rw [if_neg fun hFP => h (.inl hFP), if_neg fun h1 => h (.inr (.inl h1))]
  split_ifs with h2 hc hmem
  · rfl
  · exact absurd (.inr (.inr ⟨h2, by simpa using hc⟩)) h
  · exact absurd (.inr (.inr ⟨h2, by simpa using hc⟩)) h
  · rfl

theorem hardenOperand_apply : hardenOperand T mi AddrRegToHardenedReg special OpIdx s =
    (match s.operands[OpIdx]? with
    | some (.reg (.virt n) false) =>
        hardenRegister T mi AddrRegToHardenedReg OpIdx n (s.regClass n)
    | _ => return if special then some .zero else none : Emit (Option Returned)) s := rfl

theorem hardenOperand_virt (h : s.operands[OpIdx]? = some (.reg (.virt n) false)) :
    hardenOperand T mi AddrRegToHardenedReg special OpIdx s =
      hardenRegister T mi AddrRegToHardenedReg OpIdx n (s.regClass n) s := by
  rw [hardenOperand_apply, h]

theorem hardenOperand_other (h : ∀ n, s.operands[OpIdx]? ≠ some (.reg (.virt n) false)) :
    hardenOperand T mi AddrRegToHardenedReg special OpIdx s =
      (if special then some .zero else none, s) := by
  rw [hardenOperand_apply]
  cases ho : s.operands[OpIdx]? with
  | none => rfl
  | some o =>
      cases o with
      | other => rfl
      | reg r isDef =>
          cases r with
          | virt n =>
              cases isDef with
              | true => rfl
              | false => exact absurd ho (h n)
          | _ => rfl

/-- A round returns or changes nothing. -/
theorem hardenOperand_cases (T : VTTarget) (mi : VTInstr) (AddrRegToHardenedReg : List Reg)
    (special : Bool) (OpIdx : Nat) (s : VTState) :
    (∃ value s', hardenOperand T mi AddrRegToHardenedReg special OpIdx s = (some value, s')) ∨
      hardenOperand T mi AddrRegToHardenedReg special OpIdx s = (none, s) := by
  by_cases h : ∃ n, s.operands[OpIdx]? = some (.reg (.virt n) false)
  · obtain ⟨n, hn⟩ := h
    rw [hardenOperand_virt hn]
    by_cases hreturns : Returns T mi (s.regClass n)
    · exact .inl (hardenRegister_of_returns hreturns)
    · exact .inr (hardenRegister_of_not_returns hreturns)
  · push Not at h
    rw [hardenOperand_other h]
    cases special with
    | true => exact .inl ⟨.zero, s, rfl⟩
    | false => exact .inr rfl

/-- The operand is a virtual register that is read, and a round for it does not return. -/
def Stays (T : VTTarget) (mi : VTInstr) (s : VTState) (OpIdx : Nat) : Prop :=
  ∃ n, s.operands[OpIdx]? = some (.reg (.virt n) false) ∧ ¬ Returns T mi (s.regClass n)

theorem hardenOperand_of_stays (h : Stays T mi s OpIdx) :
    hardenOperand T mi AddrRegToHardenedReg special OpIdx s = (none, s) := by
  obtain ⟨n, hn, hnot⟩ := h
  rw [hardenOperand_virt hn]
  exact hardenRegister_of_not_returns hnot

theorem hardenOperand_of_not_stays (h : ¬ Stays T mi s OpIdx) :
    ∃ value s', hardenOperand T mi AddrRegToHardenedReg true OpIdx s = (some value, s') := by
  by_cases hvirt : ∃ n, s.operands[OpIdx]? = some (.reg (.virt n) false)
  · obtain ⟨n, hn⟩ := hvirt
    rw [hardenOperand_virt hn]
    exact hardenRegister_of_returns (not_not.mp fun hnot => h ⟨n, hn, hnot⟩)
  · push Not at hvirt
    exact ⟨.zero, s, hardenOperand_other hvirt⟩

/-! ## The loop -/

/-- Behind the last operand the loop ends. -/
theorem halts_of_length_le (h : s.operands.length ≤ OpIdx) :
    Halts (hardenVariantTimingInstr T mi AddrRegToHardenedReg special idx) (.head OpIdx s) := by
  refine .of_step (t := .done .one s) ?_ (.of_none rfl)
  unfold hardenVariantTimingInstr
  exact if_neg (Nat.not_lt.mpr h)

/-- The loop ends with a round that returns. -/
theorem halts_of_returned (hlt : OpIdx < s.operands.length) {value : Returned} {s' : VTState}
    (h : hardenOperand T mi AddrRegToHardenedReg special (if special then idx else OpIdx) s =
      (some value, s')) :
    Halts (hardenVariantTimingInstr T mi AddrRegToHardenedReg special idx) (.head OpIdx s) := by
  refine .of_step (t := .done value s') ?_ (.of_none rfl)
  simp only [hardenVariantTimingInstr, if_pos hlt, h]

/-- A round that does not return goes on with the next operand. -/
theorem step_of_stays (hlt : OpIdx < s.operands.length)
    (h : hardenOperand T mi AddrRegToHardenedReg special (if special then idx else OpIdx) s =
      (none, s)) :
    hardenVariantTimingInstr T mi AddrRegToHardenedReg special idx (.head OpIdx s) =
      some (.head ((if special then idx else OpIdx) + 1) s) := by
  simp only [hardenVariantTimingInstr, if_pos hlt, h]

/-- Without `special` every operand is looked at once. -/
theorem halts_of_not_special (T : VTTarget) (mi : VTInstr) (AddrRegToHardenedReg : List Reg)
    (idx OpIdx : Nat) (s : VTState) :
    Halts (hardenVariantTimingInstr T mi AddrRegToHardenedReg false idx) (.head OpIdx s) := by
  induction hk : s.operands.length - OpIdx generalizing OpIdx with
  | zero => exact halts_of_length_le (Nat.sub_eq_zero_iff_le.mp hk)
  | succ k ih =>
      have hlt : OpIdx < s.operands.length := by omega
      obtain ⟨value, s', h⟩ | h := hardenOperand_cases T mi AddrRegToHardenedReg false OpIdx s
      · exact halts_of_returned hlt h
      · exact .of_step (step_of_stays hlt h) (ih (OpIdx + 1) (by omega))

/-- With `special` the loop comes back to `idx` again and again. -/
theorem not_halts_of_stays (hidx : idx + 1 < s.operands.length) (h : Stays T mi s idx) :
    ¬ Halts (hardenVariantTimingInstr T mi AddrRegToHardenedReg true idx) (.head 0 s) := by
  refine not_halts_of_kept (P := fun l => ∃ i, i < s.operands.length ∧ l = .head i s)
    ⟨0, by omega, rfl⟩ ?_
  rintro _ ⟨i, hi, rfl⟩
  exact ⟨_, step_of_stays hi (hardenOperand_of_stays h), idx + 1, hidx, rfl⟩

end

/-- The loop over the operands ends exactly when `special` is not set, or `idx` is the last operand,
or the round for it returns. -/
theorem hardenVariantTimingInstr_halts_iff (T : VTTarget) (mi : VTInstr)
    (AddrRegToHardenedReg : List Reg) (special : Bool) (idx : Nat) (s : VTState)
    (hidx : idx < s.operands.length) :
    Halts (hardenVariantTimingInstr T mi AddrRegToHardenedReg special idx) (.head 0 s) ↔
      special = false ∨ idx + 1 = s.operands.length ∨
        ∀ n, s.operands[idx]? = some (.reg (.virt n) false) → Returns T mi (s.regClass n) := by
  cases special with
  | false => exact iff_of_true (halts_of_not_special T mi AddrRegToHardenedReg idx 0 s) (.inl rfl)
  | true =>
      have hstays : (∀ n, s.operands[idx]? = some (.reg (.virt n) false) →
          Returns T mi (s.regClass n)) ↔ ¬ Stays T mi s idx := by
        unfold Stays
        push Not
        rfl
      rw [hstays, or_iff_right (by decide : ¬ true = false)]
      constructor
      · intro h
        by_contra! hbad
        exact not_halts_of_stays (by omega) hbad.2 h
      · intro h
        have hlt : 0 < s.operands.length := Nat.zero_lt_of_lt hidx
        by_cases hstay : Stays T mi s idx
        · have hlast : idx + 1 = s.operands.length := h.resolve_right (not_not.mpr hstay)
          exact .of_step (step_of_stays hlt (hardenOperand_of_stays hstay))
            (halts_of_length_le (Nat.le_of_eq hlast.symm))
        · obtain ⟨value, s', hreturned⟩ := hardenOperand_of_not_stays hstay
          exact halts_of_returned hlt hreturned

/-! ## A division -/

/-- General registers of 64 bits, with or without REX. -/
def generalTarget : VTTarget where
  hasSuperClassEq RC RC' := decide (RC = RC' ∨ RC = .GR64_NOREX ∧ RC' = .GR64)
  getRegSizeInBits _ := 64
  hasVLX := false
  hasBMI2 := true
  isEFLAGSLive := false
  StateReg := .virt 1

def division : VTInstr := { opcode := .DIV64r }

/-- The operands of `DIV64r %0, implicit-def $rax, implicit-def $rdx, implicit-def $eflags,
implicit $rax, implicit $rdx`, where `%0` is of class `RC`. -/
def divisionState (RC : RegClass) : VTState where
  operands := [.reg (.virt 0) false, .reg (.phys 2) true, .reg (.phys 3) true, .reg EFLAGS true,
    .reg (.phys 2) false, .reg (.phys 3) false]
  inserted := []
  regClass _ := RC
  nextReg := 2

theorem division_halts : Halts (hardenVariantTimingInstr generalTarget division [] true 0)
    (.head 0 (divisionState .GR64)) := by
  refine (hardenVariantTimingInstr_halts_iff generalTarget division [] true 0 (divisionState .GR64)
    (by decide)).mpr (.inr (.inr fun n _ => .inr (.inr ⟨rfl, ?_⟩)))
  show canHardenRegister generalTarget .GR64 = true
  decide

/-- A register that must do without REX is not hardened, and the loop does not end. -/
theorem division_without_rex_loops :
    ¬ Halts (hardenVariantTimingInstr generalTarget division [] true 0)
      (.head 0 (divisionState .GR64_NOREX)) := by
  refine not_halts_of_stays (by decide) ⟨0, rfl, ?_⟩
  rintro (h | h | ⟨-, h⟩)
  · exact absurd h (by decide)
  · exact absurd h (by decide)
  · exact absurd (h : canHardenRegister generalTarget .GR64_NOREX = true) (by decide)

end MSV.SLH
