import MSV.SLH.CallState

/-!
# The stack pointer carries the predicate state

The stack pointer of a hardened program is the one it would have without hardening, with the
predicate state in its bits from 47 on, once the state has been merged into it. A call that has not
returned keeps the address to return to in its register, if it has one.
-/

namespace MSV.SLH

open HighBits

variable (o : CallOptions) (addr : Nat → BitVec 64)

/-! ## The inserted code -/

theorem run_merge {r : Reg} {n : Nat} (c : Cpu) :
    (runCode addr [.SHL64ri (.virt n) r 47, .OR64rr .RSP .RSP (.virt n)] c).regs .RSP =
      c.regs .RSP ||| c.regs r <<< 47 ∧
    (runCode addr [.SHL64ri (.virt n) r 47, .OR64rr .RSP .RSP (.virt n)] c).mem = c.mem := by
  simp [runCode, StateInst.exec, Cpu.alu]

theorem run_extract (n : Nat) (c : Cpu) :
    let c' := runCode addr [.COPY (.virt (n + 1)) .RSP, .SAR64ri (.virt n) (.virt (n + 1)) 63] c
    c'.regs (.virt n) = (c.regs .RSP).sshiftRight 63 ∧ c'.mem = c.mem ∧
      ∀ r, r ≠ .virt n → r ≠ .virt (n + 1) → c'.regs r = c.regs r := by
  refine ⟨by simp [runCode, StateInst.exec, Cpu.alu, Cpu.set], rfl, fun r h h' => ?_⟩
  simp [runCode, StateInst.exec, Cpu.alu, Cpu.set, h, h']

/-- A small address is its immediate. -/
theorem imm32_eq {v : BitVec 64} (h : v.toNat < 2 ^ 31) : imm32 v = v := by
  have hlow : Low 31 v := h
  have htop : (v.setWidth 32).msb = false := by
    rw [BitVec.msb_eq_getLsbD_last, BitVec.getLsbD_setWidth, hlow.getLsbD (Nat.le_refl 31),
      Bool.and_false]
  apply BitVec.eq_of_getLsbD_eq
  intro i hi
  rw [imm32, BitVec.getLsbD_signExtend, htop]
  by_cases hi32 : i < 32
  · simp [hi, hi32]
  · simp [hi32, hlow.getLsbD (show 31 ≤ i by omega)]

/-- The state goes through the stack pointer. -/
def Interprocedural (o : CallOptions) : Prop :=
  o.HardenInterprocedurally = true ∧ o.FenceCallAndRet = false

/-- With a small code model the addresses fit the immediates. -/
def SmallAddresses (o : CallOptions) (addr : Nat → BitVec 64) : Prop :=
  o.smallAndFixed = true → ∀ sym, (addr sym).toNat < 2 ^ 31

variable {o} {addr}

@[simp] theorem cpu_rsp (s : Sys) (p : Place) : (s.cpu p).regs .RSP = s.rsp := by simp [Sys.cpu]

@[simp] theorem cpu_state (s : Sys) (p : Place) : (s.cpu p).regs p.StateReg = s.pred := by
  simp [Sys.cpu, p.state_ne.1]

@[simp] theorem cpu_poison (s : Sys) (p : Place) :
    (s.cpu p).regs p.PoisonReg = BitVec.allOnes 64 := by
  simp [Sys.cpu, p.poison_ne.1, p.state_ne.2.1.symm]

theorem cpu_virt (s : Sys) {p : Place} {n : Nat} (hn : p.next ≤ n) :
    (s.cpu p).regs (.virt n) = p.regs (.virt n) := by
  simp [Sys.cpu, (p.poison_ne.2 n hn).symm, (p.state_ne.2.2 n hn).symm]

/-- The address to return to is kept in a register across the call. -/
def saves (MF : FrameTraits) (kind : CallKind) : Bool :=
  kind == .returns && (!MF.has128ByteRedZone || MF.exposesReturnsTwice)

def mergeCode (r : Reg) (n : Nat) : List StateInst :=
  [.SHL64ri (.virt n) r 47, .OR64rr .RSP .RSP (.virt n)]

def extractCode (n : Nat) : List StateInst :=
  [.COPY (.virt (n + 1)) .RSP, .SAR64ri (.virt n) (.virt (n + 1)) 63]

/-- The comparison of the address in a register with that of a symbol. -/
def compareCode (o : CallOptions) (r : Reg) (sym n : Nat) : List StateInst :=
  if o.smallAndFixed then [.CMP64ri32sym r sym] else [.LEA64r (.virt n) sym, .CMP64rr r (.virt n)]

theorem before_eq (ho : Interprocedural o) (MF : FrameTraits) (kind : CallKind) (R P : Reg)
    (sym n : Nat) : (tracePredStateThroughCall o MF kind R P sym n).before = mergeCode R n ++
      if saves MF kind then [materialize o (.virt (n + 1)) sym] else [] := by
  obtain ⟨_, fence, small⟩ := o
  obtain ⟨zone, twice⟩ := MF
  obtain rfl : fence = false := ho.2
  cases kind <;> cases zone <;> cases twice <;> rfl

theorem saved_eq (ho : Interprocedural o) (MF : FrameTraits) (kind : CallKind) (R P : Reg)
    (sym n : Nat) : (tracePredStateThroughCall o MF kind R P sym n).saved =
      if saves MF kind then some (.virt (n + 1)) else none := by
  obtain ⟨_, fence, small⟩ := o
  obtain ⟨zone, twice⟩ := MF
  obtain rfl : fence = false := ho.2
  cases kind <;> cases zone <;> cases twice <;> rfl

/-- The register of the state behind a call. -/
def updatedReg (o : CallOptions) (n : Nat) : Nat := if o.smallAndFixed then n + 4 else n + 5

theorem after_eq (ho : Interprocedural o) (MF : FrameTraits) (R P : Reg) (sym n : Nat) :
    (tracePredStateThroughCall o MF .returns R P sym n).state = some (.virt (updatedReg o n)) ∧
      (tracePredStateThroughCall o MF .returns R P sym n).after =
        (if saves MF .returns then [] else [.MOV64rm (.virt (n + 1)) .RSP (-8)]) ++
          (extractCode (n + 2) ++ (compareCode o (.virt (n + 1)) sym (n + 4) ++
            [.CMOVNE (.virt (updatedReg o n)) (.virt (n + 2)) P])) := by
  obtain ⟨_, fence, small⟩ := o
  obtain ⟨zone, twice⟩ := MF
  obtain rfl : fence = false := ho.2
  cases zone <;> cases twice <;> cases small <;> exact ⟨rfl, rfl⟩

theorem runCode_append (code code' : List StateInst) (c : Cpu) :
    runCode addr (code ++ code') c = runCode addr code' (runCode addr code c) :=
  List.foldl_append

/-- The address of a symbol, as it is written into a register. -/
theorem run_materialize (hsmall : SmallAddresses o addr) (r : Reg) (sym : Nat) (c : Cpu) :
    runCode addr [materialize o r sym] c = c.set r (addr sym) := by
  cases h : o.smallAndFixed with
  | true => simp [materialize, h, runCode, StateInst.exec, imm32_eq (hsmall h sym)]
  | false => simp [materialize, h, runCode, StateInst.exec]

variable (addr) in
theorem run_mergeCode (s : Sys) (p : Place) :
    let c := runCode addr (mergeCode p.StateReg p.next) (s.cpu p)
    c.regs .RSP = s.rsp ||| s.pred <<< 47 ∧ c.mem = s.mem ∧
      ∀ r, r ≠ .RSP → r ≠ .virt p.next → c.regs r = (s.cpu p).regs r := by
  obtain ⟨hrsp, hmem⟩ := run_merge addr (r := p.StateReg) (n := p.next) (s.cpu p)
  rw [cpu_rsp, cpu_state] at hrsp
  refine ⟨hrsp, hmem, fun r h h' => ?_⟩
  simp [mergeCode, runCode, StateInst.exec, Cpu.alu, h, h']

/-- Before a call the state is merged into the stack pointer, and the address to return to is in its
register, if it has one. -/
theorem run_before (ho : Interprocedural o) (hsmall : SmallAddresses o addr) (kind : CallKind)
    (s : Sys) (p : Place) (sym : Nat) :
    let c := runCode addr (p.around o kind sym).before (s.cpu p)
    s.after c = { s with rsp := s.rsp ||| s.pred <<< 47 } ∧
      c.regs p.PoisonReg = BitVec.allOnes 64 ∧
      (saves p.MF kind = true → c.regs (.virt (p.next + 1)) = addr sym) := by
  obtain ⟨hrsp, hmem, hframe⟩ := run_mergeCode addr s p
  have hpoison := (hframe _ p.poison_ne.1 (p.poison_ne.2 _ (Nat.le_refl _))).trans (cpu_poison s p)
  rw [Place.around, before_eq ho, runCode_append]
  generalize runCode addr (mergeCode p.StateReg p.next) (s.cpu p) = c at hrsp hmem hpoison
  cases hsaves : saves p.MF kind with
  | false => exact ⟨Sys.ext hrsp hmem rfl rfl, hpoison, fun h => by cases h⟩
  | true =>
    rw [if_pos rfl, run_materialize hsmall]
    have hne := p.poison_ne.2 (p.next + 1) (by omega)
    refine ⟨Sys.ext ?_ hmem rfl rfl, ?_, fun _ => ?_⟩
    · simpa [Sys.after, Cpu.set] using hrsp
    · simpa [Cpu.set, Function.update_of_ne hne] using hpoison
    · simp [Cpu.set]

/-- Before a return the state is merged as well. -/
theorem leave_eq (ho : Interprocedural o) (s : Sys) (p : Place) :
    s.leave o addr p = { s with rsp := (s.rsp ||| s.pred <<< 47) + 8 } := by
  obtain ⟨hrsp, hmem, -⟩ := run_mergeCode addr s p
  have hcode : (hardenReturnInstr o p.StateReg ([], p.next)).2.1 = mergeCode p.StateReg p.next := by
    rw [hardenReturnInstr, ho.2]
    rfl
  rw [Sys.leave, hcode]
  exact Sys.ext (congrArg (· + 8) hrsp) hmem rfl rfl

theorem run_compare (hsmall : SmallAddresses o addr) {r : Reg} {n : Nat} (hr : r ≠ .virt n)
    (sym : Nat) (c : Cpu) :
    let c' := runCode addr (compareCode o r sym n) c
    c'.zf = (c.regs r == addr sym) ∧ c'.mem = c.mem ∧ ∀ q, q ≠ .virt n → c'.regs q = c.regs q := by
  cases h : o.smallAndFixed with
  | true =>
    simp only [compareCode, h, if_true, runCode, List.foldl_cons, List.foldl_nil, StateInst.exec,
      imm32_eq (hsmall h sym)]
    simp
  | false =>
    simp only [compareCode, h, Bool.false_eq_true, if_false, runCode, List.foldl_cons,
      List.foldl_nil, StateInst.exec, Cpu.set]
    refine ⟨by simp [hr], trivial, fun q hq => by simp [hq]⟩

variable (addr) in
/-- The address to return to, where it is not kept in a register. -/
theorem run_expected (MF : FrameTraits) {P : Reg} {n : Nat} (hP : P ≠ .virt (n + 1)) (c : Cpu) :
    let c' := runCode addr
      (if saves MF .returns then [] else [.MOV64rm (.virt (n + 1)) .RSP (-8)]) c
    c'.regs (.virt (n + 1)) = (if saves MF .returns then c.regs (.virt (n + 1)) else
      c.mem (c.regs .RSP - 8)) ∧ c'.mem = c.mem ∧ c'.regs .RSP = c.regs .RSP ∧
      c'.regs P = c.regs P := by
  cases saves MF .returns with
  | true => exact ⟨rfl, rfl, rfl, rfl⟩
  | false =>
    have hload : (runCode addr [.MOV64rm (.virt (n + 1)) .RSP (-8)] c).regs (.virt (n + 1)) =
        c.mem (c.regs .RSP + -8) := Function.update_self _ _ _
    rw [← BitVec.sub_eq_add_neg] at hload
    have hframe {r : Reg} (hr : r ≠ .virt (n + 1)) : (runCode addr
        [.MOV64rm (.virt (n + 1)) .RSP (-8)] c).regs r = c.regs r := Function.update_of_ne hr _ _
    exact ⟨hload, rfl, hframe (by simp), hframe hP⟩

/-- Behind a call the state is the one from the stack pointer, or poisoned, if the address is not
the expected one. -/
theorem resume_eq (ho : Interprocedural o) (hsmall : SmallAddresses o addr) (s : Sys) (p : Place)
    (sym : Nat) {regs : Reg → BitVec 64} (hpoison : regs p.PoisonReg = BitVec.allOnes 64) :
    s.resume addr (p.around o .returns sym) regs =
      { s with pred :=
          if (if saves p.MF .returns then regs (.virt (p.next + 1)) else s.mem (s.rsp - 8)) =
              addr sym then s.rsp.sshiftRight 63 else BitVec.allOnes 64 } := by
  obtain ⟨hstate, hafter⟩ := after_eq ho p.MF p.StateReg p.PoisonReg sym p.next
  obtain ⟨hexp, hmem₁, hrsp₁, hpoison₁⟩ := run_expected addr p.MF
    (p.poison_ne.2 (p.next + 1) (by omega)) ⟨Function.update regs .RSP s.rsp, s.mem, false⟩
  simp only [Sys.resume, Place.around, hstate, hafter, Option.map_some, Option.getD_some,
    runCode_append]
  generalize runCode addr (if saves p.MF .returns then [] else
    [.MOV64rm (.virt (p.next + 1)) .RSP (-8)]) _ = c₁ at hexp hmem₁ hrsp₁ hpoison₁
  obtain ⟨hnew, hmem₂, hframe₂⟩ := run_extract addr (p.next + 2) c₁
  simp only [extractCode]
  generalize runCode addr [.COPY (.virt (p.next + 2 + 1)) .RSP,
    .SAR64ri (.virt (p.next + 2)) (.virt (p.next + 2 + 1)) 63] c₁ = c₂ at hnew hmem₂ hframe₂
  obtain ⟨hzf, hmem₃, hframe₃⟩ := run_compare hsmall (r := .virt (p.next + 1)) (n := p.next + 4)
    (by simp) sym c₂
  generalize runCode addr (compareCode o (.virt (p.next + 1)) sym (p.next + 4)) c₂ = c₃
    at hzf hmem₃ hframe₃
  simp only [Function.update_self, Function.update_of_ne p.poison_ne.1,
    Function.update_of_ne (show Reg.virt (p.next + 1) ≠ .RSP by simp)] at hexp hrsp₁ hpoison₁
  have hones : c₃.regs p.PoisonReg = BitVec.allOnes 64 := by
    rw [hframe₃ _ (p.poison_ne.2 _ (by omega)), hframe₂ _ (p.poison_ne.2 _ (by omega))
      (p.poison_ne.2 _ (by omega)), hpoison₁, hpoison]
  have hold : c₃.regs (.virt (p.next + 2)) = s.rsp.sshiftRight 63 := by
    rw [hframe₃ _ (by simp), hnew, hrsp₁]
  have hrsp : c₃.regs .RSP = s.rsp := by
    rw [hframe₃ _ (by simp), hframe₂ _ (by simp) (by simp), hrsp₁]
  rw [hframe₂ _ (by simp) (by simp), hexp] at hzf
  refine Sys.ext ?_ ((hmem₃.trans hmem₂).trans hmem₁) ?_ rfl
  · simp [Sys.after, runCode, StateInst.exec, Cpu.set, hrsp]
  · simp only [runCode, List.foldl_cons, List.foldl_nil, StateInst.exec, Cpu.set,
      Function.update_self, hones, hold, hzf, beq_iff_eq]

theorem extract_eq (n : Nat) :
    extractPredStateFromSP ([], n) = (.virt n, extractCode n, n + 2) := rfl

theorem entry_eq (ho : Interprocedural o) (HasVulnerableLoad : Bool) (n : Nat) :
    entryState o HasVulnerableLoad ([], n) = ((.virt n, .virt (n + 1)),
      [.MOV64ri32 (.virt n) (BitVec.allOnes 32)] ++ extractCode (n + 1), n + 3) := by
  obtain ⟨ip, fence, small⟩ := o
  obtain ⟨rfl, rfl⟩ : ip = true ∧ fence = false := ho
  cases HasVulnerableLoad <;> rfl

/-- In a landing pad the state is the one from the stack pointer. -/
theorem land_eq (s : Sys) (e : Entry) :
    s.land addr e = { s with pred := s.rsp.sshiftRight 63 } := by
  obtain ⟨hstate, hmem, hframe⟩ := run_extract addr e.next
    ⟨Function.update e.regs .RSP s.rsp, s.mem, false⟩
  simp only [Sys.land, extract_eq, extractCode]
  have hrsp : Function.update e.regs .RSP s.rsp .RSP = s.rsp := Function.update_self _ _ _
  exact Sys.ext ((hframe .RSP (by simp) (by simp)).trans hrsp) hmem
    (hstate.trans (congrArg (·.sshiftRight 63) hrsp)) rfl

/-- At the entry of a function as well. -/
theorem enter_eq (ho : Interprocedural o) (s : Sys) (e : Entry) :
    s.enter o addr e = { s with pred := s.rsp.sshiftRight 63 } := by
  obtain ⟨hstate, hmem, hframe⟩ := run_extract addr (e.next + 1)
    ((StateInst.MOV64ri32 (.virt e.next) (BitVec.allOnes 32)).exec addr
      ⟨Function.update e.regs .RSP s.rsp, s.mem, false⟩)
  have hrsp : ((StateInst.MOV64ri32 (.virt e.next) (BitVec.allOnes 32)).exec addr
      ⟨Function.update e.regs .RSP s.rsp, s.mem, false⟩).regs .RSP = s.rsp := by
    simp [StateInst.exec, Cpu.set]
  simp only [Sys.enter, entry_eq ho, runCode_append]
  exact Sys.ext ((hframe .RSP (by simp) (by simp)).trans hrsp) hmem
    (hstate.trans (congrArg (·.sshiftRight 63) hrsp)) rfl

/-- The register of the poison value holds all ones from the entry on. -/
theorem entry_poison (ho : Interprocedural o) (c : Cpu) (HasVulnerableLoad : Bool) (n : Nat) :
    let r := entryState o HasVulnerableLoad ([], n)
    (runCode addr r.2.1 c).regs r.1.1 = BitVec.allOnes 64 := by
  obtain ⟨-, -, hframe⟩ := run_extract addr (n + 1)
    ((StateInst.MOV64ri32 (.virt n) (BitVec.allOnes 32)).exec addr c)
  have hones : ((StateInst.MOV64ri32 (.virt n) (BitVec.allOnes 32)).exec addr c).regs (.virt n) =
      BitVec.allOnes 64 :=
    (Function.update_self _ _ _).trans (by decide)
  simp only [entry_eq ho, runCode_append]
  exact (hframe (.virt n) (by simp) (by simp; omega)).trans hones

/-! ## One step -/

/-- The state merged into the stack pointer. -/
def Sys.merged (s : Sys) : Sys := { s with rsp := s.rsp ||| s.pred <<< 47 }

/-- The state taken from the stack pointer. -/
def Sys.extracted (s : Sys) : Sys := { s with pred := s.rsp.sshiftRight 63 }

variable (addr) in
/-- A call that has not returned, beside the same call without hardening. -/
structure Frame.Keeps (f g : Frame) : Prop where
  MF : f.site.MF = g.site.MF
  kind : f.kind = g.kind
  sym : f.sym = g.sym
  poison : f.site.regs f.site.PoisonReg = BitVec.allOnes 64
  saved : saves f.site.MF f.kind = true → f.site.regs (.virt (f.site.next + 1)) = addr f.sym

theorem inMemory_eq (ho : Interprocedural o) (f : Frame) :
    f.inMemory o = (f.kind == .returns && !saves f.site.MF f.kind) := by
  rw [Frame.inMemory, Place.around, saved_eq ho]
  cases saves f.site.MF f.kind <;> rfl

theorem step_call (ho : Interprocedural o) (hsmall : SmallAddresses o addr) (s : Sys) (p : Place)
    (kind : CallKind) (sym : Nat) (callee : Entry) :
    ∃ f : Frame, f.Keeps addr ⟨p, kind, sym⟩ ∧ s.step o addr (.call p kind sym callee) =
      (if kind = .tail then s.merged else
        { s.merged.push (addr sym) with frames := f :: s.frames }).extracted := by
  obtain ⟨hafter, hpoison, hsaved⟩ := run_before ho hsmall kind s p sym
  refine ⟨⟨{ p with regs := (runCode addr (p.around o kind sym).before (s.cpu p)).regs }, kind,
    sym⟩, ⟨rfl, rfl, rfl, hpoison, hsaved⟩, ?_⟩
  simp only [Sys.step, enter_eq ho, hafter]
  by_cases hkind : kind = .tail <;> simp [hkind, pushFrame, Sys.push, Sys.merged, Sys.extracted]

theorem step_throw (ho : Interprocedural o) (hsmall : SmallAddresses o addr) (s : Sys) (p : Place)
    (kind : CallKind) (sym : Nat) (d : BitVec 64) (up : Nat) (pad : Entry) :
    s.step o addr (.throw p kind sym d up pad) =
      ({ s.merged.push (addr sym) with
        rsp := s.merged.rsp - 8 + 8 + d, frames := s.frames.drop up } : Sys).extracted := by
  simp only [Sys.step, (run_before ho hsmall kind s p sym).1, land_eq]
  rfl

/-- A return behind the last call. -/
theorem step_ret (ho : Interprocedural o) (hsmall : SmallAddresses o addr) (s : Sys) (p : Place)
    {f g : Frame} {frames : List Frame} (hf : s.frames = f :: frames) (hkeeps : f.Keeps addr g)
    (hkind : f.kind = .returns) : s.step o addr (.ret p) =
      { s with
        rsp := s.merged.rsp + 8
        frames
        pred := if s.wrong o addr (.ret p) then BitVec.allOnes 64
          else (s.merged.rsp + 8).sshiftRight 63 } := by
  have hwrong : s.wrong o addr (.ret p) =
      (!saves f.site.MF .returns && s.mem s.merged.rsp != addr f.sym) := by
    simp only [Sys.wrong, hf, List.head?_cons, Option.any_some, inMemory_eq ho, hkind]
    rfl
  have hsaved := hkind ▸ hkeeps.saved
  simp only [Sys.step, leave_eq ho, hf, hkind, resume_eq ho hsmall _ f.site f.sym hkeeps.poison,
    hwrong, BitVec.add_sub_cancel]
  cases h : saves f.site.MF .returns with
  | true => simp [hsaved h, Sys.merged]
  | false => by_cases hmem : s.mem s.merged.rsp = addr f.sym <;> simp_all [Sys.merged]

/-- A return to anywhere. -/
theorem step_stray (ho : Interprocedural o) (hsmall : SmallAddresses o addr) (s : Sys) (p : Place)
    (up : Nat) (site : Place) (sym : Nat) : s.step o addr (.stray p up site sym) =
      { s with
        rsp := s.merged.rsp + 8
        frames := s.frames.drop up
        pred := if s.wrong o addr (.stray p up site sym) then BitVec.allOnes 64
          else (s.merged.rsp + 8).sshiftRight 63 } := by
  have hexp : s.expected o site sym = if saves site.MF .returns then
      site.regs (.virt (site.next + 1)) else s.mem s.merged.rsp := by
    rw [Sys.expected, Place.around, saved_eq ho]
    cases saves site.MF .returns <;> rfl
  simp only [Sys.step, leave_eq ho, resume_eq ho hsmall _ site sym (cpu_poison _ site),
    cpu_virt _ (Nat.le_succ site.next), BitVec.add_sub_cancel, Sys.wrong, hexp]
  refine Sys.ext rfl rfl ?_ rfl
  simp only [Sys.merged, bne_iff_ne, ite_not]

variable (addr) in
/-- The stack pointer stays within the lower half of the addresses, and a return leads behind a call
that returns. -/
def Sys.Fits (t : Sys) : Event → Prop
  | .ret _ => Low 47 (t.rsp + 8) ∧ ∃ f ∈ t.frames.head?, f.kind = .returns
  | .throw _ _ _ d _ _ => Low 47 (t.rsp - 8) ∧ Low 47 (t.rsp - 8 + 8 + d)
  | e => Low 47 (t.plain addr e).rsp

theorem Sys.Fits.low {t : Sys} {e : Event} (h : t.Fits addr e) : Low 47 (t.plain addr e).rsp := by
  cases e with
  | ret => exact h.1
  | throw => exact h.2
  | _ => exact h

variable (addr) in
/-- The stack pointer is the one of `t`, the program without hardening, with the predicate state in
its high bits, if that is in it. -/
structure Carries (s t : Sys) (poisoned : Bool) : Prop where
  low : Low 47 t.rsp
  pred : s.pred = spread 64 poisoned
  tagged : ∃ b, s.rsp = tag 47 b t.rsp ∧ (b = true → poisoned = true)
  frames : List.Forall₂ (Frame.Keeps addr) s.frames t.frames

variable {s t : Sys} {poisoned : Bool}

theorem Carries.merged (h : Carries addr s t poisoned) : s.merged.rsp = tag 47 poisoned t.rsp := by
  obtain ⟨b, hb, himp⟩ := h.tagged
  have hor : (b || poisoned) = poisoned := by cases b <;> simp_all
  rw [Sys.merged, hb, h.pred, tag_or_spread, hor]

/-- The state comes out of the stack pointer as it went in. -/
theorem carries_extracted (hlow : Low 47 t.rsp) (h : s.rsp = tag 47 poisoned t.rsp)
    (hframes : List.Forall₂ (Frame.Keeps addr) s.frames t.frames) :
    Carries addr s.extracted t poisoned where
  low := hlow
  pred := by rw [Sys.extracted, h]; exact sshiftRight_tag (by decide) hlow
  tagged := ⟨poisoned, h, id⟩
  frames := hframes

theorem tag_sub {rsp : BitVec 64} (h : Low 47 rsp) (h8 : Low 47 (rsp - 8)) :
    tag 47 poisoned rsp - 8 = tag 47 poisoned (rsp - 8) := by
  rw [BitVec.sub_eq_add_neg] at h8 ⊢
  rw [tag_add h h8, BitVec.sub_eq_add_neg]

/-- Behind a return the state is the one that came with it, or poisoned. -/
theorem Carries.returned (h : Carries addr s t poisoned) (hlow : Low 47 (t.rsp + 8)) {wrong : Bool}
    {frames frames' : List Frame} (hframes : List.Forall₂ (Frame.Keeps addr) frames frames') :
    Carries addr
      { s with
        rsp := s.merged.rsp + 8
        frames
        pred := if wrong then BitVec.allOnes 64 else (s.merged.rsp + 8).sshiftRight 63 }
      { t with rsp := t.rsp + 8, frames := frames' } (poisoned || wrong) := by
  have hpop : s.merged.rsp + 8 = tag 47 poisoned (t.rsp + 8) := by rw [h.merged, tag_add h.low hlow]
  have hextract : (s.merged.rsp + 8).sshiftRight 63 = spread 64 poisoned := by
    rw [hpop]
    exact sshiftRight_tag (by decide) hlow
  refine ⟨hlow, ?_, ⟨poisoned, hpop, fun ht => by simp [ht]⟩, hframes⟩
  cases wrong with
  | true => simp
  | false => simpa using hextract

/-- The last call, where it returns. -/
theorem Carries.last (h : Carries addr s t poisoned) {p : Place} (hfits : t.Fits addr (.ret p)) :
    ∃ f frames g, s.frames = f :: frames ∧ f.Keeps addr g ∧ f.kind = .returns ∧
      List.Forall₂ (Frame.Keeps addr) frames t.frames.tail := by
  obtain ⟨-, g, hg, hreturns⟩ := hfits
  have hall := h.frames
  cases hcases : t.frames with
  | nil => simp [hcases] at hg
  | cons g' gs =>
    obtain rfl : g' = g := by simpa [hcases] using hg
    rw [hcases, List.forall₂_cons_right_iff] at hall
    obtain ⟨f, frames, hkeeps, hrest, hframes⟩ := hall
    exact ⟨f, frames, g', hframes, hkeeps, hkeeps.kind.trans hreturns, hrest⟩

/-- One step keeps the stack pointer as it is without hardening, with the state in its high bits,
and the state records what goes wrong. -/
theorem Carries.step (ho : Interprocedural o) (hsmall : SmallAddresses o addr)
    (h : Carries addr s t poisoned) {e : Event} (hfits : t.Fits addr e) :
    Carries addr (s.step o addr e) (t.plain addr e) (poisoned || s.wrong o addr e) := by
  obtain ⟨b, hb, himp⟩ := h.tagged
  cases e with
  | branch wrong =>
    refine ⟨h.low, ?_, ⟨b, hb, fun ht => by simp [himp ht]⟩, h.frames⟩
    cases wrong <;> simp [Sys.step, Sys.wrong, h.pred]
  | adjust d =>
    refine ⟨hfits, by simp [Sys.step, Sys.wrong, h.pred],
      ⟨b, ?_, fun ht => by simp [himp ht]⟩, h.frames⟩
    show s.rsp + d = tag 47 b (t.rsp + d)
    rw [hb]
    exact tag_add h.low hfits
  | store a v =>
    exact ⟨h.low, by simp [Sys.step, Sys.wrong, h.pred], ⟨b, hb, fun ht => by simp [himp ht]⟩,
      h.frames⟩
  | call p kind sym callee =>
    obtain ⟨f, hkeeps, hstep⟩ := step_call ho hsmall s p kind sym callee
    have hright : s.wrong o addr (.call p kind sym callee) = false := rfl
    rw [hstep, hright, Bool.or_false]
    have hlow := hfits.low
    by_cases hkind : kind = .tail
    · simp only [Sys.plain, pushFrame, hkind, if_true] at hlow ⊢
      exact carries_extracted hlow h.merged h.frames
    · simp only [Sys.plain, pushFrame, hkind, if_false] at hlow ⊢
      refine carries_extracted hlow ?_ (.cons hkeeps h.frames)
      show s.merged.rsp - 8 = tag 47 poisoned (t.rsp - 8)
      rw [h.merged]
      exact tag_sub h.low hlow
  | ret p =>
    obtain ⟨f, frames, g, hframes, hkeeps, hkind, hrest⟩ := h.last hfits
    rw [step_ret ho hsmall s p hframes hkeeps hkind]
    exact h.returned hfits.1 hrest
  | stray p up site sym =>
    rw [step_stray ho hsmall]
    exact h.returned hfits (List.forall₂_drop up h.frames)
  | throw p kind sym d up pad =>
    obtain ⟨hlow, hlanded⟩ := hfits
    have hright : s.wrong o addr (.throw p kind sym d up pad) = false := rfl
    rw [step_throw ho hsmall, hright, Bool.or_false]
    refine carries_extracted hlanded ?_ (List.forall₂_drop up h.frames)
    show s.merged.rsp - 8 + 8 + d = tag 47 poisoned (t.rsp - 8 + 8 + d)
    rw [h.merged, tag_sub h.low hlow, BitVec.add_assoc, BitVec.add_assoc]
    exact tag_add hlow (by rwa [← BitVec.add_assoc])

/-! ## Runs -/

variable (o) (addr)

def Sys.run (s : Sys) (es : List Event) : Sys := es.foldl (Sys.step o addr) s

def Sys.plainRun (s : Sys) (es : List Event) : Sys := es.foldl (Sys.plain addr) s

/-- The steps fit throughout. -/
def Sys.FitsAll : Sys → List Event → Prop
  | _, [] => True
  | t, e :: es => t.Fits addr e ∧ (t.plain addr e).FitsAll es

/-- Something goes wrong in a run of the hardened program. -/
def Sys.wrongIn : Sys → List Event → Bool
  | _, [] => false
  | s, e :: es => s.wrong o addr e || (s.step o addr e).wrongIn es

/-- Something goes wrong in a run of the program without hardening. -/
def Sys.plainWrongIn : Sys → List Event → Bool
  | _, [] => false
  | s, e :: es => s.wrong o addr e || (s.plain addr e).plainWrongIn es

variable {o} {addr}

theorem Carries.run (ho : Interprocedural o) (hsmall : SmallAddresses o addr)
    (h : Carries addr s t poisoned) {es : List Event} (hfits : t.FitsAll addr es) :
    Carries addr (s.run o addr es) (t.plainRun addr es) (poisoned || s.wrongIn o addr es) := by
  induction es generalizing s t poisoned with
  | nil => simpa [Sys.run, Sys.plainRun, Sys.wrongIn] using h
  | cons e es ih =>
    have hrest := ih (h.step ho hsmall hfits.1) hfits.2
    rwa [Bool.or_assoc] at hrest

/-- The start of a program: nothing has gone wrong, and no call has to return. -/
structure Sys.Clean (s : Sys) : Prop where
  low : Low 47 s.rsp
  pred : s.pred = 0
  frames : s.frames = []

theorem Sys.Clean.carries (h : s.Clean) : Carries addr s s false :=
  ⟨h.low, h.pred, ⟨false, tag_false.symm, id⟩, by simp [h.frames]⟩

theorem plain_pred (s : Sys) (e : Event) : (s.plain addr e).pred = s.pred := by
  cases e with
  | call p kind sym callee => by_cases hkind : kind = .tail <;> simp [Sys.plain, hkind, Sys.push]
  | _ => rfl

variable (addr) in
/-- The hardened program is where the program without hardening is. -/
structure InStep (s t : Sys) : Prop where
  carries : Carries addr s t false
  mem : s.mem = t.mem
  pred : t.pred = 0

theorem InStep.rsp (h : InStep addr s t) : s.rsp = t.rsp := by
  obtain ⟨b, hb, himp⟩ := h.carries.tagged
  cases b with
  | false => rw [hb, tag_false]
  | true => cases himp rfl

theorem InStep.pred_eq (h : InStep addr s t) : s.pred = t.pred := h.carries.pred.trans h.pred.symm

theorem InStep.merged (h : InStep addr s t) : s.merged.rsp = t.rsp :=
  h.carries.merged.trans tag_false

/-- What goes wrong in one of the two goes wrong in the other. -/
theorem InStep.wrong (ho : Interprocedural o) (h : InStep addr s t) (e : Event) :
    s.wrong o addr e = t.wrong o addr e := by
  cases e with
  | ret p =>
    have hframes := h.carries.frames
    rw [Sys.wrong, Sys.wrong, h.mem, h.rsp, h.pred_eq]
    cases hs : s.frames <;> cases ht : t.frames <;> simp only [hs, ht] at hframes
    · rfl
    · cases hframes
    · cases hframes
    · obtain ⟨hkeeps, -⟩ := List.forall₂_cons.mp hframes
      simp only [List.head?_cons, Option.any_some, inMemory_eq ho, hkeeps.kind, hkeeps.MF,
        hkeeps.sym]
  | stray p up site sym =>
    simp only [Sys.wrong, Sys.expected, h.mem, h.rsp, h.pred_eq]
  | _ => rfl

theorem InStep.mem_step (ho : Interprocedural o) (hsmall : SmallAddresses o addr)
    (h : InStep addr s t) {e : Event} (hfits : t.Fits addr e) :
    (s.step o addr e).mem = (t.plain addr e).mem := by
  cases e with
  | branch | adjust => exact h.mem
  | store a v => exact congrArg (Function.update · a v) h.mem
  | call p kind sym callee =>
    obtain ⟨f, -, hstep⟩ := step_call ho hsmall s p kind sym callee
    rw [hstep]
    by_cases hkind : kind = .tail
    · simpa [hkind, Sys.plain, Sys.extracted, Sys.merged] using h.mem
    · have hmerged := h.merged
      simp_all [Sys.plain, Sys.extracted, Sys.push, Sys.merged, h.mem]
  | ret p =>
    obtain ⟨f, frames, g, hs, hkeeps, hkind, -⟩ := h.carries.last hfits
    rw [step_ret ho hsmall s p hs hkeeps hkind]
    exact h.mem
  | stray p up site sym =>
    rw [step_stray ho hsmall]
    exact h.mem
  | throw p kind sym d up pad =>
    rw [step_throw ho hsmall]
    have hmerged := h.merged
    simp_all [Sys.plain, Sys.extracted, Sys.push, Sys.merged, h.mem]

/-- A step in which nothing goes wrong is the one of the program without hardening. -/
theorem InStep.step (ho : Interprocedural o) (hsmall : SmallAddresses o addr) (h : InStep addr s t)
    {e : Event} (hfits : t.Fits addr e) (hright : t.wrong o addr e = false) :
    InStep addr (s.step o addr e) (t.plain addr e) where
  carries := by
    have hstep := h.carries.step ho hsmall hfits
    rwa [h.wrong ho, hright] at hstep
  mem := h.mem_step ho hsmall hfits
  pred := (plain_pred t e).trans h.pred

theorem InStep.run (ho : Interprocedural o) (hsmall : SmallAddresses o addr) (h : InStep addr s t)
    {es : List Event} (hfits : t.FitsAll addr es) (hright : t.plainWrongIn o addr es = false) :
    InStep addr (s.run o addr es) (t.plainRun addr es) ∧ s.wrongIn o addr es = false := by
  induction es generalizing s t with
  | nil => exact ⟨h, rfl⟩
  | cons e es ih =>
    obtain ⟨he, hes⟩ := Bool.or_eq_false_iff.mp hright
    obtain ⟨hagree, hrest⟩ := ih (h.step ho hsmall hfits.1 he) hfits.2 hes
    exact ⟨hagree, Bool.or_eq_false_iff.mpr ⟨(h.wrong ho e).trans he, hrest⟩⟩

/-- As long as the branches of a program go where their conditions say, and its returns to the
addresses their calls have left, the hardened program does what the program does: the stack pointer,
the memory and the predicate state are the same throughout. -/
theorem run_architectural (ho : Interprocedural o) (hsmall : SmallAddresses o addr) (h : s.Clean)
    {es : List Event} (hfits : s.FitsAll addr es) (hright : s.plainWrongIn o addr es = false) :
    (s.run o addr es).rsp = (s.plainRun addr es).rsp ∧
      (s.run o addr es).mem = (s.plainRun addr es).mem ∧
      (s.run o addr es).pred = (s.plainRun addr es).pred ∧ s.wrongIn o addr es = false := by
  obtain ⟨hagree, hnone⟩ := InStep.run ho hsmall ⟨h.carries, rfl, h.pred⟩ hfits hright
  exact ⟨hagree.rsp, hagree.mem, hagree.pred_eq, hnone⟩

/-! ### A call -/

/-- Addresses are immediates. -/
def smallCode : CallOptions where
  smallAndFixed := true

def callAddr (sym : Nat) : BitVec 64 := if sym = 0 then 0x401000 else 0x402000

theorem callAddr_small : SmallAddresses smallCode callAddr := by
  intro _ sym
  unfold callAddr
  split <;> decide

def somewhere (MF : FrameTraits) : Place where
  MF := MF
  StateReg := .virt 1
  PoisonReg := .virt 0
  next := 2
  regs _ := 0
  state_ne := ⟨by decide, by decide, fun n hn h => by injection h; omega⟩
  poison_ne := ⟨by decide, fun n hn h => by injection h; omega⟩

def redZone : FrameTraits := ⟨true, false⟩

def noRedZone : FrameTraits := ⟨false, false⟩

def entry : Entry := ⟨0, fun _ => 0, true⟩

def stack : Sys := ⟨0x7ffff000, fun _ => 0, 0, []⟩

theorem stack_clean : stack.Clean := ⟨by unfold Low; decide, rfl, rfl⟩

/-- A function without a red zone calls one with, which stores to its frame, calls a third and
returns. -/
theorem right_return_architectural :
    let es : List Event := [.call (somewhere noRedZone) .returns 0 entry, .adjust (-16),
      .store 0x7fffefe0 1, .call (somewhere redZone) .returns 1 entry, .ret (somewhere redZone),
      .adjust 16, .ret (somewhere redZone)]
    (stack.run smallCode callAddr es).rsp = (stack.plainRun callAddr es).rsp ∧
      (stack.run smallCode callAddr es).mem = (stack.plainRun callAddr es).mem ∧
      (stack.run smallCode callAddr es).pred = (stack.plainRun callAddr es).pred ∧
      stack.wrongIn smallCode callAddr es = false :=
  run_architectural ⟨rfl, rfl⟩ callAddr_small stack_clean
    (by simp only [Sys.FitsAll, Sys.Fits, Low]; decide) (by decide)

end MSV.SLH
