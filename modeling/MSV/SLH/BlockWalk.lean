import MSV.SLH.BlockCodeProof

/-!
# The walk over a block

The state of the walk behind a prefix of a block, and what the visits of an address and a target
leave of an instruction.

A block is in SSA form: a virtual register is defined once, and read only behind its definition.
-/

namespace MSV.SLH.InBlock

/-! ## Blocks -/

/-- The registers an instruction reads. -/
def Instr.readRegs (MI : Instr) : List Reg :=
  MI.uses.map Prod.fst ++ MI.mem.elim [] fun m => m.base.toList ++ [m.index]

/-- The bits of a register that its class has. -/
def regWidth (T : VTTarget) (cls : Nat → RegClass) : Reg → Nat
  | .virt n => T.getRegSizeInBits (cls n)
  | _ => 512

section

variable {M : Type*} (C : Setting M) (cls : Nat → RegClass) (N : Nat)
  (log : List (Hardening × Nat))

/-- An instruction that may stand behind `before` in a block whose virtual registers are below `N`.
What is hardened there can be. -/
structure Instr.Ok (before : List Instr) (MI : Instr) : Prop where
  known : ∀ r ∈ MI.readRegs ++ MI.defs, Known N r
  uses : ∀ use ∈ MI.uses, use.2 ≤ regWidth C.T cls use.1
  base : ∀ m r, MI.mem = some m → m.base = some r → 64 ≤ regWidth C.T cls r ∧ r ≠ EFLAGS
  index : ∀ m, MI.mem = some m → MI.indexBits ≤ regWidth C.T cls m.index ∧ m.index ≠ EFLAGS
  flags : EFLAGS ∈ MI.uses.map Prod.fst → isEFLAGSLive C.liveIn (before.map .instr) = true
  notRead : ∀ n, .virt n ∈ MI.defs → ∀ MI' ∈ before ++ [MI], .virt n ∉ MI'.readRegs
  notDefined : ∀ n, .virt n ∈ MI.defs → ∀ MI' ∈ before, .virt n ∉ MI'.defs
  nodup : MI.defs.Nodup
  state : C.T.StateReg ∉ MI.defs
  loadAddr : (.loadAddr, MI.id) ∈ log → ∀ m, MI.mem = some m → ∀ op ∈ hardenedOperands m,
    ∃ n, op.2 = .virt n ∧ Hardenable C.T (cls n)
  indirectTarget : (.indirectTarget, MI.id) ∈ log → MI.isFar = false → MI.hasTargetReg = true →
    ∀ use uses, MI.uses = use :: uses → ∃ n, use.1 = .virt n ∧ IsGeneral C.T (cls n)
  postLoad : (.postLoad, MI.id) ∈ log → ∀ r defs, MI.defs = r :: defs →
    ∃ n, r = .virt n ∧ IsGeneral C.T (cls n)

/-- The instructions of a block. -/
def Ok (l : List Instr) : Prop :=
  ∀ before MI rest, l = before ++ MI :: rest → MI.Ok C cls N log before

variable {C cls N log}

theorem Ok.append {l l' : List Instr} (h : Ok C cls N log (l ++ l')) : Ok C cls N log l :=
  fun before MI rest heq => h before MI (rest ++ l') (by simp [heq])

theorem Ok.last {l : List Instr} {MI : Instr} (h : Ok C cls N log (l ++ [MI])) :
    MI.Ok C cls N log l := h l MI [] rfl

end

/-! ## The state behind a prefix -/

section

variable {M : Type*} (C : Setting M) (poisoned : Bool) (cls : Nat → RegClass) (N : Nat)

/-- A register that a hardened one has replaced. -/
structure Replaces (Def : Reg → Prop) (s : State) (r t : Reg) (n j : Nat) : Prop where
  old : r = .virt n
  lt : n < N
  defined : Def r
  new : t = .virt j
  ge : N ≤ j
  lt_next : j < s.nextReg
  regClass : s.regClass j = cls n
  value : poisoned = true → ∀ w ≤ C.T.getRegSizeInBits (cls n),
    (C.after s).regs.read w t = BitVec.allOnes w

/-- What holds of the walk, whatever the instructions compute. -/
structure Sound (Read Def : Reg → Prop) (s : State) : Prop where
  le : N ≤ s.nextReg
  regClass : ∀ n < N, s.regClass n = cls n
  state : (C.after s).regs.holdsState C.T.StateReg poisoned
  remembers : Remembers C poisoned N Read s
  replaces : ∀ r t, s.replaced.find r = some t →
    ∃ n j, Replaces C poisoned cls N Def s r t n j
  inj : ∀ r r' t, s.replaced.find r = some t → s.replaced.find r' = some t → r = r'

/-- The machine behind the hardened block agrees with that behind the block as it was, apart from
some registers. -/
structure Agrees (orig : Machine M) (hole : Reg → Prop) (s : State) : Prop where
  mem : (C.after s).mem = orig.mem
  events : (C.after s).events = orig.events
  regs : ∀ r, Known N r → ¬ hole r → (r = EFLAGS → C.live s = true) →
    ∀ w ≤ regWidth C.T cls r, (C.after s).regs.read w (subst s.replaced r) = orig.regs.read w r

/-- Code that stands before an instruction. -/
structure Prepares (Read : Reg → Prop) (s s' : State) : Prop where
  extend : Extends C s.nextReg (C.live s) s s'
  live : C.live s' = C.live s
  remembers : Remembers C poisoned N Read s'

variable {C poisoned cls N} {Read Read' Def Def' hole : Reg → Prop} {s s' s'' : State}

theorem Prepares.refl (h : Remembers C poisoned N Read s) : Prepares C poisoned N Read s s :=
  ⟨.refl _ _ _, rfl, h⟩

theorem Prepares.trans (h : Prepares C poisoned N Read s s')
    (h' : Prepares C poisoned N Read s' s'') : Prepares C poisoned N Read s s'' where
  extend := h.extend.trans (h'.extend.mono h.extend.le fun hl => h.live.trans hl)
  live := h'.live.trans h.live
  remembers := h'.remembers

theorem Entry.mono {k t : Reg} (h : Entry C poisoned N Read s k t) (hR : ∀ r, Read r → Read' r) :
    Entry C poisoned N Read' s k t := by
  obtain ⟨⟨i, rfl, hi, hkey⟩, hnew, hcls, hvalue⟩ := h
  exact ⟨⟨i, rfl, hi, hkey.imp_right (hR _)⟩, hnew, hcls, hvalue⟩

theorem Sound.mono (h : Sound C poisoned cls N Read Def s) (hR : ∀ r, Read r → Read' r)
    (hD : ∀ r, Def r → Def' r) : Sound C poisoned cls N Read' Def' s where
  le := h.le
  regClass := h.regClass
  state := h.state
  remembers k t hk := (h.remembers k t hk).mono hR
  replaces r t hr := by
    obtain ⟨n, j, hrep⟩ := h.replaces r t hr
    exact ⟨n, j, { hrep with defined := hD r hrep.defined }⟩
  inj := h.inj

/-- A register is replaced, or it stands as it was. -/
theorem Sound.subst_cases (h : Sound C poisoned cls N Read Def s) (r : Reg) :
    s.replaced.find r = none ∧ subst s.replaced r = r ∨
      ∃ n j, Replaces C poisoned cls N Def s r (subst s.replaced r) n j := by
  cases hfind : s.replaced.find r with
  | none => exact .inl ⟨rfl, by rw [subst, hfind]; rfl⟩
  | some t =>
    refine .inr ?_
    rw [subst, hfind]
    exact h.replaces r t hfind

theorem Sound.known (h : Sound C poisoned cls N Read Def s) {r : Reg} (hr : Known N r) :
    Known s.nextReg (subst s.replaced r) := by
  obtain ⟨-, heq⟩ | ⟨n, j, hrep⟩ := h.subst_cases r
  · rw [heq]
    exact hr.mono h.le
  · rw [hrep.new]
    exact known_virt hrep.lt_next

/-- Only virtual registers are replaced, and by virtual ones. -/
theorem Sound.subst_eq_iff (h : Sound C poisoned cls N Read Def s) {r q : Reg}
    (hq : ∀ n, q ≠ .virt n) : subst s.replaced r = q ↔ r = q := by
  obtain ⟨-, heq⟩ | ⟨n, j, hrep⟩ := h.subst_cases r
  · rw [heq]
  · rw [hrep.new, hrep.old]
    exact ⟨fun he => absurd he.symm (hq j), fun he => absurd he.symm (hq n)⟩

theorem Sound.subst_virt (h : Sound C poisoned cls N Read Def s) {n : Nat} (hn : n < N) :
    ∃ i, subst s.replaced (.virt n) = .virt i ∧ i < s.nextReg ∧ s.regClass i = cls n ∧
      (N ≤ i ∨ subst s.replaced (.virt n) = .virt n) := by
  obtain ⟨-, heq⟩ | ⟨m, j, hrep⟩ := h.subst_cases (.virt n)
  · exact ⟨n, heq, Nat.lt_of_lt_of_le hn h.le, h.regClass n hn, .inr heq⟩
  · obtain rfl := Reg.virt.inj hrep.old
    exact ⟨j, hrep.new, hrep.lt_next, hrep.regClass, .inl hrep.ge⟩

theorem Sound.subst_inj (h : Sound C poisoned cls N Read Def s) {r r' : Reg} (hr : Known N r)
    (hr' : Known N r') (heq : subst s.replaced r = subst s.replaced r') : r = r' := by
  cases hfind : s.replaced.find r with
  | none =>
    have hsub : subst s.replaced r = r := by rw [subst, hfind]; rfl
    obtain ⟨-, hsub'⟩ | ⟨n, j, hrep⟩ := h.subst_cases r'
    · rw [← hsub, heq, hsub']
    · exact absurd (hsub.symm.trans (heq.trans hrep.new)) (hr j hrep.ge)
  | some t =>
    have hsub : subst s.replaced r = t := by rw [subst, hfind]; rfl
    cases hfind' : s.replaced.find r' with
    | none =>
      have hsub' : subst s.replaced r' = r' := by rw [subst, hfind']; rfl
      obtain ⟨n, j, hrep⟩ := h.replaces r t hfind
      exact absurd (hsub'.symm.trans (heq.symm.trans (hsub.trans hrep.new))) (hr' j hrep.ge)
    | some t' =>
      have hsub' : subst s.replaced r' = t' := by rw [subst, hfind']; rfl
      obtain rfl : t = t' := hsub.symm.trans (heq.trans hsub')
      exact h.inj r r' t hfind hfind'

theorem Sound.prepare (h : Sound C poisoned cls N Read Def s)
    (hP : Prepares C poisoned N Read s s') (hState : Known N C.T.StateReg)
    (hE : C.T.StateReg ≠ EFLAGS) : Sound C poisoned cls N Read Def s' where
  le := Nat.le_trans h.le hP.extend.le
  regClass n hn := (hP.extend.regClass n (Nat.lt_of_lt_of_le hn h.le)).trans (h.regClass n hn)
  state := hP.extend.holdsState (hState.mono h.le) hE h.state
  remembers := hP.remembers
  replaces r t hr := by
    rw [hP.extend.replaced] at hr
    obtain ⟨n, j, hrep⟩ := h.replaces r t hr
    refine ⟨n, j, { hrep with
      lt_next := Nat.lt_of_lt_of_le hrep.lt_next hP.extend.le
      regClass := (hP.extend.regClass j hrep.lt_next).trans hrep.regClass
      value := fun hp w hw => ?_ }⟩
    rw [RegFile.read, hrep.new, hP.extend.virt hrep.lt_next, ← hrep.new]
    exact hrep.value hp w hw
  inj := by
    rw [hP.extend.replaced]
    exact h.inj

theorem Agrees.prepare {orig : Machine M} (h : Agrees C cls N orig hole s)
    (hS : Sound C poisoned cls N Read Def s) (hP : Prepares C poisoned N Read s s') :
    Agrees C cls N orig hole s' where
  mem := hP.extend.mem.trans h.mem
  events := hP.extend.events.trans h.events
  regs r hr hhole hflags w hw := by
    rw [hP.live] at hflags
    have hkeep : subst s.replaced r = EFLAGS → C.live s = true := fun heq =>
      hflags ((hS.subst_eq_iff fun n hn => by cases hn).mp heq)
    rw [hP.extend.replaced, RegFile.read, hP.extend.regs _ (hS.known hr) hkeep]
    exact h.regs r hr hhole hflags w hw

end

/-! ## Visits -/

section Visit

variable {M : Type*} {C : Setting M} {poisoned : Bool} {cls : Nat → RegClass} {N : Nat}
  {Read Def : Reg → Prop} {s s' : State} {MI MI' : Instr}

/-- What an address has in a place. -/
def Instr.addrReg (MI : Instr) (op : AddrOperand) : Option Reg := MI.mem.bind fun m => getReg m op

/-- The first operand is read from a register that is remembered. -/
def TargetFrom (C : Setting M) (poisoned : Bool) (N : Nat) (Read : Reg → Prop) (s : State)
    (uses uses' : List (Reg × Nat)) : Prop :=
  ∃ k t bits rest, uses = (k, bits) :: rest ∧ uses' = (t, bits) :: rest ∧
    Entry C poisoned N Read s k t

/-- A place of the address is read from a register that is remembered. -/
def AddrFrom (C : Setting M) (poisoned : Bool) (N : Nat) (Read : Reg → Prop) (s : State)
    (MI MI' : Instr) (op : AddrOperand) : Prop :=
  ∃ k t, MI.addrReg op = some k ∧ MI'.addrReg op = some t ∧ Entry C poisoned N Read s k t

theorem hardenLoadAddr_visit (hT : C.T.Sized) (hState : Known N C.T.StateReg)
    (hE : C.T.StateReg ≠ EFLAGS) (hN : N ≤ s.nextReg)
    (hp : (C.after s).regs.holdsState C.T.StateReg poisoned)
    (hrem : Remembers C poisoned N Read s) {m : MemRef} (hm : MI.mem = some m)
    (hops : ∀ op ∈ hardenedOperands m, AddrReg C N Read s op.2) :
    ∃ s' m', visitAddr C.T C.liveIn true MI s = ({ MI with mem := some m' }, s') ∧
      Prepares C poisoned N Read s s' ∧
      (∀ op, { MI with mem := some m' }.addrReg op = MI.addrReg op ∨
        AddrFrom C poisoned N Read s' MI { MI with mem := some m' } op) ∧
      ∀ op ∈ hardenedOperands m,
        AddrFrom C poisoned N Read s' MI { MI with mem := some m' } op.1 := by
  obtain ⟨hload, hkeep⟩ := hardenLoadAddr_hardens hT hState hE hN hops hp
  have heq : visitAddr C.T C.liveIn true MI s =
      ({ MI with mem := some (hardenLoadAddr C.T C.liveIn m s).1 },
        (hardenLoadAddr C.T C.liveIn m s).2) := by
    simp only [visitAddr, hm]
    rfl
  have hfrom : ∀ op ∈ hardenedOperands m, AddrFrom C poisoned N Read
      (hardenLoadAddr C.T C.liveIn m s).2 MI
      { MI with mem := some (hardenLoadAddr C.T C.liveIn m s).1 } op.1 := by
    intro op hop
    obtain ⟨t, hfind, ht⟩ := hload.hardened op hop
    refine ⟨op.2, t, ?_, ht, hkeep hrem _ _ hfind⟩
    rw [Instr.addrReg, hm]
    exact getReg_of_mem hop
  refine ⟨_, _, heq, ⟨hload.extend, hload.live, hkeep hrem⟩, fun o => ?_, hfrom⟩
  by_cases ho : o ∈ (hardenedOperands m).map Prod.fst
  · obtain ⟨op, hop, rfl⟩ := List.mem_map.mp ho
    exact .inr (hfrom op hop)
  · refine .inl ?_
    rw [Instr.addrReg, Instr.addrReg, hm]
    exact hload.others o ho

/-- A remembered register. -/
theorem hardensValue_entry {i : Nat} {t : Reg} (h : HardensValue C (.virt i) s s' t)
    (hi : i < s.nextReg) (hN : N ≤ s.nextReg) (hkey : N ≤ i ∨ Read (.virt i))
    (hp : (C.after s).regs.holdsState C.T.StateReg poisoned) :
    Entry C poisoned N Read s' (.virt i) t := by
  obtain ⟨n, rfl, hn, hn'⟩ := h.new
  exact {
    key := ⟨i, rfl, Nat.lt_of_lt_of_le hi h.extend.le, hkey⟩
    hardened := ⟨n, rfl, hn', Nat.le_trans hN hn⟩
    regClass := by rw [h.regClass, h.extend.getRegClass hi]
    value := by
      intro w hw
      rw [h.extend.getRegClass hi] at hw
      rw [h.value poisoned hp w hw, RegFile.read, h.extend.virt hi]
      exact merged_hide _ _ _ }

theorem Entry.remember {k t k' t' : Reg} (h : Entry C poisoned N Read s k t) :
    Entry C poisoned N Read (remember k' t' s).2 k t :=
  ⟨h.key, h.hardened, h.regClass, h.value⟩

theorem Remembers.remember {k t : Reg} (h : Remembers C poisoned N Read s)
    (hk : Entry C poisoned N Read s k t) : Remembers C poisoned N Read (remember k t s).2 := by
  intro k' t' hfind
  have hfind : (s.AddrRegToHardenedReg.set k t).find k' = some t' := hfind
  rw [FMap.find_set] at hfind
  by_cases heq : k' = k
  · rw [if_pos heq] at hfind
    obtain rfl := Option.some.inj hfind
    rw [heq]
    exact hk.remember
  · rw [if_neg heq] at hfind
    exact (h k' t' hfind).remember

/-- `hardenIndirectCallOrJumpInstr` for a target in a register. -/
theorem hardenIndirect_eq (T : VTTarget) (liveIn : Bool) (s : State) (hfar : MI.isFar = false)
    (hreg : MI.hasTargetReg = true) {r : Reg} {bits : Nat} {uses : List (Reg × Nat)}
    (huses : MI.uses = (r, bits) :: uses) :
    hardenIndirectCallOrJumpInstr T liveIn MI s =
      match s.AddrRegToHardenedReg.find r with
      | some t => ({ MI with uses := (t, bits) :: uses }, s)
      | none =>
          let h := hardenValueInRegister T liveIn r s
          ({ MI with uses := (h.1, bits) :: uses }, (remember r h.1 h.2).2) := by
  rw [hardenIndirectCallOrJumpInstr, if_neg (by simp [hfar]), if_neg (by simp [hreg]), huses]
  simp only [bind, StateT.bind, get, getThe, MonadStateOf.get, StateT.get, pure]
  cases s.AddrRegToHardenedReg.find r <;> rfl

theorem hardenIndirect_visit (hState : Known N C.T.StateReg) (hE : C.T.StateReg ≠ EFLAGS)
    (hN : N ≤ s.nextReg) (hp : (C.after s).regs.holdsState C.T.StateReg poisoned)
    (hrem : Remembers C poisoned N Read s) (hfar : MI.isFar = false)
    (hreg : MI.hasTargetReg = true) {i bits : Nat} {uses : List (Reg × Nat)}
    (huses : MI.uses = (.virt i, bits) :: uses) (hi : i < s.nextReg)
    (hkey : N ≤ i ∨ Read (.virt i)) (hgeneral : IsGeneral C.T (s.getRegClass (.virt i))) :
    ∃ s' uses', hardenIndirectCallOrJumpInstr C.T C.liveIn MI s = ({ MI with uses := uses' }, s') ∧
      Prepares C poisoned N Read s s' ∧ TargetFrom C poisoned N Read s' MI.uses uses' := by
  rw [hardenIndirect_eq C.T C.liveIn s hfar hreg huses]
  cases hfind : s.AddrRegToHardenedReg.find (.virt i) with
  | some t => exact ⟨_, _, rfl, .refl hrem, _, _, _, _, huses, rfl, hrem _ _ hfind⟩
  | none =>
    have hvalue := hardenValueInRegister_hardens hi hgeneral (hState.mono hN) hE
    have hentry := hardensValue_entry hvalue hi hN hkey hp
    refine ⟨_, _, rfl, ⟨?_, hvalue.live, ?_⟩, _, _, _, _, huses, rfl, hentry.remember⟩
    · obtain ⟨hle, hcls, hrep, hmem, hev, hregs⟩ := hvalue.extend
      exact ⟨hle, hcls, hrep, hmem, hev, hregs⟩
    · exact (hrem.extend hvalue.extend hvalue.remembered).remember hentry

theorem lt_of_known {n : Nat} (h : Known N (.virt n)) : n < N := by
  by_contra hle
  exact h n (Nat.le_of_not_lt hle) rfl

theorem Sound.baseOperands_subst (h : Sound C poisoned cls N Read Def s) {base : Option Reg}
    (hbase : ∀ r, base = some r → Known N r) : baseOperands (base.map (subst s.replaced)) =
      (baseOperands base).map fun op => (op.1, subst s.replaced op.2) := by
  cases base with
  | none => rfl
  | some r =>
    by_cases hvirt : ∃ n, r = .virt n
    · obtain ⟨n, rfl⟩ := hvirt
      obtain ⟨i, hi, -⟩ := h.subst_virt (lt_of_known (hbase _ rfl))
      simp only [Option.map_some, hi, baseOperands, List.map_cons, List.map_nil]
    · have hr : subst s.replaced r = r :=
        (h.subst_eq_iff fun n hn => hvirt ⟨n, hn⟩).mpr rfl
      rw [Option.map_some, hr]
      refine ((List.map_congr_left fun op hop => ?_).trans (List.map_id _)).symm
      obtain ⟨o, q⟩ := op
      obtain rfl : r = q := Option.some.inj (mem_baseOperands hop).2
      exact congrArg (Prod.mk o) hr

/-- The places of an address that are hardened are the same with replaced registers. -/
theorem Sound.hardenedOperands_subst (h : Sound C poisoned cls N Read Def s) {m : MemRef}
    (hbase : ∀ r, m.base = some r → Known N r) (hindex : Known N m.index) :
    hardenedOperands (substMem s.replaced m) =
      (hardenedOperands m).map fun op => (op.1, subst s.replaced op.2) := by
  have hNo : subst s.replaced m.index ≠ .NoRegister ↔ m.index ≠ .NoRegister :=
    not_congr (h.subst_eq_iff fun n hn => by cases hn)
  have hne : (∀ op ∈ (baseOperands m.base).map fun op => (op.1, subst s.replaced op.2),
      op.2 ≠ subst s.replaced m.index) ↔ ∀ op ∈ baseOperands m.base, op.2 ≠ m.index := by
    refine List.forall_mem_map.trans (forall₂_congr fun op hop => not_congr ⟨fun heq => ?_,
      fun heq => congrArg (subst s.replaced) heq⟩)
    exact h.subst_inj (hbase _ (mem_baseOperands hop).2) hindex heq
  simp only [hardenedOperands, substMem, h.baseOperands_subst hbase, hNo, hne]
  split_ifs
  · rw [List.map_append, List.map_singleton]
  · rfl

/-- What the visits of an address and a target leave of an instruction. -/
structure Visited (C : Setting M) (poisoned : Bool) (N : Nat) (Read : Reg → Prop)
    (log : List (Hardening × Nat)) (s s' : State) (MI MI' : Instr) : Prop where
  prepares : Prepares C poisoned N Read s s'
  same : MI' = { MI with uses := MI'.uses, mem := MI'.mem }
  uses : MI'.uses = MI.uses ∨ TargetFrom C poisoned N Read s' MI.uses MI'.uses
  addr : ∀ op, MI'.addrReg op = MI.addrReg op ∨ AddrFrom C poisoned N Read s' MI MI' op
  loadAddr : (.loadAddr, MI.id) ∈ log → ∀ m, MI.mem = some m → ∀ op ∈ hardenedOperands m,
    AddrFrom C poisoned N Read s' MI MI' op.1
  target : (.indirectTarget, MI.id) ∈ log → MI.isFar = false → MI.hasTargetReg = true →
    MI.uses ≠ [] → TargetFrom C poisoned N Read s' MI.uses MI'.uses

/-- The visit of an address. -/
structure VisitedAddr (C : Setting M) (poisoned : Bool) (N : Nat) (Read : Reg → Prop)
    (hardened : Bool) (s s' : State) (MI MI' : Instr) : Prop where
  prepares : Prepares C poisoned N Read s s'
  same : MI' = { MI with mem := MI'.mem }
  addr : ∀ op, MI'.addrReg op = MI.addrReg op ∨ AddrFrom C poisoned N Read s' MI MI' op
  loadAddr : hardened = true → ∀ m, MI.mem = some m → ∀ op ∈ hardenedOperands m,
    AddrFrom C poisoned N Read s' MI MI' op.1

theorem visitAddr_visited (hT : C.T.Sized) (hState : Known N C.T.StateReg)
    (hE : C.T.StateReg ≠ EFLAGS) (hN : N ≤ s.nextReg)
    (hp : (C.after s).regs.holdsState C.T.StateReg poisoned)
    (hrem : Remembers C poisoned N Read s) (hardened : Bool)
    (hops : hardened = true → ∀ m, MI.mem = some m → ∀ op ∈ hardenedOperands m,
      AddrReg C N Read s op.2) :
    VisitedAddr C poisoned N Read hardened s (visitAddr C.T C.liveIn hardened MI s).2 MI
      (visitAddr C.T C.liveIn hardened MI s).1 := by
  cases hardened with
  | false =>
    exact ⟨.refl hrem, rfl, fun _ => .inl rfl, fun h => absurd h Bool.false_ne_true⟩
  | true =>
    cases hm : MI.mem with
    | none =>
      have heq : visitAddr C.T C.liveIn true MI s = (MI, s) := by
        simp only [visitAddr, hm]
        rfl
      rw [heq]
      exact ⟨.refl hrem, rfl, fun _ => .inl rfl, fun _ m h => by rw [hm] at h; cases h⟩
    | some m =>
      obtain ⟨s', m', heq, hP, haddr, hload⟩ := hardenLoadAddr_visit hT hState hE hN hp hrem hm
        (hops rfl m hm)
      rw [heq]
      refine ⟨hP, rfl, haddr, fun _ m₁ hm₁ => ?_⟩
      obtain rfl := Option.some.inj (hm.symm.trans hm₁)
      exact hload

theorem AddrFrom.extend {MI₁ : Instr} {op : AddrOperand}
    (h : AddrFrom C poisoned N Read s MI MI' op) (hP : Prepares C poisoned N Read s s')
    (hmem : MI₁.mem = MI'.mem) : AddrFrom C poisoned N Read s' MI MI₁ op := by
  obtain ⟨k, t, hk, ht, hentry⟩ := h
  refine ⟨k, t, hk, ?_, hentry.extend hP.extend⟩
  rw [Instr.addrReg, hmem]
  exact ht

theorem hardenIndirect_none (T : VTTarget) (liveIn : Bool) (s : State)
    (h : ¬ (MI.isFar = false ∧ MI.hasTargetReg = true ∧ MI.uses ≠ [])) :
    hardenIndirectCallOrJumpInstr T liveIn MI s = (MI, s) := by
  rw [hardenIndirectCallOrJumpInstr]
  cases hfar : MI.isFar with
  | true => rfl
  | false =>
    cases hreg : MI.hasTargetReg with
    | false => rfl
    | true =>
      cases huses : MI.uses with
      | nil => rfl
      | cons use uses => exact absurd ⟨hfar, hreg, by rw [huses]; exact List.cons_ne_nil _ _⟩ h

/-- The visit of a target. -/
structure VisitedTarget (C : Setting M) (poisoned : Bool) (N : Nat) (Read : Reg → Prop)
    (hardened : Bool) (s s' : State) (MI MI' : Instr) : Prop where
  prepares : Prepares C poisoned N Read s s'
  same : MI' = { MI with uses := MI'.uses }
  uses : MI'.uses = MI.uses ∨ TargetFrom C poisoned N Read s' MI.uses MI'.uses
  target : hardened = true → MI.isFar = false → MI.hasTargetReg = true → MI.uses ≠ [] →
    TargetFrom C poisoned N Read s' MI.uses MI'.uses

theorem visitTarget_visited (hState : Known N C.T.StateReg) (hE : C.T.StateReg ≠ EFLAGS)
    (hN : N ≤ s.nextReg) (hp : (C.after s).regs.holdsState C.T.StateReg poisoned)
    (hrem : Remembers C poisoned N Read s) (hardened : Bool)
    (htarget : hardened = true → MI.isFar = false → MI.hasTargetReg = true →
      ∀ use uses, MI.uses = use :: uses → ∃ i, use.1 = .virt i ∧ i < s.nextReg ∧
        (N ≤ i ∨ Read (.virt i)) ∧ IsGeneral C.T (s.getRegClass (.virt i))) :
    VisitedTarget C poisoned N Read hardened s (visitTarget C.T C.liveIn hardened MI s).2 MI
      (visitTarget C.T C.liveIn hardened MI s).1 := by
  have hstay (heq : visitTarget C.T C.liveIn hardened MI s = (MI, s))
      (hnot : ¬ (hardened = true ∧ MI.isFar = false ∧ MI.hasTargetReg = true ∧ MI.uses ≠ [])) :
      VisitedTarget C poisoned N Read hardened s (visitTarget C.T C.liveIn hardened MI s).2 MI
        (visitTarget C.T C.liveIn hardened MI s).1 := by
    rw [heq]
    exact ⟨.refl hrem, rfl, .inl rfl, fun h hfar hreg hne => absurd ⟨h, hfar, hreg, hne⟩ hnot⟩
  cases hardened with
  | false => exact hstay rfl fun h => Bool.false_ne_true h.1
  | true =>
    by_cases h : MI.isFar = false ∧ MI.hasTargetReg = true ∧ MI.uses ≠ []
    · obtain ⟨hfar, hreg, hne⟩ := h
      obtain ⟨⟨r, bits⟩, uses, huses⟩ := List.exists_cons_of_ne_nil hne
      obtain ⟨i, hi, hlt, hkey, hclass⟩ := htarget rfl hfar hreg _ _ huses
      obtain rfl : r = .virt i := hi
      obtain ⟨s', uses', heq, hP, hfrom⟩ := hardenIndirect_visit hState hE hN hp hrem hfar hreg
        huses hlt hkey hclass
      have heq : visitTarget C.T C.liveIn true MI s = ({ MI with uses := uses' }, s') := heq
      rw [heq]
      exact ⟨hP, rfl, .inr hfrom, fun _ _ _ _ => hfrom⟩
    · exact hstay (hardenIndirect_none C.T C.liveIn s h) fun h' => h h'.2

theorem mem_readRegs_of_use {use : Reg × Nat} (h : use ∈ MI.uses) : use.1 ∈ MI.readRegs :=
  List.mem_append_left _ (List.mem_map.mpr ⟨_, h, rfl⟩)

theorem mem_readRegs_of_addr {m : MemRef} (hm : MI.mem = some m) (op : AddrOperand) {r : Reg}
    (h : getReg m op = some r) : r ∈ MI.readRegs := by
  refine List.mem_append_right _ ?_
  rw [hm]
  cases op with
  | BaseMO => exact List.mem_append_left _ (Option.mem_toList.mpr h)
  | IndexMO => exact List.mem_append_right _ (List.mem_singleton.mpr (Option.some.inj h).symm)

section

variable {before : List Instr} {log : List (Hardening × Nat)}

theorem Instr.Ok.known_read (h : MI.Ok C cls N log before) {r : Reg} (hr : r ∈ MI.readRegs) :
    Known N r := h.known r (List.mem_append_left _ hr)

/-- A virtual register of the block, as the walk finds it. -/
theorem Sound.operand (hS : Sound C poisoned cls N Read Def s) {n : Nat} (hn : Known N (.virt n))
    (hRead : Read (.virt n)) : ∃ i, subst s.replaced (.virt n) = .virt i ∧ i < s.nextReg ∧
      s.regClass i = cls n ∧ (N ≤ i ∨ Read (.virt i)) := by
  obtain ⟨i, hi, hlt, hcls, hge⟩ := hS.subst_virt (lt_of_known hn)
  refine ⟨i, hi, hlt, hcls, hge.imp_right fun heq => ?_⟩
  rw [← hi, heq]
  exact hRead

theorem visitAddr_subst (hT : C.T.Sized) (hState : Known N C.T.StateReg)
    (hE : C.T.StateReg ≠ EFLAGS) (hS : Sound C poisoned cls N Read Def s)
    (hOk : MI.Ok C cls N log before) (hRead : ∀ r ∈ MI.readRegs, Read r) (hardened : Bool)
    (hlog : hardened = true → (.loadAddr, MI.id) ∈ log) :
    VisitedAddr C poisoned N Read hardened s
      (visitAddr C.T C.liveIn hardened (MI.subst s.replaced) s).2 (MI.subst s.replaced)
      (visitAddr C.T C.liveIn hardened (MI.subst s.replaced) s).1 := by
  refine visitAddr_visited hT hState hE hS.le hS.state hS.remembers _ fun h m hm op hop => ?_
  obtain ⟨m₀, hm₀, rfl⟩ := Option.map_eq_some_iff.mp hm
  have hknown (o : AddrOperand) {r : Reg} (hr : getReg m₀ o = some r) : Known N r :=
    hOk.known_read (mem_readRegs_of_addr hm₀ _ hr)
  rw [hS.hardenedOperands_subst (fun r hr => hknown .BaseMO hr)
    (hknown .IndexMO rfl)] at hop
  obtain ⟨op₀, hop₀, rfl⟩ := List.mem_map.mp hop
  obtain ⟨n, hn, hclass⟩ := hOk.loadAddr (hlog h) m₀ hm₀ op₀ hop₀
  have hr := getReg_of_mem hop₀
  rw [hn] at hr
  obtain ⟨i, hi, hlt, hcls, hkey⟩ :=
    hS.operand (hknown _ hr) (hRead _ (mem_readRegs_of_addr hm₀ _ hr))
  rw [hn, hi]
  refine ⟨⟨i, rfl, hlt⟩, fun i' hi' => (Reg.virt.inj hi') ▸ hkey, ?_⟩
  show Hardenable C.T (s.regClass i)
  rw [hcls]
  exact hclass

theorem visit_visited (hT : C.T.Sized) (hState : Known N C.T.StateReg)
    (hE : C.T.StateReg ≠ EFLAGS) (hS : Sound C poisoned cls N Read Def s)
    (hOk : MI.Ok C cls N log before) (hRead : ∀ r ∈ MI.readRegs, Read r) :
    Visited C poisoned N Read log s (visit C.T C.liveIn log (MI.subst s.replaced) s).2
      (MI.subst s.replaced) (visit C.T C.liveIn log (MI.subst s.replaced) s).1 := by
  have haddr := visitAddr_subst hT hState hE hS hOk hRead
    (decide ((Hardening.loadAddr, MI.id) ∈ log)) of_decide_eq_true
  set MI₁ := (visitAddr C.T C.liveIn (decide ((Hardening.loadAddr, MI.id) ∈ log))
    (MI.subst s.replaced) s).1 with hMI₁
  set s₁ := (visitAddr C.T C.liveIn (decide ((Hardening.loadAddr, MI.id) ∈ log))
    (MI.subst s.replaced) s).2 with hs₁
  have hS₁ := hS.prepare haddr.prepares hState hE
  have hid : MI₁.id = MI.id := by rw [haddr.same]; rfl
  have huses : MI₁.uses = (MI.subst s.replaced).uses := by rw [haddr.same]
  have htarget : VisitedTarget C poisoned N Read
      (decide ((Hardening.indirectTarget, MI₁.id) ∈ log)) s₁ _ MI₁ _ :=
    visitTarget_visited hState hE hS₁.le hS₁.state hS₁.remembers _ (by
      intro hlog hfar hreg use uses heq
      rw [haddr.same] at hfar hreg
      rw [huses] at heq
      obtain ⟨use₀, uses₀, huses₀, rfl, rfl⟩ := List.map_eq_cons_iff.mp heq
      obtain ⟨n, hn, hclass⟩ :=
        hOk.indirectTarget (hid ▸ of_decide_eq_true hlog) hfar hreg _ _ huses₀
      have hr : .virt n ∈ MI.readRegs := by
        rw [← hn]
        exact mem_readRegs_of_use (by rw [huses₀]; exact List.mem_cons_self)
      obtain ⟨i, hi, hlt, hcls, hkey⟩ := hS.operand (hOk.known_read hr) (hRead _ hr)
      refine ⟨i, (congrArg (subst s.replaced) hn).trans hi,
        Nat.lt_of_lt_of_le hlt haddr.prepares.extend.le, hkey, ?_⟩
      rw [haddr.prepares.extend.getRegClass hlt]
      show IsGeneral C.T (s.regClass i)
      rw [hcls]
      exact hclass)
  show Visited C poisoned N Read log s
    (visitTarget C.T C.liveIn (decide ((Hardening.indirectTarget, MI₁.id) ∈ log)) MI₁ s₁).2 _
    (visitTarget C.T C.liveIn (decide ((Hardening.indirectTarget, MI₁.id) ∈ log)) MI₁ s₁).1
  generalize visitTarget C.T C.liveIn (decide ((Hardening.indirectTarget, MI₁.id) ∈ log)) MI₁ s₁ = b
    at htarget
  obtain ⟨MI₂, s₂⟩ := b
  obtain ⟨hP, hsame, huses', htarget'⟩ := htarget
  dsimp only at hP hsame huses' htarget' ⊢
  have hmem : MI₂.mem = MI₁.mem := by rw [hsame]
  exact {
    prepares := haddr.prepares.trans hP
    same := by
      have hMI₁ := haddr.same
      rw [hMI₁] at hsame
      rw [hsame]
    uses := by
      rw [← huses]
      exact huses'
    addr := fun op => by
      obtain heq | hfrom := haddr.addr op
      · refine .inl (Eq.trans ?_ heq)
        exact congrArg (fun m : Option MemRef => m.bind fun m => getReg m op) hmem
      · exact .inr (hfrom.extend hP hmem)
    loadAddr := fun hlog m hm op hop =>
      (haddr.loadAddr (decide_eq_true hlog) m hm op hop).extend hP hmem
    target := fun hlog hfar hreg hne => by
      rw [← huses]
      refine htarget' (decide_eq_true (by rw [hid]; exact hlog)) ?_ ?_ (by rw [huses]; exact hne)
      · rw [haddr.same]
        exact hfar
      · rw [haddr.same]
        exact hreg }

end

end Visit

end MSV.SLH.InBlock
