import MSV.SLH.BlockWalk

/-!
# Runs of a hardened block

An invariant relates the machine behind a prefix of the hardened block to that behind the prefix as
it was. Each step of the walk keeps it, and with it the two results: with a zero state the hardened
block does what the block did, and with a poisoned state what is hardened is hidden.
-/

namespace MSV.SLH.InBlock

/-! ## What an instruction reads -/

/-- A place of an address, among what an instruction reads. -/
def Event.place (e : Event) : AddrOperand → Option Nat
  | .BaseMO => e.base
  | .IndexMO => e.index

def Instr.addrBits (MI : Instr) : AddrOperand → Nat
  | .BaseMO => 64
  | .IndexMO => MI.indexBits

/-- A value that says nothing about what it was: all ones, or what a shift by 63 leaves. -/
def Hidden (T : VTTarget) (bits v : Nat) : Prop :=
  v = 2 ^ bits - 1 ∨ T.hasBMI2 = true ∧ v ≤ 1

section Reads

variable {M : Type*} {C : Setting M} {poisoned : Bool} {cls : Nat → RegClass} {N : Nat}
  {Read Def hole : Reg → Prop} {s s' : State} {MI MI' : Instr} {log : List (Hardening × Nat)}
  {before : List Instr} {orig : Machine M} {ρ ρ' : RegFile}

theorem place_event (MI : Instr) (ρ : RegFile) (op : AddrOperand) :
    (MI.event ρ).place op = (MI.addrReg op).bind (addrValue ρ (MI.addrBits op)) := by
  cases op <;> cases h : MI.mem <;>
    simp only [Event.place, Instr.event, Instr.addrReg, Instr.addrBits, h, getReg, Option.bind_none,
      Option.bind_some]

theorem addrReg_subst (replaced : FMap Reg Reg) (MI : Instr) (op : AddrOperand) :
    (MI.subst replaced).addrReg op = (MI.addrReg op).map (subst replaced) := by
  cases op <;> cases h : MI.mem <;>
    simp only [Instr.addrReg, Instr.subst, h, Option.map_none, Option.map_some, Option.bind_none,
      Option.bind_some, getReg, substMem]

theorem Instr.Ok.addr (h : MI.Ok C cls N log before) {op : AddrOperand} {r : Reg}
    (hr : MI.addrReg op = some r) :
    Known N r ∧ MI.addrBits op ≤ regWidth C.T cls r ∧ r ≠ EFLAGS ∧ r ∈ MI.readRegs := by
  obtain ⟨m, hm, hget⟩ := Option.bind_eq_some_iff.mp hr
  have hmem := mem_readRegs_of_addr hm _ hget
  refine ⟨h.known_read hmem, ?_, ?_, hmem⟩
  · cases op with
    | BaseMO => exact (h.base m r hm hget).1
    | IndexMO =>
      obtain rfl := Option.some.inj hget
      exact (h.index m hm).1
  · cases op with
    | BaseMO => exact (h.base m r hm hget).2
    | IndexMO =>
      obtain rfl := Option.some.inj hget
      exact (h.index m hm).2

/-- The bits of a register are those of the one that stands where it did. -/
theorem Sound.width (h : Sound C poisoned cls N Read Def s) {r : Reg} (hr : Known N r) {i : Nat}
    (hi : subst s.replaced r = .virt i) :
    regWidth C.T cls r = C.T.getRegSizeInBits (s.getRegClass (.virt i)) := by
  obtain ⟨-, heq⟩ | ⟨n, j, hrep⟩ := h.subst_cases r
  · obtain rfl : r = .virt i := heq.symm.trans hi
    show _ = C.T.getRegSizeInBits (s.regClass i)
    rw [h.regClass i (lt_of_known hr)]
    rfl
  · obtain rfl : j = i := Reg.virt.inj (hrep.new.symm.trans hi)
    rw [hrep.old]
    show C.T.getRegSizeInBits (cls n) = C.T.getRegSizeInBits (s.regClass j)
    rw [hrep.regClass]

/-- A remembered register that an operand is read from. -/
theorem Entry.merged {r k t : Reg} (hentry : Entry C poisoned N Read s k t)
    (hS : Sound C poisoned cls N Read Def s) (hr : Known N r) (hk : subst s.replaced r = k)
    {bits : Nat} (hbits : bits ≤ regWidth C.T cls r) :
    Merged C.T poisoned ((C.after s).regs.read bits k) ((C.after s).regs.read bits t) := by
  obtain ⟨i, rfl, -⟩ := hentry.key
  rw [hS.width hr hk] at hbits
  exact hentry.value bits hbits

theorem hidden_of_merged {T : VTTarget} {bits : Nat} {v t : BitVec bits} (h : Merged T true v t) :
    Hidden T bits t.toNat := by
  obtain h | h : t = BitVec.allOnes bits ∨ T.hasBMI2 = true ∧ t.toNat ≤ 1 := h
  · rw [h, BitVec.toNat_allOnes]
    exact .inl rfl
  · exact .inr h

theorem addrValue_virt (ρ : RegFile) (bits i : Nat) :
    addrValue ρ bits (.virt i) = some (ρ.read bits (.virt i)).toNat := rfl

/-- A register of an address, and the one that stands where it did. -/
theorem Sound.addrValue_subst (h : Sound C poisoned cls N Read Def s) (r : Reg) {bits : Nat}
    (hread : ρ'.read bits (subst s.replaced r) = ρ.read bits r) :
    addrValue ρ' bits (subst s.replaced r) = addrValue ρ bits r := by
  obtain ⟨-, heq⟩ | ⟨n, j, hrep⟩ := h.subst_cases r
  · rw [heq] at hread ⊢
    unfold addrValue
    split
    · rfl
    · rfl
    · rw [hread]
  · rw [hrep.new] at hread ⊢
    rw [hrep.old] at hread ⊢
    rw [addrValue_virt, addrValue_virt, hread]

/-- The hardened instruction reads the same in a run with a zero state. -/
theorem event_eq (hV : Visited C false N Read log s s' (MI.subst s.replaced) MI')
    (hS : Sound C false cls N Read Def s') (hA : Agrees C cls N orig hole s')
    (hOk : MI.Ok C cls N log before) (hhole : ∀ r ∈ MI.readRegs, ¬ hole r)
    (hlive : isEFLAGSLive C.liveIn (before.map .instr) = C.live s') :
    MI'.event (C.after s').regs = MI.event orig.regs := by
  have hrep := hV.prepares.extend.replaced
  rw [← hrep] at hV
  have hid : MI'.id = MI.id := by rw [hV.same]; rfl
  have hbits : MI'.indexBits = MI.indexBits := by rw [hV.same]; rfl
  have hreads : MI'.uses.map (fun use => ((C.after s').regs.read use.2 use.1).toNat) =
      MI.uses.map fun use => (orig.regs.read use.2 use.1).toNat := by
    have hsubst : (MI.subst s'.replaced).uses.map
          (fun use => ((C.after s').regs.read use.2 use.1).toNat) =
        MI.uses.map fun use => (orig.regs.read use.2 use.1).toNat := by
      refine (List.map_map ..).trans (List.map_congr_left fun use huse => ?_)
      refine congrArg BitVec.toNat (hA.regs use.1 (hOk.known_read (mem_readRegs_of_use huse))
        (hhole _ (mem_readRegs_of_use huse)) (fun hE => ?_) _ (hOk.uses use huse))
      rw [← hlive]
      exact hOk.flags (List.mem_map.mpr ⟨use, huse, hE⟩)
    obtain heq | ⟨k, t, bits, rest, huses, huses', hentry⟩ := hV.uses
    · rw [heq, hsubst]
    · rw [← hsubst, huses, huses', List.map_cons, List.map_cons]
      obtain ⟨use, uses, hMI, hk, -⟩ := List.map_eq_cons_iff.mp huses
      have huse : use ∈ MI.uses := by rw [hMI]; exact List.mem_cons_self
      obtain ⟨hkr, rfl⟩ := Prod.mk.inj hk
      have hmerged := hentry.merged hS (hOk.known_read (mem_readRegs_of_use huse)) hkr
        (hOk.uses use huse)
      have hmerged : (C.after s').regs.read use.2 t = (C.after s').regs.read use.2 k := hmerged
      rw [hmerged]
  have hplace (op : AddrOperand) :
      (MI'.event (C.after s').regs).place op = (MI.event orig.regs).place op := by
    have hop : MI'.addrBits op = MI.addrBits op := by
      cases op with
      | BaseMO => rfl
      | IndexMO => exact hbits
    have hsubst : ((MI.subst s'.replaced).addrReg op).bind
          (addrValue (C.after s').regs (MI.addrBits op)) =
        (MI.addrReg op).bind (addrValue orig.regs (MI.addrBits op)) := by
      rw [addrReg_subst]
      cases hr : MI.addrReg op with
      | none => rfl
      | some r =>
        obtain ⟨hknown, hwidth, hE, hmem⟩ := hOk.addr hr
        exact hS.addrValue_subst r (hA.regs r hknown (hhole r hmem) (fun h => absurd h hE) _ hwidth)
    rw [place_event, place_event, hop, ← hsubst]
    obtain heq | ⟨k, t, hk, ht, hentry⟩ := hV.addr op
    · rw [heq]
    · rw [hk, ht, Option.bind_some, Option.bind_some]
      rw [addrReg_subst] at hk
      obtain ⟨r, hr, hkr⟩ := Option.map_eq_some_iff.mp hk
      obtain ⟨hknown, hwidth, -, -⟩ := hOk.addr hr
      have hmerged := hentry.merged hS hknown hkr hwidth
      have hmerged : (C.after s').regs.read (MI.addrBits op) t =
        (C.after s').regs.read (MI.addrBits op) k := hmerged
      obtain ⟨i, rfl, -⟩ := hentry.key
      obtain ⟨j, rfl, -⟩ := hentry.hardened
      rw [addrValue_virt, addrValue_virt, hmerged]
  exact Event.ext hid hreads (hplace .BaseMO) (hplace .IndexMO)

/-- What is hardened of an instruction is hidden when it executes. `PostLoaded` are the registers
whose results are hardened. -/
structure EventHidden (T : VTTarget) (log : List (Hardening × Nat)) (PostLoaded : Reg → Prop)
    (MI : Instr) (e : Event) : Prop where
  id : e.id = MI.id
  loadAddr : (.loadAddr, MI.id) ∈ log → ∀ m, MI.mem = some m → ∀ op ∈ hardenedOperands m,
    ∃ v, e.place op.1 = some v ∧ Hidden T (MI.addrBits op.1) v
  target : (.indirectTarget, MI.id) ∈ log → MI.isFar = false → MI.hasTargetReg = true →
    ∀ use uses, MI.uses = use :: uses → ∃ v, e.reads.head? = some v ∧ Hidden T use.2 v
  uses : ∀ (i : Nat) (use : Reg × Nat), MI.uses[i]? = some use → PostLoaded use.1 →
    ∃ v, e.reads[i]? = some v ∧ Hidden T use.2 v
  addr : ∀ op r, MI.addrReg op = some r → PostLoaded r →
    ∃ v, e.place op = some v ∧ Hidden T (MI.addrBits op) v

theorem hidden_allOnes (T : VTTarget) (bits : Nat) :
    Hidden T bits (BitVec.allOnes bits).toNat := by
  rw [BitVec.toNat_allOnes]
  exact .inl rfl

/-- A register that is replaced holds all ones. -/
theorem Sound.replaced_value (h : Sound C true cls N Read Def s) {r : Reg}
    (hr : s.replaced.find r ≠ none) {bits : Nat} (hbits : bits ≤ regWidth C.T cls r) :
    (C.after s).regs.read bits (subst s.replaced r) = BitVec.allOnes bits := by
  obtain ⟨hnone, -⟩ | ⟨n, j, hrep⟩ := h.subst_cases r
  · exact absurd hnone hr
  · rw [hrep.old] at hbits
    exact hrep.value rfl bits hbits

/-- What is hardened is hidden in a run with a poisoned state. -/
theorem event_hidden {PostLoaded : Reg → Prop}
    (hV : Visited C true N Read log s s' (MI.subst s.replaced) MI')
    (hS : Sound C true cls N Read Def s') (hOk : MI.Ok C cls N log before)
    (hloaded : ∀ r, PostLoaded r → s'.replaced.find r ≠ none) :
    EventHidden C.T log PostLoaded MI (MI'.event (C.after s').regs) := by
  have hrep := hV.prepares.extend.replaced
  rw [← hrep] at hV
  have hreads : (MI'.event (C.after s').regs).reads =
      MI'.uses.map fun use => ((C.after s').regs.read use.2 use.1).toNat := rfl
  have hknown {use : Reg × Nat} (huse : use ∈ MI.uses) : Known N use.1 :=
    hOk.known_read (mem_readRegs_of_use huse)
  -- The value of the first operand, when its register is remembered.
  have hfirst {t : Reg} {use : Reg × Nat} (huse : use ∈ MI.uses)
      (hentry : Entry C true N Read s' (subst s'.replaced use.1) t) :
      Hidden C.T use.2 ((C.after s').regs.read use.2 t).toNat :=
    hidden_of_merged (hentry.merged hS (hknown huse) rfl (hOk.uses use huse))
  have hbits (op : AddrOperand) : MI'.addrBits op = MI.addrBits op := by
    rw [hV.same]
    cases op <;> rfl
  -- The value of a place of the address, when its register is remembered.
  have hplace {op : AddrOperand} {r : Reg} (hr : MI.addrReg op = some r)
      (hfrom : AddrFrom C true N Read s' (MI.subst s'.replaced) MI' op) :
      ∃ v, (MI'.event (C.after s').regs).place op = some v ∧ Hidden C.T (MI.addrBits op) v := by
    obtain ⟨k, t, hk, ht, hentry⟩ := hfrom
    obtain ⟨hknown, hwidth, -, -⟩ := hOk.addr hr
    rw [addrReg_subst, hr] at hk
    obtain rfl := Option.some.inj hk
    have hhidden := hidden_of_merged (hentry.merged hS hknown rfl hwidth)
    obtain ⟨j, rfl, -⟩ := hentry.hardened
    refine ⟨_, ?_, hhidden⟩
    rw [place_event, ht, hbits]
    rfl
  exact {
    id := by rw [hV.same]; rfl
    loadAddr := fun hlog m hm op hop => by
      have hget := getReg_of_mem hop
      have haddr : MI.addrReg op.1 = some op.2 := by rw [Instr.addrReg, hm]; exact hget
      have hmem : (op.1, subst s'.replaced op.2) ∈ hardenedOperands (substMem s'.replaced m) := by
        rw [hS.hardenedOperands_subst
          (fun r hr => hOk.known_read (mem_readRegs_of_addr hm .BaseMO hr))
          (hOk.known_read (mem_readRegs_of_addr hm .IndexMO rfl))]
        exact List.mem_map.mpr ⟨op, hop, rfl⟩
      have hfrom := hV.loadAddr hlog (substMem s'.replaced m)
        (Option.map_eq_some_iff.mpr ⟨m, hm, rfl⟩) _ hmem
      exact hplace haddr hfrom
    addr := fun op r hr hloaded' => by
      obtain heq | hfrom := hV.addr op
      · obtain ⟨-, hwidth, -, -⟩ := hOk.addr hr
        obtain ⟨hnone, -⟩ | ⟨n, j, hrepl⟩ := hS.subst_cases r
        · exact absurd hnone (hloaded r hloaded')
        · have hones := hS.replaced_value (hloaded r hloaded') hwidth
          refine ⟨_, ?_, hidden_allOnes C.T _⟩
          rw [place_event, heq, addrReg_subst, hr, hbits, Option.map_some, Option.bind_some,
            ← hones, hrepl.new]
          rfl
      · exact hplace hr hfrom
    target := fun hlog hfar hreg use uses huses => by
      have huse : use ∈ MI.uses := by rw [huses]; exact List.mem_cons_self
      have hne : (MI.subst s'.replaced).uses ≠ [] := by
        show MI.uses.map _ ≠ []
        rw [huses]
        exact List.cons_ne_nil _ _
      obtain ⟨k, t, bits, rest, hk, ht, hentry⟩ := hV.target hlog hfar hreg hne
      have hk : MI.uses.map (fun use => (subst s'.replaced use.1, use.2)) = (k, bits) :: rest := hk
      rw [huses] at hk
      obtain ⟨hk, -⟩ := List.cons.inj hk
      obtain ⟨rfl, rfl⟩ := Prod.mk.inj hk
      refine ⟨_, ?_, hfirst huse hentry⟩
      rw [hreads, ht]
      rfl
    uses := fun i use hi hloaded' => by
      have huse : use ∈ MI.uses := List.mem_of_getElem? hi
      have hones : Hidden C.T use.2
          ((C.after s').regs.read use.2 (subst s'.replaced use.1)).toNat := by
        rw [hS.replaced_value (hloaded _ hloaded') (hOk.uses use huse)]
        exact hidden_allOnes _ _
      have hsubst : (MI.subst s'.replaced).uses[i]? = some (subst s'.replaced use.1, use.2) := by
        show (MI.uses.map fun use => (subst s'.replaced use.1, use.2))[i]? = _
        rw [List.getElem?_map, hi]
        rfl
      rw [hreads]
      obtain heq | ⟨k, t, bits, rest, hk, ht, hentry⟩ := hV.uses
      · rw [heq, List.getElem?_map, hsubst]
        exact ⟨_, rfl, hones⟩
      · rw [ht, List.getElem?_map]
        rw [hk] at hsubst
        cases i with
        | zero =>
          obtain ⟨rfl, rfl⟩ := Prod.mk.inj (Option.some.inj hsubst)
          exact ⟨_, rfl, hfirst huse hentry⟩
        | succ i =>
          rw [List.getElem?_cons_succ] at hsubst ⊢
          rw [hsubst]
          exact ⟨_, rfl, hones⟩ }

end Reads

/-! ## The step -/

section Step

variable {M : Type*} {C : Setting M} {poisoned : Bool} {cls : Nat → RegClass} {N : Nat}
  {Read Def hole : Reg → Prop} {s s' s₂ s₃ : State} {MI MI₂ : Instr} {log : List (Hardening × Nat)}
  {l : List Instr} {orig : Machine M}

def ReadIn (l : List Instr) (r : Reg) : Prop := ∃ MI ∈ l, r ∈ MI.readRegs

def DefIn (l : List Instr) (r : Reg) : Prop := ∃ MI ∈ l, r ∈ MI.defs

/-- The register holds a result that is hardened. -/
def PostLoaded (log : List (Hardening × Nat)) (l : List Instr) (r : Reg) : Prop :=
  ∃ MI ∈ l, (.postLoad, MI.id) ∈ log ∧ MI.defs.head? = some r

theorem after_instr (h : s'.items = s.items ++ [.instr MI]) :
    C.after s' = Item.exec C.sem C.flagsOf (C.after s) (.instr MI) := by
  rw [Setting.after, h, run_snoc]
  rfl

/-- An instruction keeps what it does not define. -/
theorem define_of_not_mem {ρ : RegFile} {defs : List Reg} {v : Nat → BitVec 512} {q : Reg}
    (h : q ∉ defs) : define ρ defs v q = ρ q := if_neg h

theorem define_of_mem {ρ : RegFile} {defs : List Reg} {v : Nat → BitVec 512} {q : Reg}
    (h : q ∈ defs) : define ρ defs v q = v (defs.idxOf q) := if_pos h

theorem after_instr_regs (h : s'.items = s.items ++ [.instr MI]) {q : Reg} (hq : q ∉ MI.defs) :
    (C.after s').regs q = (C.after s).regs q := by
  rw [after_instr h]
  exact define_of_not_mem hq

/-- An instruction stands behind the rest, and may have new registers. -/
structure Appends (MI : Instr) (s s' : State) : Prop where
  items : s'.items = s.items ++ [.instr MI]
  le : s.nextReg ≤ s'.nextReg
  regClass : ∀ n < s.nextReg, s'.regClass n = s.regClass n
  remembered : s'.AddrRegToHardenedReg = s.AddrRegToHardenedReg
  replaced : s'.replaced = s.replaced

theorem Sound.instr (h : Sound C poisoned cls N Read Def s) (hA : Appends MI s s')
    (hState : C.T.StateReg ∉ MI.defs)
    (hnot : ∀ i < s.nextReg, N ≤ i ∨ Read (.virt i) → .virt i ∉ MI.defs) :
    Sound C poisoned cls N Read Def s' where
  le := Nat.le_trans h.le hA.le
  regClass n hn := (hA.regClass n (Nat.lt_of_lt_of_le hn h.le)).trans (h.regClass n hn)
  state := by
    rw [RegFile.holdsState, RegFile.read, after_instr_regs hA.items hState]
    exact h.state
  remembers k t hk := by
    rw [hA.remembered] at hk
    obtain ⟨⟨i, rfl, hi, hkey⟩, ⟨j, rfl, hj, hge⟩, hcls, hvalue⟩ := h.remembers k t hk
    have hclass {n : Nat} (hn : n < s.nextReg) :
        s'.getRegClass (.virt n) = s.getRegClass (.virt n) := hA.regClass n hn
    exact {
      key := ⟨i, rfl, Nat.lt_of_lt_of_le hi hA.le, hkey⟩
      hardened := ⟨j, rfl, Nat.lt_of_lt_of_le hj hA.le, hge⟩
      regClass := by rw [hclass hj, hclass hi, hcls]
      value := by
        rw [hclass hi]
        intro w hw
        rw [RegFile.read, RegFile.read, after_instr_regs hA.items (hnot i hi hkey),
          after_instr_regs hA.items (hnot j hj (.inl hge))]
        exact hvalue w hw }
  replaces r t hr := by
    rw [hA.replaced] at hr
    obtain ⟨n, j, hrep⟩ := h.replaces r t hr
    refine ⟨n, j, { hrep with
      lt_next := Nat.lt_of_lt_of_le hrep.lt_next hA.le
      regClass := (hA.regClass j hrep.lt_next).trans hrep.regClass
      value := fun hp w hw => ?_ }⟩
    have hkeep := after_instr_regs (C := C) hA.items (hnot j hrep.lt_next (.inl hrep.ge))
    rw [RegFile.read, hrep.new, hkeep, ← hrep.new]
    exact hrep.value hp w hw
  inj := by
    rw [hA.replaced]
    exact h.inj

/-- The hardened block agrees with the block behind an instruction, apart from results that go to
other registers. -/
theorem Agrees.instr (h : Agrees C cls N orig (fun _ => False) s) (hA : Appends MI₂ s s')
    (hevent : MI₂.event (C.after s).regs = MI.event orig.regs)
    (hlive : EFLAGS ∉ MI.defs → C.live s' = true → C.live s = true)
    (hin : ∀ r ∈ MI.defs, ¬ hole r →
      subst s.replaced r ∈ MI₂.defs ∧ MI₂.defs.idxOf (subst s.replaced r) = MI.defs.idxOf r)
    (hout : ∀ r, Known N r → r ∉ MI.defs → subst s.replaced r ∉ MI₂.defs) :
    Agrees C cls N (Item.exec C.sem C.flagsOf orig (.instr MI)) hole s' where
  mem := by
    rw [after_instr hA.items]
    simp only [Item.exec, hevent, h.mem]
  events := by
    rw [after_instr hA.items]
    simp only [Item.exec, hevent, h.events]
  regs r hr hhole hflags w hw := by
    rw [after_instr hA.items, hA.replaced]
    simp only [Item.exec, hevent, h.mem, RegFile.read]
    by_cases hmem : r ∈ MI.defs
    · obtain ⟨hmem', hidx⟩ := hin r hmem hhole
      rw [define_of_mem hmem, define_of_mem hmem', hidx]
    · rw [define_of_not_mem hmem, define_of_not_mem (hout r hr hmem)]
      exact h.regs r hr id (fun hE => hlive (hE ▸ hmem) (hflags hE)) w hw

/-- What the walk has done behind a prefix of the block. The results in some registers have not
been hardened yet. -/
structure Walked (C : Setting M) (poisoned : Bool) (cls : Nat → RegClass) (N : Nat)
    (log : List (Hardening × Nat)) (hole : Reg → Prop) (l : List Instr) (s : State) : Prop where
  sound : Sound C poisoned cls N (ReadIn l) (DefIn l) s
  live : C.live s = isEFLAGSLive C.liveIn (l.map .instr)
  loaded : ∀ r, PostLoaded log l r → ¬ hole r → s.replaced.find r ≠ none
  agrees : poisoned = false →
    Agrees C cls N (run C.sem C.flagsOf (l.map .instr) C.entry) hole s
  events : poisoned = true → ∃ es, (C.after s).events = C.entry.events ++ es ∧
    es.length = l.length ∧ ∀ before MI rest, l = before ++ MI :: rest →
      ∃ e, es[before.length]? = some e ∧ EventHidden C.T log (PostLoaded log before) MI e

/-- What an instruction defines is not replaced by then. -/
theorem Sound.subst_defs (h : Sound C poisoned cls N Read (DefIn l) s)
    (hOk : MI.Ok C cls N log l) {r : Reg} (hr : r ∈ MI.defs) : subst s.replaced r = r := by
  obtain ⟨-, heq⟩ | ⟨n, j, hrep⟩ := h.subst_cases r
  · exact heq
  · obtain ⟨MI', hMI', hdef⟩ := hrep.defined
    rw [hrep.old] at hr hdef
    exact absurd hdef (hOk.notDefined n hr MI' hMI')

theorem Sound.map_subst_defs (h : Sound C poisoned cls N Read (DefIn l) s)
    (hOk : MI.Ok C cls N log l) : (MI.subst s.replaced).defs = MI.defs :=
  (List.map_congr_left fun _ hr => h.subst_defs hOk hr).trans (List.map_id _)

theorem definesEFLAGS_congr {MI' : Instr} (hdefs : EFLAGS ∈ MI'.defs ↔ EFLAGS ∈ MI.defs)
    (hdead : MI'.isDead = MI.isDead) :
    (Item.instr MI').definesEFLAGS = (Item.instr MI).definesEFLAGS := by
  simp only [Item.definesEFLAGS, hdefs, hdead]

/-- The live flags behind an instruction are those behind the instruction as it was. -/
theorem live_instr {MI' : Instr} {items : List Item} {liveIn : Bool}
    (hitems : s'.items = s.items ++ [.instr MI']) (hdefs : EFLAGS ∈ MI'.defs ↔ EFLAGS ∈ MI.defs)
    (hdead : MI'.isDead = MI.isDead) (hkills : MI'.killsEFLAGS = MI.killsEFLAGS)
    (h : isEFLAGSLive liveIn s.items = isEFLAGSLive liveIn items) :
    isEFLAGSLive liveIn s'.items = isEFLAGSLive liveIn (items ++ [.instr MI]) := by
  rw [hitems, isEFLAGSLive_snoc, isEFLAGSLive_snoc, definesEFLAGS_congr hdefs hdead, h]
  show (match _ with | some isDead => !isDead | none => if MI'.killsEFLAGS then _ else _) = _
  rw [hkills]
  rfl

theorem live_of_not_defined {items : List Item} {liveIn : Bool} (hdefs : EFLAGS ∉ MI.defs)
    (h : isEFLAGSLive liveIn (items ++ [.instr MI]) = true) : isEFLAGSLive liveIn items = true := by
  rw [isEFLAGSLive_snoc] at h
  simp only [Item.definesEFLAGS, if_neg hdefs, Item.killsEFLAGS] at h
  cases hkills : MI.killsEFLAGS with
  | true => simp [hkills] at h
  | false => simpa [hkills] using h

theorem getElem?_events {P : List Instr → Instr → Event → Prop} {es : List Event}
    (hlen : es.length = l.length) (h : ∀ before MI rest, l = before ++ MI :: rest →
      ∃ e, es[before.length]? = some e ∧ P before MI e) {e : Event} (he : P l MI e) :
    ∀ before MI' rest, l ++ [MI] = before ++ MI' :: rest →
      ∃ e', (es ++ [e])[before.length]? = some e' ∧ P before MI' e' := by
  intro before MI' rest heq
  obtain rfl | ⟨rest, last, rfl⟩ := rest.eq_nil_or_concat
  · obtain ⟨rfl, hMI⟩ := List.append_inj' heq rfl
    obtain rfl := List.singleton_inj.mp hMI
    refine ⟨e, ?_, he⟩
    rw [List.getElem?_append_right (Nat.le_of_eq hlen), hlen, Nat.sub_self]
    rfl
  · rw [List.concat_eq_append, ← List.cons_append, ← List.append_assoc] at heq
    obtain ⟨rfl, -⟩ := List.append_inj' heq rfl
    obtain ⟨e', he', hP⟩ := h before MI' rest rfl
    refine ⟨e', ?_, hP⟩
    rw [List.getElem?_append_left (List.getElem?_eq_some_iff.mp he').1]
    exact he'

theorem Walked.sound_snoc (hW : Walked C poisoned cls N log hole l s) (MI : Instr) :
    Sound C poisoned cls N (ReadIn (l ++ [MI])) (DefIn l) s :=
  hW.sound.mono (fun _ ⟨MI', hMI', hr⟩ => ⟨MI', List.mem_append_left _ hMI', hr⟩) fun _ h => h

/-- The instruction computes in a run with a zero state what it does in the block as it was. -/
theorem Walked.computes (hW : Walked C false cls N log (fun _ => False) l s)
    (hState : Known N C.T.StateReg) (hE : C.T.StateReg ≠ EFLAGS) (hOk : MI.Ok C cls N log l)
    (hV : Visited C false N (ReadIn (l ++ [MI])) log s s₂ (MI.subst s.replaced) MI₂) :
    Agrees C cls N (run C.sem C.flagsOf (l.map .instr) C.entry) (fun _ => False) s₂ ∧
      MI₂.event (C.after s₂).regs =
        MI.event (run C.sem C.flagsOf (l.map .instr) C.entry).regs := by
  have hS := hW.sound_snoc MI
  have hA₂ := (hW.agrees rfl).prepare hS hV.prepares
  exact ⟨hA₂, event_eq hV (hS.prepare hV.prepares hState hE) hA₂ hOk (fun _ _ h => h)
    (hV.prepares.live.trans hW.live).symm⟩

/-- The instruction stands in the hardened block. -/
theorem Walked.issue {ds : List Reg} (hW : Walked C poisoned cls N log (fun _ => False) l s)
    (hState : Known N C.T.StateReg) (hE : C.T.StateReg ≠ EFLAGS) (hOk : MI.Ok C cls N log l)
    (hV : Visited C poisoned N (ReadIn (l ++ [MI])) log s s₂ (MI.subst s.replaced) MI₂)
    (hA : Appends { MI₂ with defs := ds } s₂ s₃)
    (hnew : ∀ q ∈ ds, q ∈ MI.defs ∨ ∃ n, q = .virt n ∧ s₂.nextReg ≤ n)
    (hin : ∀ r ∈ MI.defs, ¬ hole r → r ∈ ds ∧ ds.idxOf r = MI.defs.idxOf r)
    (hhole : ∀ r, hole r → ∃ n, r = .virt n)
    (hloaded : (.postLoad, MI.id) ∈ log → ∀ r, MI.defs.head? = some r → hole r) :
    Walked C poisoned cls N log hole (l ++ [MI]) s₃ := by
  have hS₂ := (hW.sound_snoc MI).prepare hV.prepares hState hE
  have hrep := hV.prepares.extend.replaced
  have hlive₂ : C.live s₂ = isEFLAGSLive C.liveIn (l.map .instr) := hV.prepares.live.trans hW.live
  have hknown {r : Reg} (hr : r ∈ MI.defs) : Known N r := hOk.known r (List.mem_append_right _ hr)
  have hflagsDef : EFLAGS ∈ ds ↔ EFLAGS ∈ MI.defs := by
    refine ⟨fun h => ?_, fun h => (hin _ h fun hh => ?_).1⟩
    · obtain h | ⟨n, hn, -⟩ := hnew _ h
      · exact h
      · cases hn
    · obtain ⟨n, hn⟩ := hhole _ hh
      cases hn
  have hnot : ∀ i < s₂.nextReg, N ≤ i ∨ ReadIn (l ++ [MI]) (.virt i) → .virt i ∉ ds := by
    intro i hi hkey hmem
    obtain hdef | ⟨n, hn, hge⟩ := hnew _ hmem
    · obtain hge | ⟨MI', hMI', hread⟩ := hkey
      · exact hknown hdef i hge rfl
      · exact hOk.notRead i hdef MI' hMI' hread
    · obtain rfl := Reg.virt.inj hn
      omega
  have hstate : C.T.StateReg ∉ ds := by
    intro hmem
    obtain hdef | ⟨n, hn, hge⟩ := hnew _ hmem
    · exact hOk.state hdef
    · exact hState n (Nat.le_trans hS₂.le hge) hn
  have hS₃ : Sound C poisoned cls N (ReadIn (l ++ [MI])) (DefIn l) s₃ := hS₂.instr hA hstate hnot
  have hlive₃ : C.live s₃ = isEFLAGSLive C.liveIn (l.map .instr ++ [.instr MI]) :=
    live_instr hA.items hflagsDef (by rw [hV.same]; rfl) (by rw [hV.same]; rfl) hlive₂
  exact {
    sound := hS₃.mono (fun _ h => h)
      fun r ⟨MI', hMI', hr⟩ => ⟨MI', List.mem_append_left _ hMI', hr⟩
    live := by
      rw [hlive₃, List.map_append]
      rfl
    loaded := by
      rintro r ⟨MI', hMI', hlog, hdef⟩ hnhole
      rw [hA.replaced, hrep]
      obtain hMI' | hMI' := List.mem_append.mp hMI'
      · exact hW.loaded r ⟨MI', hMI', hlog, hdef⟩ id
      · rw [List.mem_singleton.mp hMI'] at hlog hdef
        exact absurd (hloaded hlog r hdef) hnhole
    agrees := by
      rintro rfl
      obtain ⟨hA₂, hevent⟩ := hW.computes hState hE hOk hV
      rw [List.map_append, List.map_singleton, run_snoc]
      refine hA₂.instr hA hevent (fun hdefs hl => ?_) (fun r hr hnhole => ?_)
        fun r hr hdef hmem => ?_
      · rw [hlive₃] at hl
        rw [hlive₂]
        exact live_of_not_defined hdefs hl
      · rw [hS₂.subst_defs hOk hr]
        exact hin r hr hnhole
      · obtain h | ⟨n, hn, hge⟩ := hnew _ hmem
        · obtain ⟨-, heq⟩ | ⟨n, j, hrepl⟩ := hS₂.subst_cases r
          · exact hdef (heq ▸ h)
          · exact hknown h j hrepl.ge hrepl.new
        · exact hS₂.known hr n hge hn
    events := by
      rintro rfl
      obtain ⟨es, hes, hlen, hall⟩ := hW.events rfl
      have hhidden := event_hidden hV hS₂ hOk fun r (hr : PostLoaded log l r) => by
        rw [hrep]
        exact hW.loaded r hr id
      refine ⟨es ++ [MI₂.event (C.after s₂).regs], ?_, ?_, getElem?_events hlen hall hhidden⟩
      · rw [after_instr hA.items]
        show (C.after s₂).events ++ [_] = _
        rw [hV.prepares.extend.events, hes, List.append_assoc]
        rfl
      · rw [List.length_append, List.length_append, hlen]
        rfl }

theorem merged_self {T : VTTarget} {w : Nat} {v : BitVec w}
    (h : poisoned = true → v = BitVec.allOnes w) : Merged T poisoned v v := by
  cases poisoned with
  | false => rfl
  | true => exact .inl (h rfl)

/-- `replaceRegWith` and `remember`, for the result of a load. -/
def replaceBy (r t : Reg) (s : State) : State := (remember t t (replaceRegWith r t s).2).2

theorem find_replaceBy (r t : Reg) (s : State) (q : Reg) :
    (replaceBy r t s).replaced.find q = if q = r then some t else s.replaced.find q :=
  FMap.find_set _ _ _ _

theorem subst_replaceBy_self (r t : Reg) (s : State) : subst (replaceBy r t s).replaced r = t := by
  rw [subst, find_replaceBy, if_pos rfl]
  rfl

theorem subst_replaceBy_ne {r q : Reg} (t : Reg) (s : State) (h : q ≠ r) :
    subst (replaceBy r t s).replaced q = subst s.replaced q := by
  rw [subst, find_replaceBy, if_neg h]
  rfl

/-- A register stands for one that is new and, in a run with a poisoned state, hidden. -/
theorem Sound.replaceBy {n j : Nat} (h : Sound C poisoned cls N Read Def s) (hn : n < N)
    (hdef : Def (.virt n)) (hj : N ≤ j) (hlt : j < s.nextReg) (hcls : s.regClass j = cls n)
    (hones : poisoned = true → ∀ w ≤ C.T.getRegSizeInBits (cls n),
      (C.after s).regs.read w (.virt j) = BitVec.allOnes w)
    (hfresh : ∀ r, s.replaced.find r ≠ some (.virt j)) :
    Sound C poisoned cls N Read Def (replaceBy (.virt n) (.virt j) s) := by
  have hrem : Remembers C poisoned N Read (replaceRegWith (.virt n) (.virt j) s).2 :=
    fun k t hk => ⟨(h.remembers k t hk).key, (h.remembers k t hk).hardened,
      (h.remembers k t hk).regClass, (h.remembers k t hk).value⟩
  have hentry : Entry C poisoned N Read (replaceRegWith (.virt n) (.virt j) s).2 (.virt j)
      (.virt j) := {
    key := ⟨j, rfl, hlt, .inl hj⟩
    hardened := ⟨j, rfl, hlt, hj⟩
    regClass := rfl
    value := fun w hw => merged_self fun hp => hones hp w (hcls ▸ hw) }
  exact {
    le := h.le
    regClass := h.regClass
    state := h.state
    remembers := hrem.remember hentry
    replaces := fun r t hr => by
      rw [find_replaceBy] at hr
      split_ifs at hr with heq
      · obtain rfl := Option.some.inj hr
        exact ⟨n, j, heq, hn, heq ▸ hdef, rfl, hj, hlt, hcls, hones⟩
      · obtain ⟨m, i, hrep⟩ := h.replaces r t hr
        exact ⟨m, i, hrep.old, hrep.lt, hrep.defined, hrep.new, hrep.ge, hrep.lt_next,
          hrep.regClass, hrep.value⟩
    inj := fun r r' t hr hr' => by
      rw [find_replaceBy] at hr hr'
      split_ifs at hr hr' with heq heq' heq'
      · rw [heq, heq']
      · exact absurd (hr'.trans hr.symm) (hfresh r')
      · exact absurd (hr.trans hr'.symm) (hfresh r)
      · exact h.inj r r' t hr hr' }

/-- The hardened result takes the place of the register it went to at first. -/
theorem Walked.replace {n u : Nat} {t : Reg}
    (hW : Walked C poisoned cls N log (fun r => r = .virt n) l s) (hState : Known N C.T.StateReg)
    (hE : C.T.StateReg ≠ EFLAGS) (hn : n < N) (hdef : DefIn l (.virt n))
    (hcls : s.regClass u = cls n)
    (hvalue : poisoned = false → ∀ w, (C.after s).regs.read w (.virt u) =
      (run C.sem C.flagsOf (l.map .instr) C.entry).regs.read w (.virt n))
    (hH : HardensValue C (.virt u) s s' t) :
    Walked C poisoned cls N log (fun _ => False) l (replaceBy (.virt n) t s') := by
  have hP : Prepares C poisoned N (ReadIn l) s s' :=
    ⟨hH.extend, hH.live, hW.sound.remembers.extend hH.extend hH.remembered⟩
  have hS' := hW.sound.prepare hP hState hE
  have hreplaced := hH.extend.replaced
  obtain ⟨j, rfl, hge, hlt⟩ := hH.new
  have hread : ∀ w ≤ C.T.getRegSizeInBits (cls n), (C.after s').regs.read w (.virt j) =
      hide poisoned ((C.after s).regs.read w (.virt u)) := fun w hw =>
    hH.value poisoned hW.sound.state w (by
      show w ≤ C.T.getRegSizeInBits (s.regClass u)
      rw [hcls]
      exact hw)
  have hones (hp : poisoned = true) : ∀ w ≤ C.T.getRegSizeInBits (cls n),
      (C.after s').regs.read w (.virt j) = BitVec.allOnes w := fun w hw => by
    rw [hread w hw, hp]
    rfl
  have hfresh (r : Reg) : s'.replaced.find r ≠ some (.virt j) := by
    intro h
    rw [hreplaced] at h
    obtain ⟨m, i, hrep⟩ := hW.sound.replaces r _ h
    have hlt := hrep.lt_next
    obtain rfl := Reg.virt.inj hrep.new
    omega
  exact {
    sound := hS'.replaceBy hn hdef (Nat.le_trans hW.sound.le hge) hlt (hH.regClass.trans hcls)
      hones hfresh
    live := hP.live.trans hW.live
    loaded := fun r hr _ => by
      rw [find_replaceBy]
      split_ifs with heq
      · exact Option.some_ne_none _
      · rw [hreplaced]
        exact hW.loaded r hr heq
    agrees := fun hp => by
      have hA' := (hW.agrees hp).prepare hW.sound hP
      exact {
        mem := hA'.mem
        events := hA'.events
        regs := fun r hr _ hflags w hw => by
          by_cases heq : r = .virt n
          · subst heq
            rw [subst_replaceBy_self]
            refine (hread w hw).trans ?_
            rw [hvalue hp, hp]
            rfl
          · rw [subst_replaceBy_ne _ _ heq]
            exact hA'.regs r hr heq hflags w hw }
    events := fun hp => by
      obtain ⟨es, hes, hrest⟩ := hW.events hp
      exact ⟨es, hP.extend.events.trans hes, hrest⟩ }

theorem hardenInstr_eq (T : VTTarget) (liveIn : Bool) (log : List (Hardening × Nat)) (MI : Instr)
    (s : State) : hardenInstr T liveIn log MI s =
      let v := visit T liveIn log (MI.subst s.replaced) s
      (if (.postLoad, v.1.id) ∈ log then hardenPostLoad T liveIn v.1
        else insert (.instr v.1)) v.2 :=
  rfl

/-- The step for an instruction whose result is not hardened. -/
theorem Walked.plain (hW : Walked C poisoned cls N log (fun _ => False) l s)
    (hState : Known N C.T.StateReg) (hE : C.T.StateReg ≠ EFLAGS) (hOk : MI.Ok C cls N log l)
    (hV : Visited C poisoned N (ReadIn (l ++ [MI])) log s s₂ (MI.subst s.replaced) MI₂)
    (hno : (.postLoad, MI.id) ∈ log → MI.defs = []) :
    Walked C poisoned cls N log (fun _ => False) (l ++ [MI]) (insert (.instr MI₂) s₂).2 := by
  have hdefs : MI₂.defs = MI.defs := by
    rw [hV.same]
    exact hW.sound.map_subst_defs hOk
  have hA : Appends { MI₂ with defs := MI₂.defs } s₂ (insert (.instr MI₂) s₂).2 :=
    ⟨rfl, Nat.le_refl _, fun _ _ => rfl, rfl, rfl⟩
  refine hW.issue hState hE hOk hV hA (fun q hq => .inl (hdefs ▸ hq))
    (fun r hr _ => by rw [hdefs]; exact ⟨hr, rfl⟩) (fun _ h => h.elim) fun hlog r hr => ?_
  rw [hno hlog] at hr
  cases hr

/-- The step for an instruction whose result is hardened. -/
theorem Walked.postLoad {r : Reg} {ds : List Reg}
    (hW : Walked C poisoned cls N log (fun _ => False) l s)
    (hState : Known N C.T.StateReg) (hE : C.T.StateReg ≠ EFLAGS) (hOk : MI.Ok C cls N log l)
    (hV : Visited C poisoned N (ReadIn (l ++ [MI])) log s s₂ (MI.subst s.replaced) MI₂)
    (hlog : (.postLoad, MI.id) ∈ log) (hr : MI.defs = r :: ds) :
    Walked C poisoned cls N log (fun _ => False) (l ++ [MI])
      (hardenPostLoad C.T C.liveIn MI₂ s₂).2 := by
  have hdefs : MI₂.defs = r :: ds := by
    rw [hV.same]
    exact (hW.sound.map_subst_defs hOk).trans hr
  have hS₂ := (hW.sound_snoc MI).prepare hV.prepares hState hE
  obtain ⟨n, rfl, hgeneral⟩ := hOk.postLoad hlog r ds hr
  have hmem : .virt n ∈ MI.defs := by rw [hr]; exact List.mem_cons_self
  have hn : n < N := lt_of_known (hOk.known _ (List.mem_append_right _ hmem))
  set MI₃ : Instr := { MI₂ with defs := .virt s₂.nextReg :: ds } with hMI₃
  set s₃ := (insert (.instr MI₃) (createVirtualRegister (s₂.getRegClass (.virt n)) s₂).2).2 with hs₃
  have hpost : hardenPostLoad C.T C.liveIn MI₂ s₂ =
      let h := hardenValueInRegister C.T C.liveIn (.virt s₂.nextReg) s₃
      ((), replaceBy (.virt n) h.1 h.2) := by
    rw [hardenPostLoad, hdefs]
    rfl
  have hA : Appends MI₃ s₂ s₃ :=
    ⟨rfl, Nat.le_succ _, fun m hm => update_new hm (Nat.le_refl _), rfl, rfl⟩
  have hcls : s₃.regClass s₂.nextReg = cls n :=
    (Function.update_self _ _ _).trans (hS₂.regClass n hn)
  have hW₃ : Walked C poisoned cls N log (fun q => q = .virt n) (l ++ [MI]) s₃ := by
    refine hW.issue hState hE hOk hV hA (fun q hq => ?_) (fun q hq hne => ?_)
      (fun q hq => ⟨n, hq⟩) fun _ q hq => ?_
    · obtain rfl | hq := List.mem_cons.mp hq
      · exact .inr ⟨_, rfl, Nat.le_refl _⟩
      · exact .inl (by rw [hr]; exact List.mem_cons_of_mem _ hq)
    · have hne' : Reg.virt s₂.nextReg ≠ q := fun h =>
        hOk.known q (List.mem_append_right _ hq) _ hS₂.le h.symm
      rw [hr] at hq ⊢
      rw [List.idxOf_cons_ne _ hne', List.idxOf_cons_ne _ (Ne.symm hne)]
      exact ⟨List.mem_cons_of_mem _ ((List.mem_cons.mp hq).resolve_left hne), rfl⟩
    · rw [hr] at hq
      exact (Option.some.inj hq).symm
  have hH : HardensValue C (.virt s₂.nextReg) s₃
      (hardenValueInRegister C.T C.liveIn (.virt s₂.nextReg) s₃).2
      (hardenValueInRegister C.T C.liveIn (.virt s₂.nextReg) s₃).1 := by
    refine hardenValueInRegister_hardens (Nat.lt_succ_self _) ?_ (hState.mono hW₃.sound.le) hE
    show IsGeneral C.T (s₃.regClass s₂.nextReg)
    rw [hcls]
    exact hgeneral
  rw [hpost]
  refine hW₃.replace hState hE hn ⟨MI, List.mem_append_right _ List.mem_cons_self, hmem⟩ hcls
    (fun hp w => ?_) hH
  subst hp
  obtain ⟨hA₂, hevent⟩ := hW.computes hState hE hOk hV
  have hevent₃ : MI₃.event (C.after s₂).regs =
      MI.event (run C.sem C.flagsOf (l.map .instr) C.entry).regs := hevent
  rw [List.map_append, List.map_singleton, run_snoc, after_instr hA.items]
  simp only [Item.exec, RegFile.read, hevent₃, hA₂.mem]
  rw [define_of_mem hmem, define_of_mem (hMI₃ ▸ List.mem_cons_self), hr]
  simp only [hMI₃, List.idxOf_cons_self]

/-- What one step of the walk keeps. -/
theorem Walked.step (hW : Walked C poisoned cls N log (fun _ => False) l s) (hT : C.T.Sized)
    (hState : Known N C.T.StateReg) (hE : C.T.StateReg ≠ EFLAGS) (hOk : MI.Ok C cls N log l) :
    Walked C poisoned cls N log (fun _ => False) (l ++ [MI])
      (hardenInstr C.T C.liveIn log MI s).2 := by
  have hV := visit_visited hT hState hE (hW.sound_snoc MI) hOk fun r hr =>
    ⟨MI, List.mem_append_right _ List.mem_cons_self, hr⟩
  rw [hardenInstr_eq]
  generalize visit C.T C.liveIn log (MI.subst s.replaced) s = v at hV ⊢
  obtain ⟨MI₂, s₂⟩ := v
  dsimp only at hV ⊢
  have hid : MI₂.id = MI.id := by rw [hV.same]; rfl
  rw [hid]
  split_ifs with hlog
  · cases hr : MI.defs with
    | nil =>
      have hdefs : MI₂.defs = [] := by
        rw [hV.same]
        exact (hW.sound.map_subst_defs hOk).trans hr
      have hpost : hardenPostLoad C.T C.liveIn MI₂ s₂ = insert (.instr MI₂) s₂ := by
        rw [hardenPostLoad, hdefs]
      rw [hpost]
      exact hW.plain hState hE hOk hV fun _ => hr
    | cons r ds => exact hW.postLoad hState hE hOk hV hlog hr
  · exact hW.plain hState hE hOk hV fun h => absurd h hlog

theorem hardenInstrs_snoc (T : VTTarget) (liveIn : Bool) (log : List (Hardening × Nat))
    (l : List Instr) (MI : Instr) (s : State) : hardenInstrs T liveIn log (l ++ [MI]) s =
      (hardenInstr T liveIn log MI (hardenInstrs T liveIn log l s)).2 := by
  rw [hardenInstrs, List.foldl_append]
  rfl

/-- The state of the pass at the start of a block. -/
def initial (cls : Nat → RegClass) (N : Nat) : State where
  regClass := cls
  nextReg := N

theorem walked_initial (hp : C.entry.regs.holdsState C.T.StateReg poisoned) :
    Walked C poisoned cls N log (fun _ => False) [] (initial cls N) where
  sound := {
    le := Nat.le_refl _
    regClass := fun _ _ => rfl
    state := hp
    remembers := fun k t hk => by cases hk
    replaces := fun r t hr => by cases hr
    inj := fun r r' t hr => by cases hr }
  live := rfl
  loaded := fun r ⟨MI, hMI, _⟩ => absurd hMI List.not_mem_nil
  agrees := fun _ => ⟨rfl, rfl, fun _ _ _ _ _ _ => rfl⟩
  events := fun _ => ⟨[], (List.append_nil _).symm, rfl, fun before MI rest h => by simp at h⟩

/-- What the walk keeps. -/
theorem walked_run (hT : C.T.Sized) (hState : Known N C.T.StateReg) (hE : C.T.StateReg ≠ EFLAGS)
    (hp : C.entry.regs.holdsState C.T.StateReg poisoned) (hOk : Ok C cls N log l) :
    Walked C poisoned cls N log (fun _ => False) l
      (hardenInstrs C.T C.liveIn log l (initial cls N)) := by
  induction l using List.reverseRecOn with
  | nil => exact walked_initial hp
  | append_singleton l MI ih =>
    rw [hardenInstrs_snoc]
    exact (ih hOk.append).step hT hState hE hOk.last

end Step

/-! ## Runs of the hardened block -/

section Main

variable {M : Type*} {C : Setting M} {cls : Nat → RegClass} {N : Nat}
  {log : List (Hardening × Nat)} {l : List Instr}

/-- With a zero state the hardened block does what the block did: its instructions read and compute
the same, and the registers hold the same, in their own bits. The flags are the same where they are
live, and they are live where they were. -/
theorem hardenInstrs_plain (hT : C.T.Sized) (hState : Known N C.T.StateReg)
    (hE : C.T.StateReg ≠ EFLAGS) (hp : C.entry.regs.holdsState C.T.StateReg false)
    (hOk : Ok C cls N log l) :
    Agrees C cls N (run C.sem C.flagsOf (l.map .instr) C.entry) (fun _ => False)
        (hardenInstrs C.T C.liveIn log l (initial cls N)) ∧
      C.live (hardenInstrs C.T C.liveIn log l (initial cls N)) =
        isEFLAGSLive C.liveIn (l.map .instr) :=
  have hW := walked_run hT hState hE hp hOk
  ⟨hW.agrees rfl, hW.live⟩

/-- With a poisoned state every instruction finds what is hidden from it hidden: the registers of
its address, its target, and the hardened results it reads. The hardened results are all ones behind
the block. -/
theorem hardenInstrs_poisoned (hT : C.T.Sized) (hState : Known N C.T.StateReg)
    (hE : C.T.StateReg ≠ EFLAGS) (hp : C.entry.regs.holdsState C.T.StateReg true)
    (hOk : Ok C cls N log l) :
    (∃ es, (C.after (hardenInstrs C.T C.liveIn log l (initial cls N))).events =
        C.entry.events ++ es ∧ es.length = l.length ∧
      ∀ before MI rest, l = before ++ MI :: rest →
        ∃ e, es[before.length]? = some e ∧ EventHidden C.T log (PostLoaded log before) MI e) ∧
    ∀ r, PostLoaded log l r → ∀ w ≤ regWidth C.T cls r,
      (C.after (hardenInstrs C.T C.liveIn log l (initial cls N))).regs.read w
        (subst (hardenInstrs C.T C.liveIn log l (initial cls N)).replaced r) =
          BitVec.allOnes w :=
  have hW := walked_run hT hState hE hp hOk
  ⟨hW.events rfl, fun r hr _ hw => hW.sound.replaced_value (hW.loaded r hr id) hw⟩

theorem ok_nil : Ok C cls N log [] := fun _ _ _ h => by simp at h

theorem Ok.snoc {MI : Instr} (h : Ok C cls N log l) (hMI : MI.Ok C cls N log l) :
    Ok C cls N log (l ++ [MI]) := by
  intro before MI' rest heq
  obtain rfl | ⟨rest, last, rfl⟩ := rest.eq_nil_or_concat
  · obtain ⟨rfl, hlast⟩ := List.append_inj' heq rfl
    obtain rfl := List.singleton_inj.mp hlast
    exact hMI
  · rw [List.concat_eq_append, ← List.cons_append, ← List.append_assoc] at heq
    obtain ⟨rfl, -⟩ := List.append_inj' heq rfl
    exact h before MI' rest rfl

end Main

/-! ### A call through a table -/

/-- An index is loaded, then the target from a table, and the target is called. -/
def tableCall : List Instr :=
  [{ id := 0, defs := [.virt 2], mem := some ⟨some (.virt 0), .NoRegister⟩ },
    { id := 1, defs := [.virt 3], mem := some ⟨some (.virt 0), .virt 2⟩ },
    { id := 2, uses := [(.virt 3, 64)], hasTargetReg := true }]

/-- The index is hardened as it is loaded, and the address and the target where they are used. -/
def tableLog : List (Hardening × Nat) := [(.postLoad, 0), (.loadAddr, 1), (.indirectTarget, 2)]

/-- The flags are live throughout. -/
def tableSetting (poisoned : Bool) : Setting Unit where
  sem := { result := fun _ _ _ => 7, memory := fun _ m => m }
  flagsOf := id
  entry :=
    { regs := fun r => if r = .virt 1 then hide poisoned 0 else 0
      mem := ()
      events := [] }
  T := x86Target
  liveIn := true

theorem tableSetting_state (poisoned : Bool) :
    (tableSetting poisoned).entry.regs.holdsState (tableSetting poisoned).T.StateReg poisoned := by
  have hstate : (tableSetting poisoned).entry.regs (.virt 1) = hide poisoned 0 := by
    simp only [tableSetting, if_true]
  show ((tableSetting poisoned).entry.regs (.virt 1)).setWidth 64 = _
  rw [hstate]
  cases poisoned with
  | false => simp [hide]
  | true => exact setWidth_allOnes (by decide)

theorem known_noRegister (N : Nat) : Known N .NoRegister := fun _ _ h => by cases h

theorem hardenable_GR64 : Hardenable x86Target .GR64 := .inr (.inr (.inr (.inr (.inr rfl))))

theorem isGeneral_GR64 : IsGeneral x86Target .GR64 := .inr (.inr (.inr rfl))

theorem indexLoad_ok (poisoned : Bool) : Instr.Ok (tableSetting poisoned) (fun _ => .GR64) 4
    tableLog [] tableCall[0] where
  known := by simp [tableCall, Instr.readRegs, known_virt, known_noRegister]
  uses := by simp [tableCall]
  base := by
    intro m r hm hr
    obtain rfl := Option.some.inj hm
    obtain rfl := Option.some.inj hr
    exact ⟨Nat.le_refl _, by decide⟩
  index := by
    intro m hm
    obtain rfl := Option.some.inj hm
    exact ⟨Nat.le_add_right 64 448, by decide⟩
  flags := by simp [tableCall]
  notRead := by simp [tableCall, Instr.readRegs]
  notDefined := by simp
  nodup := by simp [tableCall]
  state := by
    show Reg.virt 1 ∉ _
    simp [tableCall]
  loadAddr := by simp [tableCall, tableLog]
  indirectTarget := by simp [tableCall, tableLog]
  postLoad := by
    rintro - r defs hr
    obtain ⟨rfl, -⟩ := List.cons.inj hr
    exact ⟨2, rfl, isGeneral_GR64⟩

theorem targetLoad_ok (poisoned : Bool) : Instr.Ok (tableSetting poisoned) (fun _ => .GR64) 4
    tableLog [tableCall[0]] tableCall[1] where
  known := by simp [tableCall, Instr.readRegs, known_virt]
  uses := by simp [tableCall]
  base := by
    intro m r hm hr
    obtain rfl := Option.some.inj hm
    obtain rfl := Option.some.inj hr
    exact ⟨Nat.le_refl _, by decide⟩
  index := by
    intro m hm
    obtain rfl := Option.some.inj hm
    exact ⟨Nat.le_refl _, by decide⟩
  flags := by simp [tableCall]
  notRead := by simp [tableCall, Instr.readRegs]
  notDefined := by simp [tableCall]
  nodup := by simp [tableCall]
  state := by
    show Reg.virt 1 ∉ _
    simp [tableCall]
  loadAddr := by
    intro _ m hm op hop
    obtain rfl := Option.some.inj hm
    have hop : op = (.BaseMO, .virt 0) ∨ op = (.IndexMO, .virt 2) := by
      simpa [hardenedOperands, baseOperands] using hop
    obtain rfl | rfl := hop
    · exact ⟨0, rfl, hardenable_GR64⟩
    · exact ⟨2, rfl, hardenable_GR64⟩
  indirectTarget := by simp [tableCall, tableLog]
  postLoad := by simp [tableCall, tableLog]

theorem indirectCall_ok (poisoned : Bool) : Instr.Ok (tableSetting poisoned) (fun _ => .GR64) 4
    tableLog [tableCall[0], tableCall[1]] tableCall[2] where
  known := by simp [tableCall, Instr.readRegs, known_virt]
  uses := by
    intro use huse
    obtain rfl := List.mem_singleton.mp huse
    exact Nat.le_refl _
  base := by simp [tableCall]
  index := by simp [tableCall]
  flags := by simp [tableCall, EFLAGS]
  notRead := by simp [tableCall]
  notDefined := by simp [tableCall]
  nodup := by simp [tableCall]
  state := by simp [tableCall]
  loadAddr := by simp [tableCall]
  indirectTarget := by
    rintro - - - use uses huses
    obtain ⟨rfl, -⟩ := List.cons.inj huses
    exact ⟨3, rfl, isGeneral_GR64⟩
  postLoad := by simp [tableCall]

theorem tableCall_ok (poisoned : Bool) :
    Ok (tableSetting poisoned) (fun _ => .GR64) 4 tableLog tableCall :=
  ((ok_nil.snoc (indexLoad_ok poisoned)).snoc (targetLoad_ok poisoned)).snoc
    (indirectCall_ok poisoned)

theorem tableCall_plain : ((tableSetting false).after (hardenInstrs x86Target true tableLog
      tableCall (initial (fun _ => .GR64) 4))).events =
    (run (tableSetting false).sem id (tableCall.map .instr) (tableSetting false).entry).events :=
  (hardenInstrs_plain x86Target_sized (known_virt (by decide)) (by decide)
    (tableSetting_state false) (tableCall_ok false)).1.events

/-- The target of the call is hidden on a wrong path. -/
theorem tableCall_poisoned : ∃ e v, ((tableSetting true).after (hardenInstrs x86Target true tableLog
      tableCall (initial (fun _ => .GR64) 4))).events[2]? = some e ∧
    e.reads.head? = some v ∧ Hidden x86Target 64 v := by
  obtain ⟨⟨es, hes, -, hall⟩, -⟩ := hardenInstrs_poisoned x86Target_sized
    (known_virt (by decide)) (by decide) (tableSetting_state true) (tableCall_ok true)
  obtain ⟨e, he, hhidden⟩ := hall [tableCall[0], tableCall[1]] tableCall[2] [] rfl
  obtain ⟨v, hv, hv'⟩ := hhidden.target (by decide) rfl rfl _ _ rfl
  exact ⟨e, v, (congrArg (fun l : List Event => l[2]?) hes).trans he, hv, hv'⟩

end MSV.SLH.InBlock
