import Mathlib
import MSV.SLH.BlockCode

/-!
# What hardening the accesses of a block does

Each function that puts in code has a contract: which registers and flags the code leaves alone, and
what it leaves in the register that is new. The registers that are remembered keep their values as
long as the code that follows writes to new registers only.
-/

namespace MSV.SLH.InBlock

/-! ## Live flags -/

section Live

variable {liveIn : Bool} {items : List Item}

theorem isEFLAGSLive_snoc (x : Item) : isEFLAGSLive liveIn (items ++ [x]) =
    match x.definesEFLAGS with
    | some isDead => !isDead
    | none => if x.killsEFLAGS then false else isEFLAGSLive liveIn items := by
  rw [isEFLAGSLive, List.reverse_append]
  rfl

/-- Inserted code that defines the flags leaves them dead, if it does not restore them. -/
theorem isEFLAGSLive_inserted (liveIn : Bool) (items : List Item) {code : List Inserted}
    (h : ∀ I ∈ code, I.dst ≠ EFLAGS) :
    isEFLAGSLive liveIn (items ++ code.map .inserted) = isEFLAGSLive liveIn items ∨
      (∃ I ∈ code, I.opcode.setsFlags = true) ∧
        isEFLAGSLive liveIn (items ++ code.map .inserted) = false := by
  induction code using List.reverseRecOn with
  | nil => simp
  | append_singleton code I ih =>
    have hI := h I (by simp)
    rw [List.map_append, List.map_singleton, ← List.append_assoc, isEFLAGSLive_snoc]
    simp only [Item.definesEFLAGS, hI, if_false, Item.killsEFLAGS, Bool.false_eq_true]
    by_cases hsets : I.opcode.setsFlags = true
    · exact .inr ⟨⟨I, by simp, hsets⟩, by simp [hsets]⟩
    · simp only [hsets, Bool.false_eq_true, if_false]
      obtain heq | ⟨⟨J, hJ, hset⟩, heq⟩ := ih fun J hJ => h J (by simp [hJ])
      · exact .inl heq
      · exact .inr ⟨⟨J, by simp [hJ], hset⟩, heq⟩

end Live

/-! ## Inserted code -/

/-- The register was there before the one of this number. -/
def Known (N : Nat) (r : Reg) : Prop := ∀ n, N ≤ n → r ≠ .virt n

theorem Known.mono {N N' : Nat} {r : Reg} (h : Known N r) (hle : N ≤ N') : Known N' r :=
  fun n hn => h n (Nat.le_trans hle hn)

theorem known_virt {N n : Nat} (h : n < N) : Known N (.virt n) := by
  intro m hm heq
  have := Reg.virt.inj heq
  omega

/-- What becomes of a value that is merged with the predicate state. A shift leaves one bit. -/
def Merged (T : VTTarget) (poisoned : Bool) {w : Nat} (v t : BitVec w) : Prop :=
  if poisoned then t = BitVec.allOnes w ∨ T.hasBMI2 = true ∧ t.toNat ≤ 1 else t = v

theorem merged_hide (T : VTTarget) (poisoned : Bool) {w : Nat} (v : BitVec w) :
    Merged T poisoned v (hide poisoned v) := by
  cases poisoned with
  | false => rfl
  | true => exact .inl rfl

theorem orLow_comm (k : Nat) (a b : BitVec 512) : orLow k a b = orLow k b a := by
  rw [orLow, BitVec.or_comm, orLow]

/-- A shift by the state. -/
theorem merged_shrx {T : VTTarget} (hBMI2 : T.hasBMI2 = true) {w : Nat} (hw : w ≤ 64)
    {v count : BitVec 512} {poisoned : Bool}
    (h : count.setWidth 64 = if poisoned then BitVec.allOnes 64 else 0) :
    Merged T poisoned (v.setWidth w) ((shrx v count).setWidth w) := by
  rw [shrx, h]
  cases poisoned with
  | false =>
    have hcount : (0 : BitVec 64).toNat % 64 = 0 := rfl
    show BitVec.setWidth w
      (BitVec.setWidth 512 (v.setWidth 64 >>> ((0 : BitVec 64).toNat % 64))) = _
    rw [hcount, BitVec.ushiftRight_zero, setWidth_setWidth_le hw (by decide)]
  | true =>
    have hcount : (BitVec.allOnes 64).toNat % 64 = 63 := rfl
    have hone : (v.setWidth 64 >>> 63).toNat ≤ 1 := by
      rw [BitVec.toNat_ushiftRight, Nat.shiftRight_eq_div_pow]
      have := (v.setWidth 64).isLt
      omega
    refine .inr ⟨hBMI2, ?_⟩
    rw [if_pos rfl, hcount, BitVec.toNat_setWidth, BitVec.toNat_setWidth]
    exact Nat.le_trans (Nat.mod_le _ _) (Nat.le_trans (Nat.mod_le _ _) hone)

section Code

variable {M : Type*} (sem : Semantics M) (flagsOf : BitVec 512 → BitVec 512)

theorem run_append (l l' : List Item) (m : Machine M) :
    run sem flagsOf (l ++ l') m = run sem flagsOf l' (run sem flagsOf l m) := List.foldl_append

theorem run_snoc (l : List Item) (x : Item) (m : Machine M) :
    run sem flagsOf (l ++ [x]) m = x.exec sem flagsOf (run sem flagsOf l m) := by
  rw [run_append]
  rfl

theorem run_inserted (code : List Inserted) (m : Machine M) :
    run sem flagsOf (code.map .inserted) m =
      { m with regs := runInserted flagsOf code m.regs } := by
  induction code generalizing m with
  | nil => rfl
  | cons I code ih => exact ih _

/-- What a block is run with: what its instructions compute, the flags that an OR sets, the machine
at its entry, and what the pass knows of target and block. -/
structure Setting (M : Type*) where
  sem : Semantics M
  flagsOf : BitVec 512 → BitVec 512
  entry : Machine M
  T : VTTarget
  liveIn : Bool

variable (C : Setting M)

/-- The machine behind what the block has become so far. -/
def Setting.after (s : State) : Machine M := run C.sem C.flagsOf s.items C.entry

def Setting.live (s : State) : Bool := isEFLAGSLive C.liveIn s.items

/-- The pass puts in code that writes to registers from `N` on, and to flags that need not be
kept. -/
structure Extends (N : Nat) (keepsFlags : Bool) (s s' : State) : Prop where
  le : s.nextReg ≤ s'.nextReg
  regClass : ∀ n < N, s'.regClass n = s.regClass n
  replaced : s'.replaced = s.replaced
  mem : (C.after s').mem = (C.after s).mem
  events : (C.after s').events = (C.after s).events
  regs : ∀ q, Known N q → (q = EFLAGS → keepsFlags = true) →
    (C.after s').regs q = (C.after s).regs q

variable {C} {N : Nat} {keepsFlags : Bool} {s s' s'' : State}

theorem Extends.refl (N : Nat) (keepsFlags : Bool) (s : State) :
    Extends C N keepsFlags s s :=
  ⟨Nat.le_refl _, fun _ _ => rfl, rfl, rfl, rfl, fun _ _ _ => rfl⟩

theorem Extends.trans (h : Extends C N keepsFlags s s')
    (h' : Extends C N keepsFlags s' s'') :
    Extends C N keepsFlags s s'' where
  le := Nat.le_trans h.le h'.le
  regClass n hn := (h'.regClass n hn).trans (h.regClass n hn)
  replaced := h'.replaced.trans h.replaced
  mem := h'.mem.trans h.mem
  events := h'.events.trans h.events
  regs q hq hE := (h'.regs q hq hE).trans (h.regs q hq hE)

/-- Code for later registers is code for registers from an earlier one on. -/
theorem Extends.mono {N' : Nat} {keeps : Bool} (h : Extends C N' keeps s s')
    (hle : N ≤ N') (hkeeps : keepsFlags = true → keeps = true) :
    Extends C N keepsFlags s s' where
  le := h.le
  regClass n hn := h.regClass n (Nat.lt_of_lt_of_le hn hle)
  replaced := h.replaced
  mem := h.mem
  events := h.events
  regs q hq hE := h.regs q (hq.mono hle) fun hqE => hkeeps (hE hqE)

theorem after_inserted (code : List Inserted) (h : s'.items = s.items ++ code.map .inserted) :
    C.after s' = { C.after s with
      regs := runInserted C.flagsOf code (C.after s).regs } := by
  rw [Setting.after, h, run_append, run_inserted]
  rfl

theorem extends_inserted {code : List Inserted} (h : s'.items = s.items ++ code.map .inserted)
    (hle : s.nextReg ≤ s'.nextReg) (hcls : ∀ n < N, s'.regClass n = s.regClass n)
    (hreplaced : s'.replaced = s.replaced) (hnew : ∀ I ∈ code, ∃ n, I.dst = .virt n ∧ N ≤ n)
    (hflags : keepsFlags = true → ∀ I ∈ code, I.opcode.setsFlags = false) :
    Extends C N keepsFlags s s' where
  le := hle
  regClass := hcls
  replaced := hreplaced
  mem := by rw [after_inserted _ h]
  events := by rw [after_inserted _ h]
  regs q hq hE := by
    rw [after_inserted _ h]
    refine runInserted_frame C.flagsOf (fun I hI heq => ?_) (fun hqE => hflags (hE hqE)) _
    obtain ⟨n, hn, hle⟩ := hnew I hI
    exact hq n hle (heq.trans hn)

end Code

/-! ## Addresses -/

section Addr

variable {M : Type*} {C : Setting M} {T : VTTarget} {EFLAGSLive poisoned : Bool} {s s' : State}
  {OpReg TmpReg : Reg}

/-- A class of registers that the source can harden in an address. -/
def Hardenable (T : VTTarget) (RC : RegClass) : Prop :=
  T.hasSuperClassEq RC .VR128 = true ∨ T.hasSuperClassEq RC .VR256 = true ∨
    T.hasSuperClassEq RC .VR128X = true ∨ T.hasSuperClassEq RC .VR256X = true ∨
    T.hasSuperClassEq RC .VR512 = true ∨ T.hasSuperClassEq RC .GR64 = true

/-- What is done for a register of an address. -/
structure HardensAddr (C : Setting M) (EFLAGSLive : Bool) (OpReg : Reg) (s s' : State)
    (TmpReg : Reg) : Prop where
  extend : Extends C s.nextReg EFLAGSLive s s'
  live : C.live s' = C.live s ∨ EFLAGSLive = false ∧ C.live s' = false
  new : ∃ n, TmpReg = .virt n ∧ s.nextReg ≤ n ∧ n < s'.nextReg
  regClass : s'.getRegClass TmpReg = s.getRegClass OpReg
  remembered : s'.AddrRegToHardenedReg = s.AddrRegToHardenedReg.set OpReg TmpReg
  value : ∀ poisoned, (C.after s).regs.holdsState C.T.StateReg poisoned →
    ∀ w ≤ C.T.getRegSizeInBits (s.getRegClass OpReg),
      Merged C.T poisoned ((C.after s).regs.read w OpReg)
        ((C.after s').regs.read w TmpReg)

/-- Inserted code that leaves the value merged with the state in its first new register. -/
theorem hardensAddr_inserted (code : List Inserted) {n : Nat}
    (h : s'.items = s.items ++ code.map .inserted) (hn : s.nextReg < n)
    (hnext : s'.nextReg = n)
    (hcls : ∀ n < s.nextReg, s'.regClass n = s.regClass n)
    (hnew : ∀ I ∈ code, ∃ n, I.dst = .virt n ∧ s.nextReg ≤ n)
    (hflags : EFLAGSLive = true → ∀ I ∈ code, I.opcode.setsFlags = false)
    (hreplaced : s'.replaced = s.replaced)
    (hclass : s'.regClass s.nextReg = s.getRegClass OpReg)
    (hremembered : s'.AddrRegToHardenedReg =
      s.AddrRegToHardenedReg.set OpReg (.virt s.nextReg))
    (hvalue : ∀ ρ poisoned, RegFile.holdsState ρ C.T.StateReg poisoned →
      ∀ w ≤ C.T.getRegSizeInBits (s.getRegClass OpReg),
        (runInserted C.flagsOf code ρ).read w (.virt s.nextReg) = hide poisoned (ρ.read w OpReg)) :
    HardensAddr C EFLAGSLive OpReg s s' (.virt s.nextReg) where
  extend := extends_inserted h (by omega) hcls hreplaced hnew hflags
  live := by
    have hdst : ∀ I ∈ code, I.dst ≠ EFLAGS := by
      intro I hI hE
      obtain ⟨k, hk, -⟩ := hnew I hI
      rw [hk] at hE
      cases hE
    rw [Setting.live, Setting.live, h]
    obtain heq | ⟨⟨I, hI, hset⟩, heq⟩ := isEFLAGSLive_inserted C.liveIn s.items hdst
    · exact .inl heq
    · refine .inr ⟨?_, heq⟩
      by_contra hlive
      rw [hflags (by simpa using hlive) I hI] at hset
      cases hset
  new := ⟨s.nextReg, rfl, Nat.le_refl _, by omega⟩
  regClass := hclass
  remembered := hremembered
  value := by
    intro p hp w hw
    rw [after_inserted _ h]
    show Merged C.T p _ (RegFile.read _ w _)
    rw [hvalue _ p hp w hw]
    exact merged_hide C.T p _

theorem update_new {N k n : Nat} {cls : Nat → RegClass} {RC : RegClass} (hn : n < N) (hk : N ≤ k) :
    Function.update cls k RC n = cls n := Function.update_of_ne (by omega) _ _

/-- A class that is none of vectors is one of general registers. -/
theorem Hardenable.general {RC : RegClass} (h : Hardenable C.T RC) (hT : C.T.Sized)
    (hvectorX : ¬ (C.T.hasSuperClassEq RC .VR128X = true ∨ C.T.hasSuperClassEq RC .VR256X = true ∨
      C.T.hasSuperClassEq RC .VR512 = true)) : C.T.getRegSizeInBits RC = 64 := by
  obtain h | h | h | h | h | h := h
  · exact absurd (.inl (hT.vr128 RC h).2) hvectorX
  · exact absurd (.inr (.inl (hT.vr256 RC h).2)) hvectorX
  · exact absurd (.inl h) hvectorX
  · exact absurd (.inr (.inl h)) hvectorX
  · exact absurd (.inr (.inr h)) hvectorX
  · exact hT.gr64 RC h

/-- `hardenAddrReg`, with the merge as a step of its own. -/
theorem hardenAddrReg_eq (T : VTTarget) (EFLAGSLive : Bool) (OpReg : Reg) (s : State) :
    hardenAddrReg T EFLAGSLive OpReg s = (.virt s.nextReg,
      (remember OpReg (.virt s.nextReg)
        ((if T.hasVLX = false ∧ (T.hasSuperClassEq (s.getRegClass OpReg) .VR128 = true ∨
              T.hasSuperClassEq (s.getRegClass OpReg) .VR256 = true) then
            mergeVector T (s.getRegClass OpReg) (.virt s.nextReg) OpReg
          else if T.hasSuperClassEq (s.getRegClass OpReg) .VR128X = true ∨
              T.hasSuperClassEq (s.getRegClass OpReg) .VR256X = true ∨
              T.hasSuperClassEq (s.getRegClass OpReg) .VR512 = true then
            mergeVectorX T (s.getRegClass OpReg) (.virt s.nextReg) OpReg
          else mergeGeneral T EFLAGSLive (.virt s.nextReg) OpReg)
          (createVirtualRegister (s.getRegClass OpReg) s).2).2).2) := by
  simp only [hardenAddrReg, bind, StateT.bind, get, getThe, MonadStateOf.get, StateT.get, pure,
    Bool.not_eq_true']
  split_ifs <;> rfl

theorem hardenGeneral_hardens {RC : RegClass} (hT : C.T.Sized)
    (hBMI2 : EFLAGSLive = true → C.T.hasBMI2 = true) (hclass : Hardenable C.T RC)
    (hRC : s.getRegClass OpReg = RC)
    (hvector : ¬ (C.T.hasVLX = false ∧
      (C.T.hasSuperClassEq RC .VR128 = true ∨ C.T.hasSuperClassEq RC .VR256 = true)))
    (hvectorX : ¬ (C.T.hasSuperClassEq RC .VR128X = true ∨ C.T.hasSuperClassEq RC .VR256X = true ∨
      C.T.hasSuperClassEq RC .VR512 = true)) :
    HardensAddr C EFLAGSLive OpReg s (hardenAddrReg C.T EFLAGSLive OpReg s).2
      (hardenAddrReg C.T EFLAGSLive OpReg s).1 := by
  have hsize := hclass.general hT hvectorX
  have heq (I : Item) (hI : I = if EFLAGSLive then .SHRX64rr (.virt s.nextReg) OpReg C.T.StateReg
      else .inserted ⟨.OR64rr, .virt s.nextReg, [C.T.StateReg, OpReg], none⟩) :
      hardenAddrReg C.T EFLAGSLive OpReg s = (.virt s.nextReg,
        { s with
          items := s.items ++ [I]
          AddrRegToHardenedReg := s.AddrRegToHardenedReg.set OpReg (.virt s.nextReg)
          regClass := Function.update s.regClass s.nextReg RC
          nextReg := s.nextReg + 1 }) := by
    subst hI
    rw [hardenAddrReg_eq, hRC, if_neg hvector, if_neg hvectorX, mergeGeneral]
    cases EFLAGSLive <;> rfl
  rw [heq _ rfl]
  cases EFLAGSLive with
  | false =>
    refine hardensAddr_inserted [⟨.OR64rr, .virt s.nextReg, [C.T.StateReg, OpReg], none⟩]
      (by simp) (Nat.lt_succ_self _) rfl (fun n hn => update_new hn (Nat.le_refl _))
      (fun I hI => ?_) (fun h => absurd h Bool.false_ne_true) rfl ?_ rfl fun ρ p hp w hw => ?_
    · rw [List.mem_singleton.mp hI]
      exact ⟨_, rfl, Nat.le_refl _⟩
    · exact (Function.update_self _ _ _).trans hRC.symm
    · rw [hRC, hsize] at hw
      rw [runInserted, List.foldl_cons, List.foldl_nil, RegFile.read, exec_or64, orLow_comm,
        merge_state hw (Nat.le_refl _) hp, RegFile.read]
  | true =>
    exact {
      extend := {
        le := Nat.le_succ _
        regClass := fun n hn => update_new hn (Nat.le_refl _)
        replaced := rfl
        mem := by simp only [Setting.after, run_snoc, if_true, Item.exec]
        events := by simp only [Setting.after, run_snoc, if_true, Item.exec]
        regs := fun q hq _ => by
          simp only [Setting.after, run_snoc, if_true, Item.exec]
          exact Function.update_of_ne (hq _ (Nat.le_refl _)) _ _ }
      live := .inl (by
        show isEFLAGSLive C.liveIn (s.items ++ _) = _
        rw [isEFLAGSLive_snoc]
        rfl)
      new := ⟨_, rfl, Nat.le_refl _, Nat.lt_succ_self _⟩
      regClass := (Function.update_self _ _ _).trans hRC.symm
      remembered := rfl
      value := by
        intro p hp w hw
        rw [hRC, hsize] at hw
        simp only [Setting.after, run_snoc, if_true, Item.exec, RegFile.read, Function.update_self]
        exact merged_shrx (hBMI2 rfl) hw hp }

/-- A vector, with AVX2. -/
theorem hardenVector_hardens {RC : RegClass} (hT : C.T.Sized) (hr : Known s.nextReg OpReg)
    (hRC : s.getRegClass OpReg = RC)
    (hvector : C.T.hasVLX = false ∧
      (C.T.hasSuperClassEq RC .VR128 = true ∨ C.T.hasSuperClassEq RC .VR256 = true)) :
    HardensAddr C EFLAGSLive OpReg s (hardenAddrReg C.T EFLAGSLive OpReg s).2
      (hardenAddrReg C.T EFLAGSLive OpReg s).1 := by
  have heq : hardenAddrReg C.T EFLAGSLive OpReg s = (.virt s.nextReg,
      { s with
        items := s.items ++
          [.inserted ⟨.VMOV64toPQIrr, .virt (s.nextReg + 1), [C.T.StateReg], none⟩] ++
          [.inserted ⟨if C.T.hasSuperClassEq RC .VR128 then .VPBROADCASTQrr else .VPBROADCASTQYrr,
            .virt (s.nextReg + 2), [.virt (s.nextReg + 1)], none⟩] ++
          [.inserted ⟨if C.T.hasSuperClassEq RC .VR128 then .VPORrr else .VPORYrr,
            .virt s.nextReg, [.virt (s.nextReg + 2), OpReg], none⟩]
        AddrRegToHardenedReg := s.AddrRegToHardenedReg.set OpReg (.virt s.nextReg)
        regClass := Function.update (Function.update (Function.update s.regClass s.nextReg RC)
          (s.nextReg + 1) .VR128) (s.nextReg + 2) RC
        nextReg := s.nextReg + 3 }) := by
    rw [hardenAddrReg_eq, hRC, if_pos hvector]
    rfl
  rw [heq]
  refine hardensAddr_inserted
    (vectorCode (C.T.hasSuperClassEq RC .VR128) s.nextReg C.T.StateReg OpReg)
    (by simp [vectorCode]) (Nat.lt_add_of_pos_right (by decide)) rfl (fun n hn => ?_) ?_
    (fun _ I hI => ?_) rfl ?_ rfl fun ρ p hp w hw => ?_
  · exact (update_new hn (by omega)).trans
      ((update_new hn (by omega)).trans (update_new hn (Nat.le_refl _)))
  · intro I hI
    simp only [vectorCode, List.mem_cons, List.not_mem_nil, or_false] at hI
    obtain rfl | rfl | rfl := hI
    · exact ⟨_, rfl, by omega⟩
    · exact ⟨_, rfl, by omega⟩
    · exact ⟨_, rfl, Nat.le_refl _⟩
  · simp only [vectorCode, List.mem_cons, List.not_mem_nil, or_false] at hI
    obtain rfl | rfl | rfl := hI <;> simp only <;> first | rfl | (split <;> rfl)
  · simp [hRC]
  · refine vectorCode_value C.flagsOf ?_ hr hp
    rw [hRC] at hw
    cases h128 : C.T.hasSuperClassEq RC .VR128 with
    | true => exact Nat.le_trans hw (hT.vr128 RC h128).1
    | false =>
      have h256 := hvector.2.resolve_left (by simp [h128])
      exact Nat.le_trans hw (hT.vr256 RC h256).1

/-- A vector, with AVX-512. -/
theorem hardenVectorX_hardens {RC : RegClass} (hT : C.T.Sized) (hr : Known s.nextReg OpReg)
    (hRC : s.getRegClass OpReg = RC)
    (hvector : ¬ (C.T.hasVLX = false ∧
      (C.T.hasSuperClassEq RC .VR128 = true ∨ C.T.hasSuperClassEq RC .VR256 = true)))
    (hvectorX : C.T.hasSuperClassEq RC .VR128X = true ∨ C.T.hasSuperClassEq RC .VR256X = true ∨
      C.T.hasSuperClassEq RC .VR512 = true) :
    HardensAddr C EFLAGSLive OpReg s (hardenAddrReg C.T EFLAGSLive OpReg s).2
      (hardenAddrReg C.T EFLAGSLive OpReg s).1 := by
  have heq : hardenAddrReg C.T EFLAGSLive OpReg s = (.virt s.nextReg,
      { s with
        items := s.items ++
          [.inserted ⟨if C.T.hasSuperClassEq RC .VR128X then .VPBROADCASTQrZ128rr
            else if C.T.hasSuperClassEq RC .VR256X then .VPBROADCASTQrZ256rr
            else .VPBROADCASTQrZrr,
            .virt (s.nextReg + 1), [C.T.StateReg], none⟩] ++
          [.inserted ⟨if C.T.hasSuperClassEq RC .VR128X then .VPORQZ128rr
            else if C.T.hasSuperClassEq RC .VR256X then .VPORQZ256rr else .VPORQZrr,
            .virt s.nextReg, [.virt (s.nextReg + 1), OpReg], none⟩]
        AddrRegToHardenedReg := s.AddrRegToHardenedReg.set OpReg (.virt s.nextReg)
        regClass := Function.update (Function.update s.regClass s.nextReg RC) (s.nextReg + 1) RC
        nextReg := s.nextReg + 2 }) := by
    rw [hardenAddrReg_eq, hRC, if_neg hvector, if_pos hvectorX]
    rfl
  rw [heq]
  refine hardensAddr_inserted (vectorXCode (C.T.hasSuperClassEq RC .VR128X)
    (C.T.hasSuperClassEq RC .VR256X) s.nextReg C.T.StateReg OpReg) (by simp [vectorXCode])
    (Nat.lt_add_of_pos_right (by decide)) rfl (fun n hn => ?_) ?_ (fun _ I hI => ?_) rfl ?_ rfl
    fun ρ p hp w hw => ?_
  · exact (update_new hn (by omega)).trans (update_new hn (Nat.le_refl _))
  · intro I hI
    simp only [vectorXCode, List.mem_cons, List.not_mem_nil, or_false] at hI
    obtain rfl | rfl := hI
    · exact ⟨_, rfl, by omega⟩
    · exact ⟨_, rfl, Nat.le_refl _⟩
  · simp only [vectorXCode, List.mem_cons, List.not_mem_nil, or_false] at hI
    obtain rfl | rfl := hI <;> simp only <;> split <;> first | rfl | (split <;> rfl)
  · simp [hRC]
  · refine vectorXCode_value C.flagsOf ?_ hr hp
    rw [hRC] at hw
    cases h128 : C.T.hasSuperClassEq RC .VR128X with
    | true => exact Nat.le_trans hw (hT.vr128x RC h128)
    | false =>
      cases h256 : C.T.hasSuperClassEq RC .VR256X with
      | true => exact Nat.le_trans hw (hT.vr256x RC h256)
      | false =>
        have h512 : C.T.hasSuperClassEq RC .VR512 = true := by simpa [h128, h256] using hvectorX
        exact Nat.le_trans hw (hT.vr512 RC h512)

theorem hardenAddrReg_hardens (hT : C.T.Sized) (hBMI2 : EFLAGSLive = true → C.T.hasBMI2 = true)
    (hclass : Hardenable C.T (s.getRegClass OpReg)) (hr : Known s.nextReg OpReg) :
    HardensAddr C EFLAGSLive OpReg s (hardenAddrReg C.T EFLAGSLive OpReg s).2
      (hardenAddrReg C.T EFLAGSLive OpReg s).1 := by
  by_cases hvector : C.T.hasVLX = false ∧
      (C.T.hasSuperClassEq (s.getRegClass OpReg) .VR128 = true ∨
        C.T.hasSuperClassEq (s.getRegClass OpReg) .VR256 = true)
  · exact hardenVector_hardens hT hr rfl hvector
  · by_cases hvectorX : C.T.hasSuperClassEq (s.getRegClass OpReg) .VR128X = true ∨
        C.T.hasSuperClassEq (s.getRegClass OpReg) .VR256X = true ∨
        C.T.hasSuperClassEq (s.getRegClass OpReg) .VR512 = true
    · exact hardenVectorX_hardens hT hr rfl hvector hvectorX
    · exact hardenGeneral_hardens hT hBMI2 hclass rfl hvector hvectorX

end Addr

/-! ## Saving the flags -/

section Flags

variable {M : Type*} {C : Setting M} {N : Nat} {keepsFlags : Bool} {s s' : State}

theorem Extends.virt (h : Extends C N keepsFlags s s') {i : Nat} (hi : i < N) :
    (C.after s').regs (.virt i) = (C.after s).regs (.virt i) :=
  h.regs _ (known_virt hi) fun hE => by cases hE

theorem Extends.getRegClass (h : Extends C N keepsFlags s s') {i : Nat} (hi : i < N) :
    s'.getRegClass (.virt i) = s.getRegClass (.virt i) := h.regClass i hi

/-- The predicate state is where it was. -/
theorem Extends.holdsState {r : Reg} {poisoned : Bool} (h : Extends C N keepsFlags s s')
    (hr : Known N r) (hE : r ≠ EFLAGS) (hp : (C.after s).regs.holdsState r poisoned) :
    (C.after s').regs.holdsState r poisoned := by
  rw [RegFile.holdsState, RegFile.read, h.regs r hr fun hq => absurd hq hE]
  exact hp

/-- Code between saving and restoring the flags. -/
theorem extends_saved (keepsFlags : Bool) {FlagsReg : Option Reg} {live : Bool} {s₁ s₂ : State}
    (hsave : saveEFLAGS live s = (FlagsReg, s₁)) (h : Extends C s₁.nextReg false s₁ s₂)
    (hlive : live = false → Extends C s.nextReg keepsFlags s₁ s₂)
    (hflags : live = true → C.live s = true)
    (hkept : live = false → C.live s₂ = C.live s) :
    Extends C s.nextReg keepsFlags s (restoreEFLAGS FlagsReg s₂).2 ∧
      C.live (restoreEFLAGS FlagsReg s₂).2 = C.live s ∧
      (restoreEFLAGS FlagsReg s₂).2.AddrRegToHardenedReg = s₂.AddrRegToHardenedReg ∧
      (restoreEFLAGS FlagsReg s₂).2.regClass = s₂.regClass ∧
      (restoreEFLAGS FlagsReg s₂).2.nextReg = s₂.nextReg ∧
      ∀ q, q ≠ EFLAGS → (C.after (restoreEFLAGS FlagsReg s₂).2).regs q = (C.after s₂).regs q := by
  cases live with
  | false =>
    obtain ⟨rfl, rfl⟩ := Prod.mk.inj hsave
    exact ⟨hlive rfl, hkept rfl, rfl, rfl, rfl, fun _ _ => rfl⟩
  | true =>
    obtain ⟨rfl, rfl⟩ := Prod.mk.inj hsave
    set s₁ : State := { s with
      items := s.items ++ [.inserted ⟨.COPY, .virt s.nextReg, [EFLAGS], none⟩]
      regClass := Function.update s.regClass s.nextReg .GR32
      nextReg := s.nextReg + 1 } with hs₁
    have hcode : s₁.items = s.items ++
        [Inserted.mk .COPY (.virt s.nextReg) [EFLAGS] none].map .inserted := rfl
    have hafter : C.after s₁ = { C.after s with
        regs := Function.update (C.after s).regs (.virt s.nextReg) ((C.after s).regs EFLAGS) } :=
      after_inserted _ hcode
    have hsaved : (C.after s₂).regs (.virt s.nextReg) = (C.after s).regs EFLAGS := by
      rw [h.virt (Nat.lt_succ_self _), hafter]
      exact Function.update_self _ _ _
    have hrestored : C.after (restoreEFLAGS (some (.virt s.nextReg)) s₂).2 = { C.after s₂ with
        regs := Function.update (C.after s₂).regs EFLAGS ((C.after s).regs EFLAGS) } := by
      rw [← hsaved]
      exact after_inserted [⟨.COPY, EFLAGS, [.virt s.nextReg], none⟩] rfl
    refine ⟨?_, ?_, rfl, rfl, rfl, fun q hq => ?_⟩
    · exact {
        le := Nat.le_trans (Nat.le_succ _) h.le
        regClass := fun n hn => (h.regClass n (Nat.lt_succ_of_lt hn)).trans
          (update_new hn (Nat.le_refl _))
        replaced := h.replaced
        mem := by
          rw [hrestored]
          exact h.mem.trans (by rw [hafter])
        events := by
          rw [hrestored]
          exact h.events.trans (by rw [hafter])
        regs := fun q hq _ => by
          rw [hrestored]
          by_cases hqE : q = EFLAGS
          · simp only [hqE, Function.update_self]
          · refine (Function.update_of_ne hqE _ _).trans ?_
            rw [h.regs q (hq.mono (Nat.le_succ _)) fun h' => absurd h' hqE, hafter]
            exact Function.update_of_ne (hq _ (Nat.le_refl _)) _ _ }
    · rw [hflags rfl]
      show isEFLAGSLive C.liveIn (s₂.items ++ _) = true
      rw [isEFLAGSLive_snoc]
      rfl
    · rw [hrestored]
      exact Function.update_of_ne hq _ _

end Flags

/-! ## The registers that are remembered -/

section Entries

variable {M : Type*}

/-- A register, and the one that holds its value merged with the state. It is a new register itself,
or one that the instructions have read. -/
structure Entry (C : Setting M) (poisoned : Bool) (N : Nat) (Read : Reg → Prop) (s : State)
    (k t : Reg) : Prop where
  key : ∃ i, k = .virt i ∧ i < s.nextReg ∧ (N ≤ i ∨ Read k)
  hardened : ∃ j, t = .virt j ∧ j < s.nextReg ∧ N ≤ j
  regClass : s.getRegClass t = s.getRegClass k
  value : ∀ w ≤ C.T.getRegSizeInBits (s.getRegClass k),
    Merged C.T poisoned ((C.after s).regs.read w k) ((C.after s).regs.read w t)

def Remembers (C : Setting M) (poisoned : Bool) (N : Nat) (Read : Reg → Prop) (s : State) : Prop :=
  ∀ k t, s.AddrRegToHardenedReg.find k = some t → Entry C poisoned N Read s k t

variable {C : Setting M} {poisoned EFLAGSLive keepsFlags : Bool} {N : Nat} {Read : Reg → Prop}
  {s s' : State} {k t : Reg}

theorem Entry.extend (h : Entry C poisoned N Read s k t)
    (hE : Extends C s.nextReg keepsFlags s s') : Entry C poisoned N Read s' k t := by
  obtain ⟨⟨i, rfl, hi, hkey⟩, ⟨j, rfl, hj, hN⟩, hcls, hvalue⟩ := h
  exact {
    key := ⟨i, rfl, Nat.lt_of_lt_of_le hi hE.le, hkey⟩
    hardened := ⟨j, rfl, Nat.lt_of_lt_of_le hj hE.le, hN⟩
    regClass := by rw [hE.getRegClass hi, hE.getRegClass hj, hcls]
    value := by
      intro w hw
      rw [hE.getRegClass hi] at hw
      rw [RegFile.read, RegFile.read, hE.virt hi, hE.virt hj]
      exact hvalue w hw }

theorem Remembers.extend (h : Remembers C poisoned N Read s)
    (hE : Extends C s.nextReg keepsFlags s s')
    (heq : s'.AddrRegToHardenedReg = s.AddrRegToHardenedReg) : Remembers C poisoned N Read s' :=
  fun k t hk => (h k t (heq ▸ hk)).extend hE

/-- A register that an address can be hardened in. -/
structure AddrReg (C : Setting M) (N : Nat) (Read : Reg → Prop) (s : State) (r : Reg) : Prop where
  virt : ∃ i, r = .virt i ∧ i < s.nextReg
  key : ∀ i, r = .virt i → N ≤ i ∨ Read r
  hardenable : Hardenable C.T (s.getRegClass r)

theorem AddrReg.extend {r : Reg} (h : AddrReg C N Read s r)
    (hE : Extends C s.nextReg keepsFlags s s') : AddrReg C N Read s' r := by
  obtain ⟨⟨i, rfl, hi⟩, hkey, hclass⟩ := h
  exact ⟨⟨i, rfl, Nat.lt_of_lt_of_le hi hE.le⟩, hkey, by rw [hE.getRegClass hi]; exact hclass⟩

theorem HardensAddr.remembers {r : Reg} (h : HardensAddr C EFLAGSLive r s s' t)
    (hr : AddrReg C N Read s r) (hN : N ≤ s.nextReg)
    (hp : (C.after s).regs.holdsState C.T.StateReg poisoned)
    (hrem : Remembers C poisoned N Read s) : Remembers C poisoned N Read s' := by
  intro k u hk
  rw [h.remembered, FMap.find_set] at hk
  obtain ⟨⟨i, rfl, hi⟩, hkey, -⟩ := hr
  by_cases hkr : k = .virt i
  · rw [if_pos hkr] at hk
    obtain rfl := Option.some.inj hk
    subst hkr
    obtain ⟨n, rfl, hn, hn'⟩ := h.new
    exact {
      key := ⟨i, rfl, Nat.lt_of_lt_of_le hi h.extend.le, hkey i rfl⟩
      hardened := ⟨n, rfl, hn', Nat.le_trans hN hn⟩
      regClass := by rw [h.regClass, h.extend.getRegClass hi]
      value := by
        intro w hw
        rw [h.extend.getRegClass hi] at hw
        rw [RegFile.read, h.extend.virt hi]
        exact h.value poisoned hp w hw }
  · rw [if_neg hkr] at hk
    exact (hrem k u hk).extend h.extend

/-! ## The loop over the operands -/

@[simp] theorem getReg_setReg_self (m : MemRef) (op : AddrOperand) (r : Reg) :
    getReg (setReg m op r) op = some r := by
  cases op <;> rfl

theorem getReg_setReg_ne (m : MemRef) {op op' : AddrOperand} (r : Reg) (h : op' ≠ op) :
    getReg (setReg m op r) op' = getReg m op' := by
  cases op <;> cases op' <;> first | rfl | exact absurd rfl h

/-- What is done for the registers of an address: `s'` and the address `m'`. -/
structure HardensAddrs (C : Setting M) (EFLAGSLive : Bool) (ops : List (AddrOperand × Reg))
    (m : MemRef) (s s' : State) (m' : MemRef) : Prop where
  extend : Extends C s.nextReg EFLAGSLive s s'
  live : C.live s' = C.live s ∨ EFLAGSLive = false ∧ C.live s' = false
  hardened : ∀ op ∈ ops, ∃ t, s'.AddrRegToHardenedReg.find op.2 = some t ∧ getReg m' op.1 = some t
  others : ∀ op, op ∉ ops.map Prod.fst → getReg m' op = getReg m op
  kept : ∀ k, k ∉ ops.map Prod.snd →
    s'.AddrRegToHardenedReg.find k = s.AddrRegToHardenedReg.find k

theorem hardenAddrRegs_hardens (hT : C.T.Sized) (hBMI2 : EFLAGSLive = true → C.T.hasBMI2 = true)
    (hState : Known N C.T.StateReg) (hE : C.T.StateReg ≠ EFLAGS) (ops : List (AddrOperand × Reg))
    (m : MemRef) (hN : N ≤ s.nextReg) (hops : ∀ op ∈ ops, AddrReg C N Read s op.2)
    (hfst : (ops.map Prod.fst).Nodup) (hsnd : (ops.map Prod.snd).Nodup)
    (hp : (C.after s).regs.holdsState C.T.StateReg poisoned) :
    HardensAddrs C EFLAGSLive ops m s (hardenAddrRegs C.T EFLAGSLive ops m s).2
        (hardenAddrRegs C.T EFLAGSLive ops m s).1 ∧
      (Remembers C poisoned N Read s →
        Remembers C poisoned N Read (hardenAddrRegs C.T EFLAGSLive ops m s).2) := by
  induction ops generalizing s m with
  | nil =>
    exact ⟨⟨.refl _ _ _, .inl rfl, fun _ h => absurd h List.not_mem_nil, fun _ _ => rfl,
      fun _ _ => rfl⟩, id⟩
  | cons op ops ih =>
    obtain ⟨o, r⟩ := op
    rw [List.map_cons, List.nodup_cons] at hfst hsnd
    have hr := hops (o, r) List.mem_cons_self
    have hone : HardensAddr C EFLAGSLive r s (hardenAddrReg C.T EFLAGSLive r s).2
        (hardenAddrReg C.T EFLAGSLive r s).1 := by
      obtain ⟨⟨i, rfl, hi⟩, -, hclass⟩ := hr
      exact hardenAddrReg_hardens hT hBMI2 hclass (known_virt hi)
    set s₁ := (hardenAddrReg C.T EFLAGSLive r s).2
    set t := (hardenAddrReg C.T EFLAGSLive r s).1
    have hp₁ := hone.extend.holdsState (hState.mono hN) hE hp
    obtain ⟨hrest, hrem⟩ := ih (s := s₁) (setReg m o t) (Nat.le_trans hN hone.extend.le)
      (fun op hop => (hops op (List.mem_cons_of_mem _ hop)).extend hone.extend) hfst.2 hsnd.2 hp₁
    have hfound : s₁.AddrRegToHardenedReg.find r = some t := by
      rw [hone.remembered, FMap.find_set_self]
    refine ⟨?_, fun h => hrem (hone.remembers hr hN hp h)⟩
    exact {
      extend := hone.extend.trans (hrest.extend.mono hone.extend.le id)
      live := by
        obtain heq | ⟨hflags, hdead⟩ := hrest.live
        · obtain heq' | ⟨hflags, hdead⟩ := hone.live
          · exact .inl (heq.trans heq')
          · exact .inr ⟨hflags, heq.trans hdead⟩
        · exact .inr ⟨hflags, hdead⟩
      hardened := by
        intro op hop
        obtain rfl | hop := List.mem_cons.mp hop
        · exact ⟨t, (hrest.kept r hsnd.1).trans hfound,
            (hrest.others o hfst.1).trans (getReg_setReg_self m o t)⟩
        · exact hrest.hardened op hop
      others := by
        intro op hop
        rw [List.map_cons, List.mem_cons, not_or] at hop
        exact (hrest.others op hop.2).trans (getReg_setReg_ne m t hop.1)
      kept := by
        intro k hk
        rw [List.map_cons, List.mem_cons, not_or] at hk
        refine (hrest.kept k hk.2).trans ?_
        rw [hone.remembered, FMap.find_set_ne _ _ hk.1] }

end Entries

/-! ## An access -/

section Load

variable {M : Type*} {C : Setting M} {poisoned keepsFlags : Bool} {N : Nat} {Read : Reg → Prop}
  {s s' : State}

theorem saveEFLAGS_extends {live : Bool} {FlagsReg : Option Reg}
    (h : saveEFLAGS live s = (FlagsReg, s')) :
    Extends C s.nextReg true s s' ∧ s'.AddrRegToHardenedReg = s.AddrRegToHardenedReg := by
  obtain ⟨-, rfl⟩ := Prod.mk.inj h.symm
  cases live with
  | false => exact ⟨.refl _ _ _, rfl⟩
  | true =>
    have hcode : (saveEFLAGS true s).2.items = s.items ++
        [Inserted.mk .COPY (.virt s.nextReg) [EFLAGS] none].map .inserted := rfl
    refine ⟨extends_inserted hcode (Nat.le_succ _) (fun n hn => update_new hn (Nat.le_refl _)) rfl
      (fun I hI => ?_) fun _ I hI => ?_, rfl⟩
    · rw [List.mem_singleton.mp hI]
      exact ⟨_, rfl, Nat.le_refl _⟩
    · rw [List.mem_singleton.mp hI]
      rfl

theorem restoreEFLAGS_extends (FlagsReg : Option Reg) :
    Extends C s.nextReg false s (restoreEFLAGS FlagsReg s).2 := by
  cases FlagsReg with
  | none => exact .refl _ _ _
  | some r =>
    have hafter : C.after (restoreEFLAGS (some r) s).2 = { C.after s with
        regs := Function.update (C.after s).regs EFLAGS ((C.after s).regs r) } :=
      after_inserted [⟨.COPY, EFLAGS, [r], none⟩] rfl
    exact {
      le := Nat.le_refl _
      regClass := fun _ _ => rfl
      replaced := rfl
      mem := by rw [hafter]
      events := by rw [hafter]
      regs := fun q _ hE => by
        rw [hafter]
        exact Function.update_of_ne (fun h => Bool.false_ne_true (hE h)) _ _ }

theorem mem_baseOperands {base : Option Reg} {op : AddrOperand × Reg}
    (h : op ∈ baseOperands base) : op.1 = .BaseMO ∧ base = some op.2 := by
  unfold baseOperands at h
  split at h
  case h_5 =>
    rw [List.mem_singleton.mp h]
    exact ⟨rfl, rfl⟩
  all_goals exact absurd h List.not_mem_nil

theorem mem_hardenedOperands {m : MemRef} {op : AddrOperand × Reg} (h : op ∈ hardenedOperands m) :
    (op.1 = .BaseMO ∧ m.base = some op.2) ∨ op = (.IndexMO, m.index) := by
  simp only [hardenedOperands] at h
  split_ifs at h with hindex
  · obtain h | h := List.mem_append.mp h
    · exact .inl (mem_baseOperands h)
    · exact .inr (List.mem_singleton.mp h)
  · exact .inl (mem_baseOperands h)

theorem getReg_of_mem {m : MemRef} {op : AddrOperand × Reg} (h : op ∈ hardenedOperands m) :
    getReg m op.1 = some op.2 := by
  obtain ⟨hop, hbase⟩ | rfl := mem_hardenedOperands h
  · rw [hop]
    exact hbase
  · rfl

theorem nodup_hardenedOperands (m : MemRef) : ((hardenedOperands m).map Prod.fst).Nodup ∧
    ((hardenedOperands m).map Prod.snd).Nodup := by
  have hbase : baseOperands m.base = [] ∨ ∃ r, baseOperands m.base = [(.BaseMO, r)] := by
    unfold baseOperands
    split
    case h_5 => exact .inr ⟨_, rfl⟩
    all_goals exact .inl rfl
  simp only [hardenedOperands]
  obtain h | ⟨r, h⟩ := hbase
  · rw [h]
    split_ifs <;> simp
  · rw [h]
    split_ifs with hindex
    · simpa using hindex.2
    · simp

theorem getReg_reuse_of_none {cache : FMap Reg Reg} {o : AddrOperand}
    {ops : List (AddrOperand × Reg)} (h : ∀ r, (o, r) ∈ ops → cache.find r = none) (m : MemRef) :
    getReg (reuseHardened cache m ops) o = getReg m o := by
  induction ops generalizing m with
  | nil => rfl
  | cons op ops ih =>
    refine (ih (fun r hr => h r (List.mem_cons_of_mem _ hr)) _).trans ?_
    rw [reuseOperand]
    cases hfind : cache.find op.2 with
    | none => rfl
    | some t =>
      have ho : o ≠ op.1 := by
        rintro rfl
        have hnone := h op.2 List.mem_cons_self
        rw [hfind] at hnone
        cases hnone
      exact getReg_setReg_ne m t ho

theorem getReg_reuse {cache : FMap Reg Reg} {o : AddrOperand} {r t : Reg}
    {ops : List (AddrOperand × Reg)} (hnodup : (ops.map Prod.fst).Nodup) (h : (o, r) ∈ ops)
    (ht : cache.find r = some t) (m : MemRef) :
    getReg (reuseHardened cache m ops) o = some t := by
  induction ops generalizing m with
  | nil => exact absurd h List.not_mem_nil
  | cons op ops ih =>
    rw [List.map_cons, List.nodup_cons] at hnodup
    obtain rfl | h := List.mem_cons.mp h
    · have hnone : ∀ r', (o, r') ∈ ops → cache.find r' = none := fun r' hr' =>
        absurd (List.mem_map.mpr ⟨_, hr', rfl⟩) hnodup.1
      refine (getReg_reuse_of_none hnone _).trans ?_
      rw [reuseOperand, ht]
      exact getReg_setReg_self m o t
    · exact ih hnodup.2 h _

/-- What is done for an access. -/
structure HardensLoad (C : Setting M) (m : MemRef) (s s' : State) (m' : MemRef) : Prop where
  extend : Extends C s.nextReg (C.live s) s s'
  live : C.live s' = C.live s
  hardened : ∀ op ∈ hardenedOperands m, ∃ t,
    s'.AddrRegToHardenedReg.find op.2 = some t ∧ getReg m' op.1 = some t
  others : ∀ op, op ∉ (hardenedOperands m).map Prod.fst → getReg m' op = getReg m op

/-- `hardenLoadAddr`, with its steps by name. -/
theorem hardenLoadAddr_eq (T : VTTarget) (liveIn : Bool) (m : MemRef) (s : State) :
    hardenLoadAddr T liveIn m s =
      if (hardenedOperands m).filter (fun op => s.AddrRegToHardenedReg.find op.2 = none) = [] then
        (reuseHardened s.AddrRegToHardenedReg m (hardenedOperands m), s)
      else
        let saved := saveEFLAGS (isEFLAGSLive liveIn s.items && !T.hasBMI2) s
        let hardened := hardenAddrRegs T (isEFLAGSLive liveIn s.items && T.hasBMI2)
          ((hardenedOperands m).filter fun op => s.AddrRegToHardenedReg.find op.2 = none)
          (reuseHardened s.AddrRegToHardenedReg m (hardenedOperands m)) saved.2
        (hardened.1, (restoreEFLAGS saved.1 hardened.2).2) := by
  simp only [hardenLoadAddr, bind, StateT.bind, get, getThe, MonadStateOf.get, StateT.get, pure]
  split_ifs <;> rfl

/-- Every register of the address is remembered, from before or by the loop. -/
theorem HardensAddrs.all {EFLAGSLive : Bool} {cache : FMap Reg Reg} {m m' : MemRef}
    {ops : List (AddrOperand × Reg)}
    (h : HardensAddrs C EFLAGSLive (ops.filter fun op => cache.find op.2 = none)
      (reuseHardened cache m ops) s s' m')
    (hcache : s.AddrRegToHardenedReg = cache) (hfst : (ops.map Prod.fst).Nodup)
    {op : AddrOperand × Reg} (hop : op ∈ ops) :
    ∃ t, s'.AddrRegToHardenedReg.find op.2 = some t ∧ getReg m' op.1 = some t := by
  cases hfind : cache.find op.2 with
  | none => exact h.hardened op (List.mem_filter.mpr ⟨hop, by simp [hfind]⟩)
  | some t =>
    have hnot : op.2 ∉ (ops.filter fun op => cache.find op.2 = none).map Prod.snd := by
      intro hmem
      obtain ⟨op', hop', heq⟩ := List.mem_map.mp hmem
      have hnone := (List.mem_filter.mp hop').2
      simp [heq, hfind] at hnone
    have hnot' : op.1 ∉ (ops.filter fun op => cache.find op.2 = none).map Prod.fst := by
      intro hmem
      obtain ⟨op', hop', heq⟩ := List.mem_map.mp hmem
      obtain rfl : op' = op := List.inj_on_of_nodup_map hfst (List.mem_filter.mp hop').1 hop heq
      exact hnot (List.mem_map.mpr ⟨_, hop', rfl⟩)
    refine ⟨t, ?_, ?_⟩
    · rw [h.kept _ hnot, hcache, hfind]
    · rw [h.others _ hnot']
      exact getReg_reuse hfst hop hfind m

/-- The flags are saved around the loop where they are live and there is no shift that keeps
them. -/
theorem HardensAddrs.saved {FlagsReg : Option Reg} {s₁ s₂ : State} {m m' : MemRef}
    {ops : List (AddrOperand × Reg)}
    (hsaved : saveEFLAGS (C.live s && !C.T.hasBMI2) s = (FlagsReg, s₁))
    (h : HardensAddrs C (C.live s && C.T.hasBMI2) ops m s₁ s₂ m') :
    Extends C s.nextReg (C.live s) s (restoreEFLAGS FlagsReg s₂).2 ∧
      C.live (restoreEFLAGS FlagsReg s₂).2 = C.live s ∧
      (restoreEFLAGS FlagsReg s₂).2.AddrRegToHardenedReg = s₂.AddrRegToHardenedReg := by
  have hsame (hno : (C.live s && !C.T.hasBMI2) = false) : s₁ = s := by
    rw [hno] at hsaved
    exact (Prod.mk.inj hsaved).2.symm
  obtain ⟨hext, hlive, hkeep, -, -, -⟩ := extends_saved (C.live s) hsaved
    (h.extend.mono (Nat.le_refl _) fun hf => absurd hf Bool.false_ne_true)
    (fun hno => by
      have hloop := h.extend
      rw [hsame hno] at hloop ⊢
      refine hloop.mono (Nat.le_refl _) fun hl => ?_
      rw [hl] at hno ⊢
      simpa using hno)
    (fun hs => (Bool.and_eq_true_iff.mp hs).1)
    (fun hno => by
      obtain heq | ⟨hflags, hdead⟩ := h.live
      · rw [hsame hno] at heq
        exact heq
      · rw [hdead]
        revert hno hflags
        cases C.live s <;> cases C.T.hasBMI2 <;> simp)
  exact ⟨hext, hlive, hkeep⟩

theorem hardenLoadAddr_hardens (hT : C.T.Sized) (hState : Known N C.T.StateReg)
    (hE : C.T.StateReg ≠ EFLAGS) (hN : N ≤ s.nextReg) {m : MemRef}
    (hops : ∀ op ∈ hardenedOperands m, AddrReg C N Read s op.2)
    (hp : (C.after s).regs.holdsState C.T.StateReg poisoned) :
    HardensLoad C m s (hardenLoadAddr C.T C.liveIn m s).2 (hardenLoadAddr C.T C.liveIn m s).1 ∧
      (Remembers C poisoned N Read s →
        Remembers C poisoned N Read (hardenLoadAddr C.T C.liveIn m s).2) := by
  rw [hardenLoadAddr_eq]
  obtain ⟨hfst, hsnd⟩ := nodup_hardenedOperands m
  have hothers {o : AddrOperand} (ho : o ∉ (hardenedOperands m).map Prod.fst) :
      getReg (reuseHardened s.AddrRegToHardenedReg m (hardenedOperands m)) o = getReg m o :=
    getReg_reuse_of_none (fun r hr => absurd (List.mem_map.mpr ⟨_, hr, rfl⟩) ho) m
  split_ifs with hempty
  · refine ⟨⟨.refl _ _ _, rfl, fun op hop => ?_, fun o ho => hothers ho⟩, id⟩
    cases hfind : s.AddrRegToHardenedReg.find op.2 with
    | none =>
      have hmem := List.filter_eq_nil_iff.mp hempty op hop
      simp [hfind] at hmem
    | some t => exact ⟨t, rfl, getReg_reuse hfst hop hfind m⟩
  · rcases hsaved : saveEFLAGS (isEFLAGSLive C.liveIn s.items && !C.T.hasBMI2) s with ⟨FlagsReg, s₁⟩
    obtain ⟨hsave, hcache⟩ := saveEFLAGS_extends (C := C) hsaved
    have hsub {op : AddrOperand × Reg} (hop : op ∈ (hardenedOperands m).filter fun op =>
        s.AddrRegToHardenedReg.find op.2 = none) : op ∈ hardenedOperands m :=
      (List.mem_filter.mp hop).1
    have hBMI2 (h : (isEFLAGSLive C.liveIn s.items && C.T.hasBMI2) = true) :
        C.T.hasBMI2 = true := (Bool.and_eq_true_iff.mp h).2
    obtain ⟨hloop, hrem⟩ := hardenAddrRegs_hardens hT hBMI2 hState hE
      ((hardenedOperands m).filter fun op => s.AddrRegToHardenedReg.find op.2 = none)
      (reuseHardened s.AddrRegToHardenedReg m (hardenedOperands m))
      (Nat.le_trans hN hsave.le) (fun op hop => (hops op (hsub hop)).extend hsave)
      (hfst.sublist ((List.filter_sublist).map _)) (hsnd.sublist ((List.filter_sublist).map _))
      (hsave.holdsState (hState.mono hN) hE hp)
    obtain ⟨hext, hlive, hkeep⟩ := hloop.saved hsaved
    refine ⟨⟨hext, hlive, fun op hop => ?_, fun o ho => ?_⟩, fun h => ?_⟩
    · dsimp only
      rw [hkeep]
      exact hloop.all hcache hfst hop
    · have hnot := fun hmem => ho (List.map_subset _ (fun _ h => hsub h) hmem)
      exact (hloop.others o hnot).trans (hothers ho)
    · exact (hrem (h.extend hsave hcache)).extend (restoreEFLAGS_extends FlagsReg) hkeep

end Load

/-! ## A value -/

section Value

variable {M : Type*} {C : Setting M} {poisoned : Bool} {s s' : State} {r : Reg}

/-- What is done for a value. Unlike an address, it is hidden as a whole. -/
structure HardensValue (C : Setting M) (r : Reg) (s s' : State) (NewReg : Reg) : Prop where
  extend : Extends C s.nextReg (C.live s) s s'
  live : C.live s' = C.live s
  new : ∃ n, NewReg = .virt n ∧ s.nextReg ≤ n ∧ n < s'.nextReg
  regClass : s'.getRegClass NewReg = s.getRegClass r
  remembered : s'.AddrRegToHardenedReg = s.AddrRegToHardenedReg
  value : ∀ poisoned, (C.after s).regs.holdsState C.T.StateReg poisoned →
    ∀ w ≤ C.T.getRegSizeInBits (s.getRegClass r),
      (C.after s').regs.read w NewReg = hide poisoned ((C.after s).regs.read w r)

/-- A register of a size that can be hardened. -/
def IsGeneral (T : VTTarget) (RC : RegClass) : Prop :=
  T.getRegSizeInBits RC = 8 ∨ T.getRegSizeInBits RC = 16 ∨ T.getRegSizeInBits RC = 32 ∨
    T.getRegSizeInBits RC = 64

theorem exec_orOp {flagsOf : BitVec 512 → BitVec 512} {bits : Nat}
    (hbits : bits = 8 ∨ bits = 16 ∨ bits = 32 ∨ bits = 64) (dst a b : Reg) (ρ : RegFile) :
    Inserted.exec flagsOf ρ ⟨orOp bits, dst, [a, b], none⟩ dst = orLow bits (ρ a) (ρ b) := by
  obtain rfl | rfl | rfl | rfl := hbits <;> exact Function.update_self _ _ _

theorem orOp_setsFlags {bits : Nat} (hbits : bits = 8 ∨ bits = 16 ∨ bits = 32 ∨ bits = 64) :
    (orOp bits).setsFlags = true := by
  obtain rfl | rfl | rfl | rfl := hbits <;> rfl

/-- What a narrow state is. -/
structure Narrows (C : Setting M) (bits : Nat) (s s' : State) (StateReg : Reg) : Prop where
  extend : Extends C s.nextReg true s s'
  live : C.live s' = C.live s
  known : Known s'.nextReg StateReg ∧ StateReg ≠ EFLAGS
  remembered : s'.AddrRegToHardenedReg = s.AddrRegToHardenedReg
  value : ∀ poisoned, (C.after s).regs.holdsState C.T.StateReg poisoned →
    (C.after s').regs.read bits StateReg = if poisoned then BitVec.allOnes bits else 0

theorem narrowState_part {RC : RegClass} (part : SubReg)
    (heq : narrowState C.T (part.bits / 8) RC s = (.virt s.nextReg,
      (insert (.inserted ⟨.COPY, .virt s.nextReg, [C.T.StateReg], some part⟩)
        (createVirtualRegister RC s).2).2)) :
    Narrows C part.bits s (narrowState C.T (part.bits / 8) RC s).2
      (narrowState C.T (part.bits / 8) RC s).1 := by
  rw [heq]
  set s' := (insert (.inserted ⟨.COPY, .virt s.nextReg, [C.T.StateReg], some part⟩)
    (createVirtualRegister RC s).2).2 with hs'
  have hcode : s'.items = s.items ++
      [Inserted.mk .COPY (.virt s.nextReg) [C.T.StateReg] (some part)].map .inserted := rfl
  have hle : s.nextReg ≤ s'.nextReg := Nat.le_succ _
  exact {
    extend := by
      refine extends_inserted hcode hle (fun n hn => update_new hn (Nat.le_refl _)) rfl
        (fun I hI => ?_) fun _ I hI => ?_
      · rw [List.mem_singleton.mp hI]
        exact ⟨_, rfl, Nat.le_refl _⟩
      · rw [List.mem_singleton.mp hI]
        rfl
    live := by
      rw [Setting.live, hcode, List.map_singleton, isEFLAGSLive_snoc]
      rfl
    known := ⟨known_virt (Nat.lt_succ_self _), fun h => by cases h⟩
    remembered := rfl
    value := by
      intro p hp
      rw [after_inserted _ hcode]
      show (Inserted.exec C.flagsOf (C.after s).regs ⟨.COPY, .virt s.nextReg, [C.T.StateReg],
        some part⟩ (.virt s.nextReg)).setWidth part.bits = _
      rw [exec_part, Function.update_self,
        setWidth_setWidth_le (Nat.le_refl _) (Nat.le_trans (bits_le part) (by decide))]
      exact setWidth_state (bits_le part) hp }

theorem narrowState_narrows (RC : RegClass) {bits : Nat}
    (hbits : bits = 8 ∨ bits = 16 ∨ bits = 32 ∨ bits = 64)
    (hState : Known s.nextReg C.T.StateReg) (hE : C.T.StateReg ≠ EFLAGS) :
    Narrows C bits s (narrowState C.T (bits / 8) RC s).2 (narrowState C.T (bits / 8) RC s).1 := by
  obtain rfl | rfl | rfl | rfl := hbits
  · exact narrowState_part .sub_8bit rfl
  · exact narrowState_part .sub_16bit rfl
  · exact narrowState_part .sub_32bit rfl
  · exact ⟨.refl _ _ _, rfl, ⟨hState, hE⟩, rfl, fun _ h => h⟩

/-- A wider register hides more. -/
theorem read_hide {w k : Nat} (hw : w ≤ k) {ρ ρ' : RegFile} {q q' : Reg}
    (h : ρ.read k q = hide poisoned (ρ'.read k q')) :
    ρ.read w q = hide poisoned (ρ'.read w q') := by
  have hread (ρ : RegFile) (q : Reg) : ρ.read w q = (ρ.read k q).setWidth w := by
    apply BitVec.eq_of_getLsbD_eq
    intro i hi
    simp [RegFile.read, hi, show i < k by omega]
  rw [hread, h, hread]
  cases poisoned with
  | false => rfl
  | true => exact setWidth_allOnes hw

theorem hardenValueInRegister_eq (T : VTTarget) (liveIn : Bool) (r : Reg) (s : State) {bits : Nat}
    (hbits : T.getRegSizeInBits (s.getRegClass r) = bits) :
    hardenValueInRegister T liveIn r s =
      let narrow := narrowState T (bits / 8) (s.getRegClass r) s
      let saved := saveEFLAGS (isEFLAGSLive liveIn narrow.2.items) narrow.2
      (.virt saved.2.nextReg, (restoreEFLAGS saved.1 (buildMI (orOp bits) (.virt saved.2.nextReg)
        [narrow.1, r] none (createVirtualRegister (s.getRegClass r) saved.2).2).2).2) := by
  subst hbits
  rfl

theorem hardenValueInRegister_hardens {i : Nat} (hi : i < s.nextReg)
    (hgeneral : IsGeneral C.T (s.getRegClass (.virt i)))
    (hState : Known s.nextReg C.T.StateReg) (hE : C.T.StateReg ≠ EFLAGS) :
    HardensValue C (.virt i) s (hardenValueInRegister C.T C.liveIn (.virt i) s).2
      (hardenValueInRegister C.T C.liveIn (.virt i) s).1 := by
  generalize hsize : C.T.getRegSizeInBits (s.getRegClass (.virt i)) = bits at *
  have hbits : bits = 8 ∨ bits = 16 ∨ bits = 32 ∨ bits = 64 := by
    rw [IsGeneral, hsize] at hgeneral
    exact hgeneral
  have hnarrow : Narrows C bits s _ _ :=
    narrowState_narrows (s.getRegClass (.virt i)) hbits hState hE
  rw [hardenValueInRegister_eq _ _ _ _ hsize]
  dsimp only
  generalize hRC : s.getRegClass (.virt i) = RC at *
  generalize narrowState C.T (bits / 8) RC s = narrow at hnarrow ⊢
  obtain ⟨StateReg, s₁⟩ := narrow
  rcases hsaved : saveEFLAGS (isEFLAGSLive C.liveIn s₁.items) s₁ with ⟨FlagsReg, s₂⟩
  obtain ⟨hsave, hcache⟩ := saveEFLAGS_extends (C := C) hsaved
  dsimp only at hnarrow ⊢
  set s₃ := (buildMI (orOp bits) (.virt s₂.nextReg) [StateReg, .virt i] none
    (createVirtualRegister RC s₂).2).2 with hs₃
  have hcode : s₃.items = s₂.items ++
      [Inserted.mk (orOp bits) (.virt s₂.nextReg) [StateReg, .virt i] none].map .inserted := rfl
  have hor : Extends C s₂.nextReg false s₂ s₃ := by
    refine extends_inserted hcode (Nat.le_succ _) (fun n hn => update_new hn (Nat.le_refl _)) rfl
      (fun I hI => ?_) fun h => absurd h Bool.false_ne_true
    rw [List.mem_singleton.mp hI]
    exact ⟨_, rfl, Nat.le_refl _⟩
  have hdead : C.live s₃ = false := by
    rw [Setting.live, hcode, List.map_singleton, isEFLAGSLive_snoc]
    simp [Item.definesEFLAGS, orOp_setsFlags hbits, EFLAGS]
  have hsame (hno : isEFLAGSLive C.liveIn s₁.items = false) : s₂ = s₁ := by
    rw [hno] at hsaved
    exact (Prod.mk.inj hsaved).2.symm
  obtain ⟨hext, hlive, hkeep, hclass, hnext, hregs⟩ := extends_saved (C.live s₁)
    hsaved hor
    (fun hno => by
      rw [hsame hno] at hor ⊢
      exact hor.mono (Nat.le_refl _) fun h => hno.symm.trans h)
    id (fun hno => hdead.trans hno.symm)
  have hle : s.nextReg ≤ s₂.nextReg := Nat.le_trans hnarrow.extend.le hsave.le
  exact {
    extend := (hnarrow.extend.mono (Nat.le_refl _) fun _ => rfl).trans
      (hext.mono hnarrow.extend.le fun h => hnarrow.live.trans h)
    live := hlive.trans hnarrow.live
    new := ⟨s₂.nextReg, rfl, hle, by rw [hnext]; exact Nat.lt_succ_self _⟩
    regClass := by
      show (restoreEFLAGS FlagsReg s₃).2.regClass s₂.nextReg = _
      rw [hclass, hRC]
      exact Function.update_self _ _ _
    remembered := hkeep.trans (hcache.trans hnarrow.remembered)
    value := by
      intro p hp w hw
      rw [hRC, hsize] at hw
      refine read_hide hw ?_
      rw [RegFile.read, hregs _ fun h => by cases h]
      rw [after_inserted _ hcode]
      show (Inserted.exec C.flagsOf (C.after s₂).regs ⟨orOp bits, .virt s₂.nextReg,
        [StateReg, .virt i], none⟩ (.virt s₂.nextReg)).setWidth bits = _
      have hstate := hnarrow.value p hp
      rw [RegFile.read, ← hsave.regs _ hnarrow.known.1 fun h => absurd h hnarrow.known.2] at hstate
      rw [exec_orOp hbits, orLow_comm, merge_state (Nat.le_refl _) (by omega) hstate,
        hsave.virt (Nat.lt_of_lt_of_le hi hnarrow.extend.le), hnarrow.extend.virt hi]
      rfl }

end Value

end MSV.SLH.InBlock
