import MSV.SLH.VariantTiming

/-!
# What the inserted code computes

`hardenVariantTimingInstr` puts code in front of an instruction that merges the predicate state
into one of its operands: with an OR in a general register, through a general register for a scalar
of floating-point type, and with a broadcast and a vector OR for a vector.

**Theorem (`hardenVariantTimingInstr_hides`).** While the predicate state is zero, the inserted code
changes neither what the instruction reads nor any other register, nor the flags where they are
live. When the state is all ones, the operand that is hardened reads all ones.
-/

namespace MSV.SLH

/-! ## Execution -/

/-- The registers, each as wide as the widest vector. A narrower register uses the low bits. -/
abbrev RegFile := Reg → BitVec 512

/-- The low bits of a register. -/
def RegFile.read (ρ : RegFile) (w : Nat) (r : Reg) : BitVec w := (ρ r).setWidth w

/-- The low 64 bits, so many times. -/
def splat (n : Nat) (v : BitVec 512) : BitVec 512 :=
  (BitVec.replicate n (v.setWidth 64)).setWidth 512

/-- An OR of the low bits. -/
def orLow (w : Nat) (a b : BitVec 512) : BitVec 512 := ((a ||| b).setWidth w).setWidth 512

def SubReg.bits : SubReg → Nat
  | .sub_8bit => 8
  | .sub_16bit => 16
  | .sub_32bit => 32

/-- The instruction sets the flags. -/
def InsertedOp.setsFlags : InsertedOp → Bool
  | .OR8rr | .OR16rr | .OR32rr | .OR64rr => true
  | _ => false

/-- What an inserted instruction writes. -/
def Inserted.result (ρ : RegFile) (I : Inserted) : Option (BitVec 512) :=
  match I.opcode, I.srcs with
  | .COPY, [a] =>
      match I.subReg with
      | none => some (ρ a)
      | some part => some (((ρ a).setWidth part.bits).setWidth 512)
  | .VMOV64toPQIrr, [a] => some (((ρ a).setWidth 64).setWidth 512)
  | .VPBROADCASTQrr, [a] | .VPBROADCASTQrZ128rr, [a] => some (splat 2 (ρ a))
  | .VPBROADCASTQYrr, [a] | .VPBROADCASTQrZ256rr, [a] => some (splat 4 (ρ a))
  | .VPBROADCASTQrZrr, [a] => some (splat 8 (ρ a))
  | .VPORrr, [a, b] | .VPORQZ128rr, [a, b] => some (orLow 128 (ρ a) (ρ b))
  | .VPORYrr, [a, b] | .VPORQZ256rr, [a, b] => some (orLow 256 (ρ a) (ρ b))
  | .VPORQZrr, [a, b] => some (orLow 512 (ρ a) (ρ b))
  | .OR8rr, [a, b] => some (orLow 8 (ρ a) (ρ b))
  | .OR16rr, [a, b] => some (orLow 16 (ρ a) (ρ b))
  | .OR32rr, [a, b] => some (orLow 32 (ρ a) (ρ b))
  | .OR64rr, [a, b] => some (orLow 64 (ρ a) (ρ b))
  | _, _ => none

/-- An inserted instruction, with the flags an OR sets as a parameter. -/
def Inserted.exec (flagsOf : BitVec 512 → BitVec 512) (ρ : RegFile) (I : Inserted) : RegFile :=
  match I.result ρ with
  | none => ρ
  | some v =>
      Function.update (if I.opcode.setsFlags then Function.update ρ EFLAGS (flagsOf v) else ρ)
        I.dst v

/-- Inserted code. -/
def runInserted (flagsOf : BitVec 512 → BitVec 512) (code : List Inserted) (ρ : RegFile) :
    RegFile :=
  code.foldl (Inserted.exec flagsOf) ρ

/-! ## Merging the predicate state -/

/-- What a value is merged into: all ones when the state is poisoned. -/
def hide (poisoned : Bool) {w : Nat} (v : BitVec w) : BitVec w :=
  if poisoned then BitVec.allOnes w else v

/-- The predicate state, in the low 64 bits of its register. -/
def RegFile.holdsState (ρ : RegFile) (r : Reg) (poisoned : Bool) : Prop :=
  ρ.read 64 r = if poisoned then BitVec.allOnes 64 else 0

theorem setWidth_setWidth_le {w k : Nat} (h : w ≤ k) (hk : k ≤ 512) (v : BitVec 512) :
    ((v.setWidth k).setWidth 512).setWidth w = v.setWidth w := by
  apply BitVec.eq_of_getLsbD_eq
  intro i hi
  simp [hi, show i < k by omega, show i < 512 by omega]

theorem setWidth_orLow {w k : Nat} (h : w ≤ k) (hk : k ≤ 512) (a b : BitVec 512) :
    (orLow k a b).setWidth w = a.setWidth w ||| b.setWidth w := by
  rw [orLow, setWidth_setWidth_le h hk, BitVec.setWidth_or]

theorem setWidth_allOnes {w k : Nat} (h : w ≤ k) :
    (BitVec.allOnes k).setWidth w = BitVec.allOnes w := by
  apply BitVec.eq_of_getLsbD_eq
  intro i hi
  simp [hi, show i < k by omega]

theorem replicate_allOnes (n k : Nat) :
    BitVec.replicate n (BitVec.allOnes k) = BitVec.allOnes (k * n) := by
  apply BitVec.eq_of_getLsbD_eq
  intro i hi
  have hk : k ≠ 0 := fun hk => by simp [hk] at hi
  simp [hi, hk]

/-- The low bits of a state, of whatever width. -/
theorem setWidth_state {w : Nat} (hw : w ≤ 64) {v : BitVec 512} {poisoned : Bool}
    (h : v.setWidth 64 = if poisoned then BitVec.allOnes 64 else 0) :
    v.setWidth w = if poisoned then BitVec.allOnes w else 0 := by
  have hlow : v.setWidth w = (v.setWidth 64).setWidth w := by
    apply BitVec.eq_of_getLsbD_eq
    intro i hi
    simp [hi, show i < 64 by omega]
  rw [hlow, h]
  cases poisoned with
  | false => simp
  | true => exact setWidth_allOnes hw

theorem setWidth_splat {n w : Nat} (hw : w ≤ 64 * n) (hn : 64 * n ≤ 512) {v : BitVec 512}
    {poisoned : Bool} (h : v.setWidth 64 = if poisoned then BitVec.allOnes 64 else 0) :
    (splat n v).setWidth w = if poisoned then BitVec.allOnes w else 0 := by
  rw [splat, h]
  cases poisoned with
  | false =>
    have hzero : BitVec.replicate n (0 : BitVec 64) = 0 := by
      apply BitVec.eq_of_getLsbD_eq
      intro i hi
      simp [BitVec.getLsbD_replicate]
    simp only [Bool.false_eq_true, if_false, hzero]
    simp
  | true =>
    have hmid : ((BitVec.allOnes (64 * n)).setWidth 512).setWidth w =
        (BitVec.allOnes (64 * n)).setWidth w := by
      apply BitVec.eq_of_getLsbD_eq
      intro i hi
      simp [hi, show i < 512 by omega]
    rw [if_pos rfl, replicate_allOnes, hmid]
    exact setWidth_allOnes hw

theorem or_hide {w : Nat} (poisoned : Bool) (v : BitVec w) :
    (if poisoned then BitVec.allOnes w else 0) ||| v = hide poisoned v := by
  cases poisoned <;> simp [hide]

/-- A broadcast state merged into a vector. -/
theorem merge_splat {n w k : Nat} (hk : k = 64 * n) (hw : w ≤ k) (hn : k ≤ 512)
    {v x : BitVec 512} {poisoned : Bool}
    (h : v.setWidth 64 = if poisoned then BitVec.allOnes 64 else 0) :
    (orLow k (splat n v) x).setWidth w = hide poisoned (x.setWidth w) := by
  subst hk
  rw [setWidth_orLow hw hn, setWidth_splat hw hn h, or_hide]

/-- A state merged into a general register, with the state in front or behind. -/
theorem merge_state {w k : Nat} (hw : w ≤ k) (hk : k ≤ 64) {v x : BitVec 512} {poisoned : Bool}
    (h : v.setWidth k = if poisoned then BitVec.allOnes k else 0) :
    (orLow k x v).setWidth w = hide poisoned (x.setWidth w) := by
  have hv : v.setWidth w = (v.setWidth k).setWidth w := by
    apply BitVec.eq_of_getLsbD_eq
    intro i hi
    simp [hi, show i < k by omega]
  rw [setWidth_orLow hw (Nat.le_trans hk (by decide)), hv, h]
  cases poisoned with
  | false => simp [hide]
  | true => simp [setWidth_allOnes hw, hide]

/-! ## What code leaves alone -/

section Frame

variable (flagsOf : BitVec 512 → BitVec 512)

theorem exec_frame {I : Inserted} {q : Reg} (hq : q ≠ I.dst)
    (hE : q = EFLAGS → I.opcode.setsFlags = false) (ρ : RegFile) : I.exec flagsOf ρ q = ρ q := by
  have hkeep (v : BitVec 512) :
      (if I.opcode.setsFlags then Function.update ρ EFLAGS (flagsOf v) else ρ) q = ρ q := by
    split
    · case _ h => exact Function.update_of_ne (fun hqE => by simp [hE hqE] at h) _ _
    · rfl
  unfold Inserted.exec
  cases I.result ρ with
  | none => rfl
  | some v => exact (Function.update_of_ne hq _ _).trans (hkeep v)

/-- A copy of a whole register. -/
theorem exec_copy (dst a : Reg) (ρ : RegFile) :
    Inserted.exec flagsOf ρ ⟨.COPY, dst, [a], none⟩ = Function.update ρ dst (ρ a) := rfl

theorem runInserted_frame {code : List Inserted} {q : Reg} (hq : ∀ I ∈ code, q ≠ I.dst)
    (hE : q = EFLAGS → ∀ I ∈ code, I.opcode.setsFlags = false) (ρ : RegFile) :
    runInserted flagsOf code ρ q = ρ q := by
  induction code generalizing ρ with
  | nil => rfl
  | cons I code ih =>
    have hrest := ih (fun J hJ => hq J (List.mem_cons_of_mem _ hJ))
      (fun h J hJ => hE h J (List.mem_cons_of_mem _ hJ)) (I.exec flagsOf ρ)
    exact hrest.trans (exec_frame flagsOf (hq I List.mem_cons_self)
      (fun h => hE h I List.mem_cons_self) ρ)

/-- Code between saving and restoring the flags, if they have to be. -/
def saved (live : Bool) (M : Nat) (code : List Inserted) : List Inserted :=
  if live then ⟨.COPY, .virt M, [EFLAGS], none⟩ :: (code ++ [⟨.COPY, EFLAGS, [.virt M], none⟩])
  else code

/-- The registers when the flags have been saved. -/
def savedRegs (live : Bool) (M : Nat) (ρ : RegFile) : RegFile :=
  if live then Function.update ρ (.virt M) (ρ EFLAGS) else ρ

/-- Saved flags are restored, and the other registers are as without. -/
theorem runInserted_saved (live : Bool) (M : Nat) {code : List Inserted}
    (hM : live = true → ∀ I ∈ code, Reg.virt M ≠ I.dst) (ρ : RegFile) (q : Reg) :
    runInserted flagsOf (saved live M code) ρ q =
      if live ∧ q = EFLAGS then ρ EFLAGS else runInserted flagsOf code (savedRegs live M ρ) q := by
  cases live with
  | false => simp [saved, savedRegs]
  | true =>
    have hkept := runInserted_frame flagsOf (hM rfl) (fun h => by simp [EFLAGS] at h)
      (savedRegs true M ρ)
    have hrun : runInserted flagsOf (saved true M code) ρ =
        Function.update (runInserted flagsOf code (savedRegs true M ρ)) EFLAGS
          (runInserted flagsOf code (savedRegs true M ρ) (.virt M)) := by
      simp only [saved, runInserted, savedRegs, if_true, List.foldl_cons, List.foldl_append,
        List.foldl_nil, exec_copy]
    rw [hrun, hkept]
    by_cases hq : q = EFLAGS
    · simp [hq, savedRegs]
    · simp [hq]

end Frame

/-! ## The code of each case -/

/-- The registers a function has before the pass takes new ones. -/
def IsOld (s : VTState) (r : Reg) : Prop := ∀ n, s.nextReg ≤ n → r ≠ .virt n

/-- The registers of the instruction and the predicate state have been there before. -/
structure VTState.Fresh (T : VTTarget) (t : VTState) : Prop where
  operands : ∀ (j : Nat) (q : Reg) (isDef : Bool), t.operands[j]? = some (.reg q isDef) → IsOld t q
  state : IsOld t T.StateReg

section Code

variable (flagsOf : BitVec 512 → BitVec 512) {T : VTTarget} {OpIdx : Nat} {r : Reg} {RC : RegClass}
  {s : VTState} {ρ : RegFile} {poisoned : Bool}

/-- What code for an operand `r` does: `H` holds its value merged with the state, and no old
register changes, but for flags that are not live. -/
structure HidesValue (flagsOf : BitVec 512 → BitVec 512) (T : VTTarget) (s : VTState) (r : Reg)
    (w : Nat) (code : List Inserted) (H : Reg) : Prop where
  value : ∀ ρ poisoned, RegFile.holdsState ρ T.StateReg poisoned →
    (runInserted flagsOf code ρ).read w H = hide poisoned (ρ.read w r)
  frame : ∀ ρ q, IsOld s q → (q = EFLAGS → T.isEFLAGSLive = true) →
    runInserted flagsOf code ρ q = ρ q

/-- Code that writes new registers only, around which the flags are saved if they are live and it
sets them. -/
theorem hidesValue_saved {live : Bool} {M w : Nat} {code : List Inserted} {H : Reg}
    (hM : s.nextReg ≤ M) (hnew : ∀ I ∈ code, ∃ n, I.dst = .virt n ∧ s.nextReg ≤ n ∧ (live = true → n ≠ M))
    (hlive : live = true ∨ T.isEFLAGSLive = false ∨ ∀ I ∈ code, I.opcode.setsFlags = false)
    (hr : IsOld s r) (hstate : IsOld s T.StateReg) (hH : H ≠ EFLAGS)
    (hvalue : ∀ ρ poisoned, RegFile.holdsState ρ T.StateReg poisoned →
      (runInserted flagsOf code ρ).read w H = hide poisoned (ρ.read w r)) :
    HidesValue flagsOf T s r w (saved live M code) H where
  value := by
    intro ρ p hp
    have hMcode : live = true → ∀ I ∈ code, Reg.virt M ≠ I.dst := by
      intro hl I hI h
      obtain ⟨n, hn, -, hne⟩ := hnew I hI
      rw [hn] at h
      exact hne hl (Reg.virt.inj h).symm
    have hold {q : Reg} (hq : IsOld s q) : savedRegs live M ρ q = ρ q := by
      cases live with
      | false => rfl
      | true => exact Function.update_of_ne (hq M hM) _ _
    have hmid := hvalue (savedRegs live M ρ) p (by
      rw [RegFile.holdsState, RegFile.read, hold hstate]
      exact hp)
    rw [RegFile.read, RegFile.read, hold hr] at hmid
    rw [RegFile.read, runInserted_saved flagsOf live M hMcode, if_neg fun h => hH h.2]
    exact hmid
  frame := by
    intro ρ q hq hE
    have hMcode : live = true → ∀ I ∈ code, Reg.virt M ≠ I.dst := by
      intro hl I hI h
      obtain ⟨n, hn, -, hne⟩ := hnew I hI
      rw [hn] at h
      exact hne hl (Reg.virt.inj h).symm
    have hdst : ∀ I ∈ code, q ≠ I.dst := by
      intro I hI h
      obtain ⟨n, hn, hle, -⟩ := hnew I hI
      exact hq n hle (h.trans hn)
    rw [runInserted_saved flagsOf live M hMcode]
    split_ifs with hflags
    · rw [hflags.2]
    · have hsets : q = EFLAGS → ∀ I ∈ code, I.opcode.setsFlags = false := by
        intro hqE
        obtain h | h | h := hlive
        · exact absurd ⟨h, hqE⟩ hflags
        · rw [hE hqE] at h
          exact absurd h (by decide)
        · exact h
      rw [runInserted_frame flagsOf hdst hsets]
      cases live with
      | false => rfl
      | true => exact Function.update_of_ne (hq M hM) _ _

/-- What the pass does for an operand: it takes another register, and there is code for it. -/
structure HidesOperand (flagsOf : BitVec 512 → BitVec 512) (T : VTTarget) (OpIdx : Nat) (r : Reg)
    (w : Nat) (s s' : VTState) (H : Reg) : Prop where
  operands : s'.operands = s.operands.set OpIdx (.reg H false)
  inserted : ∃ code, s'.inserted = s.inserted ++ code ∧ HidesValue flagsOf T s r w code H

/-- The number of the first register after saving the flags. -/
def afterSaved (live : Bool) (N : Nat) : Nat := if live then N + 1 else N

theorem le_afterSaved (live : Bool) (N : Nat) : N ≤ afterSaved live N := by
  unfold afterSaved
  split <;> omega

theorem afterSaved_ne {live : Bool} {N k : Nat} (h : live = true) : afterSaved live N + k ≠ N := by
  simp only [afterSaved, h, if_true]
  omega

/-- Instructions one after the other. -/
theorem foldl_snoc (l base : List Inserted) :
    l.foldl (fun acc I => acc ++ [I]) base = base ++ l := by
  induction l generalizing base with
  | nil => simp
  | cons I l ih => simp [ih]

/-! ### Vectors -/

def vectorCode (Is128Bit : Bool) (N : Nat) (StateReg r : Reg) : List Inserted :=
  [⟨.VMOV64toPQIrr, .virt (N + 1), [StateReg], none⟩,
    ⟨if Is128Bit then .VPBROADCASTQrr else .VPBROADCASTQYrr, .virt (N + 2), [.virt (N + 1)], none⟩,
    ⟨if Is128Bit then .VPORrr else .VPORYrr, .virt N, [.virt (N + 2), r], none⟩]

variable (T OpIdx r RC s) in
theorem hardenVector_eq {live : Bool} (hlive : (T.isEFLAGSLive && !T.hasBMI2) = live) :
    (hardenVector T OpIdx r RC s).1 = .hardened (.virt (afterSaved live s.nextReg)) ∧
      (hardenVector T OpIdx r RC s).2.operands =
        s.operands.set OpIdx (.reg (.virt (afterSaved live s.nextReg)) false) ∧
      (hardenVector T OpIdx r RC s).2.inserted = s.inserted ++ saved live s.nextReg
        (vectorCode (T.hasSuperClassEq RC .VR128) (afterSaved live s.nextReg) T.StateReg r) := by
  rw [← foldl_snoc, hardenVector, hlive]
  cases live <;> exact ⟨rfl, rfl, rfl⟩

theorem vectorCode_value {w N : Nat} {Is128Bit : Bool} (hw : w ≤ if Is128Bit then 128 else 256)
    {StateReg : Reg} (hr : ∀ n, N ≤ n → r ≠ .virt n) (hp : ρ.holdsState StateReg poisoned) :
    (runInserted flagsOf (vectorCode Is128Bit N StateReg r) ρ).read w (.virt N) =
      hide poisoned (ρ.read w r) := by
  have hmov : (((ρ StateReg).setWidth 64).setWidth 512).setWidth 64 =
      if poisoned then BitVec.allOnes 64 else 0 := by
    rw [setWidth_setWidth_le (Nat.le_refl _) (by decide)]
    exact hp
  cases Is128Bit with
  | true =>
    simp only [vectorCode, runInserted, Inserted.exec, Inserted.result, InsertedOp.setsFlags,
      RegFile.read, Function.update_apply, List.foldl_cons, List.foldl_nil, if_true,
      Bool.false_eq_true, if_false, if_neg (hr (N + 1) (by omega)), if_neg (hr (N + 2) (by omega))]
    exact merge_splat (n := 2) (k := 128) rfl hw (by decide) hmov
  | false =>
    simp only [vectorCode, runInserted, Inserted.exec, Inserted.result, InsertedOp.setsFlags,
      RegFile.read, Function.update_apply, List.foldl_cons, List.foldl_nil, if_true,
      Bool.false_eq_true, if_false, if_neg (hr (N + 1) (by omega)), if_neg (hr (N + 2) (by omega))]
    exact merge_splat (n := 4) (k := 256) rfl hw (by decide) hmov

theorem hardenVector_hides (hr : IsOld s r) (hstate : IsOld s T.StateReg)
    (hsize : T.getRegSizeInBits RC ≤ if T.hasSuperClassEq RC .VR128 then 128 else 256) :
    ∃ H, (hardenVector T OpIdx r RC s).1 = .hardened H ∧ HidesOperand flagsOf T OpIdx r
      (T.getRegSizeInBits RC) s (hardenVector T OpIdx r RC s).2 H := by
  obtain ⟨hvalue, hoperands, hinserted⟩ :=
    hardenVector_eq T OpIdx r RC s rfl
  refine ⟨_, hvalue, hoperands, _, hinserted, hidesValue_saved flagsOf (Nat.le_refl _) ?_ ?_ hr hstate
    (by simp [EFLAGS]) fun ρ p hp => vectorCode_value flagsOf hsize
      (fun n hn => hr n (Nat.le_trans (le_afterSaved _ _) hn)) hp⟩
  · have hle := le_afterSaved (T.isEFLAGSLive && !T.hasBMI2) s.nextReg
    intro I hI
    simp only [vectorCode, List.mem_cons, List.not_mem_nil, or_false] at hI
    obtain rfl | rfl | rfl := hI
    · exact ⟨_, rfl, by omega, fun hl => afterSaved_ne hl⟩
    · exact ⟨_, rfl, by omega, fun hl => afterSaved_ne hl⟩
    · exact ⟨_, rfl, hle, fun hl => afterSaved_ne (k := 0) hl⟩
  · refine .inr (.inr fun I hI => ?_)
    simp only [vectorCode, List.mem_cons, List.not_mem_nil, or_false] at hI
    cases h128 : T.hasSuperClassEq RC .VR128 <;> simp only [h128] at hI <;>
      obtain rfl | rfl | rfl := hI <;> rfl

def vectorXCode (Is128Bit Is256Bit : Bool) (N : Nat) (StateReg r : Reg) : List Inserted :=
  [⟨if Is128Bit then .VPBROADCASTQrZ128rr
      else if Is256Bit then .VPBROADCASTQrZ256rr else .VPBROADCASTQrZrr,
      .virt (N + 1), [StateReg], none⟩,
    ⟨if Is128Bit then .VPORQZ128rr else if Is256Bit then .VPORQZ256rr else .VPORQZrr,
      .virt N, [.virt (N + 1), r], none⟩]

variable (T OpIdx r RC s) in
theorem hardenVectorX_eq {live : Bool} (hlive : (T.isEFLAGSLive && !T.hasBMI2) = live) :
    (hardenVectorX T OpIdx r RC s).1 = .hardened (.virt (afterSaved live s.nextReg)) ∧
      (hardenVectorX T OpIdx r RC s).2.operands =
        s.operands.set OpIdx (.reg (.virt (afterSaved live s.nextReg)) false) ∧
      (hardenVectorX T OpIdx r RC s).2.inserted = s.inserted ++ saved live s.nextReg
        (vectorXCode (T.hasSuperClassEq RC .VR128X) (T.hasSuperClassEq RC .VR256X)
          (afterSaved live s.nextReg) T.StateReg r) := by
  rw [← foldl_snoc, hardenVectorX, hlive]
  cases live <;> exact ⟨rfl, rfl, rfl⟩

theorem vectorXCode_value {w N : Nat} {Is128Bit Is256Bit : Bool}
    (hw : w ≤ if Is128Bit then 128 else if Is256Bit then 256 else 512)
    {StateReg : Reg} (hr : ∀ n, N ≤ n → r ≠ .virt n) (hp : ρ.holdsState StateReg poisoned) :
    (runInserted flagsOf (vectorXCode Is128Bit Is256Bit N StateReg r) ρ).read w (.virt N) =
      hide poisoned (ρ.read w r) := by
  cases Is128Bit with
  | true =>
    simp only [vectorXCode, runInserted, Inserted.exec, Inserted.result, InsertedOp.setsFlags,
      RegFile.read, Function.update_apply, List.foldl_cons, List.foldl_nil, if_true,
      Bool.false_eq_true, if_false, if_neg (hr (N + 1) (by omega))]
    exact merge_splat (n := 2) (k := 128) rfl hw (by decide) hp
  | false =>
    cases Is256Bit with
    | true =>
      simp only [vectorXCode, runInserted, Inserted.exec, Inserted.result, InsertedOp.setsFlags,
        RegFile.read, Function.update_apply, List.foldl_cons, List.foldl_nil, if_true,
        Bool.false_eq_true, if_false, if_neg (hr (N + 1) (by omega))]
      exact merge_splat (n := 4) (k := 256) rfl hw (by decide) hp
    | false =>
      simp only [vectorXCode, runInserted, Inserted.exec, Inserted.result, InsertedOp.setsFlags,
        RegFile.read, Function.update_apply, List.foldl_cons, List.foldl_nil, if_true,
        Bool.false_eq_true, if_false, if_neg (hr (N + 1) (by omega))]
      exact merge_splat (n := 8) (k := 512) rfl hw (by decide) hp

theorem hardenVectorX_hides (hr : IsOld s r) (hstate : IsOld s T.StateReg)
    (hsize : T.getRegSizeInBits RC ≤ if T.hasSuperClassEq RC .VR128X then 128
      else if T.hasSuperClassEq RC .VR256X then 256 else 512) :
    ∃ H, (hardenVectorX T OpIdx r RC s).1 = .hardened H ∧ HidesOperand flagsOf T OpIdx r
      (T.getRegSizeInBits RC) s (hardenVectorX T OpIdx r RC s).2 H := by
  obtain ⟨hvalue, hoperands, hinserted⟩ :=
    hardenVectorX_eq T OpIdx r RC s rfl
  refine ⟨_, hvalue, hoperands, _, hinserted, hidesValue_saved flagsOf (Nat.le_refl _) ?_ ?_ hr
    hstate (by simp [EFLAGS]) fun ρ p hp => vectorXCode_value flagsOf hsize
      (fun n hn => hr n (Nat.le_trans (le_afterSaved _ _) hn)) hp⟩
  · have hle := le_afterSaved (T.isEFLAGSLive && !T.hasBMI2) s.nextReg
    intro I hI
    simp only [vectorXCode, List.mem_cons, List.not_mem_nil, or_false] at hI
    obtain rfl | rfl := hI
    · exact ⟨_, rfl, by omega, fun hl => afterSaved_ne hl⟩
    · exact ⟨_, rfl, hle, fun hl => afterSaved_ne (k := 0) hl⟩
  · refine .inr (.inr fun I hI => ?_)
    simp only [vectorXCode, List.mem_cons, List.not_mem_nil, or_false] at hI
    obtain rfl | rfl := hI <;> simp only <;> split <;> first | rfl | (split <;> rfl)

/-! ### Scalars -/

/-- The state for a general register of so many bits. -/
def narrowCode (bits M : Nat) (StateReg : Reg) : List Inserted :=
  if bits / 8 ≠ 8 then
    [⟨.COPY, .virt M, [StateReg],
      [SubReg.sub_8bit, .sub_16bit, .sub_32bit][Nat.log2 (bits / 8)]?⟩]
  else []

def narrowReg (bits M : Nat) (StateReg : Reg) : Reg :=
  if bits / 8 ≠ 8 then .virt M else StateReg

def orOp (bits : Nat) : InsertedOp :=
  [InsertedOp.OR8rr, .OR16rr, .OR32rr, .OR64rr].getD (Nat.log2 (bits / 8)) .OR64rr

def SubReg.orOp : SubReg → InsertedOp
  | .sub_8bit => .OR8rr
  | .sub_16bit => .OR16rr
  | .sub_32bit => .OR32rr

theorem exec_or_part (part : SubReg) (dst a b : Reg) (ρ : RegFile) :
    Inserted.exec flagsOf ρ ⟨part.orOp, dst, [a, b], none⟩ dst =
      orLow part.bits (ρ a) (ρ b) := by
  cases part <;> exact Function.update_self _ _ _

theorem exec_or64 (dst a b : Reg) (ρ : RegFile) :
    Inserted.exec flagsOf ρ ⟨.OR64rr, dst, [a, b], none⟩ dst = orLow 64 (ρ a) (ρ b) :=
  Function.update_self _ _ _

theorem exec_part (part : SubReg) (dst a : Reg) (ρ : RegFile) :
    Inserted.exec flagsOf ρ ⟨.COPY, dst, [a], some part⟩ =
      Function.update ρ dst (((ρ a).setWidth part.bits).setWidth 512) := rfl

theorem bits_le (part : SubReg) : part.bits ≤ 64 := by
  cases part <;> decide

/-- A part of the state, and then an OR. -/
theorem part_value (part : SubReg) {M : Nat} {StateReg dst src : Reg} (hsrc : src ≠ .virt M)
    (hp : ρ.holdsState StateReg poisoned) :
    (runInserted flagsOf [⟨.COPY, .virt M, [StateReg], some part⟩,
        ⟨part.orOp, dst, [src, .virt M], none⟩] ρ).read part.bits dst =
      hide poisoned (ρ.read part.bits src) := by
  have hlow : ((((ρ StateReg).setWidth part.bits).setWidth 512).setWidth part.bits) =
      if poisoned then BitVec.allOnes part.bits else 0 := by
    rw [setWidth_setWidth_le (Nat.le_refl _) (Nat.le_trans (bits_le part) (by decide))]
    exact setWidth_state (bits_le part) hp
  rw [RegFile.read, runInserted, List.foldl_cons, List.foldl_cons, List.foldl_nil, exec_or_part,
    exec_part, Function.update_self, Function.update_of_ne hsrc]
  exact merge_state (Nat.le_refl _) (bits_le part) hlow

/-- The state, narrow where it has to be, and then an OR. -/
theorem narrow_value (dst : Reg) {bits M : Nat}
    (hbits : bits = 8 ∨ bits = 16 ∨ bits = 32 ∨ bits = 64) {StateReg src : Reg} (hsrc : src ≠ .virt M) (hp : ρ.holdsState StateReg poisoned) :
    (runInserted flagsOf (narrowCode bits M StateReg ++
        [⟨orOp bits, dst, [src, narrowReg bits M StateReg], none⟩]) ρ).read bits dst =
      hide poisoned (ρ.read bits src) := by
  obtain rfl | rfl | rfl | rfl := hbits
  · exact part_value flagsOf .sub_8bit hsrc hp
  · exact part_value flagsOf .sub_16bit hsrc hp
  · exact part_value flagsOf .sub_32bit hsrc hp
  · show ((Inserted.exec flagsOf ρ ⟨.OR64rr, dst, [src, StateReg], none⟩) dst).setWidth 64 = _
    rw [exec_or64]
    exact merge_state (Nat.le_refl _) (Nat.le_refl _) hp

/-- What a narrow state takes in new registers. -/
def afterNarrow (bits M : Nat) : Nat := if bits / 8 ≠ 8 then M + 1 else M

def scalarCode (bits G M : Nat) (StateReg r : Reg) : List Inserted :=
  [⟨.COPY, .virt G, [r], none⟩] ++ (narrowCode bits M StateReg ++
    [⟨orOp bits, .virt (G + 1), [.virt G, narrowReg bits M StateReg], none⟩]) ++
    [⟨.COPY, .virt (afterNarrow bits M), [.virt (G + 1)], none⟩]

variable (OpIdx r s) in
theorem hardenScalar_eq (hRC : RC = .FR32 ∨ RC = .FR64)
    (h32 : T.getRegSizeInBits .FR32 = 32) (h64 : T.getRegSizeInBits .FR64 = 64) {live : Bool}
    (hlive : T.isEFLAGSLive = live) :
    (hardenScalar T OpIdx r RC s).1 = .hardened (.virt (afterNarrow (T.getRegSizeInBits RC)
        (afterSaved live (s.nextReg + 2)))) ∧
      (hardenScalar T OpIdx r RC s).2.operands = s.operands.set OpIdx (.reg (.virt (afterNarrow
        (T.getRegSizeInBits RC) (afterSaved live (s.nextReg + 2)))) false) ∧
      (hardenScalar T OpIdx r RC s).2.inserted = s.inserted ++ saved live (s.nextReg + 2)
        (scalarCode (T.getRegSizeInBits RC) s.nextReg (afterSaved live (s.nextReg + 2)) T.StateReg
          r) := by
  obtain rfl | rfl := hRC
  · rw [← foldl_snoc, hardenScalar, hlive, h32]
    cases live <;> exact ⟨rfl, rfl, rfl⟩
  · rw [← foldl_snoc, hardenScalar, hlive, h64]
    cases live <;> exact ⟨rfl, rfl, rfl⟩

theorem runInserted_append (code code' : List Inserted) (ρ : RegFile) :
    runInserted flagsOf (code ++ code') ρ = runInserted flagsOf code' (runInserted flagsOf code ρ) :=
  List.foldl_append

theorem scalarCode_value {bits G M : Nat} (hbits : bits = 32 ∨ bits = 64) (hGM : G < M)
    {StateReg : Reg} (hstate : StateReg ≠ .virt G) (hp : ρ.holdsState StateReg poisoned) :
    (runInserted flagsOf (scalarCode bits G M StateReg r) ρ).read bits
        (.virt (afterNarrow bits M)) = hide poisoned (ρ.read bits r) := by
  have hmid : RegFile.holdsState (Function.update ρ (.virt G) (ρ r)) StateReg poisoned := by
    rw [RegFile.holdsState, RegFile.read, Function.update_of_ne hstate]
    exact hp
  have hsrc : Reg.virt G ≠ .virt M := fun h => by
    have := Reg.virt.inj h
    omega
  have hor := narrow_value flagsOf (.virt (G + 1)) (hbits.elim (fun h => .inr (.inr (.inl h)))
    fun h => .inr (.inr (.inr h))) hsrc hmid
  rw [RegFile.read, RegFile.read, Function.update_self] at hor
  rw [scalarCode, runInserted_append, runInserted_append, RegFile.read]
  simp only [runInserted, List.foldl_cons, List.foldl_nil, exec_copy, Function.update_self]
  exact hor

theorem mem_narrowCode {bits M : Nat} {StateReg : Reg} {I : Inserted}
    (h : I ∈ narrowCode bits M StateReg) : I.dst = .virt M := by
  unfold narrowCode at h
  split at h
  · rw [List.mem_singleton.mp h]
  · simp at h

theorem le_afterNarrow (bits M : Nat) : M ≤ afterNarrow bits M := by
  unfold afterNarrow
  split <;> omega

theorem hardenScalar_hides (hRC : RC = .FR32 ∨ RC = .FR64)
    (h32 : T.getRegSizeInBits .FR32 = 32) (h64 : T.getRegSizeInBits .FR64 = 64)
    (hr : IsOld s r) (hstate : IsOld s T.StateReg) :
    ∃ H, (hardenScalar T OpIdx r RC s).1 = .hardened H ∧ HidesOperand flagsOf T OpIdx r
      (T.getRegSizeInBits RC) s (hardenScalar T OpIdx r RC s).2 H := by
  obtain ⟨hvalue, hoperands, hinserted⟩ :=
    hardenScalar_eq OpIdx r s hRC h32 h64 rfl
  have hle := le_afterSaved T.isEFLAGSLive (s.nextReg + 2)
  have hlive (h : T.isEFLAGSLive = true) : s.nextReg + 2 < afterSaved T.isEFLAGSLive (s.nextReg + 2) := by
    simp [afterSaved, h]
  have hnarrow := le_afterNarrow (T.getRegSizeInBits RC) (afterSaved T.isEFLAGSLive (s.nextReg + 2))
  refine ⟨_, hvalue, hoperands, _, hinserted, hidesValue_saved flagsOf (by omega) ?_ ?_ hr hstate
    (by simp [EFLAGS]) fun ρ p hp => scalarCode_value flagsOf
      (hRC.elim (fun h => .inl (by rw [h, h32])) fun h => .inr (by rw [h, h64])) (by omega)
      (hstate _ (Nat.le_refl _)) hp⟩
  · intro I hI
    simp only [scalarCode, List.mem_append, List.mem_singleton] at hI
    obtain (rfl | hI | rfl) | rfl := hI
    · exact ⟨_, rfl, by omega, fun _ => by omega⟩
    · exact ⟨_, mem_narrowCode hI, by omega, fun hl => by have := hlive hl; omega⟩
    · exact ⟨_, rfl, by omega, fun _ => by omega⟩
    · exact ⟨_, rfl, by omega, fun hl => by have := hlive hl; omega⟩
  · cases h : T.isEFLAGSLive
    · exact .inr (.inl rfl)
    · exact .inl rfl

/-! ### Conditions, and the counter of a repetition -/

variable (OpIdx r s) in
theorem hardenValueInCondition_eq (hbits : T.getRegSizeInBits RC = 8 ∨ T.getRegSizeInBits RC = 16 ∨
      T.getRegSizeInBits RC = 32 ∨ T.getRegSizeInBits RC = 64) {live : Bool}
    (hlive : T.isEFLAGSLive = live) :
    (hardenValueInCondition T OpIdx r RC s).1 = .virt (afterNarrow (T.getRegSizeInBits RC)
        (afterSaved live s.nextReg)) ∧
      (hardenValueInCondition T OpIdx r RC s).2.operands = s.operands.set OpIdx (.reg (.virt
        (afterNarrow (T.getRegSizeInBits RC) (afterSaved live s.nextReg))) false) ∧
      (hardenValueInCondition T OpIdx r RC s).2.inserted = s.inserted ++ saved live s.nextReg
        (narrowCode (T.getRegSizeInBits RC) (afterSaved live s.nextReg) T.StateReg ++
          [⟨orOp (T.getRegSizeInBits RC), .virt (afterNarrow (T.getRegSizeInBits RC)
            (afterSaved live s.nextReg)), [r, narrowReg (T.getRegSizeInBits RC)
              (afterSaved live s.nextReg) T.StateReg], none⟩]) := by
  obtain h | h | h | h := hbits <;> rw [← foldl_snoc, hardenValueInCondition, hlive, h] <;>
    cases live <;> exact ⟨rfl, rfl, rfl⟩

variable (OpIdx) in
theorem hardenValueInCondition_hides (hbits : T.getRegSizeInBits RC = 8 ∨
      T.getRegSizeInBits RC = 16 ∨ T.getRegSizeInBits RC = 32 ∨ T.getRegSizeInBits RC = 64)
    (hr : IsOld s r) (hstate : IsOld s T.StateReg) :
    ∃ H, HidesOperand flagsOf T OpIdx r (T.getRegSizeInBits RC) s
      (hardenValueInCondition T OpIdx r RC s).2 H := by
  obtain ⟨-, hoperands, hinserted⟩ :=
    hardenValueInCondition_eq OpIdx r s hbits rfl
  have hle := le_afterSaved T.isEFLAGSLive s.nextReg
  have hlive (h : T.isEFLAGSLive = true) : s.nextReg < afterSaved T.isEFLAGSLive s.nextReg := by
    simp [afterSaved, h]
  have hnarrow := le_afterNarrow (T.getRegSizeInBits RC) (afterSaved T.isEFLAGSLive s.nextReg)
  refine ⟨_, hoperands, _, hinserted, hidesValue_saved flagsOf (Nat.le_refl _) ?_ ?_ hr hstate
    (by simp [EFLAGS]) fun ρ p hp => narrow_value flagsOf _ hbits (hr _ hle) hp⟩
  · intro I hI
    obtain hI | hI := List.mem_append.mp hI
    · exact ⟨_, mem_narrowCode hI, by omega, fun hl => by have := hlive hl; omega⟩
    · rw [List.mem_singleton.mp hI]
      exact ⟨_, rfl, by omega, fun hl => by have := hlive hl; omega⟩
  · cases h : T.isEFLAGSLive
    · exact .inr (.inl rfl)
    · exact .inl rfl

/-- What the code for the counter of a repetition does. -/
structure HidesCounter (flagsOf : BitVec 512 → BitVec 512) (T : VTTarget) (s s' : VTState) :
    Prop where
  operands : s'.operands = s.operands
  inserted : ∃ code, s'.inserted = s.inserted ++ code ∧ ∀ ρ poisoned,
    RegFile.holdsState ρ T.StateReg poisoned →
      (runInserted flagsOf code ρ).read 64 RCX = hide poisoned (ρ.read 64 RCX) ∧
        ∀ q, IsOld s q → (q = EFLAGS → T.isEFLAGSLive = true) → q ≠ RCX →
          runInserted flagsOf code ρ q = ρ q

theorem hardenRCX_eq {live : Bool} (hlive : T.isEFLAGSLive = live) :
    (hardenRCX T s).2.operands = s.operands ∧ (hardenRCX T s).2.inserted = s.inserted ++
      saved live s.nextReg [⟨.OR64rr, RCX, [RCX, T.StateReg], none⟩] := by
  rw [← foldl_snoc, hardenRCX, hlive]
  cases live <;> exact ⟨rfl, rfl⟩

theorem hardenRCX_hides (hstate : IsOld s T.StateReg) :
    HidesCounter flagsOf T s (hardenRCX T s).2 := by
  obtain ⟨hoperands, hinserted⟩ := hardenRCX_eq (s := s) (T := T) rfl
  refine ⟨hoperands, _, hinserted, fun ρ p hp => ?_⟩
  have hM : T.isEFLAGSLive = true → ∀ I ∈ [(⟨.OR64rr, RCX, [RCX, T.StateReg], none⟩ : Inserted)],
      Reg.virt s.nextReg ≠ I.dst := by simp [RCX]
  have hold {q : Reg} (hq : q ≠ .virt s.nextReg) : savedRegs T.isEFLAGSLive s.nextReg ρ q = ρ q := by
    cases T.isEFLAGSLive with
    | false => rfl
    | true => exact Function.update_of_ne hq _ _
  constructor
  · rw [RegFile.read, runInserted_saved flagsOf _ _ hM, if_neg (by simp [RCX, EFLAGS]), runInserted,
      List.foldl_cons, List.foldl_nil, exec_or64, hold (by simp [RCX]),
      hold (hstate _ (Nat.le_refl _))]
    exact merge_state (Nat.le_refl _) (Nat.le_refl _) hp
  · intro q hq hE hRCX
    rw [runInserted_saved flagsOf _ _ hM]
    split_ifs with hflags
    · rw [hflags.2]
    · rw [runInserted_frame flagsOf (by simpa using hRCX)
        (fun hqE => absurd ⟨hE hqE, hqE⟩ hflags), hold (hq _ (Nat.le_refl _))]

/-! ## The loop -/

/-- What the pass relies on about the register classes. -/
structure VTTarget.Sized (T : VTTarget) : Prop where
  gr8 : ∀ RC, T.hasSuperClassEq RC .GR8 = true → T.getRegSizeInBits RC = 8
  gr16 : ∀ RC, T.hasSuperClassEq RC .GR16 = true → T.getRegSizeInBits RC = 16
  gr32 : ∀ RC, T.hasSuperClassEq RC .GR32 = true → T.getRegSizeInBits RC = 32
  gr64 : ∀ RC, T.hasSuperClassEq RC .GR64 = true → T.getRegSizeInBits RC = 64
  fr32 : T.getRegSizeInBits .FR32 = 32
  fr64 : T.getRegSizeInBits .FR64 = 64
  vr128 : ∀ RC, T.hasSuperClassEq RC .VR128 = true →
    T.getRegSizeInBits RC ≤ 128 ∧ T.hasSuperClassEq RC .VR128X = true
  vr256 : ∀ RC, T.hasSuperClassEq RC .VR256 = true →
    T.getRegSizeInBits RC ≤ 256 ∧ T.hasSuperClassEq RC .VR256X = true
  vr128x : ∀ RC, T.hasSuperClassEq RC .VR128X = true → T.getRegSizeInBits RC ≤ 128
  vr256x : ∀ RC, T.hasSuperClassEq RC .VR256X = true → T.getRegSizeInBits RC ≤ 256
  vr512 : ∀ RC, T.hasSuperClassEq RC .VR512 = true → T.getRegSizeInBits RC ≤ 512

variable (OpIdx RC) in
theorem hardenFP_hides (hT : T.Sized) (hr : IsOld s r) (hstate : IsOld s T.StateReg) :
    hardenFP T OpIdx r RC s = (.one, s) ∨ ∃ H, (hardenFP T OpIdx r RC s).1 = .hardened H ∧
      HidesOperand flagsOf T OpIdx r (T.getRegSizeInBits RC) s (hardenFP T OpIdx r RC s).2 H := by
  unfold hardenFP
  split_ifs with hnone hvector hvectorX
  · exact .inl rfl
  · refine .inr (hardenVector_hides flagsOf hr hstate ?_)
    split
    · exact (hT.vr128 RC ‹_›).1
    · case _ h128 =>
      exact (hT.vr256 RC (hvector.2.resolve_left h128)).1
  · refine .inr (hardenVectorX_hides flagsOf hr hstate ?_)
    split
    · exact hT.vr128x RC ‹_›
    · split
      · exact hT.vr256x RC ‹_›
      · case _ h128 h256 =>
        exact hT.vr512 RC ((hvectorX.resolve_left h128).resolve_left h256)
  · -- The class is that of a scalar, for the vectors have been dealt with.
    refine .inr (hardenScalar_hides flagsOf ?_ hT.fr32 hT.fr64 hr hstate)
    by_contra hscalar
    obtain ⟨h32, h64⟩ := not_or.mp hscalar
    refine hnone ⟨h32, h64, fun hv => hvectorX ?_⟩
    obtain hv | hv | hv := hv
    · exact .inl (hT.vr128 RC hv).2
    · exact .inr (.inl (hT.vr256 RC hv).2)
    · exact .inr (.inr hv)

variable (RC) in
/-- A register that can be hardened is a general one. -/
theorem bits_of_canHardenRegister (hT : T.Sized) (h : canHardenRegister T RC = true) :
    T.getRegSizeInBits RC = 8 ∨ T.getRegSizeInBits RC = 16 ∨ T.getRegSizeInBits RC = 32 ∨
      T.getRegSizeInBits RC = 64 := by
  unfold canHardenRegister at h
  simp only at h
  split_ifs at h
  split at h
  · case _ GPR hGPR =>
    generalize Nat.log2 (T.getRegSizeInBits RC / 8) = k at hGPR
    match k, hGPR with
    | 0, rfl => exact .inl (hT.gr8 RC h)
    | 1, rfl => exact .inr (.inl (hT.gr16 RC h))
    | 2, rfl => exact .inr (.inr (.inl (hT.gr32 RC h)))
    | 3, rfl => exact .inr (.inr (.inr (hT.gr64 RC h)))
  · exact absurd h Bool.false_ne_true

/-- What the pass has done to an instruction: nothing, or one operand is hardened, or the counter
of a repetition. -/
inductive Hidden (flagsOf : BitVec 512 → BitVec 512) (T : VTTarget) (mi : VTInstr) (s s' : VTState) :
    Prop
  | nothing (h : s' = s)
  | operand (j n : Nat) (H : Reg) (hj : s.operands[j]? = some (.reg (.virt n) false))
      (h : HidesOperand flagsOf T j (.virt n) (T.getRegSizeInBits (s.regClass n)) s s' H)
  | counter (h1 : analyseVariantTimingInstruction mi.opcode = 1) (h : HidesCounter flagsOf T s s')

variable {mi : VTInstr} {AddrRegToHardenedReg : List Reg} {special : Bool} {idx : Nat}

variable (OpIdx mi AddrRegToHardenedReg special) in
theorem hardenOperand_hidden (hT : T.Sized) (hs : s.Fresh T) :
    Hidden flagsOf T mi s
      (hardenOperand T mi AddrRegToHardenedReg special OpIdx s).2 := by
  by_cases h : ∃ n, s.operands[OpIdx]? = some (.reg (.virt n) false)
  · obtain ⟨n, hn⟩ := h
    have hr := hs.operands OpIdx _ _ hn
    rw [hardenOperand_virt hn]
    unfold hardenRegister
    split_ifs with hFP h1 h2 hc hmem
    · obtain hone | ⟨H, -, hH⟩ := hardenFP_hides flagsOf OpIdx (s.regClass n) hT hr
        hs.state
      · refine .nothing ?_
        show (hardenFP T OpIdx (.virt n) (s.regClass n) s).2 = s
        rw [hone]
      · exact .operand OpIdx n H hn hH
    · exact .counter h1 (hardenRCX_hides flagsOf hs.state)
    · exact .nothing rfl
    · exact .nothing rfl
    · have hbits := bits_of_canHardenRegister (s.regClass n) hT (by simpa using hc)
      obtain ⟨H, hH⟩ := hardenValueInCondition_hides flagsOf OpIdx hbits hr hs.state
      refine .operand OpIdx n H hn ?_
      obtain ⟨m, hm⟩ := hardenValueInCondition_eq_virt T OpIdx (.virt n) (s.regClass n) s
      show HidesOperand flagsOf T OpIdx (.virt n) _ s ((if
        (hardenValueInCondition T OpIdx (.virt n) (s.regClass n) s).1 = .NoRegister then return none
        else return some .one : Emit (Option Returned))
          (hardenValueInCondition T OpIdx (.virt n) (s.regClass n) s).2).2 H
      rw [hm, if_neg (by simp)]
      exact hH
    · exact .nothing rfl
  · push Not at h
    rw [hardenOperand_other h]
    exact .nothing rfl

/-- Until it returns the loop has done nothing. -/
def LoopHidden (flagsOf : BitVec 512 → BitVec 512) (T : VTTarget) (mi : VTInstr) (s : VTState) :
    LoopState → Prop
  | .head _ s' => s' = s
  | .done _ s' => Hidden flagsOf T mi s s'

theorem run_hidden (hT : T.Sized) (hs : s.Fresh T) {l : LoopState}
    (h : Run (hardenVariantTimingInstr T mi AddrRegToHardenedReg special idx) (fun _ => True)
      (.head OpIdx s) l) : LoopHidden flagsOf T mi s l := by
  refine h.invariant (P := LoopHidden flagsOf T mi s) rfl ?_
  rintro (⟨i, t⟩ | ⟨v, t⟩) b hP - hstep
  · obtain rfl : t = s := hP
    simp only [hardenVariantTimingInstr] at hstep
    by_cases hlt : i < t.operands.length
    · rw [if_pos hlt] at hstep
      have hhidden := hardenOperand_hidden flagsOf (if special then idx else i) mi
        AddrRegToHardenedReg special hT hs
      obtain ⟨value, t', hret⟩ | hret := hardenOperand_cases T mi AddrRegToHardenedReg special
        (if special then idx else i) t
      · rw [hret] at hstep hhidden
        obtain rfl := Option.some.inj hstep
        exact hhidden
      · rw [hret] at hstep
        obtain rfl := Option.some.inj hstep
        rfl
    · rw [if_neg hlt] at hstep
      obtain rfl := Option.some.inj hstep
      exact .nothing rfl
  · simp [hardenVariantTimingInstr] at hstep

variable (OpIdx mi AddrRegToHardenedReg special idx)

/-- The instruction reads what it read before as long as the predicate state is zero, and no
register of the function changes, nor do flags that are live. With a state of all ones, what has
been hardened reads all ones: an operand, or the counter of a repetition. -/
theorem hardenVariantTimingInstr_hides (hT : T.Sized) (hs : s.Fresh T) {value : Returned}
    {s' : VTState}
    (h : Run (hardenVariantTimingInstr T mi AddrRegToHardenedReg special idx) (fun _ => True)
      (.head OpIdx s) (.done value s')) :
    ∃ code, s'.inserted = s.inserted ++ code ∧
      (∀ ρ, RegFile.holdsState ρ T.StateReg false →
        (∀ q, IsOld s q → (q = EFLAGS → T.isEFLAGSLive = true) → q ≠ RCX →
          runInserted flagsOf code ρ q = ρ q) ∧
        (runInserted flagsOf code ρ).read 64 RCX = ρ.read 64 RCX ∧
        ∀ (j n : Nat), s.operands[j]? = some (.reg (.virt n) false) →
          ∃ q, s'.operands[j]? = some (.reg q false) ∧
            (runInserted flagsOf code ρ).read (T.getRegSizeInBits (s.regClass n)) q =
              ρ.read (T.getRegSizeInBits (s.regClass n)) (.virt n)) ∧
      (s' = s ∨
        (analyseVariantTimingInstruction mi.opcode = 1 ∧
          ∀ ρ, RegFile.holdsState ρ T.StateReg true →
            (runInserted flagsOf code ρ).read 64 RCX = BitVec.allOnes 64) ∨
        ∃ (j n : Nat) (q : Reg), s.operands[j]? = some (.reg (.virt n) false) ∧
          s'.operands[j]? = some (.reg q false) ∧
          ∀ ρ, RegFile.holdsState ρ T.StateReg true →
            (runInserted flagsOf code ρ).read (T.getRegSizeInBits (s.regClass n)) q =
              BitVec.allOnes (T.getRegSizeInBits (s.regClass n))) := by
  have hRCX : IsOld s RCX := fun n _ => by simp [RCX]
  have hvirt (n : Nat) : Reg.virt n ≠ EFLAGS ∧ Reg.virt n ≠ RCX := by simp [EFLAGS, RCX]
  obtain rfl | ⟨j, n, H, hj, hH⟩ | ⟨h1, hC⟩ := (run_hidden flagsOf hT hs h : Hidden flagsOf T mi s s')
  · exact ⟨[], by simp, fun ρ _ => ⟨fun _ _ _ _ => rfl, rfl, fun j n hj => ⟨_, hj, rfl⟩⟩, .inl rfl⟩
  · obtain ⟨hoperands, code, hcode, hvalue, hframe⟩ := hH
    have hlt : j < s.operands.length := (List.getElem?_eq_some_iff.mp hj).1
    refine ⟨code, hcode, fun ρ hρ => ⟨fun q hq hE _ => hframe ρ q hq hE, ?_, fun i m hi => ?_⟩,
      .inr (.inr ⟨j, n, H, hj, ?_, fun ρ hρ => hvalue ρ true hρ⟩)⟩
    · rw [RegFile.read, hframe ρ RCX hRCX (by simp [RCX, EFLAGS]), RegFile.read]
    · by_cases hij : i = j
      · subst hij
        obtain rfl : m = n := by
          rw [hj] at hi
          simpa using hi.symm
        refine ⟨H, ?_, hvalue ρ false hρ⟩
        rw [hoperands, List.getElem?_set_self hlt]
      · refine ⟨.virt m, ?_, ?_⟩
        · rw [hoperands, List.getElem?_set_ne (Ne.symm hij), hi]
        · rw [RegFile.read, hframe ρ _ (hs.operands i _ _ hi) fun h => absurd h (hvirt m).1,
            RegFile.read]
    · rw [hoperands, List.getElem?_set_self hlt]
  · obtain ⟨hoperands, code, hcode, hrun⟩ := hC
    refine ⟨code, hcode, fun ρ hρ => ⟨(hrun ρ false hρ).2, (hrun ρ false hρ).1, fun i m hi => ?_⟩,
      .inr (.inl ⟨h1, fun ρ hρ => (hrun ρ true hρ).1⟩)⟩
    refine ⟨.virt m, by rw [hoperands, hi], ?_⟩
    rw [RegFile.read, (hrun ρ false hρ).2 _ (hs.operands i _ _ hi)
      (fun h => absurd h (hvirt m).1) (hvirt m).2, RegFile.read]

end Code

/-! ### A division where the flags are live -/

/-- The sizes of the classes of x86. -/
def x86Target : VTTarget where
  hasSuperClassEq RC RC' := decide (RC = RC' ∨ (RC, RC') ∈ [(RegClass.GR8_NOREX, RegClass.GR8),
    (.GR16_NOREX, .GR16), (.GR32_NOREX, .GR32), (.GR64_NOREX, .GR64), (.VR128, .VR128X),
    (.VR256, .VR256X)])
  getRegSizeInBits RC := match RC with
    | .GR8 | .GR8_NOREX => 8
    | .GR16 | .GR16_NOREX => 16
    | .GR32 | .GR32_NOREX | .FR32 => 32
    | .VR128 | .VR128X => 128
    | .VR256 | .VR256X => 256
    | .VR512 => 512
    | _ => 64
  hasVLX := false
  hasBMI2 := false
  isEFLAGSLive := true
  StateReg := .virt 1

theorem x86Target_sized : x86Target.Sized where
  gr8 RC h := by cases RC <;> simp_all [x86Target]
  gr16 RC h := by cases RC <;> simp_all [x86Target]
  gr32 RC h := by cases RC <;> simp_all [x86Target]
  gr64 RC h := by cases RC <;> simp_all [x86Target]
  fr32 := rfl
  fr64 := rfl
  vr128 RC h := by cases RC <;> simp_all [x86Target]
  vr256 RC h := by cases RC <;> simp_all [x86Target]
  vr128x RC h := by cases RC <;> simp_all [x86Target]
  vr256x RC h := by cases RC <;> simp_all [x86Target]
  vr512 RC h := by cases RC <;> simp_all [x86Target]

theorem divisionState_fresh : (divisionState .GR64).Fresh x86Target where
  operands j q isDef h := by
    have hmem := List.mem_of_getElem? h
    intro n hn
    have hn : 2 ≤ n := hn
    simp only [divisionState, EFLAGS, List.mem_cons, MachineOperand.reg.injEq, List.not_mem_nil,
      or_false] at hmem
    obtain ⟨rfl, -⟩ | ⟨rfl, -⟩ | ⟨rfl, -⟩ | ⟨rfl, -⟩ | ⟨rfl, -⟩ | ⟨rfl, -⟩ := hmem <;>
      simp only [ne_eq, Reg.virt.injEq, reduceCtorEq, not_false_eq_true]
    omega
  state n hn := by
    have hn : 2 ≤ n := hn
    simp only [x86Target, ne_eq, Reg.virt.injEq]
    omega

/-- The flags are saved before the OR, and restored behind it. -/
theorem division_hides :
    let s' := (hardenOperand x86Target division [] false 0 (divisionState .GR64)).2
    s'.inserted.length = 3 ∧
      (∀ ρ, RegFile.holdsState ρ (.virt 1) false →
        runInserted (fun v => v) s'.inserted ρ EFLAGS = ρ EFLAGS) ∧
      ∃ (j n : Nat) (q : Reg), (divisionState .GR64).operands[j]? = some (.reg (.virt n) false) ∧
        s'.operands[j]? = some (.reg q false) ∧
        ∀ ρ, RegFile.holdsState ρ (.virt 1) true →
          (runInserted (fun v => v) s'.inserted ρ).read 64 q = BitVec.allOnes 64 := by
  intro s'
  have hlength : s'.inserted.length = 3 := rfl
  have hrun : Run (hardenVariantTimingInstr x86Target division [] false 0) (fun _ => True)
      (.head 0 (divisionState .GR64)) (.done _ s') := .tail (.refl _) trivial rfl
  obtain ⟨code, hcode, hzero, hones⟩ := hardenVariantTimingInstr_hides (fun v => v) 0 division []
    false 0 x86Target_sized divisionState_fresh hrun
  have hcode : s'.inserted = code := hcode
  subst hcode
  refine ⟨hlength, fun ρ hρ => (hzero ρ hρ).1 EFLAGS (fun n _ => by simp [EFLAGS])
    (fun _ => rfl) (by simp [EFLAGS, RCX]), ?_⟩
  obtain hsame | ⟨hrep, -⟩ | hop := hones
  · rw [hsame] at hlength
    exact absurd hlength (by decide)
  · exact absurd hrep (by decide)
  · exact hop

end MSV.SLH
