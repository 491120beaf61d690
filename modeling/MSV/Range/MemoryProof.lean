import Mathlib.Tactic.IntervalCases
import MSV.Range.VisitProof

/-!
# The memory part of the ranges

A range recorded for a local alloca, or for a cast of one, is meant to be that of the integer held
there, and the range of a load that of the integer loaded. This module compares what the engine has
recorded for a function, when its worklist is empty, with the memory along any path through the
function.

The memory is seen through the pointers the analysis has keys for: `held k` is the integer at `k`,
read with the type of `k`. A store through such a pointer changes every key of the same alloca; a
store through any other pointer, a call and an atomic operation may change any.

**Theorem (`memory_sound`).** In a run of the engine that loses no edge (`StepOK`), when the
worklist of a function is empty, on every path whose steps meet `MemOK`, every recorded constant
range contains the integer.

The conditions on a path are about the states of the last visits, which what is recorded comes from
(`VisitDone`): a key whose integer changes, other than the one stored through, has no constant
range; a value stored that was not loaded is in its range, and no value stored is negative when it
has an entry of its own (the code then keeps `[0, r]`); a GEP with zero indices takes the range of
its base for a size; a guard's range contains the value. Within a block the states follow the path
by `exec_contains` and `call_contains`, and over an edge by `edges_done`.
-/

namespace MSV

variable (M : Module)

/-! ## Cells -/

/-- A key that stands for an integer in a local alloca. -/
def IsCell (k : Value) : Prop :=
  isLocalAllocaPointer M k = true ∧ ∃ w, M.typeOf k = .ptr (.int w)

/-- An integer load from a cell. -/
def IsCellLoad (k : Value) : Prop := ∃ ptr, M.kindOf k = some (.load ptr) ∧ IsCell M ptr

/-- The integers in the cells, and those of the values computed so far. -/
structure Conc where
  held : Value → Int
  regs : Value → Option Int

/-- The integer a value stands for. -/
def Conc.intValue (c : Conc) : Value → Option Int
  | .constInt a => some a.toInt
  | v => c.regs v

/-- Instruction `i` may change the integer at `k`. -/
def MayWrite (i : Inst) (k : Value) : Prop :=
  match i.kind with
  | .store _ ptr =>
      isLocalAllocaPointer M ptr = true → M.stripPointerCasts k = M.stripPointerCasts ptr
  | .alloca .. => M.stripPointerCasts k = .inst i.id
  | .call .. | .invoke .. | .other _ => True
  | _ => False

/-- What instruction `i` does. -/
structure Effect (i : Inst) (c c' : Conc) : Prop where
  regs : ∀ v, v ≠ .inst i.id → c'.regs v = c.regs v
  load : ∀ ptr, i.kind = .load ptr → IsCell M ptr → c'.regs (.inst i.id) = some (c.held ptr)
  /-- A store writes all keys of the alloca that have its type. -/
  store : ∀ val ptr, i.kind = .store val ptr → ∀ k, IsCell M k →
    isLocalAllocaPointer M ptr = true → M.stripPointerCasts k = M.stripPointerCasts ptr →
    M.typeOf k = M.typeOf ptr → c.intValue val = some (c'.held k)
  frame : ∀ k, IsCell M k → ¬ MayWrite M i k → c'.held k = c.held k

/-- Stores and loads have the type of what they access. -/
structure Module.MemTyped : Prop where
  store : ∀ i ∈ M.insts, ∀ val ptr, i.kind = .store val ptr → M.typeOf ptr = .ptr (M.typeOf val)
  load : ∀ i ∈ M.insts, ∀ ptr, i.kind = .load ptr → M.typeOf ptr = .ptr i.ty

/-! ## Paths -/

/-- A place in a function, with the memory there. -/
structure MemState where
  block : Block
  done : List Inst
  todo : List Inst
  conc : Conc

variable (DL : DataLayout) (usePC : Bool) (f : Function)

/-- One step of a path. -/
inductive MemStep : MemState → MemState → Prop
  | inst {b : Block} {done : List Inst} {i : Inst} {rest : List Inst} {c c' : Conc}
      (he : Effect M i c c') : MemStep ⟨b, done, i :: rest, c⟩ ⟨b, done ++ [i], rest, c'⟩
  | edge {b b' : Block} {done : List Inst} {c : Conc} (hb : b ∈ f.blocks) (hb' : b' ∈ f.blocks)
      (hsucc : b'.id ∈ b.successors) : MemStep ⟨b, done, [], c⟩ ⟨b', [], b'.insts, c⟩

/-- The state that is recorded for a place: the entry state of the block, or the state behind the
instruction before. -/
def recordedAt (r : RangeResult) (st : MemState) : RangeState :=
  match st.done.getLast? with
  | none => r.get (.block st.block.id)
  | some i => r.get (.inst i.id)

/-- The last visits of the blocks. -/
def Visits (r : RangeResult) (visit : Block → List Inst → RangeState) : Prop :=
  ∀ b ∈ f.blocks, CFGReachable f b.id → VisitDone M DL r b (visit b)

/-- The integer a key stands for. -/
def Holds (c : Conc) (k : Value) (x : Int) : Prop :=
  IsCell M k ∧ c.held k = x ∨ IsCellLoad M k ∧ c.regs k = some x

/-- A path starts where no single block leads to, as at the entry, and nothing has been loaded. -/
structure MemStart (st : MemState) : Prop where
  block : st.block ∈ f.blocks
  reachable : CFGReachable f st.block.id
  several : f.getSinglePredecessor st.block.id = none
  done : st.done = []
  todo : st.todo = st.block.insts
  regs : ∀ k, IsCellLoad M k → st.conc.regs k = none

/-! ## The condition -/

/-- The stored integer `x` of value `val` is in the range that is kept for it. -/
structure StoredOK (s : RangeState) (val : Value) (x : Int) : Prop where
  malloc : isKnownMallocCall M val = none
  /-- Of a value that is not itself loaded from a cell. -/
  range : ¬ IsCellLoad M val → ∀ l r, (getRangeFor val s).1 = .constant l r →
    l.toInt ≤ x ∧ x ≤ r.toInt
  /-- A value with an entry of its own is kept as `[0, r]`, at its width. -/
  entry : ∀ l r, s.find val = some (.constant l r) → 0 ≤ x ∧ x ≤ r.toInt ∧ r.width ≤ 64 ∧
    ∃ w, M.typeOf val = .int (w + 1) ∧ r.toInt < 2 ^ w

/-- The condition on an instruction. -/
structure MemInstOK (s : RangeState) (i : Inst) (c c' : Conc) : Prop where
  /-- A key whose integer changes has no constant range, unless it is the one stored through. -/
  stale : ∀ k, IsCell M k → c'.held k ≠ c.held k →
    (∀ val ptr, i.kind = .store val ptr → k ≠ ptr) → ∀ l r, s.find k ≠ some (.constant l r)
  store : ∀ val ptr x, i.kind = .store val ptr → IsCell M ptr → c.intValue val = some x →
    StoredOK M s val x
  /-- A GEP with zero indices is kept as `[0, r]` where its base is `[l, r]`. -/
  gep : ∀ src base indices l r, i.kind = .gep src base indices → IsCell M (.inst i.id) →
    (getRangeFor base s).1 = .constant l r →
    r.width ≤ 64 ∧ 0 ≤ c.held (.inst i.id) ∧ c.held (.inst i.id) ≤ r.toInt
  /-- No such GEP is met for the first time as an incoming value or an argument. -/
  operands : ∀ k ∈ i.kind.operands, IsCell M k → s.has k ∨
    ∀ src base indices, M.kindOf k ≠ some (.gep src base indices)

/-- The condition on a step. -/
structure MemOK (visit : Block → List Inst → RangeState) (st st' : MemState) : Prop where
  inst : ∀ i rest, st.todo = i :: rest →
    MemInstOK M (visit st.block st.todo) i st.conc st'.conc
  guard : st.todo = [] → ∀ k x g, Holds M st.conc k x →
    (guardOf M DL usePC f st'.block.id).find k = some g → g.Contains x

/-- Every range contains the integer, and what was loaded has a range. -/
structure MemSound (s : RangeState) (c : Conc) : Prop where
  contains : ∀ k x R, Holds M c k x → s.find k = some R → R.Contains x
  loaded : ∀ k x, IsCellLoad M k → c.regs k = some x → s.has k

variable {M DL usePC f}

/-! ## Edges -/

theorem RangeValue.Contains.inter {a b : RangeValue} {x : Int} (ha : a.Contains x)
    (hb : b.Contains x) : (a.inter b).Contains x := by
  cases a with
  | unknown => rw [RangeValue.unknown_inter]; exact hb
  | infinity => cases b <;> exact hb
  | constant l r =>
      cases b with
      | unknown => exact ha
      | infinity => exact ha
      | constant l' r' =>
          unfold RangeValue.inter RangeValue.Contains
          constructor
          · split_ifs
            · exact hb.1
            · exact ha.1
          · split_ifs
            · exact hb.2
            · exact ha.2

theorem RangeValue.Contains.of_included {a b : RangeValue} {x : Int} (h : RangeValue.Included a b)
    (ha : a.Contains x) : b.Contains x := by
  cases a with
  | constant l r =>
      cases b with
      | constant l' r' => exact ⟨h.1.trans ha.1, ha.2.trans h.2⟩
      | _ => trivial
  | _ => cases b <;> trivial

/-- **An edge keeps the integers in their ranges.** -/
theorem MemSound.edge {exit guard entry : RangeState} {c : Conc} (h : MemSound M exit c)
    (hdone : EdgeDone exit guard entry)
    (hguard : ∀ k x g, Holds M c k x → guard.find k = some g → g.Contains x) :
    MemSound M entry c where
  contains := by
    intro k x R hk hR
    cases R with
    | constant l r =>
        rcases hdone.fresh k l r hR with ⟨l', r', hexit, hincl⟩ | ⟨g, hg, hR'⟩
        · exact (h.contains k x _ hk hexit).of_included hincl
        · rw [hR']
          split
          · rename_i R' hR''
            exact (h.contains k x R' hk hR'').inter (hguard k x g hk hg)
          · exact hguard k x g hk hg
    | _ => trivial
  loaded := fun k x hk hx => hdone.keys k (h.loaded k x hk hx)

/-! ## Keys of cells -/

/-- What `stripPointerCasts` does to a value that is neither a pointer cast nor a zero-index GEP. -/
theorem stripFuel_self {v : Value} (hcast : ∀ op a, M.kindOf v ≠ some (.cast op a))
    (hgep : ∀ src base indices, M.kindOf v = some (.gep src base indices) →
      Module.hasAllZeroIndices indices = false) (n : Nat) : M.stripFuel n v = v := by
  cases n with
  | zero => rfl
  | succ n =>
      unfold Module.stripFuel
      split
      · rename_i w hk
        exact absurd hk (hcast _ _)
      · rename_i w hk
        exact absurd hk (hcast _ _)
      · rename_i src base indices hk
        rw [hgep src base indices hk]
        rfl
      · rfl

/-- A local alloca pointer is an alloca, a cast, or a GEP with zero indices. -/
theorem kind_of_local {k : Value} (h : isLocalAllocaPointer M k = true) :
    (∃ ty n, M.kindOf k = some (.alloca ty n)) ∨ (∃ op a, M.kindOf k = some (.cast op a)) ∨
      ∃ src base indices, M.kindOf k = some (.gep src base indices) ∧
        Module.hasAllZeroIndices indices = true := by
  by_cases hcast : ∃ op a, M.kindOf k = some (.cast op a)
  · exact .inr (.inl hcast)
  by_cases hgep : ∃ src base indices, M.kindOf k = some (.gep src base indices) ∧
      Module.hasAllZeroIndices indices = true
  · exact .inr (.inr hgep)
  have hself : M.stripPointerCasts k = k := by
    refine stripFuel_self (fun op a hk => hcast ⟨op, a, hk⟩) (fun src base indices hk => ?_) _
    rw [← Bool.not_eq_true]
    exact fun hzero => hgep ⟨src, base, indices, hk, hzero⟩
  unfold isLocalAllocaPointer at h
  rw [hself] at h
  split at h
  · rename_i ty n hk
    exact .inl ⟨ty, n, hk⟩
  · cases h

theorem not_cellLoad_of_local {k : Value} (h : isLocalAllocaPointer M k = true) :
    ¬ IsCellLoad M k := by
  rintro ⟨ptr, hk, -⟩
  obtain ⟨ty, n, hk'⟩ | ⟨op, a, hk'⟩ | ⟨src, base, indices, hk', -⟩ := kind_of_local h
  · cases hk.symm.trans hk'
  · cases hk.symm.trans hk'
  · cases hk.symm.trans hk'

/-! ## What a transfer leaves under a cell's key -/

theorem foldCast_pointer (op : CastOp) (c : APInt) (t : Ty) : foldCast op c (.ptr t) = none := by
  cases op <;> rfl

theorem evaluateCast_pointer (op : CastOp) (v : Value) (t : Ty) (s : RangeState) (l r : APInt) :
    (evaluateCast op v (.ptr t) s).1 ≠ .constant l r := by
  intro h
  unfold evaluateCast at h
  dsimp only at h
  cases hv : (getRangeFor v s).1 with
  | constant a b =>
      rw [hv] at h
      dsimp only at h
      rw [foldCast_pointer] at h
      cases h
  | _ =>
      rw [hv] at h
      cases h

/-- Neither an alloca nor a pointer cast gets a constant range. -/
theorem transfer_quiet {k : Value} (hcell : IsCell M k)
    (hgep : ∀ src base indices, M.kindOf k ≠ some (.gep src base indices)) (s : RangeState)
    (l r : APInt) : (transfer M DL k s).find k ≠ some (.constant l r) := by
  intro h
  obtain ⟨hlocal, w, hty⟩ := hcell
  unfold transfer at h
  obtain ⟨ty, n, hk⟩ | ⟨op, a, hk⟩ | ⟨src, base, indices, hk, -⟩ := kind_of_local hlocal
  · rw [hk] at h
    dsimp only at h
    rw [FMap.find_set_self] at h
    cases h
  · rw [hk, hty] at h
    dsimp only at h
    rw [FMap.find_set_self] at h
    exact evaluateCast_pointer op a _ _ l r (Option.some.inj h)
  · exact hgep src base indices hk

/-! ## Sizes that are read as integers -/

/-- The upper end of a range that is not negative, at 64 bits. -/
theorem toNat_sextOrTrunc {r : APInt} (hw : r.width ≤ 64) (h0 : 0 ≤ r.toInt) :
    ((r.sextOrTrunc 64).toNat : Int) = r.toInt ∧ (r.sextOrTrunc 64).toNat < 2 ^ 63 := by
  have hint : (r.sextOrTrunc 64).toInt = r.toInt := BitVec.toInt_signExtend_of_le hw
  have hnat := (r.sextOrTrunc 64).toInt_of_nonneg (by omega)
  have hlt : (r.sextOrTrunc 64).toInt < 2 ^ 63 := BitVec.toInt_lt (x := r.bits.signExtend 64)
  refine ⟨by omega, ?_⟩
  have : ((r.sextOrTrunc 64).toNat : Int) < 2 ^ 63 := by omega
  exact_mod_cast this

theorem allocSizeOf_eq {r : APInt} (hw : r.width ≤ 64) (h0 : 0 ≤ r.toInt) :
    allocSizeOf r = (r.sextOrTrunc 64).toNat + 1 := by
  have hlt := (toNat_sextOrTrunc hw h0).2
  unfold allocSizeOf u64
  exact Nat.mod_eq_of_lt (by omega)

/-- `[0, n]` at `w + 1` bits, for an `n` below the sign bit. -/
theorem contains_zero_to {w n : Nat} {x : Int} (hn : n < 2 ^ w) (h0 : 0 ≤ x) (hx : x ≤ n) :
    (makeRange (APInt.ofNat (w + 1) 0) (APInt.ofNat (w + 1) n)).Contains x := by
  have hpow : 2 ^ (w + 1) = 2 * 2 ^ w := by rw [Nat.pow_succ, Nat.mul_comm]
  have hzero : (APInt.ofNat (w + 1) 0).toInt = 0 := by
    unfold APInt.ofNat APInt.toInt
    simp
  have hbits : (BitVec.ofNat (w + 1) n).toNat = n := by
    rw [BitVec.toNat_ofNat, Nat.mod_eq_of_lt (by omega)]
  have htop : (APInt.ofNat (w + 1) n).toInt = n := by
    show (BitVec.ofNat (w + 1) n).toInt = n
    rw [BitVec.toInt_eq_toNat_of_lt (by rw [hbits]; omega), hbits]
  show (APInt.ofNat (w + 1) 0).toInt ≤ x ∧ x ≤ (APInt.ofNat (w + 1) n).toInt
  rw [hzero, htop]
  exact ⟨h0, hx⟩

/-! ## Stores and GEPs -/

/-- The range a store leaves contains the integer. -/
theorem handleStore_contains {val ptr : Value} {s : RangeState} {x : Int}
    (hlocal : isLocalAllocaPointer M ptr = true) (hne : val ≠ ptr) (hok : StoredOK M s val x)
    (hval : (getRangeFor val s).1.Contains x) {R : RangeValue}
    (hR : (handleStore M val ptr s).find ptr = some R) : R.Contains x := by
  have hfind : ∀ l r, ((getRangeFor val s).2.set ptr (getRangeFor val s).1).find val =
      some (.constant l r) → s.find val = some (.constant l r) := by
    intro l r h
    rw [FMap.find_set_ne _ _ hne] at h
    exact ((getRangeFor_reads val s).const val l r h).resolve_right id
  unfold handleStore at hR
  simp only [hlocal, if_true, hok.malloc] at hR
  split at hR
  · rename_i l r heq
    obtain ⟨h0, hx, hw, w, hty, hlt⟩ := hok.entry l r (hfind l r heq)
    rw [FMap.find_set_self] at hR
    obtain rfl := Option.some.inj hR
    obtain ⟨hnat, hbound⟩ := toNat_sextOrTrunc hw (h0.trans hx)
    have hsize : u64 (allocSizeOf r + 2 ^ 64 - 1) = (r.sextOrTrunc 64).toNat := by
      rw [allocSizeOf_eq hw (h0.trans hx)]
      unfold u64
      omega
    rw [hty, hsize]
    refine contains_zero_to ?_ h0 (by omega)
    have : ((r.sextOrTrunc 64).toNat : Int) < 2 ^ w := by omega
    exact_mod_cast this
  · rw [FMap.find_set_self] at hR
    obtain rfl := Option.some.inj hR
    exact hval

/-- Zero indices add up to no offset. -/
theorem gepOffset_zero (elemSize : Nat) : ∀ {indices : List Value} (s : RangeState),
    Module.hasAllZeroIndices indices = true → (gepOffset elemSize indices 0 s).1 = some 0
  | [], _, _ => rfl
  | v :: vs, s, h => by
    unfold Module.hasAllZeroIndices at h
    rw [List.all_cons, Bool.and_eq_true] at h
    obtain ⟨hv, hvs⟩ := h
    cases v with
    | constInt c =>
        have hc : c.toNat = 0 := by simpa using hv
        have hbits : c.bits = 0#c.width := by
          apply BitVec.eq_of_toNat_eq
          rw [BitVec.toNat_ofNat, Nat.zero_mod]
          exact hc
        have hindex : (c.sextOrTrunc 64).toInt = 0 := by
          unfold APInt.sextOrTrunc APInt.toInt
          rw [hbits, BitVec.signExtend_eq_setWidth_of_msb_false (by simp)]
          simp
        unfold gepOffset
        show (if (c.sextOrTrunc 64).toInt < 0 then (none, s) else
          gepOffset elemSize vs (u64 (0 + (c.sextOrTrunc 64).toInt.toNat * elemSize)) s).1 = some 0
        rw [hindex, if_neg (by decide)]
        have htotal : u64 (0 + (0 : Int).toNat * elemSize) = 0 := by simp [u64]
        rw [htotal]
        exact gepOffset_zero elemSize s hvs
    | _ => cases hv

/-- The range a GEP with zero indices leaves contains the integer. -/
theorem handleGEP_contains {self base : Value} {ty : Ty} {indices : List Value} {s : RangeState}
    {x : Int} (hzero : Module.hasAllZeroIndices indices = true)
    (hok : ∀ l r, (getRangeFor base s).1 = .constant l r →
      r.width ≤ 64 ∧ 0 ≤ x ∧ x ≤ r.toInt) {R : RangeValue}
    (hR : (handleGEP DL self ty base indices s).find self = some R) : R.Contains x := by
  unfold handleGEP at hR
  split at hR
  · rename_i l r s' heq
    obtain ⟨hw, h0, hx⟩ := hok l r (by rw [heq])
    obtain ⟨hnat, hbound⟩ := toNat_sextOrTrunc hw (h0.trans hx)
    have hsize := allocSizeOf_eq hw (h0.trans hx)
    split at hR
    · rename_i offset s'' hoff
      have h := gepOffset_zero (DL.allocSize (resultElementType ty)) s' hzero
      rw [hoff] at h
      obtain rfl : offset = 0 := Option.some.inj h
      dsimp only at hR
      rw [if_pos (by omega), FMap.find_set_self] at hR
      obtain rfl := Option.some.inj hR
      rw [hsize]
      exact contains_zero_to (by simpa using hbound) h0 (by simpa [hnat] using hx)
    · rw [FMap.find_set_self] at hR
      obtain rfl := Option.some.inj hR
      trivial
  · rw [FMap.find_set_self] at hR
    obtain rfl := Option.some.inj hR
    trivial

/-! ## Incoming values and arguments -/

/-- Transferring the values of a list that are missing leaves the constants of a key alone, if the
key is there already or never gets a constant. -/
theorem transfer_missing_const {v k : Value} {s : RangeState}
    (hv : ∀ val ptr, M.kindOf v ≠ some (.store val ptr))
    (hk : v = k → s.has k ∨ ∀ s' l r, (transfer M DL k s').find k ≠ some (.constant l r))
    {l r : APInt}
    (h : (if s.has v then s else (rangePolicy M DL).transfer v s).find k =
      some (.constant l r)) : s.find k = some (.constant l r) := by
  by_cases hvk : v = k
  · subst hvk
    by_cases hhas : s.has v
    · rwa [if_pos hhas] at h
    · rw [if_neg hhas] at h
      exact absurd h ((hk rfl).resolve_left hhas s l r)
  · exact ((transfer_missing hv s).const k l r h).resolve_right (Ne.symm hvk)

theorem meetOverPHI_const {vs : List Value} {k : Value}
    (hv : ∀ v ∈ vs, ∀ val ptr, M.kindOf v ≠ some (.store val ptr)) {s : RangeState}
    (hk : k ∈ vs → s.has k ∨ ∀ s' l r, (transfer M DL k s').find k ≠ some (.constant l r))
    {l r : APInt} (h : (meetOverPHI (rangePolicy M DL) vs s).2.find k = some (.constant l r)) :
    s.find k = some (.constant l r) := by
  have hfold : ∀ (vs : List Value), (∀ v ∈ vs, ∀ val ptr, M.kindOf v ≠ some (.store val ptr)) →
      ∀ acc : RangeValue × RangeState,
      (k ∈ vs → acc.2.has k ∨ ∀ s' l r, (transfer M DL k s').find k ≠ some (.constant l r)) →
      (vs.foldl (fun (acc : RangeValue × RangeState) v =>
          let s := if acc.2.has v then acc.2 else (rangePolicy M DL).transfer v acc.2
          ((rangePolicy M DL).meet [acc.1, s.get v], s)) acc).2.find k = some (.constant l r) →
        acc.2.find k = some (.constant l r) := by
    intro vs
    induction vs with
    | nil => exact fun _ acc _ h => h
    | cons v vs ih =>
        intro hv acc hk h
        rw [List.foldl_cons] at h
        have hstep : WritesOnly (· = v) acc.2
            (if acc.2.has v then acc.2 else (rangePolicy M DL).transfer v acc.2) :=
          transfer_missing (hv v List.mem_cons_self) acc.2
        refine transfer_missing_const (hv v List.mem_cons_self)
          (fun hvk => hk (hvk ▸ List.mem_cons_self)) ?_
        refine ih (fun u hu => hv u (List.mem_cons_of_mem v hu)) _ (fun hmem => ?_) h
        exact (hk (List.mem_cons_of_mem v hmem)).imp_left fun hhas => hstep.keeps k hhas
  exact hfold vs hv (default, s) hk h

theorem passArguments_const {vs : List Value} {k : Value} {g : FuncId}
    (hv : ∀ v ∈ vs, ∀ val ptr, M.kindOf v ≠ some (.store val ptr)) {n : Nat} {s t : RangeState}
    {u : Bool}
    (hk : k ∈ vs → s.has k ∨ ∀ s' l r, (transfer M DL k s').find k ≠ some (.constant l r))
    {l r : APInt}
    (h : (passArguments (rangePolicy M DL) g vs n s t u).1.find k = some (.constant l r)) :
    s.find k = some (.constant l r) := by
  induction vs generalizing n s t u with
  | nil => exact h
  | cons v vs ih =>
      have hstep : WritesOnly (· = v) s
          (if s.has v then s else (rangePolicy M DL).transfer v s) :=
        transfer_missing (hv v List.mem_cons_self) s
      refine transfer_missing_const (hv v List.mem_cons_self)
        (fun hvk => hk (hvk ▸ List.mem_cons_self)) ?_
      refine ih (fun x hx => hv x (List.mem_cons_of_mem v hx)) (fun hmem => ?_) h
      exact (hk (List.mem_cons_of_mem v hmem)).imp_left fun hhas => hstep.keeps k hhas

/-! ## One instruction -/

theorem ptr_ne_self (t : Ty) : Ty.ptr t ≠ t := by
  intro h
  have := congrArg sizeOf h
  simp at this

theorem asCallBase_of_calledDefinition {i : Inst} {p : Function × List Value}
    (h : calledDefinition M i = some p) : i.kind.asCallBase.isSome = true := by
  unfold calledDefinition at h
  split at h
  · rename_i callee args hcall
    rw [hcall]
    rfl
  · cases h

section Exec

variable {i : Inst} {s : RangeState} {c c' : Conc} {k : Value} {x : Int} {l r : APInt}

/-- A key with a constant range, which is not the one stored through, stood for the same integer
before. -/
theorem holds_before (he : Effect M i c c') (hok : MemInstOK M s i c c')
    (hself : IsCellLoad M k → k ≠ .inst i.id)
    (hptr : ∀ val ptr, i.kind = .store val ptr → IsCell M k → k ≠ ptr)
    (h : Holds M c' k x) (hconst : s.find k = some (.constant l r)) : Holds M c k x := by
  obtain ⟨hcell, hheld⟩ | ⟨hload, hreg⟩ := h
  · left
    refine ⟨hcell, ?_⟩
    by_contra hne
    rw [← hheld] at hne
    exact hok.stale k hcell (Ne.symm hne) (fun val ptr hk => hptr val ptr hk hcell) l r hconst
  · right
    rw [he.regs k (hself hload)] at hreg
    exact ⟨hload, hreg⟩

variable (hM : M.WF) (hi : i ∈ M.insts)

include hM hi

theorem not_holds_of_kind (hkind : i.kind.asCallBase.isSome = true ∨ (∃ vs, i.kind = .phi vs)) :
    ¬ Holds M c' (.inst i.id) x := by
  have hk := hM.kindOf_eq hi
  rintro (⟨⟨hlocal, -⟩, -⟩ | ⟨⟨ptr, hload, -⟩, -⟩)
  · obtain ⟨ty, n, hk'⟩ | ⟨op, a, hk'⟩ | ⟨src, base, indices, hk', -⟩ := kind_of_local hlocal
    all_goals
      rw [Option.some.inj (hk.symm.trans hk')] at hkind
      obtain h | ⟨vs, h⟩ := hkind <;> cases h
  · rw [Option.some.inj (hk.symm.trans hload)] at hkind
    obtain h | ⟨vs, h⟩ := hkind <;> cases h

/-- The instruction's own key. -/
theorem self_contains (hst : MemSound M s c) (he : Effect M i c c')
    (hok : MemInstOK M s i c c') (h : Holds M c' (.inst i.id) x)
    (hconst : (transfer M DL (.inst i.id) s).find (.inst i.id) = some (.constant l r)) :
    (RangeValue.constant l r).Contains x := by
  have hk := hM.kindOf_eq hi
  obtain ⟨hcell, hheld⟩ | ⟨⟨ptr, hload, hptr⟩, hreg⟩ := h
  · obtain ⟨ty, n, hk'⟩ | ⟨op, a, hk'⟩ | ⟨src, base, indices, hk', hzero⟩ := kind_of_local hcell.1
    · exact absurd hconst (transfer_quiet hcell (fun _ _ _ h => by cases hk'.symm.trans h) s l r)
    · exact absurd hconst (transfer_quiet hcell (fun _ _ _ h => by cases hk'.symm.trans h) s l r)
    · have hkind : i.kind = .gep src base indices := Option.some.inj (hk.symm.trans hk')
      have hsame : c'.held (.inst i.id) = c.held (.inst i.id) := by
        refine he.frame _ hcell ?_
        unfold MayWrite
        rw [hkind]
        exact id
      unfold transfer at hconst
      rw [hk'] at hconst
      refine handleGEP_contains hzero (fun l' r' hbase => ?_) hconst
      rw [← hheld, hsame]
      exact hok.gep src base indices l' r' hkind hcell hbase
  · have hkind : i.kind = .load ptr := Option.some.inj (hk.symm.trans hload)
    rw [he.load ptr hkind hptr] at hreg
    obtain rfl := Option.some.inj hreg
    unfold transfer at hconst
    rw [hload] at hconst
    dsimp only at hconst
    unfold handleLoad at hconst
    rw [if_pos hptr.1] at hconst
    split at hconst
    · rename_i R hR
      rw [FMap.find_set_self] at hconst
      obtain rfl := Option.some.inj hconst
      exact hst.contains ptr _ _ (.inl ⟨hptr, rfl⟩) hR
    · rw [FMap.find_set_self] at hconst
      cases hconst

omit hM hi in
/-- The range of a value that is stored contains it. -/
theorem stored_contains {val : Value} (hst : MemSound M s c)
    (hval : c.intValue val = some x) (hok : StoredOK M s val x) :
    (getRangeFor val s).1.Contains x := by
  by_cases hload : IsCellLoad M val
  · have hreg : c.regs val = some x := by
      obtain ⟨ptr, hk, -⟩ := hload
      cases val with
      | inst j => exact hval
      | _ => cases hk
    obtain ⟨R, hR⟩ := FMap.has_iff_find.mp (hst.loaded val x hload hreg)
    have hget : (getRangeFor val s).1 = R := by
      obtain ⟨ptr, hk, -⟩ := hload
      cases val with
      | inst j => exact FMap.get_of_find hR
      | _ => cases hk
    rw [hget]
    exact hst.contains val x R (.inr ⟨hload, hreg⟩) hR
  · cases h : (getRangeFor val s).1 with
    | constant l r => exact hok.range hload l r h
    | _ => trivial

omit hM hi in
/-- An incoming value or an argument that stands for an integer is there, or gets no constant. -/
theorem operand_quiet (hst : MemSound M s c) (he : Effect M i c c')
    (hok : MemInstOK M s i c c') (hk : k ∈ i.kind.operands) (hself : k ≠ .inst i.id)
    (h : Holds M c' k x) :
    s.has k ∨ ∀ s' l r, (transfer M DL k s').find k ≠ some (.constant l r) := by
  obtain ⟨hcell, -⟩ | ⟨hload, hreg⟩ := h
  · exact (hok.operands k hk hcell).imp_right fun hgep s' l r => transfer_quiet hcell hgep s' l r
  · rw [he.regs k hself] at hreg
    exact .inl (hst.loaded k x hload hreg)

/-- **After an instruction, a constant range contains the integer.** -/
theorem exec_contains (hty : M.MemTyped) (hst : MemSound M s c) (he : Effect M i c c')
    (hok : MemInstOK M s i c c') (h : Holds M c' k x)
    (hconst : (applyTransfer (rangePolicy M DL) i s).find k = some (.constant l r)) :
    (RangeValue.constant l r).Contains x := by
  have hkind := hM.kindOf_eq hi
  -- a key that is neither written nor changed
  have hother : (IsCellLoad M k → k ≠ .inst i.id) →
      (∀ val ptr, i.kind = .store val ptr → IsCell M k → k ≠ ptr) →
      s.find k = some (.constant l r) → (RangeValue.constant l r).Contains x :=
    fun hself hptr hs => hst.contains k x _ (holds_before he hok hself hptr h hs) hs
  unfold applyTransfer at hconst
  cases hk : i.kind with
  | phi incoming =>
      have hself : k ≠ .inst i.id := by
        rintro rfl
        exact not_holds_of_kind hM hi (.inr ⟨incoming, hk⟩) h
      have hv : ∀ v ∈ incoming, ∀ val ptr, M.kindOf v ≠ some (.store val ptr) := by
        intro v hmem
        exact hM.operands i hi v (by rw [hk]; exact hmem)
      rw [hk] at hconst
      dsimp only at hconst
      rw [FMap.find_set_ne _ _ hself] at hconst
      refine hother (fun _ => hself) (fun val ptr hk' => by cases hk.symm.trans hk') ?_
      refine meetOverPHI_const hv (fun hmem => ?_) hconst
      exact operand_quiet hst he hok (by rw [hk]; exact hmem) hself h
  | store val ptr =>
      have hself : IsCellLoad M k → k ≠ .inst i.id := by
        rintro ⟨p, hp, -⟩ rfl
        cases (hkind.symm.trans hp).symm.trans (congrArg some hk)
      rw [hk] at hconst
      have htransfer : (transfer M DL (.inst i.id) s).find k = some (.constant l r) := hconst
      unfold transfer at htransfer
      rw [hkind, hk] at htransfer
      by_cases hptr : k = ptr ∧ isLocalAllocaPointer M ptr = true
      · obtain ⟨rfl, hlocal⟩ := hptr
        obtain ⟨hcell, hheld⟩ | ⟨hload, -⟩ := h
        · have hval := he.store val k hk k hcell hlocal rfl rfl
          rw [hheld] at hval
          have hne : val ≠ k := by
            intro heq
            have htype := hty.store i hi val k hk
            rw [heq] at htype
            exact ptr_ne_self _ htype.symm
          have hstore := hok.store val k x hk hcell hval
          exact handleStore_contains hlocal hne hstore (stored_contains hst hval hstore) htransfer
        · exact absurd hload (not_cellLoad_of_local hlocal)
      · have hs := ((handleStore_writes M val ptr s).const k l r htransfer).resolve_right
          fun hw => hptr ⟨hw.2, hw.1⟩
        refine hother hself (fun val' ptr' hk' hcell => ?_) hs
        obtain ⟨-, rfl⟩ := InstKind.store.inj (hk.symm.trans hk')
        rintro rfl
        exact hptr ⟨rfl, hcell.1⟩
  | _ =>
      rw [hk] at hconst
      have htransfer : (transfer M DL (.inst i.id) s).find k = some (.constant l r) := hconst
      by_cases hself : k = .inst i.id
      · subst hself
        exact self_contains hM hi hst he hok h htransfer
      · have hW : Written M (.inst i.id) k → False := by
          unfold Written
          rw [hkind, hk]
          exact hself
        refine hother (fun _ => hself) (fun val ptr hk' => by cases hk.symm.trans hk') ?_
        exact ((transfer_writes M DL (.inst i.id) s).const k l r htransfer).resolve_right hW

theorem call_contains {callee : Function} {args : List Value}
    (hc : calledDefinition M i = some (callee, args)) (hst : MemSound M s c)
    (he : Effect M i c c') (hok : MemInstOK M s i c c') (summary : RangeState) (upd : Bool)
    (result : RangeValue) (h : Holds M c' k x)
    (hconst : ((passArguments (rangePolicy M DL) callee.id (args.take callee.params.length) 0 s
      summary upd).1.set (.inst i.id) result).find k = some (.constant l r)) :
    (RangeValue.constant l r).Contains x := by
  have hcall := asCallBase_of_calledDefinition hc
  have hself : k ≠ .inst i.id := by
    rintro rfl
    exact not_holds_of_kind hM hi (.inl hcall) h
  have hargs : ∀ v ∈ args.take callee.params.length, v ∈ i.kind.operands :=
    fun v hv => args_operands hc (List.mem_of_mem_take hv)
  rw [FMap.find_set_ne _ _ hself] at hconst
  have hs : s.find k = some (.constant l r) := by
    refine passArguments_const (fun v hv => hM.operands i hi v (hargs v hv)) (fun hmem => ?_) hconst
    exact operand_quiet hst he hok (hargs k hmem) hself h
  refine hst.contains k x _ (holds_before he hok (fun _ => hself) ?_ h hs) hs
  intro val ptr hk
  rw [hk] at hcall
  cases hcall

end Exec

/-! ## Paths -/

section Path

variable {s s' : RangeState} {c c' : Conc} {i : Inst} {r : RangeResult}
  {visit : Block → List Inst → RangeState} {st st' : MemState}

/-- **An instruction that meets the condition keeps the integers in their ranges.** -/
theorem MemSound.inst (hM : M.WF) (hty : M.MemTyped) (hi : i ∈ M.insts) (h : MemSound M s c)
    (hstep : InstStep M DL i s s') (he : Effect M i c c') (hok : MemInstOK M s i c c') :
    MemSound M s' c' where
  contains := by
    intro k x R hk hR
    cases R with
    | constant l r =>
        cases hstep with
        | transfer hc => exact exec_contains hM hi hty h he hok hk hR
        | call hc summary upd result =>
            exact call_contains hM hi hc h he hok summary upd result hk hR
    | _ => trivial
  loaded := by
    intro k x hk hx
    have hW := hstep.writes hM hi
    by_cases hself : k = .inst i.id
    · refine hW.writes k ?_
      obtain ⟨ptr, hload, -⟩ := hk
      rw [hself, hM.kindOf_eq hi] at hload
      have hkind : i.kind = .load ptr := Option.some.inj hload
      have hc : calledDefinition M i = none := by
        unfold calledDefinition
        rw [hkind]
        rfl
      unfold WrittenBy Written
      rw [hc, hkind, hM.kindOf_eq hi, hkind]
      exact hself
    · rw [he.regs k hself] at hx
      exact hW.keeps k (h.loaded k x hk hx)

/-- Where a path can be. -/
structure MemIn (f : Function) (st : MemState) : Prop where
  insts : st.block.insts = st.done ++ st.todo
  block : st.block ∈ f.blocks
  reachable : CFGReachable f st.block.id

theorem MemIn.suffix (h : MemIn f st) : st.todo <:+ st.block.insts := ⟨st.done, h.insts.symm⟩

theorem MemIn.mem (hf : f ∈ M.funcs) (h : MemIn f st) {rest : List Inst}
    (htodo : st.todo = i :: rest) : i ∈ M.insts := by
  refine List.mem_flatMap.mpr ⟨f, hf, List.mem_flatMap.mpr ⟨st.block, h.block, ?_⟩⟩
  refine h.suffix.subset ?_
  rw [htodo]
  exact List.mem_cons_self

theorem MemIn.step (h : MemIn f st) (hstep : MemStep M f st st') : MemIn f st' := by
  cases hstep with
  | @inst b done i rest c c' he =>
      refine ⟨?_, h.block, h.reachable⟩
      rw [h.insts, List.append_assoc]
      rfl
  | edge hb hb' hsucc => exact ⟨rfl, hb', .succ h.reachable hb hsucc⟩

/-- **A step that meets the condition keeps the integers in their ranges.** -/
theorem MemSound.step (hM : M.WF) (hty : M.MemTyped) (hf : f ∈ M.funcs)
    (hvisit : Visits M DL f r visit)
    (hedges : ∀ p ∈ f.blocks, ∀ b ∈ p.successors,
      EdgeDone (Engine.exitState r p) (guardOf M DL usePC f b) (r.get (.block b)))
    (h : MemSound M (visit st.block st.todo) st.conc) (hin : MemIn f st)
    (hstep : MemStep M f st st') (hok : MemOK M DL usePC f visit st st') :
    MemSound M (visit st'.block st'.todo) st'.conc := by
  have hin' := hin.step hstep
  have hv := hvisit st.block hin.block hin.reachable
  have hv' := hvisit st'.block hin'.block hin'.reachable
  cases hstep with
  | @inst b done i rest c c' he =>
      exact h.inst hM hty (hin.mem hf rfl) (hv.step i rest hin.suffix (List.nil_suffix)) he
        (hok.inst i rest rfl)
  | @edge b b' done c hb hb' hsucc =>
      show MemSound M (visit b' b'.insts) c
      rw [hv'.entry]
      refine MemSound.edge ?_ (hedges b hb b'.id hsucc) (hok.guard rfl)
      rw [← hv.exit]
      exact h

theorem MemStart.sound (h : MemStart M f st) (hpair : PairOK M DL usePC f r)
    (hvisit : Visits M DL f r visit) :
    MemSound M (visit st.block st.todo) st.conc ∧ MemIn f st := by
  have hentry : visit st.block st.todo = r.get (.block st.block.id) := by
    rw [h.todo]
    exact (hvisit st.block h.block h.reachable).entry
  refine ⟨⟨fun k x R _ hR => ?_, fun k x hk hx => ?_⟩, ?_, h.block, h.reachable⟩
  · rw [hentry] at hR
    cases R with
    | constant l u => exact absurd hR (hpair.several _ h.several k l u)
    | _ => trivial
  · rw [h.regs k hk] at hx
    cases hx
  · rw [h.done, h.todo]
    rfl

/-- What is recorded for a place is what the last visit had there. -/
theorem MemIn.recorded (h : MemIn f st) (hvisit : Visits M DL f r visit) {k : Value} {l u : APInt}
    (hk : (recordedAt r st).find k = some (.constant l u)) :
    (visit st.block st.todo).find k = some (.constant l u) := by
  have hv := hvisit st.block h.block h.reachable
  unfold recordedAt at hk
  cases hlast : st.done.getLast? with
  | none =>
      rw [hlast] at hk
      have htodo : st.todo = st.block.insts := by
        rw [h.insts, List.getLast?_eq_none_iff.mp hlast]
        rfl
      rw [htodo, hv.entry]
      exact hk
  | some i =>
      rw [hlast] at hk
      obtain ⟨before, hdone⟩ := List.getLast?_eq_some_iff.mp hlast
      refine hv.recorded i st.todo ⟨before, ?_⟩ List.nil_suffix k l u hk
      rw [h.insts, hdone, List.append_assoc]
      rfl

/-- **On a path whose steps meet the condition, the integers stay in their ranges.** -/
theorem memSound_path (hM : M.WF) (hty : M.MemTyped) (hf : f ∈ M.funcs)
    (hpair : PairOK M DL usePC f r) (hvisit : Visits M DL f r visit)
    (hedges : ∀ p ∈ f.blocks, ∀ b ∈ p.successors,
      EdgeDone (Engine.exitState r p) (guardOf M DL usePC f b) (r.get (.block b)))
    (hstart : MemStart M f st) (hpath : Relation.ReflTransGen
      (fun a b => MemStep M f a b ∧ MemOK M DL usePC f visit a b) st st') :
    MemSound M (visit st'.block st'.todo) st'.conc ∧ MemIn f st' := by
  induction hpath with
  | refl => exact hstart.sound hpair hvisit
  | tail _ hstep ih =>
      exact ⟨ih.1.step hM hty hf hvisit hedges ih.2 hstep.1 hstep.2, ih.2.step hstep.1⟩

/-- **The memory part is sound.** When the worklist of a function is empty, in a run that loses no
edge, its blocks have last visits; and on a path whose steps all meet the condition, a constant
range of a local alloca, of a cast of one, or of a load from one contains the integer, be it what
is recorded for the place or what the last visit had there. -/
theorem memory_sound {rpot : FuncId → List BlockId} {entry : Function} (hM : M.WF)
    (hty : M.MemTyped) (he : entry ∈ M.funcs) (hrpo : ReversePostOrder M rpot)
    {e : Engine RangeValue} {fr : Frame RangeValue} {rest : List (Frame RangeValue)}
    (h : Run (Engine.step M (rangePolicy M DL) usePC rpot) (StepOK M DL usePC)
      (Engine.initial [entry.id]) e)
    (hs : e.stack = fr :: rest) (hrun : fr.run = none) (hw : fr.work.work = []) :
    (∃ visit, Visits M DL fr.func (e.results fr.pair) visit) ∧
    ∀ visit, Visits M DL fr.func (e.results fr.pair) visit →
      ∀ st st', MemStart M fr.func st → Relation.ReflTransGen
        (fun a b => MemStep M fr.func a b ∧ MemOK M DL usePC fr.func visit a b) st st' →
      ∀ k x, Holds M st'.conc k x → ∀ l u,
        (recordedAt (e.results fr.pair) st').find k = some (.constant l u) ∨
            (visit st'.block st'.todo).find k = some (.constant l u) →
          l.toInt ≤ x ∧ x ≤ u.toInt := by
  obtain rfl | ⟨hcov, hinv⟩ := edgeInv_run hM he hrpo h
  · cases hs
  have hf := (hcov.frames fr (by rw [hs]; simp)).called.mem he
  constructor
  · have hvisited := blocks_visited hM he hrpo h hs hrun hw
    choose! visit hvisit using hvisited
    exact ⟨visit, hvisit⟩
  · intro visit hvisit st st' hstart hpath k x hk l u hconst
    obtain ⟨hsound, hin⟩ := memSound_path hM hty hf (hinv.pairs fr.context fr.func hf) hvisit
      (edges_done hM he hrpo h hs hrun hw) hstart hpath
    exact hsound.contains k x _ hk (hconst.elim (hin.recorded hvisit) id)

end Path

/-! ## A cell and a cast of it -/

/-- `store 5` into a cell, `store 7` through `ptr`, and a load, which is returned. -/
def cellModule (ptr : Value) : Module where
  structs := fun _ => []
  globals := []
  funcs := [⟨0, "main", [], [⟨0, [
    ⟨0, .ptr (.int 32), .alloca (.int 32) (.constInt (APInt.ofNat 32 1))⟩,
    ⟨1, .void, .store (.constInt (APInt.ofNat 32 5)) (.inst 0)⟩,
    ⟨2, .ptr (.int 32), .cast .bitcast (.inst 0)⟩,
    ⟨3, .void, .store (.constInt (APInt.ofNat 32 7)) ptr⟩,
    ⟨4, .int 32, .load (.inst 0)⟩,
    ⟨5, .void, .ret (some (.inst 4))⟩]⟩]⟩]

def cellMain (ptr : Value) : Function := (cellModule ptr).funcs.head (List.cons_ne_nil _ _)

def cellBlock (ptr : Value) : Block := (cellMain ptr).blocks.head (List.cons_ne_nil _ _)

/-- Both keys hold one integer. -/
def cellConc (n : Nat) : Conc where
  held := fun _ => if n < 2 then 0 else if n < 4 then 5 else 7
  regs := fun v => if v = .inst 4 ∧ 5 ≤ n then some 7 else none

/-- After `n` instructions. -/
def cellState (ptr : Value) (n : Nat) : MemState where
  block := cellBlock ptr
  done := (cellBlock ptr).insts.take n
  todo := (cellBlock ptr).insts.drop n
  conc := cellConc n

/-- The state the analysis has there. -/
def cellAbs (ptr : Value) (n : Nat) : RangeState :=
  ((cellBlock ptr).insts.take n).foldl
    (fun s i => applyTransfer (rangePolicy (cellModule ptr) structlessLayout) i s) ∅

/-- One step of the range analysis of that module. -/
def cellStep (ptr : Value) : Engine RangeValue → Option (Engine RangeValue) :=
  Engine.step (cellModule ptr) (rangePolicy (cellModule ptr) structlessLayout) false fun _ => [0]

/-- The end of the worklist loop. -/
def cellEnd (ptr : Value) : Engine RangeValue := stepN (cellStep ptr) 9 (Engine.initial [0])

def cellResults (ptr : Value) : RangeResult := (cellEnd ptr).results (none, 0)

section Cell

variable {ptr k : Value}

theorem mem_cellModule {i : Inst} (hi : i ∈ (cellModule ptr).insts) :
    ∃ n < 6, (cellBlock ptr).insts[n]? = some i := by
  have hmem : i ∈ (cellBlock ptr).insts := hi
  obtain ⟨n, hn, rfl⟩ := List.mem_iff_getElem.mp hmem
  exact ⟨n, hn, List.getElem?_eq_getElem hn⟩

theorem cellModule_wf (hptr : ptr = .inst 0 ∨ ptr = .inst 2) : (cellModule ptr).WF where
  funcs_nodup := List.nodup_singleton _
  blocks_nodup := List.nodup_singleton _
  insts_nodup := by
    show [0, 1, 2, 3, 4, 5].Nodup
    decide
  terminated := Module.terminated_of_last <| by
    simp [cellModule, Module.blocks, InstKind.isTerminator]
  targets := by
    intro f hf b hb s hs
    obtain rfl := List.mem_singleton.mp hf
    obtain rfl := List.mem_singleton.mp hb
    cases hs
  operands := by
    have hno : ∀ i ∈ (cellModule ptr).insts, ∀ v ∈ i.kind.operands,
        ((cellModule ptr).kindOf v).all (fun k => !k.isStore) = true := by
      obtain rfl | rfl := hptr <;> decide
    intro i hi v hv val p hk
    have := hno i hi v hv
    rw [hk] at this
    cases this

/-- The cell and its cast are the only keys. -/
theorem cell_cases (h : IsCell (cellModule ptr) k) : k = .inst 0 ∨ k = .inst 2 := by
  have hids : ∀ {kind}, (cellModule ptr).kindOf k = some kind → k = .inst 0 ∨ k = .inst 2 ∨
      (∃ val p, kind = .store val p) ∨ (∃ p, kind = .load p) ∨ ∃ v, kind = .ret v := by
    intro kind hk
    obtain ⟨i, hi, rfl, rfl⟩ := (cellModule ptr).exists_of_kindOf hk
    obtain ⟨n, hn, hget⟩ := mem_cellModule hi
    interval_cases n
    all_goals
      obtain rfl := Option.some.inj hget
      simp
  obtain ⟨ty, n, hk⟩ | ⟨op, a, hk⟩ | ⟨src, base, indices, hk, -⟩ := kind_of_local h.1
  all_goals simpa using hids hk

theorem cell_strip (h : IsCell (cellModule ptr) k) :
    (cellModule ptr).stripPointerCasts k = .inst 0 := by
  obtain rfl | rfl := cell_cases h
  · rfl
  · rfl

theorem cell_typed (hptr : ptr = .inst 0 ∨ ptr = .inst 2) : (cellModule ptr).MemTyped where
  store := by
    intro i hi val p hk
    obtain ⟨n, hn, hget⟩ := mem_cellModule hi
    interval_cases n
    all_goals
      obtain rfl := Option.some.inj hget
      cases hk
    · rfl
    · obtain rfl | rfl := hptr <;> rfl
  load := by
    intro i hi p hk
    obtain ⟨n, hn, hget⟩ := mem_cellModule hi
    interval_cases n
    all_goals
      obtain rfl := Option.some.inj hget
      cases hk
    rfl

theorem cell_rpo : ReversePostOrder (cellModule ptr) fun _ => [0] := by
  intro f hf b
  obtain rfl : f = cellMain ptr := List.mem_singleton.mp hf
  constructor
  · intro hb
    rw [List.mem_singleton.mp hb]
    exact .entry (b := cellBlock ptr) rfl
  · rintro (h | ⟨-, hb, hs⟩)
    · rw [← (List.cons.inj h).1]
      exact List.mem_cons_self
    · rw [List.mem_singleton.mp hb] at hs
      cases hs

theorem cell_start : MemStart (cellModule ptr) (cellMain ptr) (cellState ptr 0) where
  block := List.mem_singleton_self _
  reachable := .entry (b := cellBlock ptr) rfl
  several := rfl
  done := rfl
  todo := rfl
  regs := fun k _ => by
    show (if k = .inst 4 ∧ 5 ≤ 0 then some 7 else none) = none
    rw [if_neg (by simp)]

theorem cell_effect (hptr : ptr = .inst 0 ∨ ptr = .inst 2) {n : Nat} (hn : n < 5) {i : Inst}
    (hi : (cellBlock ptr).insts[n]? = some i) :
    Effect (cellModule ptr) i (cellConc n) (cellConc (n + 1)) where
  regs := by
    intro v hv
    have h4 : v = .inst 4 → n ≠ 4 := by
      rintro rfl rfl
      obtain rfl := Option.some.inj hi
      exact hv rfl
    have hiff : (v = .inst 4 ∧ 5 ≤ n + 1) ↔ (v = .inst 4 ∧ 5 ≤ n) := by
      constructor
      · intro h
        have := h4 h.1
        omega
      · intro h
        omega
    exact if_congr hiff rfl rfl
  load := by
    intro p hk hp
    interval_cases n
    all_goals
      obtain rfl := Option.some.inj hi
      cases hk
    rfl
  store := by
    intro val p hk k _ _ _ _
    interval_cases n
    all_goals
      obtain rfl := Option.some.inj hi
      cases hk
    · rfl
    · rfl
  frame := by
    intro k hk hw
    interval_cases n
    all_goals obtain rfl := Option.some.inj hi
    · rfl
    · exact absurd (fun _ => cell_strip hk) hw
    · rfl
    · refine absurd (fun _ => ?_) hw
      rw [cell_strip hk]
      obtain rfl | rfl := hptr <;> rfl
    · rfl

theorem cell_step (hptr : ptr = .inst 0 ∨ ptr = .inst 2) {n : Nat} (hn : n < 5) :
    MemStep (cellModule ptr) (cellMain ptr) (cellState ptr n) (cellState ptr (n + 1)) := by
  have hlen : n < (cellBlock ptr).insts.length := by
    show n < 6
    omega
  have hbefore : cellState ptr n = ⟨cellBlock ptr, (cellBlock ptr).insts.take n,
      (cellBlock ptr).insts[n] :: (cellBlock ptr).insts.drop (n + 1), cellConc n⟩ := by
    rw [← List.drop_eq_getElem_cons hlen]
    rfl
  have hafter : cellState ptr (n + 1) = ⟨cellBlock ptr,
      (cellBlock ptr).insts.take n ++ [(cellBlock ptr).insts[n]],
      (cellBlock ptr).insts.drop (n + 1), cellConc (n + 1)⟩ := by
    rw [← List.take_succ_eq_append_getElem hlen]
    rfl
  rw [hbefore, hafter]
  exact .inst (cell_effect hptr hn (List.getElem?_eq_getElem hlen))

theorem cell_path {P : MemState → MemState → Prop}
    (hP : ∀ n < 5, P (cellState ptr n) (cellState ptr (n + 1))) :
    ∀ n ≤ 5, Relation.ReflTransGen P (cellState ptr 0) (cellState ptr n)
  | 0, _ => .refl
  | n + 1, h => (cell_path hP n (by omega)).tail (hP n (by omega))

theorem cell_end (hptr : ptr = .inst 0 ∨ ptr = .inst 2) :
    atLoopEnd (cellEnd ptr) = some ((none, 0), cellMain ptr) ∧
      (cellResults ptr).get (.block 0) = ∅ := by
  have hentries : atLoopEnd (cellEnd ptr) = some ((none, 0), cellMain ptr) ∧
      ((cellResults ptr).get (.block 0)).entries = [] := by
    obtain rfl | rfl := hptr <;> decide +kernel
  exact ⟨hentries.1, AList.ext hentries.2⟩

theorem cell_run (hptr : ptr = .inst 0 ∨ ptr = .inst 2) :
    Run (cellStep ptr) (StepOK (cellModule ptr) structlessLayout false) (Engine.initial [0])
      (cellEnd ptr) := by
  have hok : ∀ m < 9, successorsFit (cellModule ptr) structlessLayout
      (stepN (cellStep ptr) m (Engine.initial [0])) = true := by
    obtain rfl | rfl := hptr <;> decide +kernel
  exact run_stepN_of 9 _ fun m hm => stepOK_of_fit (hok m hm)

/-- There is one visit, from the empty state. -/
theorem cell_visit (hptr : ptr = .inst 0 ∨ ptr = .inst 2)
    {visit : Block → List Inst → RangeState}
    (hvisit : Visits (cellModule ptr) structlessLayout (cellMain ptr) (cellResults ptr) visit) :
    ∀ n ≤ 5, visit (cellBlock ptr) ((cellBlock ptr).insts.drop n) = cellAbs ptr n := by
  have hv := hvisit (cellBlock ptr) (List.mem_singleton_self _) (.entry (b := cellBlock ptr) rfl)
  have hcall : ∀ i ∈ (cellBlock ptr).insts, calledDefinition (cellModule ptr) i = none := by
    obtain rfl | rfl := hptr <;> decide
  intro n
  induction n with
  | zero => exact fun _ => hv.entry.trans (cell_end hptr).2
  | succ n ih =>
      intro hn
      have hlen : n < (cellBlock ptr).insts.length := by
        show n < 6
        omega
      have hdrop := List.drop_eq_getElem_cons hlen
      have hstep := hv.step _ _ (hdrop ▸ List.drop_suffix n _) List.nil_suffix
      rw [← hdrop, ih (by omega)] at hstep
      unfold cellAbs
      rw [List.take_succ_eq_append_getElem hlen, List.foldl_append]
      generalize visit (cellBlock ptr) ((cellBlock ptr).insts.drop (n + 1)) = s at hstep
      cases hstep with
      | transfer hc => rfl
      | call hc => cases (hcall _ (List.getElem_mem hlen)).symm.trans hc

/-- Stored through directly, the cell keeps its range, and its cast has none. -/
theorem cell_instOK {n : Nat} (hn : n < 5) {i : Inst}
    (hi : (cellBlock (.inst 0)).insts[n]? = some i) :
    MemInstOK (cellModule (.inst 0)) (cellAbs (.inst 0) n) i (cellConc n)
      (cellConc (n + 1)) where
  stale := by
    intro k hk hne hptr l r h
    have hcast : ∀ m < 5,
        ((cellAbs (.inst 0) m).find (.inst 2)).all (· = .infinity) = true := by decide +kernel
    obtain rfl | rfl := cell_cases hk
    · interval_cases n
      all_goals obtain rfl := Option.some.inj hi
      · exact hne rfl
      · exact hptr _ _ rfl rfl
      · exact hne rfl
      · exact hptr _ _ rfl rfl
      · exact hne rfl
    · have := hcast n hn
      rw [h] at this
      cases this
  store := by
    intro val p x hk _ hx
    have hentry : ∀ m < 5, ∀ a ∈ [5, 7],
        ((cellAbs (.inst 0) m).find (.constInt (APInt.ofNat 32 a))).isNone = true := by
      decide +kernel
    obtain ⟨a, ha, rfl⟩ : ∃ a ∈ [5, 7], val = .constInt (APInt.ofNat 32 a) := by
      interval_cases n
      all_goals
        obtain rfl := Option.some.inj hi
        cases hk
      · exact ⟨5, by simp, rfl⟩
      · exact ⟨7, by simp, rfl⟩
    obtain rfl := Option.some.inj hx
    refine ⟨rfl, fun _ l r h => ?_, fun l r h => ?_⟩
    · obtain ⟨rfl, rfl⟩ := RangeValue.constant.inj h
      exact ⟨le_rfl, le_rfl⟩
    · have := hentry n hn a ha
      rw [h] at this
      cases this
  gep := by
    intro src base indices l r hk
    interval_cases n
    all_goals
      obtain rfl := Option.some.inj hi
      cases hk
  operands := by
    intro k _ hk
    right
    intro src base indices hgep
    obtain rfl | rfl := cell_cases hk
    · cases hgep
    · cases hgep

theorem cell_memOK {visit : Block → List Inst → RangeState} (hvisit : Visits
      (cellModule (.inst 0)) structlessLayout (cellMain (.inst 0)) (cellResults (.inst 0)) visit)
    {n : Nat} (hn : n < 5) :
    MemOK (cellModule (.inst 0)) structlessLayout false (cellMain (.inst 0)) visit
      (cellState (.inst 0) n) (cellState (.inst 0) (n + 1)) where
  inst := by
    intro i rest htodo
    show MemInstOK _ (visit (cellBlock _) ((cellBlock _).insts.drop n)) _ _ _
    rw [cell_visit (.inl rfl) hvisit n (by omega)]
    refine cell_instOK hn ?_
    rw [← List.head?_drop]
    exact congrArg List.head? htodo
  guard := by
    intro hnil
    have hlen : 6 ≤ n := List.drop_eq_nil_iff.mp hnil
    omega

end Cell

/-- What is stored through the cell itself is recorded for the load. -/
theorem store_kept : (recordedAt (cellResults (.inst 0)) (cellState (.inst 0) 5)).find (.inst 4) =
      some (.constant (APInt.ofNat 32 7) (APInt.ofNat 32 7)) ∧
    (APInt.ofNat 32 7).toInt ≤ 7 ∧ 7 ≤ (APInt.ofNat 32 7).toInt := by
  have hfind : (recordedAt (cellResults (.inst 0)) (cellState (.inst 0) 5)).find (.inst 4) =
      some (.constant (APInt.ofNat 32 7) (APInt.ofNat 32 7)) := by decide +kernel
  have hload : IsCellLoad (cellModule (.inst 0)) (.inst 4) := ⟨.inst 0, rfl, rfl, 32, rfl⟩
  obtain ⟨fr, rest, hs, hnone, hw, hpair, hfunc⟩ := exists_of_atLoopEnd (cell_end (.inl rfl)).1
  have hmem : cellMain (.inst 0) ∈ (cellModule (.inst 0)).funcs := List.mem_singleton_self _
  obtain ⟨⟨visit, hvisit⟩, hsound⟩ := memory_sound (cellModule_wf (.inl rfl))
    (cell_typed (.inl rfl)) hmem cell_rpo (cell_run (.inl rfl)) hs hnone hw
  rw [hpair, hfunc] at hvisit hsound
  exact ⟨hfind, hsound visit hvisit _ _ cell_start
    (cell_path (fun n hn => ⟨cell_step (.inl rfl) hn, cell_memOK hvisit hn⟩) 5 le_rfl)
    _ _ (.inr ⟨hload, rfl⟩) _ _ (.inl hfind)⟩

/-- A store through the cast is lost: `[5, 5]` is recorded for the load, and `7` is loaded. -/
theorem store_through_cast_lost :
    (cellModule (.inst 2)).WF ∧ ReversePostOrder (cellModule (.inst 2)) (fun _ => [0]) ∧
      Run (cellStep (.inst 2)) (fun _ => True) (Engine.initial [0]) (cellEnd (.inst 2)) ∧
      atLoopEnd (cellEnd (.inst 2)) = some ((none, 0), cellMain (.inst 2)) ∧
      MemStart (cellModule (.inst 2)) (cellMain (.inst 2)) (cellState (.inst 2) 0) ∧
      ¬ ∀ st', Relation.ReflTransGen (MemStep (cellModule (.inst 2)) (cellMain (.inst 2)))
          (cellState (.inst 2) 0) st' →
        ∀ k x, Holds (cellModule (.inst 2)) st'.conc k x → ∀ l u,
          (recordedAt (cellResults (.inst 2)) st').find k = some (.constant l u) →
            l.toInt ≤ x ∧ x ≤ u.toInt := by
  refine ⟨cellModule_wf (.inr rfl), cell_rpo, run_stepN _ _ _, (cell_end (.inr rfl)).1, cell_start,
    fun h => ?_⟩
  have hpath := cell_path (fun n hn => cell_step (.inr rfl) hn) 5 le_rfl
  have hload : IsCellLoad (cellModule (.inst 2)) (.inst 4) := ⟨.inst 0, rfl, rfl, 32, rfl⟩
  have hfind : (recordedAt (cellResults (.inst 2)) (cellState (.inst 2) 5)).find (.inst 4) =
      some (.constant (APInt.ofNat 32 5) (APInt.ofNat 32 5)) := by decide +kernel
  have hseven := h _ hpath (.inst 4) 7 (.inr ⟨hload, rfl⟩) _ _ hfind
  exact absurd hseven.2 (by decide)

end MSV
