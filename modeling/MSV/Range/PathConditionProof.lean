import MSV.Range.GuardProof
import MSV.Range.MemoryProof

/-!
# Path conditions

With `UsePC` the entry state of a block with one predecessor is cut down by what the branch into it
compares: the range of the branch is intersected into the entry of the compared variable and, when
the variable was loaded from an alloca, into that of the pointer it was loaded through.

A range is read in signed order, as the intersection compares its ends. So the range of an unsigned
comparison says what it should only if it does not cross from the numbers without the top bit to
those with it; that of a signed upper bound starts at `0`; and nothing asks whether the alloca still
holds what was loaded.

**Theorem (`path_condition_sound_iff`).** The entry state contains the run-time values if and only
if the value compared, and the content of the alloca on entry, are kept by the range of the branch.
-/

namespace MSV

/-! ## What the range of a branch contains in signed order -/

/-- The constant the range of a bound ends with. -/
def Bound.edge (b : Bound) (c : APInt) : APInt :=
  match b with
  | .aboveStrict => c.addConst 1
  | .belowStrict => c.addConst (-1)
  | _ => c

/-- A number that meets the bound is not lost. In an unsigned comparison all numbers of the
range lie on one side of the sign; a signed upper bound that is not negative loses the
negative numbers. -/
def Bound.Keeps (b : Bound) (p : Pred) (c x : APInt) : Prop :=
  match b with
  | .exactly | .anything => True
  | .above | .aboveStrict => p.isUnsigned = true → (b.edge c).toInt < 0
  | .below | .belowStrict =>
      if p.isUnsigned then 0 ≤ (b.edge c).toInt else 0 ≤ c.toInt → 0 ≤ x.toInt

section

variable {w : Nat} (p : Pred) (c z : BitVec (w + 1))

/-- The two readings of a number. -/
theorem toInt_cases_half (x : BitVec (w + 1)) :
    x.toInt = x.toNat ∧ 0 ≤ x.toInt ∧ (x.toNat : Int) < 2 ^ w ∨
      x.toInt = x.toNat - 2 ^ (w + 1) ∧ x.toInt < 0 ∧ 2 ^ w ≤ (x.toNat : Int) := by
  have hlt := x.isLt
  have hcond := BitVec.toInt_eq_toNat_cond x
  have hpow : (2 : Nat) ^ (w + 1) = 2 * 2 ^ w := by rw [pow_succ, mul_comm]
  push_cast at hcond
  split_ifs at hcond with hsmall
  · left
    rw [hpow] at hsmall
    refine ⟨hcond, by omega, ?_⟩
    exact_mod_cast (by omega : x.toNat < 2 ^ w)
  · right
    rw [hpow] at hsmall hlt
    have hle : (2 ^ w : Int) ≤ x.toNat := by exact_mod_cast (by omega : 2 ^ w ≤ x.toNat)
    have hlt' : (x.toNat : Int) < 2 * 2 ^ w := by exact_mod_cast hlt
    refine ⟨hcond, ?_, hle⟩
    rw [hcond, pow_succ]
    omega

/-- Above a number, in unsigned order, and below the greatest one read as `-1`. -/
theorem unsigned_above_iff (k : BitVec (w + 1)) :
    k.toInt ≤ z.toInt ∧ z.toInt ≤ (BitVec.allOnes (w + 1)).toInt ↔
      (k.toNat : Int) ≤ z.toNat ∧ k.toInt < 0 := by
  have hones : (BitVec.allOnes (w + 1)).toInt = -1 := by simp
  have hk := toInt_cases_half k
  have hz := toInt_cases_half z
  rw [hones]
  omega

theorem unsigned_below_iff (k : BitVec (w + 1)) :
    (0#(w + 1)).toInt ≤ z.toInt ∧ z.toInt ≤ k.toInt ↔
      (z.toNat : Int) ≤ k.toNat ∧ 0 ≤ k.toInt := by
  have hzero : (0#(w + 1)).toInt = 0 := by simp
  have hk := toInt_cases_half k
  have hz := toInt_cases_half z
  rw [hzero]
  omega

variable {p c} in
theorem reading_add_one {x : BitVec (w + 1)} (h : p.reading c < p.reading x) :
    p.reading (c + BitVec.ofInt (w + 1) 1) = p.reading c + 1 := by
  have hx := p.reading_bounds x
  have hc := p.reading_bounds c
  exact (p.reading_add c 1).trans (residue_of_mem (by omega) (by omega))

variable {p c} in
theorem reading_sub_one {x : BitVec (w + 1)} (h : p.reading x < p.reading c) :
    p.reading (c + BitVec.ofInt (w + 1) (-1)) = p.reading c - 1 := by
  have hx := p.reading_bounds x
  have hc := p.reading_bounds c
  exact (p.reading_add c (-1)).trans (residue_of_mem (by omega) (by omega))

/-- The range of an unsigned bound, read in signed order. -/
theorem contains_range_unsigned (hp : p.isUnsigned = true) {b : Bound} {x : BitVec (w + 1)}
    (hx : b.Holds (p.reading x) (p.reading c)) :
    (b.range (APInt.getMinValue (w + 1)) (APInt.getMaxValue (w + 1)) ⟨w + 1, c⟩).Contains z.toInt ↔
      b = .anything ∨ b.Holds (p.reading z) (p.reading c) ∧
        b.Keeps p ⟨w + 1, c⟩ ⟨w + 1, z⟩ := by
  have hread : ∀ y : BitVec (w + 1), p.reading y = y.toNat := by
    intro y
    unfold Pred.reading
    rw [hp, if_pos rfl]
  cases b with
  | exactly =>
      simp only [Bound.range, RangeValue.Contains, Bound.Holds, Bound.Keeps, hread, APInt.toInt,
        reduceCtorEq, false_or, and_true, Int.natCast_inj, ← BitVec.toNat_eq]
      rw [← BitVec.toInt_inj]
      omega
  | anything => simp [Bound.range, RangeValue.Contains]
  | above =>
      simp only [Bound.Holds, Bound.Keeps, Bound.edge, hp, hread, true_imp_iff, reduceCtorEq,
        false_or]
      exact unsigned_above_iff z c
  | aboveStrict =>
      have hedge := reading_add_one hx
      simp only [hread] at hedge
      simp only [Bound.Holds, Bound.Keeps, Bound.edge, hp, hread, true_imp_iff, reduceCtorEq,
        false_or]
      refine (unsigned_above_iff z (c + BitVec.ofInt (w + 1) 1)).trans (and_congr_left' ?_)
      omega
  | below =>
      simp only [Bound.Holds, Bound.Keeps, Bound.edge, hp, hread, if_true, reduceCtorEq, false_or]
      exact unsigned_below_iff z c
  | belowStrict =>
      have hedge := reading_sub_one hx
      simp only [hread] at hedge
      simp only [Bound.Holds, Bound.Keeps, Bound.edge, hp, hread, if_true, reduceCtorEq, false_or]
      refine (unsigned_below_iff z (c + BitVec.ofInt (w + 1) (-1))).trans (and_congr_left' ?_)
      omega

/-- The range of a signed bound. -/
theorem contains_range_signed (hp : p.isUnsigned = false) {b : Bound} {x : BitVec (w + 1)}
    (hx : b.Holds (p.reading x) (p.reading c)) :
    (b.range (if !(APInt.mk (w + 1) c).isNegative then APInt.getMinValue (w + 1)
        else APInt.getSignedMinValue (w + 1)) (APInt.getSignedMaxValue (w + 1))
        ⟨w + 1, c⟩).Contains z.toInt ↔
      b = .anything ∨ b.Holds (p.reading z) (p.reading c) ∧
        b.Keeps p ⟨w + 1, c⟩ ⟨w + 1, z⟩ := by
  have hread : ∀ y : BitVec (w + 1), p.reading y = y.toInt := by
    intro y
    unfold Pred.reading
    rw [hp, if_neg (by decide)]
  have hz := p.reading_bounds z
  have hshift : p.shift (w + 1) = 2 ^ w := by
    unfold Pred.shift
    rw [hp, if_neg (by decide), half_succ]
  have hpow : (2 : Int) ^ (w + 1) = 2 * 2 ^ w := by rw [pow_succ, mul_comm]
  have hgreatest : (APInt.getSignedMaxValue (w + 1)).toInt = 2 ^ w - 1 := by
    show (BitVec.intMax (w + 1)).toInt = _
    rw [BitVec.toInt_intMax, Nat.add_sub_cancel]
  rw [hread, hshift, hpow] at hz
  have hleast : (if !(APInt.mk (w + 1) c).isNegative then APInt.getMinValue (w + 1)
      else APInt.getSignedMinValue (w + 1)).toInt ≤ z.toInt ↔ (0 ≤ c.toInt → 0 ≤ z.toInt) := by
    have hneg : (APInt.mk (w + 1) c).isNegative = false ↔ 0 ≤ c.toInt := APInt.isNegative_eq_false
    cases hk : (APInt.mk (w + 1) c).isNegative with
    | false =>
        show (0#(w + 1)).toInt ≤ z.toInt ↔ _
        have := hneg.mp hk
        simp
        omega
    | true =>
        show (BitVec.intMin (w + 1)).toInt ≤ z.toInt ↔ _
        rw [BitVec.toInt_intMin_of_pos (by omega), Nat.add_sub_cancel]
        have : ¬ 0 ≤ c.toInt := fun h => by rw [hneg.mpr h] at hk; cases hk
        omega
  cases b with
  | exactly =>
      simp only [Bound.range, RangeValue.Contains, Bound.Holds, Bound.Keeps, hread, APInt.toInt,
        reduceCtorEq, false_or, and_true]
      omega
  | anything => simp [Bound.range, RangeValue.Contains]
  | above =>
      simp only [Bound.range, RangeValue.Contains, Bound.Holds, Bound.Keeps, hread, hp, hgreatest,
        reduceCtorEq, false_or, false_imp_iff, and_true, Bool.false_eq_true]
      show c.toInt ≤ _ ∧ _ ↔ _
      omega
  | aboveStrict =>
      have hedge := reading_add_one hx
      simp only [hread] at hedge
      simp only [Bound.range, RangeValue.Contains, Bound.Holds, Bound.Keeps, hread, hp, hgreatest,
        reduceCtorEq, false_or, false_imp_iff, and_true, Bool.false_eq_true]
      show (c + BitVec.ofInt (w + 1) 1).toInt ≤ _ ∧ _ ↔ _
      omega
  | below =>
      simp only [Bound.range, RangeValue.Contains, Bound.Holds, Bound.Keeps, hread, hp, hleast,
        reduceCtorEq, false_or, Bool.false_eq_true, if_false]
      exact and_comm
  | belowStrict =>
      have hedge := reading_sub_one hx
      simp only [hread] at hedge
      simp only [Bound.range, RangeValue.Contains, Bound.Holds, Bound.Keeps, hread, hp, hleast,
        reduceCtorEq, false_or, Bool.false_eq_true, if_false]
      show _ ∧ z.toInt ≤ (c + BitVec.ofInt (w + 1) (-1)).toInt ↔ _ ∧ (0 ≤ c.toInt → 0 ≤ z.toInt)
      omega

/-- **What the range of a branch contains**, read in signed order. -/
theorem contains_getRange_iff {t v : Bool} {x : BitVec (w + 1)} (hx : BranchTaken p x c t v) :
    (RangeValue.getRangeForConditionalBranch p (some (w + 1)) ⟨w + 1, c⟩ t v).Contains z.toInt ↔
      branchBound p t v = .anything ∨
        BranchTaken p z c t v ∧ (branchBound p t v).Keeps p ⟨w + 1, c⟩ ⟨w + 1, z⟩ := by
  rw [branchTaken_iff] at hx ⊢
  rw [getRangeForConditionalBranch_eq]
  cases hp : p.isUnsigned with
  | true => exact contains_range_unsigned p c z hp hx
  | false => exact contains_range_signed p c z hp hx

end

/-! ## The branch into a block -/

/-- What the branch into a block with one predecessor compares. -/
structure Guard where
  pred : Pred
  known : APInt
  variableOp : Value
  isTrueBranch : Bool
  isVariableOpFirst : Bool

/-- The operands of a comparison, when one is a constant integer and the other is not a constant. -/
def comparedOperands (op0 op1 : Value) : Option (APInt × Value × Bool) :=
  if op0.isConstant && !op1.isConstant then op0.asConstInt.map fun c => (c, op1, false)
  else if op1.isConstant && !op0.isConstant then op1.asConstInt.map fun c => (c, op0, true)
  else none

section

variable (M : Module) (f : Function) (bb : BlockId)

def guardAt : Option Guard :=
  match (f.getSinglePredecessor bb).bind Block.terminator with
  | some ⟨_, _, .condBr cond ifTrue _⟩ =>
      match M.kindOf cond with
      | some (.icmp pred op0 op1) =>
          (comparedOperands op0 op1).map fun o => ⟨pred, o.1, o.2.1, ifTrue == bb, o.2.2⟩
      | _ => none
  | _ => none

/-- The pointer the variable was loaded through, when it points to an alloca. -/
def loadedFrom (v : Value) : Option Value :=
  match M.kindOf v with
  | some (.load ptr) =>
      match M.kindOf (M.stripPointerCasts ptr) with
      | some (.alloca ..) => some ptr
      | _ => none
  | _ => none

/-- A value takes the branch. -/
def Guard.Taken (g : Guard) (x : APInt) : Prop :=
  ∃ y : BitVec g.known.width, x = ⟨g.known.width, y⟩ ∧
    BranchTaken g.pred y g.known.bits g.isTrueBranch g.isVariableOpFirst

def Guard.bound (g : Guard) : Bound := branchBound g.pred g.isTrueBranch g.isVariableOpFirst

/-- The range of the branch contains the value: the branch says nothing, or the value takes it and
is not lost. -/
def Guard.Admits (g : Guard) (x : APInt) : Prop :=
  g.bound = .anything ∨ g.Taken x ∧ g.bound.Keeps g.pred g.known x

/-- The range of the branch. -/
def Guard.range (g : Guard) : RangeValue :=
  RangeValue.getRangeForConditionalBranch g.pred (some g.known.width) g.known g.isTrueBranch
    g.isVariableOpFirst

/-- The values when a block is entered: those of the values of the function, and what pointers point
to. -/
structure RunTime where
  value : Value → APInt
  content : Value → APInt

/-- An execution enters the block: the branch goes there with the value of the compared variable.
Its type is that of the constant, and so is that of the alloca. -/
structure Enters (ρ : RunTime) : Prop where
  width : ∀ g, guardAt M f bb = some g → 0 < g.known.width
  typed : ∀ g, guardAt M f bb = some g → M.typeOf g.variableOp = .int g.known.width
  content : ∀ g ptr, guardAt M f bb = some g → loadedFrom M g.variableOp = some ptr →
    (ρ.content ptr).width = g.known.width
  taken : ∀ g, guardAt M f bb = some g → g.Taken (ρ.value g.variableOp)

/-- The state contains the value of the compared variable and the content of the alloca. -/
def ContainsCompared (ρ : RunTime) (s : RangeState) : Prop :=
  ∀ g, guardAt M f bb = some g →
    (∀ R, s.find g.variableOp = some R → R.Contains (ρ.value g.variableOp).toInt) ∧
    ∀ ptr, loadedFrom M g.variableOp = some ptr → ∀ R, s.find ptr = some R →
      R.Contains (ρ.content ptr).toInt

/-- Whatever merged state contains them, it still does with the condition applied. -/
def PathSound (DL : DataLayout) (ρ : RunTime) : Prop :=
  ∀ r, ContainsCompared M f bb ρ (entryState M (rangePolicy M DL) false f bb r) →
    ContainsCompared M f bb ρ (entryState M (rangePolicy M DL) true f bb r)

end

section

variable {M : Module} {f : Function} {bb : BlockId} {DL : DataLayout} {ρ : RunTime}

theorem contains_range_iff {g : Guard} (hw : 0 < g.known.width) {x z : APInt} (hx : g.Taken x)
    (hz : z.width = g.known.width) : g.range.Contains z.toInt ↔ g.Admits z := by
  obtain ⟨p, ⟨w, c⟩, v, t, first⟩ := g
  obtain ⟨w, rfl⟩ : ∃ n, w = n + 1 := ⟨w - 1, by simp only at hw; omega⟩
  obtain ⟨wz, z⟩ := z
  obtain rfl : wz = w + 1 := hz
  obtain ⟨y, -, hy⟩ := hx
  have htaken : Guard.Taken ⟨p, ⟨w + 1, c⟩, v, t, first⟩ ⟨w + 1, z⟩ ↔
      BranchTaken p z c t first := by
    constructor
    · rintro ⟨y', heq, hy'⟩
      cases heq
      exact hy'
    · intro h
      exact ⟨z, rfl, h⟩
  unfold Guard.Admits
  rw [htaken]
  exact contains_getRange_iff p c z hy

/-- The compared operand decides the width. -/
theorem opWidth_of_compared {op0 op1 v : Value} {c : APInt} {first : Bool}
    (h : comparedOperands op0 op1 = some (c, v, first)) (hty : M.typeOf v = .int c.width) :
    M.typeOf op0 = .int c.width := by
  unfold comparedOperands at h
  split_ifs at h with h0 h1
  · obtain ⟨a, ha, heq⟩ := Option.map_eq_some_iff.mp h
    cases heq
    cases op0 with
    | constInt b =>
        cases ha
        rfl
    | _ => cases ha
  · obtain ⟨a, ha, heq⟩ := Option.map_eq_some_iff.mp h
    cases heq
    exact hty

/-- Where a guard comes from. -/
theorem exists_of_guardAt {g : Guard} (hg : guardAt M f bb = some g) :
    ∃ j ty cond ifTrue ifFalse op0 op1,
      (f.getSinglePredecessor bb).bind Block.terminator =
        some ⟨j, ty, .condBr cond ifTrue ifFalse⟩ ∧
      M.kindOf cond = some (.icmp g.pred op0 op1) ∧
      comparedOperands op0 op1 = some (g.known, g.variableOp, g.isVariableOpFirst) ∧
      g.isTrueBranch = (ifTrue == bb) := by
  unfold guardAt at hg
  split at hg
  · rename_i j ty cond ifTrue ifFalse hterm
    split at hg
    · rename_i pred op0 op1 hcond
      obtain ⟨⟨c, v, first⟩, hop, rfl⟩ := Option.map_eq_some_iff.mp hg
      exact ⟨j, ty, cond, ifTrue, ifFalse, op0, op1, hterm, hcond, hop, rfl⟩
    · cases hg
  · cases hg

/-- What the guard of a block holds. -/
theorem find_constrainValuesByCondition {g : Guard} (hg : guardAt M f bb = some g)
    (hty : M.typeOf g.variableOp = .int g.known.width) (k : Value) :
    (constrainValuesByCondition M (rangePolicy M DL) f bb).find k =
      if k = g.variableOp ∨ loadedFrom M g.variableOp = some k then some g.range else none := by
  obtain ⟨j, ty, cond, ifTrue, ifFalse, op0, op1, hterm, hcond, hop, hbranch⟩ :=
    exists_of_guardAt hg
  have hwidth := opWidth_of_compared hop hty
  have hrange : (rangePolicy M DL).getRangeForConditionalBranch g.pred (some g.known.width) g.known
      (ifTrue == bb) g.isVariableOpFirst = g.range := by
    rw [← hbranch]
    rfl
  unfold comparedOperands at hop
  unfold constrainValuesByCondition
  rw [hterm]
  dsimp only
  rw [hcond]
  dsimp only
  rw [hop]
  simp only [hwidth, hrange]
  unfold loadedFrom
  cases hkind : M.kindOf g.variableOp with
  | none => simp [FMap.find_set]
  | some kind =>
      cases kind with
      | load ptr =>
          cases hptr : M.kindOf (M.stripPointerCasts ptr) with
          | none => simp [hptr, FMap.find_set]
          | some kind' =>
              cases kind' with
              | alloca ty size =>
                  simp only [hptr, FMap.find_set, FMap.find_empty, Option.some.injEq]
                  by_cases hk : k = ptr
                  · rw [if_pos hk, if_pos (.inr hk.symm)]
                  · rw [if_neg hk]
                    exact if_congr (or_iff_left (Ne.symm hk)).symm rfl rfl
              | _ => simp [hptr, FMap.find_set]
      | _ => simp [FMap.find_set]

/-- With no results the merged state is empty. -/
theorem find_entryState_empty {g : Guard} (hg : guardAt M f bb = some g) (k : Value) :
    (entryState M (rangePolicy M DL) false f bb ∅).find k = none := by
  have hpred : ∃ p, f.predecessors bb = [p] := by
    obtain ⟨j, ty, cond, ifTrue, ifFalse, op0, op1, hterm, -⟩ := exists_of_guardAt hg
    obtain ⟨p, hsingle, -⟩ := Option.bind_eq_some_iff.mp hterm
    unfold Function.getSinglePredecessor at hsingle
    split at hsingle
    · rename_i q hq
      exact ⟨q, hq⟩
    · cases hsingle
  obtain ⟨p, hp⟩ := hpred
  rw [find_entryState, hp]
  have hexit : Engine.exitState (∅ : RangeResult) p = ∅ := by
    unfold Engine.exitState
    split <;> rfl
  rw [List.map_cons, List.map_nil, hexit]
  rfl

/-- The entry of a compared key: the range of the branch, or its intersection with what was
there. -/
theorem find_entryState_compared {g : Guard} (hg : guardAt M f bb = some g)
    (hty : M.typeOf g.variableOp = .int g.known.width) {k : Value}
    (hk : k = g.variableOp ∨ loadedFrom M g.variableOp = some k) (r : RangeResult) :
    (entryState M (rangePolicy M DL) true f bb r).find k =
      some (((entryState M (rangePolicy M DL) false f bb r).find k).elim g.range
        fun o => o.inter g.range) := by
  have hguard : (guardOf M DL true f bb).find k = some g.range := by
    show (constrainValuesByCondition M (rangePolicy M DL) f bb).find k = _
    rw [find_constrainValuesByCondition hg hty, if_pos hk]
  have hnone : (guardOf M DL false f bb).find k = none := rfl
  rw [find_entryState, hguard, find_entryState, hnone]
  dsimp only
  split
  · rename_i o ho
    rw [ho]
    rfl
  · rename_i ho
    rw [ho]
    rfl

/-- **The path condition keeps the run-time values exactly when the range of the branch admits the
value compared and the content of the alloca on entry.** -/
theorem path_condition_sound_iff (hin : Enters M f bb ρ) :
    PathSound M f bb DL ρ ↔ ∀ g, guardAt M f bb = some g →
      g.Admits (ρ.value g.variableOp) ∧
        ∀ ptr, loadedFrom M g.variableOp = some ptr → g.Admits (ρ.content ptr) := by
  have hvalue : ∀ g, guardAt M f bb = some g →
      (g.range.Contains (ρ.value g.variableOp).toInt ↔ g.Admits (ρ.value g.variableOp)) := by
    intro g hg
    obtain ⟨y, hy, -⟩ := hin.taken g hg
    exact contains_range_iff (hin.width g hg) (hin.taken g hg) (by rw [hy])
  have hcontent : ∀ g ptr, guardAt M f bb = some g → loadedFrom M g.variableOp = some ptr →
      (g.range.Contains (ρ.content ptr).toInt ↔ g.Admits (ρ.content ptr)) := by
    intro g ptr hg hptr
    exact contains_range_iff (hin.width g hg) (hin.taken g hg) (hin.content g ptr hg hptr)
  constructor
  · intro hsound g hg
    have hty := hin.typed g hg
    have hempty : ∀ k, (entryState M (rangePolicy M DL) false f bb ∅).find k = none :=
      find_entryState_empty hg
    have hstate := hsound ∅ (fun g' _ => ⟨fun R hR => ?_, fun ptr _ R hR => ?_⟩) g hg
    · refine ⟨(hvalue g hg).mp (hstate.1 _ ?_), fun ptr hptr =>
        (hcontent g ptr hg hptr).mp (hstate.2 ptr hptr _ ?_)⟩
      · rw [find_entryState_compared hg hty (.inl rfl), hempty]
        rfl
      · rw [find_entryState_compared hg hty (.inr hptr), hempty]
        rfl
    · rw [hempty] at hR
      cases hR
    · rw [hempty] at hR
      cases hR
  · intro hadmits r hmerged g hg
    have hty := hin.typed g hg
    obtain ⟨hmv, hmc⟩ := hmerged g hg
    obtain ⟨hav, hac⟩ := hadmits g hg
    have hcut : ∀ {k : Value} {x : Int}, k = g.variableOp ∨ loadedFrom M g.variableOp = some k →
        g.range.Contains x →
        (∀ R, (entryState M (rangePolicy M DL) false f bb r).find k = some R → R.Contains x) →
        ∀ R, (entryState M (rangePolicy M DL) true f bb r).find k = some R → R.Contains x := by
      intro k x hk hrange hold R hR
      rw [find_entryState_compared hg hty hk] at hR
      obtain rfl := Option.some.inj hR
      cases hfind : (entryState M (rangePolicy M DL) false f bb r).find k with
      | none => exact hrange
      | some o => exact (hold o hfind).inter hrange
    refine ⟨hcut (.inl rfl) ((hvalue g hg).mpr hav) hmv, fun ptr hptr => ?_⟩
    exact hcut (.inr hptr) ((hcontent g ptr hg hptr).mpr (hac ptr hptr)) (hmc ptr hptr)

end

/-! ## A store between the load and the branch -/

/-- `5` is stored to `%a` and loaded, then `n` is stored to `%a`, then the branch on `%x < 10`. -/
def storedBlock (n : Nat) : Block :=
  ⟨0, [⟨0, .ptr (.int 32), .alloca (.int 32) (.constInt (.ofNat 32 1))⟩,
    ⟨1, .void, .store (.constInt (.ofNat 32 5)) (.inst 0)⟩,
    ⟨2, .int 32, .load (.inst 0)⟩,
    ⟨3, .void, .store (.constInt (.ofNat 32 n)) (.inst 0)⟩,
    ⟨4, .int 1, .icmp .slt (.inst 2) (.constInt (.ofNat 32 10))⟩,
    ⟨5, .void, .condBr (.inst 4) 1 2⟩]⟩

def storedFunction (n : Nat) : Function :=
  ⟨0, "f", [], [storedBlock n, ⟨1, [⟨6, .void, .ret none⟩]⟩, ⟨2, [⟨7, .void, .ret none⟩]⟩]⟩

def storedModule (n : Nat) : Module where
  structs := fun _ => []
  globals := []
  funcs := [storedFunction n]

/-- The memory after `k` instructions of the block. -/
def storedConc (n k : Nat) : Conc where
  held := fun _ => if k < 2 then 0 else if k < 4 then 5 else (APInt.ofNat 32 n).toInt
  regs := fun v => if v = .inst 2 ∧ 3 ≤ k then some 5 else none

/-- The values when the branch is taken. -/
def storedRun (n : Nat) : RunTime := ⟨fun _ => .ofNat 32 5, fun _ => .ofNat 32 n⟩

/-- They are those the instructions of the block lead to. -/
def StoredReached (n : Nat) : Prop :=
  (∀ k i, (storedBlock n).insts[k]? = some i →
      Effect (storedModule n) i (storedConc n k) (storedConc n (k + 1))) ∧
    (storedConc n 6).regs (.inst 2) = some ((storedRun n).value (.inst 2)).toInt ∧
    (storedConc n 6).held (.inst 0) = ((storedRun n).content (.inst 0)).toInt

/-- The alloca is the only key. -/
theorem stored_strip {n : Nat} {v : Value} (h : IsCell (storedModule n) v) :
    (storedModule n).stripPointerCasts v = .inst 0 := by
  have hids : ∀ {kind}, (storedModule n).kindOf v = some kind → v = .inst 0 ∨
      (∃ val p, kind = .store val p) ∨ (∃ p, kind = .load p) ∨ (∃ p a b, kind = .icmp p a b) ∨
      kind.isTerminator = true := by
    intro kind hk
    obtain ⟨i, hi, rfl, rfl⟩ := (storedModule n).exists_of_kindOf hk
    have hmem : i ∈ (storedBlock n).insts ++ [⟨6, .void, .ret none⟩, ⟨7, .void, .ret none⟩] := hi
    simp only [storedBlock, List.cons_append, List.nil_append, List.mem_cons, List.not_mem_nil,
      or_false] at hmem
    obtain rfl | rfl | rfl | rfl | rfl | rfl | rfl | rfl := hmem <;>
      simp [InstKind.isTerminator]
  have hv : v = .inst 0 := by
    obtain ⟨ty, m, hk⟩ | ⟨op, a, hk⟩ | ⟨src, base, indices, hk, -⟩ := kind_of_local h.1
    all_goals simpa [InstKind.isTerminator] using hids hk
  rw [hv]
  rfl

theorem stored_effect {n k : Nat} {i : Inst} (hi : (storedBlock n).insts[k]? = some i) :
    Effect (storedModule n) i (storedConc n k) (storedConc n (k + 1)) := by
  have hlt : k < 6 := (List.getElem?_eq_some_iff.mp hi).1
  refine ⟨?_, ?_, ?_, ?_⟩
  · intro v hv
    have hload : v = .inst 2 → k ≠ 2 := by
      rintro rfl rfl
      obtain rfl := Option.some.inj hi
      exact hv rfl
    refine if_congr (and_congr_right fun hv2 => ?_) rfl rfl
    have := hload hv2
    omega
  · intro p hk hp
    interval_cases k
    all_goals
      obtain rfl := Option.some.inj hi
      cases hk
    rfl
  · intro val p hk v _ _ _ _
    interval_cases k
    all_goals
      obtain rfl := Option.some.inj hi
      cases hk
    · rfl
    · rfl
  · intro v hv hw
    interval_cases k
    all_goals obtain rfl := Option.some.inj hi
    · rfl
    · exact absurd (fun _ => stored_strip hv) hw
    · rfl
    · exact absurd (fun _ => stored_strip hv) hw
    · rfl
    · rfl

theorem guardAt_stored (n : Nat) : guardAt (storedModule n) (storedFunction n) 1 =
    some ⟨.slt, .ofNat 32 10, .inst 2, true, true⟩ := rfl

theorem stored_enters (n : Nat) :
    Enters (storedModule n) (storedFunction n) 1 (storedRun n) := by
  refine ⟨fun g hg => ?_, fun g hg => ?_, fun g ptr hg _ => ?_, fun g hg => ?_⟩ <;>
    obtain rfl := Option.some.inj ((guardAt_stored n).symm.trans hg)
  · show 0 < 32
    decide
  · rfl
  · rfl
  · exact ⟨5#32, rfl, by unfold BranchTaken; decide⟩

/-- With `7` stored both the value and the content are below the bound. -/
theorem small_store_kept :
    PathSound (storedModule 7) (storedFunction 7) 1 structlessLayout (storedRun 7) := by
  refine (path_condition_sound_iff (stored_enters 7)).mpr fun g hg => ?_
  obtain rfl := Option.some.inj ((guardAt_stored 7).symm.trans hg)
  have hadmits : ∀ n, BranchTaken .slt (BitVec.ofNat 32 n) 10#32 true true →
      0 ≤ (BitVec.ofNat 32 n).toInt →
      Guard.Admits ⟨.slt, .ofNat 32 10, .inst 2, true, true⟩ (.ofNat 32 n) :=
    fun n htaken hn => .inr ⟨⟨_, rfl, htaken⟩, fun _ => hn⟩
  exact ⟨hadmits 5 (by unfold BranchTaken; decide) (by decide),
    fun ptr hptr => hadmits 7 (by unfold BranchTaken; decide) (by decide)⟩

/-- With `20` stored the entry state says that the alloca holds a number of `[0, 9]`. -/
theorem store_before_branch_lost :
    StoredReached 20 ∧ Enters (storedModule 20) (storedFunction 20) 1 (storedRun 20) ∧
      ¬ PathSound (storedModule 20) (storedFunction 20) 1 structlessLayout (storedRun 20) := by
  refine ⟨⟨fun k i hi => stored_effect hi, rfl, rfl⟩, stored_enters 20, fun hsound => ?_⟩
  have hempty : ∀ k, (entryState (storedModule 20) (rangePolicy (storedModule 20) structlessLayout)
      false (storedFunction 20) 1 ∅).find k = none := find_entryState_empty (guardAt_stored 20)
  have hmerged : ContainsCompared (storedModule 20) (storedFunction 20) 1 (storedRun 20)
      (entryState (storedModule 20) (rangePolicy (storedModule 20) structlessLayout) false
        (storedFunction 20) 1 ∅) := by
    intro g hg
    refine ⟨fun R hR => ?_, fun ptr _ R hR => ?_⟩ <;>
      cases (hempty _).symm.trans hR
  have hcell := (hsound ∅ hmerged _ (guardAt_stored 20)).2 (.inst 0) rfl
    (.constant (.ofNat 32 0) (.ofNat 32 9)) (by decide)
  exact absurd hcell (by decide)

end MSV
