import MSV.Lib.Residue
import MSV.Range.Value

/-!
# Ranges from conditional branches

`getRangeForConditionalBranch` turns the comparison of a variable with a constant into a range for
the variable in one of the two successors. Its forty combinations of predicate, polarity and operand
order come down to a bound on one side, strict or not, in signed or unsigned order.

**Theorem (`guard_sound_iff`).** The range contains every value with which the branch is taken, in
the order of the predicate, unless the branch bounds the variable from above in signed order by a
constant that is not negative: the lower end is then `0`, and the negative values are lost.
-/

namespace MSV

/-! ## Comparisons -/

/-- The comparison, on values of one width. -/
def Pred.holds {w : Nat} (p : Pred) (x y : BitVec w) : Bool :=
  match p with
  | .eq => x == y
  | .ne => x != y
  | .ugt => decide (y.toNat < x.toNat)
  | .uge => decide (y.toNat ≤ x.toNat)
  | .ult => decide (x.toNat < y.toNat)
  | .ule => decide (x.toNat ≤ y.toNat)
  | .sgt => decide (y.toInt < x.toInt)
  | .sge => decide (y.toInt ≤ x.toInt)
  | .slt => decide (x.toInt < y.toInt)
  | .sle => decide (x.toInt ≤ y.toInt)

def Pred.isUnsigned : Pred → Bool
  | .ugt | .uge | .ult | .ule => true
  | _ => false

/-- The branch on `icmp p x c` (or `icmp p c x`) goes to the considered successor. -/
def BranchTaken {w : Nat} (p : Pred) (x c : BitVec w) (isTrueBranch isVariableOpFirst : Bool) :
    Prop :=
  (if isVariableOpFirst then p.holds x c else p.holds c x) = isTrueBranch

/-- The value is in the range, read in the order of the predicate. -/
def ReadIn {w : Nat} (p : Pred) (x : BitVec w) : RangeValue → Prop
  | .constant l r =>
      if p.isUnsigned then l.toNat ≤ x.toNat ∧ x.toNat ≤ r.toNat
      else l.toInt ≤ x.toInt ∧ x.toInt ≤ r.toInt
  | _ => True

/-! ## What a branch says -/

/-- What a branch says about the variable. -/
inductive Bound where
  | exactly
  | anything
  | above
  | aboveStrict
  | below
  | belowStrict
deriving DecidableEq

/-- The bound of a comparison that holds with the variable first. -/
def Pred.bound : Pred → Bound
  | .eq => .exactly
  | .ne => .anything
  | .ugt | .sgt => .aboveStrict
  | .uge | .sge => .above
  | .ult | .slt => .belowStrict
  | .ule | .sle => .below

/-- The comparison fails. -/
def Bound.negated : Bound → Bound
  | .exactly => .anything
  | .anything => .exactly
  | .above => .belowStrict
  | .aboveStrict => .below
  | .below => .aboveStrict
  | .belowStrict => .above

/-- The operands change places. -/
def Bound.swapped : Bound → Bound
  | .above => .below
  | .aboveStrict => .belowStrict
  | .below => .above
  | .belowStrict => .aboveStrict
  | b => b

def branchBound (p : Pred) (isTrueBranch isVariableOpFirst : Bool) : Bound :=
  let b := if isVariableOpFirst then p.bound else p.bound.swapped
  if isTrueBranch then b else b.negated

/-- The bound, for the readings of the variable and the constant. -/
def Bound.Holds : Bound → Int → Int → Prop
  | .exactly, x, c => x = c
  | .anything, x, c => x ≠ c
  | .above, x, c => c ≤ x
  | .aboveStrict, x, c => c < x
  | .below, x, c => x ≤ c
  | .belowStrict, x, c => x < c

/-- The reading of a value a predicate compares. -/
def Pred.reading {w : Nat} (p : Pred) (x : BitVec w) : Int :=
  if p.isUnsigned then x.toNat else x.toInt

/-- The range for a bound, between the least and the greatest value. -/
def Bound.range (b : Bound) (lo hi c : APInt) : RangeValue :=
  match b with
  | .exactly => .constant c c
  | .anything => .infinity
  | .above => .constant c hi
  | .aboveStrict => .constant (c.addConst 1) hi
  | .below => .constant lo c
  | .belowStrict => .constant lo (c.addConst (-1))

theorem Bound.holds_negated (b : Bound) (x c : Int) : b.negated.Holds x c ↔ ¬ b.Holds x c := by
  cases b <;> simp [Bound.negated, Bound.Holds]

theorem Bound.holds_swapped (b : Bound) (x c : Int) : b.swapped.Holds x c ↔ b.Holds c x := by
  cases b <;> simp [Bound.swapped, Bound.Holds, eq_comm]

section

variable {w : Nat} (p : Pred) (x c : BitVec w) (t v : Bool)

theorem Pred.holds_iff :
    p.holds x c = true ↔ p.bound.Holds (p.reading x) (p.reading c) := by
  cases p with
  | eq | ne =>
      simp [Pred.holds, Pred.bound, Bound.Holds, Pred.reading, Pred.isUnsigned, BitVec.toInt_inj]
  | _ => simp [Pred.holds, Pred.bound, Bound.Holds, Pred.reading, Pred.isUnsigned]

theorem branchTaken_iff :
    BranchTaken p x c t v ↔ (branchBound p t v).Holds (p.reading x) (p.reading c) := by
  have hbound : (if v then p.holds x c else p.holds c x) = true ↔
      (if v then p.bound else p.bound.swapped).Holds (p.reading x) (p.reading c) := by
    cases v with
    | true => exact p.holds_iff x c
    | false =>
        show p.holds c x = true ↔ p.bound.swapped.Holds _ _
        rw [Bound.holds_swapped]
        exact p.holds_iff c x
  unfold BranchTaken branchBound
  cases t with
  | true => exact hbound
  | false =>
      rw [← Bool.not_eq_true, hbound]
      exact (Bound.holds_negated ..).symm

theorem getRangeForConditionalBranch_eq (k : APInt) :
    RangeValue.getRangeForConditionalBranch p (some w) k t v =
      (branchBound p t v).range
        (if p.isUnsigned || !k.isNegative then APInt.getMinValue w else APInt.getSignedMinValue w)
        (if p.isUnsigned then APInt.getMaxValue w else APInt.getSignedMaxValue w) k := by
  cases p <;> cases t <;> cases v <;> cases hk : k.isNegative <;>
    simp [RangeValue.getRangeForConditionalBranch, branchBound, Pred.bound, Bound.negated,
      Bound.swapped, Bound.range, Pred.isUnsigned, hk]

end

/-! ## Ends of the ranges -/

/-- The readings of a predicate are the window `[-shift, 2 ^ w - shift)`. -/
def Pred.shift (p : Pred) (w : Nat) : Int := if p.isUnsigned then 0 else half w

section

variable {w : Nat} (p : Pred)

theorem Pred.reading_bounds (x : BitVec w) :
    -p.shift w ≤ p.reading x ∧ p.reading x < 2 ^ w - p.shift w := by
  have hnat : (x.toNat : Int) < 2 ^ w := by exact_mod_cast x.isLt
  have hint := toInt_bounds x
  unfold Pred.shift Pred.reading
  split_ifs <;> omega

theorem Pred.reading_add (x : BitVec w) (n : Int) :
    p.reading (x + BitVec.ofInt w n) = residue (2 ^ w) (p.shift w) (p.reading x + n) := by
  obtain ⟨hlo, hhi⟩ := p.reading_bounds (x + BitVec.ofInt w n)
  unfold Pred.shift Pred.reading at *
  split_ifs at * with hp
  · have hx : x + BitVec.ofInt w n = BitVec.ofInt w (x.toNat + n) := by
      rw [BitVec.ofInt_add, BitVec.ofInt_natCast, BitVec.ofNat_toNat, BitVec.setWidth_eq]
    refine eq_residue hlo hhi ?_
    have hnonneg := Int.emod_nonneg ((x.toNat : Int) + n) (two_pow_pos w).ne'
    rw [hx, BitVec.toNat_ofInt]
    push_cast
    rw [Int.toNat_of_nonneg hnonneg, Int.emod_emod_of_dvd _ dvd_rfl]
  · have hx : x + BitVec.ofInt w n = BitVec.ofInt w (x.toInt + n) := by
      rw [BitVec.ofInt_add, BitVec.ofInt_toInt]
    rw [hx, toInt_ofInt_eq_residue]

theorem Pred.reading_greatest :
    p.reading (if p.isUnsigned then APInt.getMaxValue (w + 1)
      else APInt.getSignedMaxValue (w + 1)).bits = 2 ^ (w + 1) - p.shift (w + 1) - 1 := by
  have hpow : (2 : Int) ^ (w + 1) = 2 * 2 ^ w := by rw [pow_succ, mul_comm]
  unfold Pred.reading Pred.shift
  cases p.isUnsigned with
  | true =>
      show ((BitVec.allOnes (w + 1)).toNat : Int) = 2 ^ (w + 1) - 0 - 1
      rw [BitVec.toNat_allOnes, Nat.cast_sub Nat.one_le_two_pow]
      push_cast
      omega
  | false =>
      show (BitVec.intMax (w + 1)).toInt = 2 ^ (w + 1) - half (w + 1) - 1
      rw [BitVec.toInt_intMax, half_succ, hpow, Nat.add_sub_cancel]
      omega

/-- The lower end is the least reading, unless the order is signed and the constant not negative. -/
theorem Pred.reading_least (k : APInt) :
    p.reading (if p.isUnsigned || !k.isNegative then APInt.getMinValue (w + 1)
      else APInt.getSignedMinValue (w + 1)).bits =
        if !p.isUnsigned && !k.isNegative then 0 else -p.shift (w + 1) := by
  unfold Pred.reading Pred.shift
  cases hp : p.isUnsigned with
  | true => simp [APInt.getMinValue]
  | false =>
      cases hk : k.isNegative with
      | true =>
          show (BitVec.intMin (w + 1)).toInt = -half (w + 1)
          rw [BitVec.toInt_intMin_of_pos (by omega), half_succ, Nat.add_sub_cancel]
      | false => simp [APInt.getMinValue]

end

/-! ## Soundness -/

/-- The range of the branch contains every value with which it is taken. -/
def GuardSound {w : Nat} (p : Pred) (c : BitVec w) (isTrueBranch isVariableOpFirst : Bool) : Prop :=
  ∀ x, BranchTaken p x c isTrueBranch isVariableOpFirst → ReadIn p x
    (RangeValue.getRangeForConditionalBranch p (some w) ⟨w, c⟩ isTrueBranch isVariableOpFirst)

/-- The branch is taken for values up to the constant. -/
def Bound.isUpper : Bound → Bool
  | .below | .belowStrict => true
  | _ => false

theorem readIn_constant {w : Nat} (p : Pred) (x : BitVec w) (l r : APInt) :
    ReadIn p x (.constant l r) ↔ p.reading l.bits ≤ p.reading x ∧
      p.reading x ≤ p.reading r.bits := by
  unfold ReadIn Pred.reading
  split_ifs with hp
  · exact_mod_cast Iff.rfl
  · exact Iff.rfl

/-- Which values the range of a bound contains: those of the bound, if they are not below `0` where
the lower end is `0`. -/
theorem readIn_range_iff {w : Nat} (p : Pred) (x c : BitVec (w + 1)) {b : Bound}
    (hb : b.Holds (p.reading x) (p.reading c)) :
    ReadIn p x (b.range
        (if p.isUnsigned || !(APInt.mk (w + 1) c).isNegative then APInt.getMinValue (w + 1)
          else APInt.getSignedMinValue (w + 1))
        (if p.isUnsigned then APInt.getMaxValue (w + 1) else APInt.getSignedMaxValue (w + 1))
        ⟨w + 1, c⟩) ↔
      (b.isUpper = true → p.isUnsigned = false → 0 ≤ c.toInt → 0 ≤ p.reading x) := by
  have hx := p.reading_bounds x
  have hc := p.reading_bounds c
  have hgreatest := p.reading_greatest (w := w)
  have hleast : (if !p.isUnsigned && !(APInt.mk (w + 1) c).isNegative then (0 : Int)
      else -p.shift (w + 1)) ≤ p.reading x ↔
        (p.isUnsigned = false → 0 ≤ c.toInt → 0 ≤ p.reading x) := by
    have hneg : (APInt.mk (w + 1) c).isNegative = false ↔ 0 ≤ c.toInt := APInt.isNegative_eq_false
    cases p.isUnsigned <;> cases hk : (APInt.mk (w + 1) c).isNegative <;>
      simp [hk, ← hneg] <;> omega
  cases b with
  | exactly =>
      rw [Bound.range, readIn_constant]
      unfold Bound.Holds at hb
      simp [Bound.isUpper, hb]
  | anything => simp [Bound.range, ReadIn, Bound.isUpper]
  | above =>
      rw [Bound.range, readIn_constant, hgreatest]
      unfold Bound.Holds at hb
      simp [Bound.isUpper]
      omega
  | aboveStrict =>
      have hsucc : p.reading ((APInt.mk (w + 1) c).addConst 1).bits = p.reading c + 1 := by
        unfold Bound.Holds at hb
        exact (p.reading_add c 1).trans (residue_of_mem (by omega) (by omega))
      rw [Bound.range, readIn_constant, hgreatest, hsucc]
      unfold Bound.Holds at hb
      simp [Bound.isUpper]
      omega
  | below =>
      rw [Bound.range, readIn_constant, p.reading_least, hleast]
      simp only [Bound.isUpper, true_imp_iff]
      exact and_iff_left hb
  | belowStrict =>
      have hpred : p.reading ((APInt.mk (w + 1) c).addConst (-1)).bits = p.reading c - 1 := by
        unfold Bound.Holds at hb
        exact (p.reading_add c (-1)).trans (residue_of_mem (by omega) (by omega))
      rw [Bound.range, readIn_constant, p.reading_least, hleast, hpred]
      simp only [Bound.isUpper, true_imp_iff]
      unfold Bound.Holds at hb
      exact and_iff_left (by omega)

/-- **When the range of a branch is sound.** -/
theorem guard_sound_iff {w : Nat} (p : Pred) (c : BitVec (w + 1))
    (isTrueBranch isVariableOpFirst : Bool) :
    GuardSound p c isTrueBranch isVariableOpFirst ↔
      ¬ (p.isUnsigned = false ∧ (branchBound p isTrueBranch isVariableOpFirst).isUpper = true ∧
        0 ≤ c.toInt) := by
  unfold GuardSound
  constructor
  · rintro hsound ⟨hp, hupper, hc⟩
    have hread : p.reading (BitVec.ofInt (w + 1) (-1)) = -1 := by
      unfold Pred.reading
      rw [hp, if_neg (by decide)]
      have := two_pow_pos w
      exact toInt_ofInt_of_mem (by rw [half_succ]; omega) (by rw [half_succ, pow_succ]; omega)
    have hcread : p.reading c = c.toInt := by
      unfold Pred.reading
      rw [hp, if_neg (by decide)]
    have htaken : (branchBound p isTrueBranch isVariableOpFirst).Holds
        (p.reading (BitVec.ofInt (w + 1) (-1))) (p.reading c) := by
      rw [hread, hcread]
      cases hb : branchBound p isTrueBranch isVariableOpFirst with
      | below => exact (by omega : -1 ≤ c.toInt)
      | belowStrict => exact (by omega : -1 < c.toInt)
      | _ =>
          rw [hb] at hupper
          cases hupper
    have hin := hsound _ ((branchTaken_iff ..).mpr htaken)
    rw [getRangeForConditionalBranch_eq, readIn_range_iff p _ c htaken, hread] at hin
    exact absurd (hin hupper hp hc) (by decide)
  · intro hcond x hx
    rw [branchTaken_iff] at hx
    rw [getRangeForConditionalBranch_eq, readIn_range_iff p x c hx]
    exact fun hupper hp hc => absurd ⟨hp, hupper, hc⟩ hcond

/-- `x < 10` at 8 bits: the range is `[0, 9]`, and the branch is taken with `-1`. -/
theorem guard_loses_negative : ¬ GuardSound .slt 10#8 true true := by
  intro hsound
  have hin := hsound (-1#8) (by unfold BranchTaken; decide)
  exact absurd hin.1 (by decide)

end MSV
