import Mathlib.Data.BitVec

/-!
# A flag in the high bits of a pointer

A pointer that fits `k` bits leaves the bits from `k` on to a flag: all of them are set, or none.

**Extension.** The pointer stays one whose high bits agree, and arithmetic on it goes on as long as
the results fit `k` bits.

**Reading.** An arithmetic shift spreads the top bit over the whole word.
-/

namespace MSV.HighBits

variable {w k : Nat} {b : Bool} {x : BitVec w}

/-- A flag as a word. -/
def spread (w : Nat) (b : Bool) : BitVec w := if b then BitVec.allOnes w else 0

/-- The word fits `k` bits. -/
def Low (k : Nat) (x : BitVec w) : Prop := x.toNat < 2 ^ k

/-- A word with a flag in the bits from `k` on. -/
def tag (k : Nat) (b : Bool) (x : BitVec w) : BitVec w := x ||| spread w b <<< k

@[simp] theorem spread_true : spread w true = BitVec.allOnes w := rfl

@[simp] theorem spread_false : spread w false = 0 := rfl

@[simp] theorem tag_false : tag k false x = x := by simp [tag]

theorem getLsbD_spread {i : Nat} (hi : i < w) : (spread w b).getLsbD i = b := by
  cases b <;> simp [hi]

theorem Low.getLsbD (h : Low k x) {i : Nat} (hi : k ≤ i) : x.getLsbD i = false :=
  Nat.testBit_lt_two_pow (Nat.lt_of_lt_of_le h (Nat.pow_le_pow_right (by decide) hi))

/-- The high bits agree. -/
theorem getLsbD_tag (h : Low k x) {i : Nat} (hi : k ≤ i) (hw : i < w) :
    (tag k b x).getLsbD i = b := by
  have hshift : (spread w b).getLsbD (i - k) = b := getLsbD_spread (by omega)
  rw [tag, BitVec.getLsbD_or, BitVec.getLsbD_shiftLeft, h.getLsbD hi, hshift]
  simp [hw, Nat.not_lt.mpr hi]

/-- The low bits are those of the pointer. -/
theorem setWidth_tag : (tag k b x).setWidth k = x.setWidth k := by
  apply BitVec.eq_of_getLsbD_eq
  intro i hi
  simp [tag, hi]

/-- Flags that are put in one after the other. -/
theorem tag_or_spread (c : Bool) : tag k b x ||| spread w c <<< k = tag k (b || c) x := by
  have hspread : spread w b <<< k ||| spread w c <<< k = spread w (b || c) <<< k := by
    cases b <;> cases c <;> simp
  rw [tag, BitVec.or_assoc, hspread, tag]

theorem tag_eq_add (h : Low k x) : tag k b x = x + spread w b <<< k := by
  have hand : x &&& spread w b <<< k = 0 := by
    apply BitVec.eq_of_getLsbD_eq
    intro i hi
    by_cases hik : i < k
    · simp [hik]
    · simp [h.getLsbD (Nat.not_lt.mp hik)]
  rw [BitVec.add_eq_or_of_and_eq_zero _ _ hand, tag]

/-- Arithmetic that stays within the low bits leaves the flag alone. -/
theorem tag_add (h : Low k x) {d : BitVec w} (hd : Low k (x + d)) :
    tag k b x + d = tag k b (x + d) := by
  rw [tag_eq_add h, tag_eq_add hd, BitVec.add_assoc, BitVec.add_comm _ d, BitVec.add_assoc]

/-- The arithmetic shift that brings the top bit to the bottom. -/
theorem sshiftRight_tag (hk : k < w) (h : Low k x) :
    (tag k b x).sshiftRight (w - 1) = spread w b := by
  apply BitVec.eq_of_getLsbD_eq
  intro i hi
  have htop : (tag k b x).getLsbD (w - 1) = b := getLsbD_tag h (by omega) (by omega)
  rw [getLsbD_spread hi, BitVec.getLsbD_sshiftRight, BitVec.msb_eq_getLsbD_last, htop,
    decide_eq_false (Nat.not_le.mpr hi), Bool.not_false, Bool.true_and]
  split_ifs with h0
  · obtain rfl : i = 0 := by omega
    exact htop
  · rfl

end MSV.HighBits
