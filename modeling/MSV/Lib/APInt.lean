import Mathlib.Data.BitVec
import Mathlib.Data.Int.Basic

/-!
# Sized integers

`APInt` is an integer of some bit width, read as signed (`toInt`) or unsigned (`toNat`). Only the
operations the analyses use are here: comparisons, resizing, and the overflow-reporting signed
arithmetic.
-/

namespace MSV

/-- A bit width together with that many bits. -/
structure APInt where
  width : Nat
  bits : BitVec width
deriving DecidableEq

namespace APInt

/-- The signed reading. -/
def toInt (a : APInt) : Int := a.bits.toInt

/-- The unsigned reading. -/
def toNat (a : APInt) : Nat := a.bits.toNat

/-- `APInt(w, n)`: the low `w` bits of `n`. -/
def ofNat (w n : Nat) : APInt := ⟨w, BitVec.ofNat w n⟩

/-- The low `w` bits of `i`. -/
def ofInt (w : Nat) (i : Int) : APInt := ⟨w, BitVec.ofInt w i⟩

def slt (a b : APInt) : Bool := decide (a.toInt < b.toInt)

def sgt (a b : APInt) : Bool := decide (b.toInt < a.toInt)

/-- `uge` against a 64-bit number compares the unsigned readings. -/
def uge (a : APInt) (n : Nat) : Bool := decide (n ≤ a.toNat)

def isNegative (a : APInt) : Bool := decide (a.toInt < 0)

def isStrictlyPositive (a : APInt) : Bool := decide (0 < a.toInt)

/-- Sign-extend or truncate to `w` bits. -/
def sextOrTrunc (a : APInt) (w : Nat) : APInt := ⟨w, a.bits.signExtend w⟩

/-- Zero-extend or truncate to `w` bits. -/
def zextOrTrunc (a : APInt) (w : Nat) : APInt := ⟨w, a.bits.setWidth w⟩

/-- `getLimitedValue()`: the unsigned reading, capped at `2^64 - 1`. -/
def getLimitedValue (a : APInt) : Nat := min a.toNat (2 ^ 64 - 1)

/-- Least and greatest values of a width, unsigned and signed. -/
def getMaxValue (w : Nat) : APInt := ⟨w, BitVec.allOnes w⟩

def getMinValue (w : Nat) : APInt := ⟨w, 0⟩

def getSignedMaxValue (w : Nat) : APInt := ⟨w, BitVec.intMax w⟩

def getSignedMinValue (w : Nat) : APInt := ⟨w, BitVec.intMin w⟩

/-- Addition of a small constant, at the number's own width. -/
def addConst (a : APInt) (n : Int) : APInt := ⟨a.width, a.bits + BitVec.ofInt a.width n⟩

/-- The exact value `i` at width `w`, and whether it does not fit. -/
def ov (w : Nat) (i : Int) : APInt × Bool := (ofInt w i, decide ((ofInt w i).toInt ≠ i))

def sadd_ov (a b : APInt) : APInt × Bool := ov a.width (a.toInt + b.toInt)

def ssub_ov (a b : APInt) : APInt × Bool := ov a.width (a.toInt - b.toInt)

def smul_ov (a b : APInt) : APInt × Bool := ov a.width (a.toInt * b.toInt)

/-- Signed division truncates towards zero. -/
def sdiv_ov (a b : APInt) : APInt × Bool := ov a.width (a.toInt.tdiv b.toInt)

def udiv (a b : APInt) : APInt := ofNat a.width (a.toNat / b.toNat)

/-- `isPowerOf2` of the successor at the same width. -/
def succIsPowerOf2 (a : APInt) : Bool :=
  let v := (a.addConst 1).toNat
  decide (v ≠ 0) && decide (2 ^ Nat.log2 v = v)

/-- Absolute value, at the number's own width. -/
def abs (a : APInt) : APInt := ofInt a.width |a.toInt|

/-- Two's complement negation. -/
def negate (a : APInt) : APInt := ofInt a.width (-a.toInt)

@[simp] theorem width_ofNat (w n : Nat) : (ofNat w n).width = w := rfl

theorem toInt_cases (a : APInt) :
    (a.toInt = a.toNat) ∨ (a.toInt = a.toNat - (2 ^ a.width : Nat) ∧ a.toInt < 0) := by
  have hlt := a.bits.isLt
  have hcond := BitVec.toInt_eq_toNat_cond a.bits
  simp only [toInt, toNat]
  split_ifs at hcond
  · exact Or.inl hcond
  · exact Or.inr ⟨hcond, by omega⟩

theorem isNegative_eq_false {a : APInt} : a.isNegative = false ↔ 0 ≤ a.toInt := by
  simp [isNegative]

/-- A number that is not negative reads the same either way. -/
theorem toInt_of_nonneg {a : APInt} (h : 0 ≤ a.toInt) : a.toInt = a.toNat := by
  rcases a.toInt_cases with h' | h'
  · exact h'
  · omega

theorem toInt_le_toNat (a : APInt) : a.toInt ≤ a.toNat := by
  rcases a.toInt_cases with h | h
  · exact le_of_eq h
  · omega

end APInt

end MSV
