import Mathlib.Data.BitVec
import Mathlib.Algebra.Order.Ring.Int
import Mathlib.Tactic.Linarith

/-!
# Residues on an interval

`residue m h` reduces modulo `m` to the window `[-h, m - h)`: with `h = 0` the unsigned residue,
with `h = m / 2` the signed one. The image of an interval `[a, b]` lies in `[L, R]` exactly when
either the interval stays in one copy of the window, and the images of its ends are in `[L, R]`, or
it leaves the copy, and the whole window is.
-/

namespace MSV

/-- The number in `[-h, m - h)` that is congruent to `z` modulo `m`. -/
def residue (m h z : Int) : Int := (z + h) % m - h

/-- Half of the numbers of `w` bits. -/
def half (w : Nat) : Int := 2 ^ w / 2

/-- The residues of `[a, b]` are between `L` and `R`. -/
def ResidueWithin (m h a b L R : Int) : Prop :=
  if (a + h) / m = (b + h) / m then L ≤ residue m h a ∧ residue m h b ≤ R
  else L ≤ -h ∧ m - h - 1 ≤ R

instance (m h a b L R : Int) : Decidable (ResidueWithin m h a b L R) := by
  unfold ResidueWithin
  infer_instance

section

variable {m h a b L R z : Int}

/-- How a number differs from its residue. -/
theorem residue_eq (m h z : Int) : residue m h z = z - m * ((z + h) / m) := by
  have := Int.mul_ediv_add_emod (z + h) m
  unfold residue
  omega

theorem residue_bounds (hm : 0 < m) (h z : Int) : -h ≤ residue m h z ∧ residue m h z < m - h := by
  have hlo := Int.emod_nonneg (z + h) (by omega : m ≠ 0)
  have hhi := Int.emod_lt_of_pos (z + h) hm
  unfold residue
  omega

theorem residue_of_mem (hlo : -h ≤ z) (hhi : z < m - h) : residue m h z = z := by
  unfold residue
  rw [Int.emod_eq_of_lt (by omega) (by omega)]
  omega

/-- The residue is the only number of the window with the same remainder. -/
theorem eq_residue (hlo : -h ≤ z) (hhi : z < m - h) (hmod : z % m = a % m) :
    z = residue m h a := by
  have : (z + h) % m = (a + h) % m := by rw [Int.add_emod, hmod, ← Int.add_emod]
  have hz := residue_of_mem hlo hhi
  unfold residue at hz ⊢
  omega

/-- Between two numbers of one copy of the window, residues are ordered as the numbers are. -/
theorem residue_mono (hm : 0 < m) (hq : (a + h) / m = (b + h) / m) (ha : a ≤ z) (hb : z ≤ b) :
    residue m h a ≤ residue m h z ∧ residue m h z ≤ residue m h b := by
  have h1 : (a + h) / m ≤ (z + h) / m := Int.ediv_le_ediv hm (by omega)
  have h2 : (z + h) / m ≤ (b + h) / m := Int.ediv_le_ediv hm (by omega)
  have hz : (z + h) / m = (a + h) / m := by omega
  rw [residue_eq, residue_eq, residue_eq, hz, ← hq]
  omega

/-- An interval that leaves the copy meets both ends of the window. -/
theorem exists_residue_ends (hm : 0 < m) (hab : a ≤ b) (hq : (a + h) / m ≠ (b + h) / m) :
    (∃ z, a ≤ z ∧ z ≤ b ∧ residue m h z = -h) ∧
      ∃ z, a ≤ z ∧ z ≤ b ∧ residue m h z = m - h - 1 := by
  have hlt : (a + h) / m < (b + h) / m :=
    lt_of_le_of_ne (Int.ediv_le_ediv hm (by omega)) hq
  have ha := Int.mul_ediv_add_emod (a + h) m
  have hb := Int.mul_ediv_add_emod (b + h) m
  have ha' := Int.emod_lt_of_pos (a + h) hm
  have hb' := Int.emod_nonneg (b + h) (by omega : m ≠ 0)
  -- the first number of the copy of `b`, and the one before it
  have hstep : m * ((a + h) / m) + m ≤ m * ((b + h) / m) := by
    have := Int.mul_le_mul_of_nonneg_left (by omega : (a + h) / m + 1 ≤ (b + h) / m) hm.le
    linarith [Int.mul_add m ((a + h) / m) 1]
  refine ⟨⟨m * ((b + h) / m) - h, by omega, by omega, ?_⟩,
    ⟨m * ((b + h) / m) - h - 1, by omega, by omega, ?_⟩⟩
  · unfold residue
    rw [Int.sub_add_cancel, Int.mul_emod_right]
    omega
  · have hz : m * ((b + h) / m) - h - 1 + h = m * ((b + h) / m) + -1 := by omega
    unfold residue
    rw [hz, Int.mul_add_emod_self_left, Int.emod_eq_add_self_emod,
      Int.emod_eq_of_lt (by omega) (by omega)]
    omega

/-- **The residues of an interval.** -/
theorem forall_residue_iff (hm : 0 < m) (hab : a ≤ b) :
    (∀ z, a ≤ z → z ≤ b → L ≤ residue m h z ∧ residue m h z ≤ R) ↔
      ResidueWithin m h a b L R := by
  unfold ResidueWithin
  split_ifs with hq
  · constructor
    · intro hall
      exact ⟨(hall a le_rfl hab).1, (hall b hab le_rfl).2⟩
    · intro hends z ha hb
      have := residue_mono hm hq ha hb
      omega
  · constructor
    · intro hall
      obtain ⟨⟨z, ha, hb, hz⟩, ⟨z', ha', hb', hz'⟩⟩ := exists_residue_ends hm hab hq
      have h1 := (hall z ha hb).1
      have h2 := (hall z' ha' hb').2
      omega
    · intro hends z _ _
      have := residue_bounds hm h z
      omega

end

/-! ## Signed readings -/

section

variable {w : Nat}

theorem two_pow_pos (w : Nat) : (0 : Int) < 2 ^ w := by positivity

theorem half_succ (w : Nat) : half (w + 1) = 2 ^ w := by
  unfold half
  rw [pow_succ]
  omega

theorem toInt_bounds (x : BitVec w) : -half w ≤ x.toInt ∧ x.toInt < 2 ^ w - half w := by
  have h1 := BitVec.le_two_mul_toInt (x := x)
  have h2 := BitVec.two_mul_toInt_lt (x := x)
  unfold half
  omega

/-- The signed reading of a number is its signed residue. -/
theorem toInt_ofInt_eq_residue (w : Nat) (i : Int) :
    (BitVec.ofInt w i).toInt = residue (2 ^ w) (half w) i := by
  obtain ⟨hlo, hhi⟩ := toInt_bounds (BitVec.ofInt w i)
  refine eq_residue hlo hhi ?_
  rw [BitVec.toInt_ofInt]
  exact_mod_cast Int.bmod_emod

theorem toInt_ofInt_of_mem {z : Int} (hlo : -half w ≤ z) (hhi : z < 2 ^ w - half w) :
    (BitVec.ofInt w z).toInt = z := by
  rw [toInt_ofInt_eq_residue, residue_of_mem hlo hhi]

/-- The numbers `w` bits can hold, between `a` and `b`. -/
theorem forall_toInt_iff (P : Int → Prop) (a b : Int) :
    (∀ x : BitVec w, a ≤ x.toInt → x.toInt ≤ b → P x.toInt) ↔
      ∀ z, max a (-half w) ≤ z → z ≤ min b (2 ^ w - half w - 1) → P z := by
  constructor
  · intro hall z hlo hhi
    have hz := toInt_ofInt_of_mem (w := w) (z := z) (by omega) (by omega)
    have := hall (BitVec.ofInt w z)
    rw [hz] at this
    exact this (by omega) (by omega)
  · intro hall x ha hb
    have := toInt_bounds x
    exact hall x.toInt (by omega) (by omega)

end

end MSV
