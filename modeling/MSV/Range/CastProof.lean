import MSV.Lib.Residue
import MSV.Range.Transfer

/-!
# Casts of ranges

`evaluateCast` folds the two ends of a range separately. That is right when the cast is monotone on
the range: always for a sign extension, but truncation and zero extension start over at a wrap
point, and a range with such a point inside has an image its folded ends say nothing about.

**Theorem (`evaluateCast_sound_iff`).** The folded range contains the cast of every value of the
operand's range exactly when no wrap point lies between two values of it, and the ends enclose the
casts of the least and the greatest one; or the folded ends are the ends of the whole window.
-/

namespace MSV

/-- An integer cast between the two widths. -/
def IntCast (op : CastOp) (w1 w2 : Nat) : Prop :=
  match op with
  | .trunc => w2 < w1
  | .zext | .sext => w1 < w2
  | _ => False

instance (op : CastOp) (w1 w2 : Nat) : Decidable (IntCast op w1 w2) := by
  cases op <;> unfold IntCast <;> infer_instance

/-- The value of a cast. -/
def castBits (op : CastOp) {w1 : Nat} (x : BitVec w1) (w2 : Nat) : BitVec w2 :=
  match op with
  | .sext => x.signExtend w2
  | _ => x.setWidth w2

/-- A cast in terms of signed readings. -/
def castInt (op : CastOp) (w1 w2 : Nat) (z : Int) : Int :=
  match op with
  | .trunc => residue (2 ^ w2) (half w2) z
  | .zext => residue (2 ^ w1) 0 z
  | _ => z

/-! ## Signed readings -/

section

variable {op : CastOp} {w1 w2 : Nat}

theorem toInt_emod_of_le (x : BitVec w1) (h : w2 ≤ w1) :
    (x.toNat : Int) % 2 ^ w2 = x.toInt % 2 ^ w2 := by
  have hdvd : (2 ^ w2 : Int) ∣ 2 ^ w1 := pow_dvd_pow 2 h
  have hmod : x.toInt % ((2 ^ w1 : Nat) : Int) = x.toNat % ((2 ^ w1 : Nat) : Int) := by
    rw [BitVec.toInt_eq_toNat_bmod]
    exact Int.bmod_emod
  push_cast at hmod
  rw [← Int.emod_emod_of_dvd _ hdvd, ← hmod, Int.emod_emod_of_dvd _ hdvd]

theorem toInt_setWidth_of_le (x : BitVec w1) (h : w2 ≤ w1) :
    (x.setWidth w2).toInt = residue (2 ^ w2) (half w2) x.toInt := by
  obtain ⟨hlo, hhi⟩ := toInt_bounds (x.setWidth w2)
  refine eq_residue hlo hhi ?_
  rw [BitVec.toInt_setWidth, ← toInt_emod_of_le x h]
  exact_mod_cast Int.bmod_emod

theorem toInt_setWidth_of_lt (x : BitVec w1) (h : w1 < w2) :
    (x.setWidth w2).toInt = residue (2 ^ w1) 0 x.toInt := by
  have hlt : (x.toNat : Int) < 2 ^ w1 := by exact_mod_cast x.isLt
  have hnat : (x.setWidth w2).toNat = x.toNat := BitVec.toNat_setWidth_of_le h.le
  have hpow : 2 * 2 ^ w1 ≤ 2 ^ w2 := by
    rw [Nat.mul_comm, ← Nat.pow_succ]
    exact Nat.pow_le_pow_right (by decide) h
  have heq : (x.setWidth w2).toInt = x.toNat := by
    rw [BitVec.toInt_eq_toNat_of_lt (by have := x.isLt; omega), hnat]
  rw [heq]
  exact eq_residue (by omega) (by omega) (toInt_emod_of_le x le_rfl)

theorem toInt_castBits (hop : IntCast op w1 w2) (x : BitVec w1) :
    (castBits op x w2).toInt = castInt op w1 w2 x.toInt := by
  cases op with
  | trunc => exact toInt_setWidth_of_le x hop.le
  | zext => exact toInt_setWidth_of_lt x hop
  | sext => exact BitVec.toInt_signExtend_of_le hop.le
  | _ => cases hop

/-- An end is folded when the cast is one from its own width. -/
theorem foldCast_eq (hop : IntCast op w1 w2) (c : APInt) :
    foldCast op c (.int w2) =
      if IntCast op c.width w2 then some ⟨w2, castBits op c.bits w2⟩ else none := by
  cases op with
  | trunc => rfl
  | zext => rfl
  | sext => rfl
  | _ => cases hop

end

/-! ## The condition -/

/-- The least and the greatest number of `w` bits in the range. -/
def leastIn (w : Nat) (a : APInt) : Int := max a.toInt (-half w)

def greatestIn (w : Nat) (b : APInt) : Int := min b.toInt (2 ^ w - half w - 1)

/-- The condition on a range `[a, b]` that is folded: the image of its `w1`-bit values. -/
def CastEncloses (op : CastOp) (w1 w2 : Nat) (a b : APInt) : Prop :=
  leastIn w1 a ≤ greatestIn w1 b →
    match op with
    | .trunc => ResidueWithin (2 ^ w2) (half w2) (leastIn w1 a) (greatestIn w1 b)
        (castInt .trunc a.width w2 a.toInt) (castInt .trunc b.width w2 b.toInt)
    | .zext => ResidueWithin (2 ^ w1) 0 (leastIn w1 a) (greatestIn w1 b)
        (castInt .zext a.width w2 a.toInt) (castInt .zext b.width w2 b.toInt)
    | _ => True

/-- The result of a cast from `w1` to `w2` bits contains the cast of every value of the range. -/
def CastSound (op : CastOp) (w1 w2 : Nat) (v : Value) (s : RangeState) : Prop :=
  ∀ l r, (evaluateCast op v (.int w2) s).1 = .constant l r →
    ∀ x : BitVec w1, (getRangeFor v s).1.Contains x.toInt →
      l.toInt ≤ (castBits op x w2).toInt ∧ (castBits op x w2).toInt ≤ r.toInt

section

variable {op : CastOp} {w1 w2 : Nat}

/-- When the result of a cast is a constant range. -/
theorem evaluateCast_eq_constant (hop : IntCast op w1 w2) {v : Value} {s : RangeState}
    {l r : APInt} : (evaluateCast op v (.int w2) s).1 = .constant l r ↔
      ∃ a b, (getRangeFor v s).1 = .constant a b ∧ IntCast op a.width w2 ∧
        IntCast op b.width w2 ∧ l = ⟨w2, castBits op a.bits w2⟩ ∧
        r = ⟨w2, castBits op b.bits w2⟩ := by
  unfold evaluateCast
  dsimp only
  cases hv : (getRangeFor v s).1 with
  | constant a b =>
      simp only [foldCast_eq hop]
      by_cases ha : IntCast op a.width w2
      · by_cases hb : IntCast op b.width w2
        · simp [ha, hb, eq_comm]
        · simp [ha, hb, infRange]
      · simp [ha, infRange]
  | _ => simp

/-- The cast is monotone up to wrap points, so the image is settled by the ends. -/
theorem forall_castInt_iff (hop : IntCast op w1 w2) (a b : APInt) :
    (∀ x : BitVec w1, a.toInt ≤ x.toInt → x.toInt ≤ b.toInt →
      castInt op a.width w2 a.toInt ≤ castInt op w1 w2 x.toInt ∧
        castInt op w1 w2 x.toInt ≤ castInt op b.width w2 b.toInt) ↔ CastEncloses op w1 w2 a b := by
  rw [forall_toInt_iff (fun z => castInt op a.width w2 a.toInt ≤ castInt op w1 w2 z ∧
    castInt op w1 w2 z ≤ castInt op b.width w2 b.toInt)]
  show (∀ z, leastIn w1 a ≤ z → z ≤ greatestIn w1 b → _) ↔ _
  unfold CastEncloses
  by_cases hle : leastIn w1 a ≤ greatestIn w1 b
  · simp only [hle, true_imp_iff]
    cases op with
    | trunc => exact forall_residue_iff (two_pow_pos w2) hle
    | zext => exact forall_residue_iff (two_pow_pos w1) hle
    | sext =>
        refine ⟨fun _ => trivial, fun _ z hlo hhi => ?_⟩
        have h1 : a.toInt ≤ leastIn w1 a := le_max_left _ _
        have h2 : greatestIn w1 b ≤ b.toInt := min_le_left _ _
        exact ⟨h1.trans hlo, hhi.trans h2⟩
    | _ => cases hop
  · refine ⟨fun _ h => absurd h hle, fun _ z hlo hhi => absurd (hlo.trans hhi) hle⟩

/-- **When `evaluateCast` is sound.** -/
theorem evaluateCast_sound_iff (hop : IntCast op w1 w2) (v : Value) (s : RangeState) :
    CastSound op w1 w2 v s ↔ ∀ a b, (getRangeFor v s).1 = .constant a b →
      IntCast op a.width w2 → IntCast op b.width w2 → CastEncloses op w1 w2 a b := by
  constructor
  · intro hsound a b hrange ha hb
    rw [← forall_castInt_iff hop]
    intro x hax hxb
    have := hsound _ _ ((evaluateCast_eq_constant hop).mpr ⟨a, b, hrange, ha, hb, rfl, rfl⟩) x
      (by rw [hrange]; exact ⟨hax, hxb⟩)
    unfold APInt.toInt at this
    rwa [toInt_castBits hop, toInt_castBits ha, toInt_castBits hb] at this
  · intro hok l r hres x hx
    obtain ⟨a, b, hrange, ha, hb, rfl, rfl⟩ := (evaluateCast_eq_constant hop).mp hres
    rw [hrange] at hx
    have := (forall_castInt_iff hop a b).mpr (hok a b hrange ha hb) x hx.1 hx.2
    unfold APInt.toInt at this ⊢
    rwa [toInt_castBits hop, toInt_castBits ha, toInt_castBits hb]

end

/-! ## Truncating a short integer -/

/-- A 16-bit argument between `0` and `n`. -/
def shortState (n : Nat) : RangeState :=
  FMap.set ∅ (.arg 0 0) (.constant (APInt.ofNat 16 0) (APInt.ofNat 16 n))

theorem trunc_of_small :
    (evaluateCast .trunc (.arg 0 0) (.int 8) (shortState 100)).1 =
        .constant (APInt.ofNat 8 0) (APInt.ofNat 8 100) ∧
      CastSound .trunc 16 8 (.arg 0 0) (shortState 100) := by
  refine ⟨by decide, (evaluateCast_sound_iff (by decide) _ _).mpr fun a b hrange _ _ _ => ?_⟩
  obtain ⟨rfl, rfl⟩ := RangeValue.constant.inj hrange
  show ResidueWithin (2 ^ 8) (half 8) 0 100 0 100
  decide

/-- `[0, 256]` is folded to `[0, 0]`, and `1` is in the range. -/
theorem trunc_wraps : ¬ CastSound .trunc 16 8 (.arg 0 0) (shortState 256) := by
  intro hsound
  have hone := hsound (APInt.ofNat 8 0) (APInt.ofNat 8 0) (by decide) 1#16 (by decide)
  exact absurd hone.2 (by decide)

end MSV
