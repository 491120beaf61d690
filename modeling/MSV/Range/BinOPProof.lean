import MSV.Lib.Box
import MSV.Range.CastProof

/-!
# Binary operators on ranges

`evaluateBinOP` computes the ends of a range at 64 bits, whatever the width of the instruction. The
value of the instruction is computed at its own width, so a sum, difference or product that leaves
that width wraps around, out of the range. Of the two divisions, the signed one takes the absolute
value of `-2^63`, which wraps; the unsigned one has its ends the wrong way round. An `and` with a
mask is always right.

**Theorem (`evaluateBinOP_sound`).** `BinOPOK`, a condition on the ends of the operands' ranges, is
enough for the result to be sound. But for products that wrap around it is also necessary.
-/

namespace MSV

/-- The value of the instruction, where it is defined. -/
def binopBits (op : BinOp) {w : Nat} (x y : BitVec w) : Option (BitVec w) :=
  match op with
  | .add => some (x + y)
  | .sub => some (x - y)
  | .mul => some (x * y)
  | .sdiv => if y = 0 ∨ (x = BitVec.intMin w ∧ y = -1#w) then none else some (x.sdiv y)
  | .udiv => if y = 0 then none else some (x / y)
  | .and => some (x &&& y)
  | .other => none

/-- The result contains the value of the instruction, for all operands in their ranges. -/
def BinOPSound (w : Nat) (op : BinOp) (op1 op2 : Value) (s : RangeState) : Prop :=
  ∀ l r, (evaluateBinOP op op1 op2 s).1 = .constant l r →
    ∀ x y : BitVec w, (getRangeFor op1 s).1.Contains x.toInt →
      (getRangeFor op2 s).1.Contains y.toInt →
      ∀ z, binopBits op x y = some z → l.toInt ≤ z.toInt ∧ z.toInt ≤ r.toInt

/-! ## The condition -/

/-- The integer fits 64 bits. -/
def In64 (i : Int) : Prop := -2 ^ 63 ≤ i ∧ i < 2 ^ 63

/-- An end of a range, at 64 bits. -/
def end64 (a : APInt) : Int := (a.sextOrTrunc 64).toInt

/-- The integer is a number of `w` bits. -/
def InWidth (w : Nat) (i : Int) : Prop := -half w ≤ i ∧ i < 2 ^ w - half w

/-- An operation computes constant ends from the four ends at 64 bits: nothing overflows, and no end
of the divisor is `0`. -/
def GivesConstant (op : BinOp) (l1 r1 l2 r2 : APInt) : Prop :=
  match op with
  | .add => In64 (l1.toInt + l2.toInt) ∧ In64 (r1.toInt + r2.toInt)
  | .sub => In64 (l1.toInt - r2.toInt) ∧ In64 (r1.toInt - l2.toInt)
  | .mul => ∀ i ∈ [l1.toInt * l2.toInt, l1.toInt * r2.toInt, r1.toInt * l2.toInt,
      r1.toInt * r2.toInt], In64 i
  | .sdiv => l2.toInt < 0 ∧ 0 < r2.toInt ∨ (l2.toNat ≠ 0 ∧ r2.toNat ≠ 0) ∧
      ∀ i ∈ [l1.toInt.tdiv l2.toInt, l1.toInt.tdiv r2.toInt, r1.toInt.tdiv l2.toInt,
        r1.toInt.tdiv r2.toInt], In64 i
  | .udiv => l2.toNat ≠ 0 ∧ r2.toNat ≠ 0
  | _ => False

/-- Between two of the numbers. -/
def Between (is : List Int) (z : Int) : Prop := (∃ i ∈ is, i ≤ z) ∧ ∃ i ∈ is, z ≤ i

/-- The four values at the ends. -/
def atEnds (f : Int → Int → Int) (a1 b1 a2 b2 : APInt) : List Int :=
  [f (end64 a1) (end64 a2), f (end64 a1) (end64 b2), f (end64 b1) (end64 a2),
    f (end64 b1) (end64 b2)]

/-- The integer is between the ends that are worked out at 64 bits. -/
def WithinEnds (op : BinOp) (a1 b1 a2 b2 : APInt) (z : Int) : Prop :=
  match op with
  | .add => end64 a1 + end64 a2 ≤ z ∧ z ≤ end64 b1 + end64 b2
  | .sub => end64 a1 - end64 b2 ≤ z ∧ z ≤ end64 b1 - end64 a2
  | .mul => Between (atEnds (· * ·) a1 b1 a2 b2) z
  | .sdiv =>
      if end64 a2 < 0 ∧ 0 < end64 b2 then
        -- the absolute value of `-2^63` is `-2^63`
        (∃ e ∈ [end64 a1, end64 b1], e ≠ -2 ^ 63 ∧ |z| ≤ |e|) ∨
          end64 a1 = -2 ^ 63 ∧ end64 b1 = -2 ^ 63 ∧ z = -2 ^ 63
      else Between (atEnds Int.tdiv a1 b1 a2 b2) z
  | .udiv => ((b1.sextOrTrunc 64).udiv (a2.sextOrTrunc 64)).toInt ≤ z ∧
      z ≤ ((a1.sextOrTrunc 64).udiv (b2.sextOrTrunc 64)).toInt
  | _ => True

/-- The operands of `w` bits in their ranges. -/
def operandBox (w : Nat) (a1 b1 a2 b2 : APInt) : Box :=
  ⟨leastIn w a1, greatestIn w b1, leastIn w a2, greatestIn w b2⟩

/-- Where a signed quotient is defined, in boxes without a zero among the divisors. -/
def sdivBoxes (w : Nat) (B : Box) : List Box :=
  [⟨B.xl, B.xr, max 1 B.yl, B.yr⟩, ⟨B.xl, B.xr, B.yl, min (-2) B.yr⟩,
    -- the quotient of the least number by `-1` is not defined
    ⟨max (1 - half w) B.xl, B.xr, max (-1) B.yl, min (-1) B.yr⟩]

/-- The divisors other than zero, read unsigned. -/
def unsignedDivisors (w : Nat) (B : Box) : List (Int × Int) :=
  [(max 1 B.yl, B.yr), (2 ^ w + B.yl, 2 ^ w + min (-1) B.yr)]

/-- The operands read unsigned. A dividend divided by one is read signed again. -/
def udivBoxes (w : Nat) (B : Box) : List Box :=
  (unsignedDivisors w B).flatMap fun y =>
    [⟨max 0 B.xl, B.xr, y.1, y.2⟩, ⟨2 ^ w + B.xl, 2 ^ w + min (-1) B.xr, max 2 y.1, y.2⟩,
      ⟨B.xl, min (-1) B.xr, max 1 y.1, min 1 y.2⟩]

/-- No product of the operands leaves the width. -/
def ProductsFit (w : Nat) (a1 b1 a2 b2 : APInt) : Prop :=
  (operandBox w a1 b1 a2 b2).OnCorners fun x y => InWidth w (x * y)

/-- The condition on two ranges with values in them, where the result is a constant range. -/
def EndsOK (w : Nat) (op : BinOp) (a1 b1 a2 b2 : APInt) : Prop :=
  GivesConstant op (a1.sextOrTrunc 64) (b1.sextOrTrunc 64) (a2.sextOrTrunc 64)
      (b2.sextOrTrunc 64) →
    match op with
    | .add => ResidueWithin (2 ^ w) (half w) (leastIn w a1 + leastIn w a2)
        (greatestIn w b1 + greatestIn w b2) (end64 a1 + end64 a2) (end64 b1 + end64 b2)
    | .sub => ResidueWithin (2 ^ w) (half w) (leastIn w a1 - greatestIn w b2)
        (greatestIn w b1 - leastIn w a2) (end64 a1 - end64 b2) (end64 b1 - end64 a2)
    | .mul =>
        -- all numbers of `w` bits are in the range, or no product wraps around
        WithinEnds .mul a1 b1 a2 b2 (-half w) ∧ WithinEnds .mul a1 b1 a2 b2 (2 ^ w - half w - 1) ∨
          ProductsFit w a1 b1 a2 b2 ∧
            (operandBox w a1 b1 a2 b2).OnCorners fun x y => WithinEnds .mul a1 b1 a2 b2 (x * y)
    | .sdiv => ∀ B ∈ sdivBoxes w (operandBox w a1 b1 a2 b2),
        B.OnCorners fun x y => WithinEnds .sdiv a1 b1 a2 b2 (x.tdiv y)
    | .udiv => ∀ B ∈ udivBoxes w (operandBox w a1 b1 a2 b2),
        B.OnCorners fun x y => WithinEnds .udiv a1 b1 a2 b2 (x.tdiv y)
    | _ => True

/-- The condition: on operands with constant ranges. -/
def BinOPOK (w : Nat) (op : BinOp) (op1 op2 : Value) (s : RangeState) : Prop :=
  ∀ a1 b1 a2 b2, (getRangeFor op1 s).1 = .constant a1 b1 →
    (getRangeFor op2 s).1 = .constant a2 b2 → leastIn w a1 ≤ greatestIn w b1 →
    leastIn w a2 ≤ greatestIn w b2 → EndsOK w op a1 b1 a2 b2

/-! ## Reading the operands -/

theorem getRangeFor_after (op1 op2 : Value) (s : RangeState) :
    (getRangeFor op2 (getRangeFor op1 s).2).1 = (getRangeFor op2 s).1 := by
  cases op1 <;> cases op2 <;> first | rfl | exact FMap.get_touch _ _ _

/-- Without a mask, a constant result is one from constant ranges. -/
theorem evaluateBinOP_eq_constant {op : BinOp} (hop : op ≠ .and) {op1 op2 : Value}
    {s : RangeState} {l r : APInt} : (evaluateBinOP op op1 op2 s).1 = .constant l r ↔
      ∃ a1 b1 a2 b2, (getRangeFor op1 s).1 = .constant a1 b1 ∧
        (getRangeFor op2 s).1 = .constant a2 b2 ∧
        evaluateConstBinOP op (a1.sextOrTrunc 64) (b1.sextOrTrunc 64) (a2.sextOrTrunc 64)
          (b2.sextOrTrunc 64) = .constant l r := by
  unfold evaluateBinOP
  dsimp only
  rw [if_neg hop, getRangeFor_after]
  cases h1 : (getRangeFor op1 s).1 <;> cases h2 : (getRangeFor op2 s).1 <;>
    simp [RangeValue.isInfinity, infRange]

/-! ## Results at 64 bits -/

theorem toInt_ofInt_64 {i : Int} : (APInt.ofInt 64 i).toInt = i ↔ In64 i := by
  have hhalf : half 64 = 2 ^ 63 := by decide
  show (BitVec.ofInt 64 i).toInt = i ↔ In64 i
  constructor
  · intro h
    have := toInt_bounds (BitVec.ofInt 64 i)
    rw [h, hhalf] at this
    unfold In64
    omega
  · intro h
    unfold In64 at h
    exact toInt_ofInt_of_mem (by rw [hhalf]; omega) (by rw [hhalf]; omega)

theorem in64_end64 (a : APInt) : In64 (end64 a) := by
  have hhalf : half 64 = 2 ^ 63 := by decide
  have := toInt_bounds (a.bits.signExtend 64)
  rw [hhalf] at this
  show -2 ^ 63 ≤ (a.bits.signExtend 64).toInt ∧ (a.bits.signExtend 64).toInt < 2 ^ 63
  omega

theorem ov_snd {i : Int} : (APInt.ov 64 i).2 = false ↔ In64 i := by
  unfold APInt.ov
  simp [toInt_ofInt_64]

section

variable {l1 r1 l2 r2 l r : APInt}

theorem evaluateConstBinOP_add (a1 b1 a2 b2 : APInt) :
    evaluateConstBinOP .add (a1.sextOrTrunc 64) (b1.sextOrTrunc 64) (a2.sextOrTrunc 64)
        (b2.sextOrTrunc 64) = .constant l r ↔
      In64 (end64 a1 + end64 a2) ∧ In64 (end64 b1 + end64 b2) ∧
        l = APInt.ofInt 64 (end64 a1 + end64 a2) ∧ r = APInt.ofInt 64 (end64 b1 + end64 b2) := by
  show (if (APInt.ov 64 (end64 a1 + end64 a2)).2 || (APInt.ov 64 (end64 b1 + end64 b2)).2 then
    infRange else makeRange (APInt.ov 64 (end64 a1 + end64 a2)).1
      (APInt.ov 64 (end64 b1 + end64 b2)).1) = .constant l r ↔ _
  rw [← ov_snd, ← ov_snd]
  cases (APInt.ov 64 (end64 a1 + end64 a2)).2 <;> cases (APInt.ov 64 (end64 b1 + end64 b2)).2 <;>
    simp [makeRange, infRange, APInt.ov, eq_comm]

theorem evaluateConstBinOP_sub (a1 b1 a2 b2 : APInt) :
    evaluateConstBinOP .sub (a1.sextOrTrunc 64) (b1.sextOrTrunc 64) (a2.sextOrTrunc 64)
        (b2.sextOrTrunc 64) = .constant l r ↔
      In64 (end64 a1 - end64 b2) ∧ In64 (end64 b1 - end64 a2) ∧
        l = APInt.ofInt 64 (end64 a1 - end64 b2) ∧ r = APInt.ofInt 64 (end64 b1 - end64 a2) := by
  show (if (APInt.ov 64 (end64 a1 - end64 b2)).2 || (APInt.ov 64 (end64 b1 - end64 a2)).2 then
    infRange else makeRange (APInt.ov 64 (end64 a1 - end64 b2)).1
      (APInt.ov 64 (end64 b1 - end64 a2)).1) = .constant l r ↔ _
  rw [← ov_snd, ← ov_snd]
  cases (APInt.ov 64 (end64 a1 - end64 b2)).2 <;> cases (APInt.ov 64 (end64 b1 - end64 a2)).2 <;>
    simp [makeRange, infRange, APInt.ov, eq_comm]

/-- Folding with a choice that is at least as good as both candidates, in some order. -/
theorem foldl_pick {R : Int → Int → Prop} (hrefl : ∀ a, R a a)
    (htrans : ∀ a b c, R a b → R b c → R a c) {pick : APInt → APInt → Bool}
    (hpick : ∀ x m : APInt, R (if pick x m then x else m).toInt m.toInt ∧
      R (if pick x m then x else m).toInt x.toInt) (cs : List (APInt × Bool)) (m : APInt) :
    R (cs.foldl (fun m x => if pick x.1 m then x.1 else m) m).toInt m.toInt ∧
      ∀ c ∈ cs, R (cs.foldl (fun m x => if pick x.1 m then x.1 else m) m).toInt c.1.toInt := by
  induction cs generalizing m with
  | nil => exact ⟨hrefl _, fun c hc => by cases hc⟩
  | cons c cs ih =>
      obtain ⟨h1, h2⟩ := ih (if pick c.1 m then c.1 else m)
      obtain ⟨hm, hc⟩ := hpick c.1 m
      refine ⟨htrans _ _ _ h1 hm, fun d hd => ?_⟩
      obtain rfl | hd := List.mem_cons.mp hd
      · exact htrans _ _ _ h1 hc
      · exact h2 d hd

/-- A choice is one of the candidates. -/
theorem foldl_pick_mem {pick : APInt → APInt → Bool} (cs : List (APInt × Bool)) (m : APInt) :
    cs.foldl (fun m x => if pick x.1 m then x.1 else m) m ∈ m :: cs.map Prod.fst := by
  induction cs generalizing m with
  | nil => exact List.mem_cons_self
  | cons c cs ih =>
      rw [List.foldl_cons, List.map_cons]
      have := ih (if pick c.1 m then c.1 else m)
      split_ifs at this ⊢ <;> simp only [List.mem_cons] at this ⊢ <;> tauto

theorem slt_picks (x m : APInt) : (if x.slt m then x else m).toInt ≤ m.toInt ∧
    (if x.slt m then x else m).toInt ≤ x.toInt := by
  unfold APInt.slt
  split_ifs with h <;> simp only [decide_eq_true_iff] at h <;> omega

theorem sgt_picks (x m : APInt) : (if x.sgt m then x else m).toInt ≥ m.toInt ∧
    (if x.sgt m then x else m).toInt ≥ x.toInt := by
  unfold APInt.sgt
  split_ifs with h <;> simp only [decide_eq_true_iff] at h <;> omega

/-- The corners' range contains the exact values at the corners. -/
theorem corners_contain {is : List Int} (h : corners (is.map (APInt.ov 64)) = .constant l r) :
    ∀ i ∈ is, l.toInt ≤ i ∧ i ≤ r.toInt := by
  unfold corners at h
  cases is with
  | nil => cases h
  | cons i is =>
      rw [List.map_cons] at h
      dsimp only at h
      split at h
      · cases h
      · rename_i hov
        rw [← List.map_cons] at h hov
        obtain ⟨rfl, rfl⟩ := RangeValue.constant.inj h
        intro j hj
        have hmem : APInt.ov 64 j ∈ (i :: is).map (APInt.ov 64) := List.mem_map_of_mem hj
        have hexact : (APInt.ofInt 64 j).toInt = j := by
          rw [toInt_ofInt_64, ← ov_snd]
          simp only [List.any_eq_true, not_exists, not_and, Bool.not_eq_true] at hov
          exact hov _ hmem
        have hlo := (foldl_pick (R := (· ≤ ·)) Int.le_refl (fun _ _ _ => Int.le_trans)
          slt_picks ((i :: is).map (APInt.ov 64)) (APInt.ov 64 i).1).2 _ hmem
        have hhi := (foldl_pick (R := (· ≥ ·)) Int.le_refl (fun _ _ _ h1 h2 => Int.le_trans h2 h1)
          sgt_picks ((i :: is).map (APInt.ov 64)) (APInt.ov 64 i).1).2 _ hmem
        unfold APInt.ov at hlo hhi
        dsimp only at hlo hhi
        rw [hexact] at hlo hhi
        exact ⟨hlo, hhi⟩

/-- The ends of the corners' range are values at the corners. -/
theorem corners_attained {is : List Int} (h : corners (is.map (APInt.ov 64)) = .constant l r) :
    l.toInt ∈ is ∧ r.toInt ∈ is := by
  have hcontain := corners_contain h
  unfold corners at h
  cases is with
  | nil => cases h
  | cons i is =>
      rw [List.map_cons] at h
      dsimp only at h
      split at h
      · cases h
      · rename_i hov
        rw [← List.map_cons] at h hov
        obtain ⟨rfl, rfl⟩ := RangeValue.constant.inj h
        have hexact : ∀ j ∈ i :: is, (APInt.ofInt 64 j).toInt = j := by
          intro j hj
          rw [toInt_ofInt_64, ← ov_snd]
          simp only [List.any_eq_true, not_exists, not_and, Bool.not_eq_true] at hov
          exact hov _ (List.mem_map_of_mem hj)
        have hmem : ∀ a ∈ (APInt.ov 64 i).1 :: ((i :: is).map (APInt.ov 64)).map Prod.fst,
            a.toInt ∈ i :: is := by
          intro a ha
          have ha' : a ∈ ((i :: is).map (APInt.ov 64)).map Prod.fst := by
            obtain rfl | ha := List.mem_cons.mp ha
            · exact List.mem_cons_self
            · exact ha
          rw [List.map_map] at ha'
          obtain ⟨j, hj, rfl⟩ := List.mem_map.mp ha'
          exact (hexact j hj).symm ▸ hj
        exact ⟨hmem _ (foldl_pick_mem _ _), hmem _ (foldl_pick_mem _ _)⟩

theorem corners_iff {is : List Int} (h : corners (is.map (APInt.ov 64)) = .constant l r) (z : Int) :
    (l.toInt ≤ z ∧ z ≤ r.toInt) ↔ Between is z := by
  have hcontain := corners_contain h
  obtain ⟨hl, hr⟩ := corners_attained h
  constructor
  · exact fun hz => ⟨⟨_, hl, hz.1⟩, _, hr, hz.2⟩
  · rintro ⟨⟨i, hi, hiz⟩, j, hj, hzj⟩
    exact ⟨(hcontain i hi).1.trans hiz, hzj.trans (hcontain j hj).2⟩

theorem isConstant_corners (i : Int) (is : List Int) :
    (corners ((i :: is).map (APInt.ov 64))).isConstant = true ↔ ∀ x ∈ i :: is, In64 x := by
  have hany : ((i :: is).map (APInt.ov 64)).any Prod.snd = false ↔ ∀ x ∈ i :: is, In64 x := by
    simp only [List.any_eq_false, List.mem_map, forall_exists_index, and_imp,
      forall_apply_eq_imp_iff₂, Bool.not_eq_true, ov_snd]
  rw [← hany, List.map_cons]
  unfold corners
  dsimp only
  split_ifs with h
  · exact iff_of_false Bool.false_ne_true (by rw [h]; exact Bool.noConfusion)
  · exact iff_of_true rfl (Bool.eq_false_iff.mpr h)

theorem isConstant_constBinOP {op : BinOp} {l1 r1 l2 r2 : APInt} :
    (evaluateConstBinOP op (l1.sextOrTrunc 64) (r1.sextOrTrunc 64) (l2.sextOrTrunc 64)
      (r2.sextOrTrunc 64)).isConstant = true ↔
      GivesConstant op (l1.sextOrTrunc 64) (r1.sextOrTrunc 64) (l2.sextOrTrunc 64)
        (r2.sextOrTrunc 64) := by
  have hpair : ∀ i j : Int, (if (APInt.ov 64 i).2 || (APInt.ov 64 j).2 then infRange
      else makeRange (APInt.ov 64 i).1 (APInt.ov 64 j).1).isConstant = true ↔ In64 i ∧ In64 j := by
    intro i j
    rw [← ov_snd, ← ov_snd]
    cases (APInt.ov 64 i).2 <;> cases (APInt.ov 64 j).2 <;>
      simp [makeRange, infRange, RangeValue.isConstant]
  have hzero : ¬ ((l2.sextOrTrunc 64).toNat == 0 || (r2.sextOrTrunc 64).toNat == 0) = true ↔
      (l2.sextOrTrunc 64).toNat ≠ 0 ∧ (r2.sextOrTrunc 64).toNat ≠ 0 := by
    simp
  cases op with
  | add => exact hpair ..
  | sub => exact hpair ..
  | mul =>
      exact isConstant_corners (end64 l1 * end64 l2)
        [end64 l1 * end64 r2, end64 r1 * end64 l2, end64 r1 * end64 r2]
  | sdiv =>
      unfold evaluateConstBinOP GivesConstant
      dsimp only
      by_cases hneg : (l2.sextOrTrunc 64).toInt < 0 ∧ 0 < (r2.sextOrTrunc 64).toInt
      · rw [if_pos (by simpa [APInt.isNegative, APInt.isStrictlyPositive] using hneg)]
        exact iff_of_true rfl (Or.inl hneg)
      · rw [if_neg (by simpa [APInt.isNegative, APInt.isStrictlyPositive] using hneg),
          or_iff_right hneg, ← hzero]
        split_ifs with h
        · exact iff_of_false Bool.false_ne_true fun hno => hno.1 h
        · refine Iff.trans ?_ (and_iff_right h).symm
          exact isConstant_corners ((end64 l1).tdiv (end64 l2)) [(end64 l1).tdiv (end64 r2),
            (end64 r1).tdiv (end64 l2), (end64 r1).tdiv (end64 r2)]
  | udiv =>
      unfold evaluateConstBinOP GivesConstant
      dsimp only
      rw [← hzero]
      split_ifs with h
      · exact iff_of_false Bool.false_ne_true fun hno => hno h
      · exact iff_of_true rfl h
  | _ => exact iff_of_false Bool.false_ne_true not_false

/-- The numbers up to the greater of two absolute values, where that of `-2^63` is `-2^63`. -/
theorem abs_max_iff {x y A B m z : Int} (hx : In64 x) (hy : In64 y)
    (hA : A = if x = -2 ^ 63 then x else |x|) (hB : B = if y = -2 ^ 63 then y else |y|)
    (hm : m = if max A B = -2 ^ 63 then max A B else -max A B) :
    (m ≤ z ∧ z ≤ max A B) ↔ (∃ e ∈ [x, y], e ≠ -2 ^ 63 ∧ |z| ≤ |e|) ∨
      x = -2 ^ 63 ∧ y = -2 ^ 63 ∧ z = -2 ^ 63 := by
  unfold In64 at hx hy
  simp only [List.mem_cons, List.not_mem_nil, or_false, exists_eq_or_imp, exists_eq_left]
  have habs : ∀ i : Int, 0 ≤ |i| ∧ i ≤ |i| ∧ -i ≤ |i| ∧ (|i| ≤ i ∨ |i| ≤ -i) := by
    intro i
    rcases abs_cases i with h | h <;> omega
  have hxabs := habs x
  have hyabs := habs y
  have hzabs := habs z
  generalize |x| = x' at *
  generalize |y| = y' at *
  generalize |z| = z' at *
  split_ifs at hA hB <;> split_ifs at hm <;> omega

theorem toInt_abs_64 (c : APInt) :
    (c.sextOrTrunc 64).abs.toInt = if end64 c = -2 ^ 63 then end64 c else |end64 c| := by
  show (APInt.ofInt 64 |end64 c|).toInt = _
  split_ifs with hc
  · rw [hc]
    decide
  · have hin : In64 |end64 c| := by
      have := in64_end64 c
      unfold In64 at *
      rcases abs_cases (end64 c) with h | h <;> omega
    exact toInt_ofInt_64.mpr hin

/-- The range up to the greater of the two absolute values. -/
theorem abs_range_iff (a b : APInt) {n : APInt}
    (hn : n = if (a.sextOrTrunc 64).abs.sgt (b.sextOrTrunc 64).abs then (a.sextOrTrunc 64).abs
      else (b.sextOrTrunc 64).abs) (z : Int) :
    (n.negate.toInt ≤ z ∧ z ≤ n.toInt) ↔
      (∃ e ∈ [end64 a, end64 b], e ≠ -2 ^ 63 ∧ |z| ≤ |e|) ∨
        end64 a = -2 ^ 63 ∧ end64 b = -2 ^ 63 ∧ z = -2 ^ 63 := by
  have hmax : n.toInt = max (a.sextOrTrunc 64).abs.toInt (b.sextOrTrunc 64).abs.toInt := by
    rw [hn]
    unfold APInt.sgt
    split_ifs with h <;> simp only [decide_eq_true_iff] at h <;> omega
  have hwidth : n.width = 64 := by
    rw [hn]
    split_ifs <;> rfl
  have hbounds : In64 n.toInt := by
    have hhalf : half 64 = 2 ^ 63 := by decide
    have hn : -half n.width ≤ n.toInt ∧ n.toInt < 2 ^ n.width - half n.width := toInt_bounds n.bits
    rw [hwidth, hhalf] at hn
    unfold In64
    omega
  have hneg : n.negate.toInt = if n.toInt = -2 ^ 63 then n.toInt else -n.toInt := by
    show (APInt.ofInt n.width (-n.toInt)).toInt = _
    rw [hwidth]
    split_ifs with h
    · rw [h]
      decide
    · refine toInt_ofInt_64.mpr ?_
      unfold In64 at *
      omega
  rw [hmax] at hneg ⊢
  exact abs_max_iff (in64_end64 a) (in64_end64 b) (toInt_abs_64 a) (toInt_abs_64 b) hneg

/-- What a constant result contains. -/
theorem withinEnds_iff {op : BinOp} {a1 b1 a2 b2 : APInt}
    (h : evaluateConstBinOP op (a1.sextOrTrunc 64) (b1.sextOrTrunc 64) (a2.sextOrTrunc 64)
      (b2.sextOrTrunc 64) = .constant l r) (z : Int) :
    (l.toInt ≤ z ∧ z ≤ r.toInt) ↔ WithinEnds op a1 b1 a2 b2 z := by
  cases op with
  | add =>
      obtain ⟨hl, hr, rfl, rfl⟩ := (evaluateConstBinOP_add ..).mp h
      rw [toInt_ofInt_64.mpr hl, toInt_ofInt_64.mpr hr]
      rfl
  | sub =>
      obtain ⟨hl, hr, rfl, rfl⟩ := (evaluateConstBinOP_sub ..).mp h
      rw [toInt_ofInt_64.mpr hl, toInt_ofInt_64.mpr hr]
      rfl
  | mul =>
      have hcorners : corners ((atEnds (· * ·) a1 b1 a2 b2).map (APInt.ov 64)) = .constant l r := h
      exact corners_iff hcorners z
  | sdiv =>
      unfold evaluateConstBinOP at h
      dsimp only at h
      unfold WithinEnds
      by_cases hsigns : end64 a2 < 0 ∧ 0 < end64 b2
      · rw [if_pos (by simpa [APInt.isNegative, APInt.isStrictlyPositive, end64] using hsigns)] at h
        obtain ⟨rfl, rfl⟩ := RangeValue.constant.inj h
        exact (abs_range_iff a1 b1 rfl z).trans (by rw [if_pos hsigns])
      · rw [if_neg (by simpa [APInt.isNegative, APInt.isStrictlyPositive, end64] using hsigns)] at h
        split at h
        · cases h
        · have hcorners : corners ((atEnds Int.tdiv a1 b1 a2 b2).map (APInt.ov 64)) =
            .constant l r := h
          exact (corners_iff hcorners z).trans (by rw [if_neg hsigns])
  | udiv =>
      unfold evaluateConstBinOP at h
      dsimp only at h
      split at h
      · cases h
      · obtain ⟨rfl, rfl⟩ := RangeValue.constant.inj h
        rfl
  | _ => cases h

end

/-! ## Values at the instruction's width -/

section

variable {w : Nat}

theorem toInt_add_eq (x y : BitVec w) :
    (x + y).toInt = residue (2 ^ w) (half w) (x.toInt + y.toInt) := by
  rw [← toInt_ofInt_eq_residue, BitVec.ofInt_add, BitVec.ofInt_toInt, BitVec.ofInt_toInt]

theorem toInt_sub_eq (x y : BitVec w) :
    (x - y).toInt = residue (2 ^ w) (half w) (x.toInt - y.toInt) := by
  rw [← toInt_ofInt_eq_residue, Int.sub_eq_add_neg, BitVec.ofInt_add, BitVec.ofInt_neg,
    BitVec.ofInt_toInt, BitVec.ofInt_toInt, ← BitVec.sub_eq_add_neg]

theorem toInt_mul_eq (x y : BitVec w) :
    (x * y).toInt = residue (2 ^ w) (half w) (x.toInt * y.toInt) := by
  rw [← toInt_ofInt_eq_residue, BitVec.ofInt_mul, BitVec.ofInt_toInt, BitVec.ofInt_toInt]

/-- All operands in two ranges, as integers. -/
theorem forall_operands_iff (P : Int → Int → Prop) (a1 b1 a2 b2 : APInt) :
    (∀ x y : BitVec w, (RangeValue.constant a1 b1).Contains x.toInt →
      (RangeValue.constant a2 b2).Contains y.toInt → P x.toInt y.toInt) ↔
      ∀ u v, leastIn w a1 ≤ u → u ≤ greatestIn w b1 → leastIn w a2 ≤ v → v ≤ greatestIn w b2 →
        P u v := by
  constructor
  · intro hall u v hu hu' hv hv'
    refine (forall_toInt_iff (fun u => P u v) _ _).mp (fun x ha hb => ?_) u hu hu'
    refine (forall_toInt_iff (fun v => P x.toInt v) _ _).mp (fun y hc hd => ?_) v hv hv'
    exact hall x y ⟨ha, hb⟩ ⟨hc, hd⟩
  · intro hall x y hx hy
    refine (forall_toInt_iff (fun u => P u y.toInt) _ _).mpr (fun u hu hu' => ?_) x hx.1 hx.2
    refine (forall_toInt_iff (fun v => P u v) _ _).mpr (fun v hv hv' => ?_) y hy.1 hy.2
    exact hall u v hu hu' hv hv'

theorem forall_operandBox_iff (P : Int → Int → Prop) (a1 b1 a2 b2 : APInt) :
    (∀ x y : BitVec w, (RangeValue.constant a1 b1).Contains x.toInt →
      (RangeValue.constant a2 b2).Contains y.toInt → P x.toInt y.toInt) ↔
      ∀ u v, (operandBox w a1 b1 a2 b2).Mem u v → P u v := by
  rw [forall_operands_iff]
  exact ⟨fun h u v hm => h u v hm.1.1 hm.1.2 hm.2.1 hm.2.2,
    fun h u v hu hu' hv hv' => h u v ⟨⟨hu, hu'⟩, hv, hv'⟩⟩

end

section

variable {xl xr yl yr : Int} {P : Int → Prop}

/-- The sums of two intervals are an interval. -/
theorem forall_sum_iff (hx : xl ≤ xr) (hy : yl ≤ yr) :
    (∀ u v, xl ≤ u → u ≤ xr → yl ≤ v → v ≤ yr → P (u + v)) ↔
      ∀ z, xl + yl ≤ z → z ≤ xr + yr → P z := by
  constructor
  · intro hall z hlo hhi
    have := hall (min xr (z - yl)) (z - min xr (z - yl)) (by omega) (by omega) (by omega) (by omega)
    rwa [add_sub_cancel] at this
  · intro hall u v _ _ _ _
    exact hall (u + v) (by omega) (by omega)

theorem forall_difference_iff (hx : xl ≤ xr) (hy : yl ≤ yr) :
    (∀ u v, xl ≤ u → u ≤ xr → yl ≤ v → v ≤ yr → P (u - v)) ↔
      ∀ z, xl - yr ≤ z → z ≤ xr - yl → P z := by
  rw [sub_eq_add_neg, sub_eq_add_neg, ← forall_sum_iff hx (by omega : -yr ≤ -yl)]
  constructor
  · intro hall u v hu hu' hv hv'
    have := hall u (-v) hu hu' (by omega) (by omega)
    rwa [sub_neg_eq_add] at this
  · intro hall u v hu hu' hv hv'
    exact hall u (-v) hu hu' (by omega) (by omega)

end

/-! ## One operator at a time -/

/-- Soundness for operands with constant ranges. -/
def ConstSound (w : Nat) (op : BinOp) (a1 b1 a2 b2 : APInt) : Prop :=
  ∀ l r, evaluateConstBinOP op (a1.sextOrTrunc 64) (b1.sextOrTrunc 64) (a2.sextOrTrunc 64)
      (b2.sextOrTrunc 64) = .constant l r →
    ∀ x y : BitVec w, (RangeValue.constant a1 b1).Contains x.toInt →
      (RangeValue.constant a2 b2).Contains y.toInt →
      ∀ z, binopBits op x y = some z → l.toInt ≤ z.toInt ∧ z.toInt ≤ r.toInt

section

variable {w : Nat} {a1 b1 a2 b2 : APInt}

theorem mem_of_contains {a b : APInt} {x : BitVec w}
    (hx : (RangeValue.constant a b).Contains x.toInt) :
    leastIn w a ≤ x.toInt ∧ x.toInt ≤ greatestIn w b := by
  have hbounds := toInt_bounds x
  obtain ⟨hlo, hhi⟩ := hx
  exact ⟨max_le hlo hbounds.1, le_min hhi (by omega)⟩

/-- The values of the instruction are between the ends, if there are any. -/
theorem constSound_iff {op : BinOp} : ConstSound w op a1 b1 a2 b2 ↔
    (GivesConstant op (a1.sextOrTrunc 64) (b1.sextOrTrunc 64) (a2.sextOrTrunc 64)
        (b2.sextOrTrunc 64) →
      ∀ x y : BitVec w, (RangeValue.constant a1 b1).Contains x.toInt →
        (RangeValue.constant a2 b2).Contains y.toInt →
        ∀ z, binopBits op x y = some z → WithinEnds op a1 b1 a2 b2 z.toInt) := by
  rw [← isConstant_constBinOP]
  constructor
  · intro hsound hconst x y hx hy z hz
    cases hres : evaluateConstBinOP op (a1.sextOrTrunc 64) (b1.sextOrTrunc 64) (a2.sextOrTrunc 64)
      (b2.sextOrTrunc 64) with
    | constant l r => exact (withinEnds_iff hres _).mp (hsound l r hres x y hx hy z hz)
    | _ => rw [hres] at hconst; cases hconst
  · intro hok l r hres x y hx hy z hz
    exact (withinEnds_iff hres _).mpr (hok (by rw [hres]; rfl) x y hx hy z hz)

/-- What is between the ends has no gaps. -/
theorem ordConnected_withinEnds {op : BinOp} (h : GivesConstant op (a1.sextOrTrunc 64)
    (b1.sextOrTrunc 64) (a2.sextOrTrunc 64) (b2.sextOrTrunc 64)) :
    {z | WithinEnds op a1 b1 a2 b2 z}.OrdConnected := by
  rw [← isConstant_constBinOP] at h
  cases hres : evaluateConstBinOP op (a1.sextOrTrunc 64) (b1.sextOrTrunc 64) (a2.sextOrTrunc 64)
    (b2.sextOrTrunc 64) with
  | constant l r =>
      have hset : {z | WithinEnds op a1 b1 a2 b2 z} = Set.Icc l.toInt r.toInt :=
        Set.ext fun z => (withinEnds_iff hres z).symm
      rw [hset]
      exact Set.ordConnected_Icc
  | _ => rw [hres] at h; cases h

theorem constSound_add_iff (hx : leastIn w a1 ≤ greatestIn w b1)
    (hy : leastIn w a2 ≤ greatestIn w b2) :
    ConstSound w .add a1 b1 a2 b2 ↔ EndsOK w .add a1 b1 a2 b2 := by
  have hvalues : ∀ L R, (∀ x y : BitVec w, (RangeValue.constant a1 b1).Contains x.toInt →
      (RangeValue.constant a2 b2).Contains y.toInt →
      ∀ z, binopBits .add x y = some z → L ≤ z.toInt ∧ z.toInt ≤ R) ↔
      ResidueWithin (2 ^ w) (half w) (leastIn w a1 + leastIn w a2)
        (greatestIn w b1 + greatestIn w b2) L R := by
    intro L R
    simp only [binopBits, Option.some.injEq, forall_eq', toInt_add_eq]
    rw [forall_operands_iff fun u v => L ≤ residue (2 ^ w) (half w) (u + v) ∧
      residue (2 ^ w) (half w) (u + v) ≤ R]
    rw [forall_sum_iff (P := fun z => L ≤ residue (2 ^ w) (half w) z ∧
      residue (2 ^ w) (half w) z ≤ R) hx hy]
    exact forall_residue_iff (two_pow_pos w) (by omega)
  rw [constSound_iff]
  exact imp_congr_right fun _ => hvalues _ _

theorem constSound_sub_iff (hx : leastIn w a1 ≤ greatestIn w b1)
    (hy : leastIn w a2 ≤ greatestIn w b2) :
    ConstSound w .sub a1 b1 a2 b2 ↔ EndsOK w .sub a1 b1 a2 b2 := by
  have hvalues : ∀ L R, (∀ x y : BitVec w, (RangeValue.constant a1 b1).Contains x.toInt →
      (RangeValue.constant a2 b2).Contains y.toInt →
      ∀ z, binopBits .sub x y = some z → L ≤ z.toInt ∧ z.toInt ≤ R) ↔
      ResidueWithin (2 ^ w) (half w) (leastIn w a1 - greatestIn w b2)
        (greatestIn w b1 - leastIn w a2) L R := by
    intro L R
    simp only [binopBits, Option.some.injEq, forall_eq', toInt_sub_eq]
    rw [forall_operands_iff fun u v => L ≤ residue (2 ^ w) (half w) (u - v) ∧
      residue (2 ^ w) (half w) (u - v) ≤ R]
    rw [forall_difference_iff (P := fun z => L ≤ residue (2 ^ w) (half w) z ∧
      residue (2 ^ w) (half w) z ≤ R) hx hy]
    exact forall_residue_iff (two_pow_pos w) (by omega)
  rw [constSound_iff]
  exact imp_congr_right fun _ => hvalues _ _

/-! ### Products -/

theorem ordConnected_inWidth (w : Nat) : {i | InWidth w i}.OrdConnected := Set.ordConnected_Ico

/-- Products that do not leave the width are exact. -/
theorem forall_product_iff (hfit : ProductsFit w a1 b1 a2 b2) (P : Int → Prop) :
    (∀ x y : BitVec w, (RangeValue.constant a1 b1).Contains x.toInt →
      (RangeValue.constant a2 b2).Contains y.toInt →
      ∀ z, binopBits .mul x y = some z → P z.toInt) ↔
      ∀ u v, (operandBox w a1 b1 a2 b2).Mem u v → P (u * v) := by
  have hfit' := (Box.forall_mul_iff (ordConnected_inWidth w)).mpr hfit
  simp only [binopBits, Option.some.injEq, forall_eq', toInt_mul_eq]
  rw [forall_operandBox_iff fun u v => P (residue (2 ^ w) (half w) (u * v))]
  refine forall₃_congr fun u v hm => ?_
  rw [residue_of_mem (hfit' u v hm).1 (hfit' u v hm).2]

theorem constSound_mul (hok : EndsOK w .mul a1 b1 a2 b2) : ConstSound w .mul a1 b1 a2 b2 := by
  rw [constSound_iff]
  intro hconst
  have hconn := ordConnected_withinEnds hconst
  obtain ⟨hlo, hhi⟩ | ⟨hfit, hcorners⟩ := hok hconst
  · intro x y _ _ z _
    have hz := toInt_bounds z
    exact hconn.out hlo hhi ⟨hz.1, by omega⟩
  · exact (forall_product_iff hfit _).mpr ((Box.forall_mul_iff hconn).mpr hcorners)

/-- Where no product wraps around, the condition is necessary. -/
theorem endsOK_mul (hfit : ProductsFit w a1 b1 a2 b2) (h : ConstSound w .mul a1 b1 a2 b2) :
    EndsOK w .mul a1 b1 a2 b2 := fun hconst =>
  .inr ⟨hfit, (Box.forall_mul_iff (ordConnected_withinEnds hconst)).mp
    ((forall_product_iff hfit _).mp (constSound_iff.mp h hconst))⟩

/-! ### Signed quotients -/

theorem toInt_eq_neg_half_iff (hw : 0 < w) (x : BitVec w) :
    x = BitVec.intMin w ↔ x.toInt = -half w := by
  obtain ⟨n, rfl⟩ := Nat.exists_eq_succ_of_ne_zero hw.ne'
  rw [← BitVec.toInt_inj, BitVec.toInt_intMin_of_pos hw, half_succ]
  rfl

theorem toInt_eq_neg_one_iff (hw : 0 < w) (y : BitVec w) : y = -1#w ↔ y.toInt = -1 := by
  rw [← BitVec.toInt_inj, BitVec.neg_one_eq_allOnes, BitVec.toInt_allOnes, if_pos hw]

theorem forall_sdiv_iff (x y : BitVec w) (P : Int → Prop) :
    (∀ z, binopBits .sdiv x y = some z → P z.toInt) ↔
      (y.toInt ≠ 0 → ¬ (x.toInt = -half w ∧ y.toInt = -1) → P (x.toInt.tdiv y.toInt)) := by
  have hzero : y = 0 ↔ y.toInt = 0 := by rw [← BitVec.toInt_inj]; simp
  have hcases : binopBits .sdiv x y =
      if y.toInt = 0 ∨ (x.toInt = -half w ∧ y.toInt = -1) then none else some (x.sdiv y) := by
    show (if y = 0 ∨ (x = BitVec.intMin w ∧ y = -1#w) then none else some (x.sdiv y)) = _
    rcases Nat.eq_zero_or_pos w with rfl | hw
    · rw [if_pos (.inl (BitVec.eq_nil y)), if_pos (.inl (by rw [BitVec.eq_nil y]; rfl))]
    · simp only [hzero, toInt_eq_neg_half_iff hw, toInt_eq_neg_one_iff hw]
  rw [hcases]
  split_ifs with hundef
  · simp only [false_imp_iff, implies_true, true_iff]
    tauto
  · push Not at hundef
    have hvalue : (x.sdiv y).toInt = x.toInt.tdiv y.toInt := by
      rcases Nat.eq_zero_or_pos w with rfl | hw
      · exact absurd (by rw [BitVec.eq_nil y]; rfl) hundef.1
      · refine BitVec.toInt_sdiv_of_ne_or_ne x y ?_
        rw [ne_eq, ne_eq, toInt_eq_neg_half_iff hw, toInt_eq_neg_one_iff hw]
        tauto
    simp only [Option.some.injEq, forall_eq', hvalue]
    exact ⟨fun h _ _ => h, fun h => h hundef.1 fun hmin => hundef.2 hmin.1 hmin.2⟩

/-- The defined quotients of two ranges are those of the boxes. -/
theorem forall_sdivBoxes_iff {B : Box} (hleast : -half w ≤ B.xl) (P : Int → Prop) :
    (∀ u v, B.Mem u v → v ≠ 0 → ¬ (u = -half w ∧ v = -1) → P (u.tdiv v)) ↔
      ∀ C ∈ sdivBoxes w B, ∀ u v, C.Mem u v → P (u.tdiv v) := by
  simp only [sdivBoxes, List.forall_mem_cons, List.not_mem_nil, false_imp_iff, implies_true,
    and_true, Box.Mem]
  constructor
  · intro h
    exact ⟨fun u v hm => h u v (by omega) (by omega) (by omega),
      fun u v hm => h u v (by omega) (by omega) (by omega),
      fun u v hm => h u v (by omega) (by omega) (by omega)⟩
  · rintro ⟨hpos, hneg, hone⟩ u v hm hv hmin
    rcases lt_trichotomy v (-1) with hlt | heq | hgt
    · exact hneg u v (by omega)
    · exact hone u v (by omega)
    · exact hpos u v (by omega)

theorem constSound_sdiv_iff : ConstSound w .sdiv a1 b1 a2 b2 ↔ EndsOK w .sdiv a1 b1 a2 b2 := by
  rw [constSound_iff]
  refine imp_congr_right fun hconst => ?_
  have hconn := ordConnected_withinEnds hconst
  simp only [forall_sdiv_iff]
  rw [forall_operandBox_iff fun u v => v ≠ 0 → ¬ (u = -half w ∧ v = -1) →
      WithinEnds .sdiv a1 b1 a2 b2 (u.tdiv v),
    forall_sdivBoxes_iff (w := w) (le_max_right _ _)]
  refine forall₂_congr fun B hB => Box.forall_tdiv_iff hconn ?_
  simp only [sdivBoxes, List.mem_cons, List.not_mem_nil, or_false] at hB
  obtain rfl | rfl | rfl := hB
  · exact .inl (by show 0 < max 1 _; omega)
  · exact .inr (by show min (-2) _ < 0; omega)
  · exact .inr (by show min (-1) _ < 0; omega)

/-! ### Unsigned quotients -/

theorem forall_udiv_iff (x y : BitVec w) (P : Int → Prop) :
    (∀ z, binopBits .udiv x y = some z → P z.toInt) ↔
      (y.toInt ≠ 0 →
        P (residue (2 ^ w) (half w) (x.toInt % 2 ^ w / (y.toInt % 2 ^ w)))) := by
  have hzero : y = 0 ↔ y.toInt = 0 := by rw [← BitVec.toInt_inj]; simp
  have hunsigned : ∀ a : BitVec w, a.toInt % 2 ^ w = a.toNat := by
    intro a
    have hlt : (a.toNat : Int) < 2 ^ w := by exact_mod_cast a.isLt
    rw [← toInt_emod_of_le a le_rfl, Int.emod_eq_of_lt (by omega) hlt]
  have hvalue : (x / y).toInt =
      residue (2 ^ w) (half w) (x.toInt % 2 ^ w / (y.toInt % 2 ^ w)) := by
    rw [← toInt_ofInt_eq_residue, hunsigned, hunsigned, ← Int.natCast_ediv, BitVec.ofInt_natCast,
      BitVec.udiv_def]
  show (∀ z, (if y = 0 then none else some (x / y)) = some z → P z.toInt) ↔ _
  split_ifs with hy
  · simp only [false_imp_iff, implies_true, true_iff]
    exact fun h => absurd (hzero.mp hy) h
  · simp only [Option.some.injEq, forall_eq', hvalue]
    exact ⟨fun h _ => h, fun h => h (mt hzero.mpr hy)⟩

/-- The numbers of an interval other than zero, read unsigned. -/
theorem forall_unsignedDivisors_iff {B : Box} (hlo : -half w ≤ B.yl)
    (hhi : B.yr < 2 ^ w - half w) (P : Int → Prop) :
    (∀ v, B.yl ≤ v → v ≤ B.yr → v ≠ 0 → P (v % 2 ^ w)) ↔
      ∀ y ∈ unsignedDivisors w B, ∀ v, y.1 ≤ v → v ≤ y.2 → P v := by
  have hhalf : half w + half w ≤ 2 ^ w := by unfold half; omega
  have hnonneg : 0 ≤ half w := by have := two_pow_pos w; unfold half; omega
  simp only [unsignedDivisors, List.forall_mem_cons, List.not_mem_nil, false_imp_iff, implies_true,
    and_true]
  constructor
  · intro h
    constructor
    · intro v hv hv'
      have := h v (by omega) hv' (by omega)
      rwa [Int.emod_eq_of_lt (by omega) (by omega)] at this
    · intro v hv hv'
      have := h (v - 2 ^ w) (by omega) (by omega) (by omega)
      rwa [Int.sub_emod_right, Int.emod_eq_of_lt (by omega) (by omega)] at this
  · rintro ⟨hpos, hneg⟩ v hv hv' hne
    rcases lt_or_gt_of_ne hne with hlt | hgt
    · have := hneg (v + 2 ^ w) (by omega) (by omega)
      rwa [← Int.add_emod_right, Int.emod_eq_of_lt (by omega) (by omega)]
    · have := hpos v (by omega) hv'
      rwa [Int.emod_eq_of_lt (by omega) (by omega)]

/-- The quotients of an interval by one number, with all numbers read unsigned. -/
theorem forall_dividend_iff {B : Box} (hlo : -half w ≤ B.xl) (hhi : B.xr < 2 ^ w - half w)
    {v : Int} (hv : 0 < v) (P : Int → Prop) :
    (∀ u, B.xl ≤ u → u ≤ B.xr → P (residue (2 ^ w) (half w) (u % 2 ^ w / v))) ↔
      (∀ u, max 0 B.xl ≤ u → u ≤ B.xr → P (u.tdiv v)) ∧
        (2 ≤ v → ∀ u, 2 ^ w + B.xl ≤ u → u ≤ 2 ^ w + min (-1) B.xr → P (u.tdiv v)) ∧
        (v = 1 → ∀ u, B.xl ≤ u → u ≤ min (-1) B.xr → P (u.tdiv v)) := by
  have hhalf : half w + half w ≤ 2 ^ w ∧ 2 ^ w ≤ half w + half w + 1 := by unfold half; omega
  have hnonneg : 0 ≤ half w := by have := two_pow_pos w; unfold half; omega
  have hplain : ∀ u, 0 ≤ u → u < 2 ^ w - half w →
      residue (2 ^ w) (half w) (u % 2 ^ w / v) = u.tdiv v := by
    intro u hu hu'
    have hle := Int.ediv_le_self v hu
    have hge := Int.ediv_nonneg hu hv.le
    rw [Int.emod_eq_of_lt hu (by omega), Int.tdiv_eq_ediv_of_nonneg hu,
      residue_of_mem (by omega) (by omega)]
  have hmod : ∀ u, u < 0 → -half w ≤ u → u % 2 ^ w = 2 ^ w + u := by
    intro u hu hu'
    rw [← Int.add_emod_right, Int.emod_eq_of_lt (by omega) (by omega), add_comm]
  have hmany : 2 ≤ v → ∀ u, u < 0 → -half w ≤ u →
      residue (2 ^ w) (half w) (u % 2 ^ w / v) = (2 ^ w + u).tdiv v := by
    intro h2 u hu hu'
    have hge : 0 ≤ (2 ^ w + u) / v := Int.ediv_nonneg (by omega) hv.le
    have hle : (2 ^ w + u) / v ≤ (2 ^ w + u) / 2 := ediv_anti (by omega) (by decide) h2
    rw [hmod u hu hu', Int.tdiv_eq_ediv_of_nonneg (by omega),
      residue_of_mem (by omega) (by omega)]
  have hone : ∀ u, u < 0 → -half w ≤ u → residue (2 ^ w) (half w) (u % 2 ^ w / 1) = u.tdiv 1 := by
    intro u hu hu'
    have hres : residue (2 ^ w) (half w) (u % 2 ^ w) = residue (2 ^ w) (half w) u := by
      unfold residue
      rw [Int.emod_add_emod]
    rw [Int.ediv_one, Int.tdiv_one, hres, residue_of_mem hu' (by omega)]
  constructor
  · intro h
    refine ⟨fun u hu hu' => ?_, fun h2 u hu hu' => ?_, fun h1 u hu hu' => ?_⟩
    · rw [← hplain u (by omega) (by omega)]
      exact h u (by omega) hu'
    · have := h (u - 2 ^ w) (by omega) (by omega)
      rwa [hmany h2 _ (by omega) (by omega), add_sub_cancel] at this
    · subst h1
      rw [← hone u (by omega) (by omega)]
      exact h u hu (by omega)
  · rintro ⟨hpos, hneg, hneg1⟩ u hu hu'
    rcases Int.lt_or_le u 0 with hlt | hge
    · by_cases h1 : v = 1
      · have := hneg1 h1 u hu (by omega)
        subst h1
        rwa [hone u hlt (by omega)]
      · rw [hmany (by omega) u hlt (by omega)]
        exact hneg (by omega) _ (by omega) (by omega)
    · rw [hplain u hge (by omega)]
      exact hpos u (by omega) hu'

theorem pos_of_mem_unsignedDivisors {B : Box} (hlo : -half w ≤ B.yl) {y : Int × Int}
    (hy : y ∈ unsignedDivisors w B) {v : Int} (hv : y.1 ≤ v) (hv' : v ≤ y.2) : 0 < v := by
  have hhalf : half w + half w ≤ 2 ^ w := by unfold half; omega
  have hpos := two_pow_pos w
  simp only [unsignedDivisors, List.mem_cons, List.not_mem_nil, or_false] at hy
  obtain rfl | rfl := hy <;> dsimp only at hv hv' <;> omega

/-- The quotients of two ranges, with all numbers read unsigned, are those of the boxes. -/
theorem forall_udivBoxes_iff {B : Box} (hx : -half w ≤ B.xl ∧ B.xr < 2 ^ w - half w)
    (hy : -half w ≤ B.yl ∧ B.yr < 2 ^ w - half w) (P : Int → Prop) :
    (∀ u v, B.Mem u v → v ≠ 0 → P (residue (2 ^ w) (half w) (u % 2 ^ w / (v % 2 ^ w)))) ↔
      ∀ C ∈ udivBoxes w B, ∀ u v, C.Mem u v → P (u.tdiv v) := by
  have hswap : (∀ u v, B.Mem u v → v ≠ 0 →
      P (residue (2 ^ w) (half w) (u % 2 ^ w / (v % 2 ^ w)))) ↔
      ∀ v, B.yl ≤ v → v ≤ B.yr → v ≠ 0 → ∀ u, B.xl ≤ u → u ≤ B.xr →
        P (residue (2 ^ w) (half w) (u % 2 ^ w / (v % 2 ^ w))) :=
    ⟨fun h v hv hv' hne u hu hu' => h u v ⟨⟨hu, hu'⟩, hv, hv'⟩ hne,
      fun h u v hm hne => h v hm.2.1 hm.2.2 hne u hm.1.1 hm.1.2⟩
  rw [hswap, forall_unsignedDivisors_iff hy.1 hy.2 fun v => ∀ u, B.xl ≤ u → u ≤ B.xr →
    P (residue (2 ^ w) (half w) (u % 2 ^ w / v))]
  constructor
  · intro h C hC u v hm
    obtain ⟨y, hy', hC⟩ := List.mem_flatMap.mp hC
    have hquot : ∀ v, y.1 ≤ v → v ≤ y.2 → _ := fun v hv hv' =>
      (forall_dividend_iff hx.1 hx.2 (pos_of_mem_unsignedDivisors hy.1 hy' hv hv') P).mp
        (h y hy' v hv hv')
    simp only [List.mem_cons, List.not_mem_nil, or_false] at hC
    obtain rfl | rfl | rfl := hC <;> unfold Box.Mem at hm <;> dsimp only at hm
    · exact (hquot v hm.2.1 hm.2.2).1 u hm.1.1 hm.1.2
    · exact (hquot v (by omega) hm.2.2).2.1 (by omega) u hm.1.1 hm.1.2
    · exact (hquot v (by omega) (by omega)).2.2 (by omega) u hm.1.1 hm.1.2
  · intro h y hy' v hv hv'
    have hpos := pos_of_mem_unsignedDivisors hy.1 hy' hv hv'
    rw [forall_dividend_iff hx.1 hx.2 hpos]
    exact ⟨fun u hu hu' => h _ (List.mem_flatMap.mpr ⟨y, hy', .head _⟩) u v ⟨⟨hu, hu'⟩, hv, hv'⟩,
      fun h2 u hu hu' => h _ (List.mem_flatMap.mpr ⟨y, hy', .tail _ (.head _)⟩) u v
        ⟨⟨hu, hu'⟩, max_le h2 hv, hv'⟩,
      fun h1 u hu hu' => h _ (List.mem_flatMap.mpr ⟨y, hy', .tail _ (.tail _ (.head _))⟩) u v
        ⟨⟨hu, hu'⟩, max_le h1.ge hv, le_min h1.le hv'⟩⟩

theorem constSound_udiv_iff : ConstSound w .udiv a1 b1 a2 b2 ↔ EndsOK w .udiv a1 b1 a2 b2 := by
  rw [constSound_iff]
  refine imp_congr_right fun hconst => ?_
  have hconn := ordConnected_withinEnds hconst
  have hlo : ∀ a : APInt, -half w ≤ leastIn w a := fun a => le_max_right _ _
  have hhi : ∀ b : APInt, greatestIn w b < 2 ^ w - half w := by
    intro b
    unfold greatestIn
    omega
  simp only [forall_udiv_iff]
  rw [forall_operandBox_iff fun u v => v ≠ 0 →
      WithinEnds .udiv a1 b1 a2 b2 (residue (2 ^ w) (half w) (u % 2 ^ w / (v % 2 ^ w))),
    forall_udivBoxes_iff ⟨hlo a1, hhi b1⟩ ⟨hlo a2, hhi b2⟩]
  refine forall₂_congr fun C hC => ?_
  by_cases hne : C.Nonempty
  · refine Box.forall_tdiv_iff hconn (.inl ?_)
    obtain ⟨y, hy, hC⟩ := List.mem_flatMap.mp hC
    simp only [List.mem_cons, List.not_mem_nil, or_false] at hC
    obtain rfl | rfl | rfl := hC
    · exact pos_of_mem_unsignedDivisors (hlo a2) hy le_rfl hne.2
    · exact lt_max_of_lt_left (by decide)
    · exact lt_max_of_lt_left (by decide)
  · exact iff_of_true (fun u v hm => absurd hm.nonempty hne) fun h => absurd h hne

end

/-! ## Masks -/

/-- A mask is not negative. -/
theorem nonneg_of_succIsPowerOf2 {c : APInt} (h : c.succIsPowerOf2 = true) : 0 ≤ c.toInt := by
  by_contra hneg
  obtain hc | ⟨hc, -⟩ := c.toInt_cases
  · omega
  have hlt := c.bits.isLt
  have hlow : -2 ^ c.width ≤ 2 * c.toInt := BitVec.le_two_mul_toInt
  have hval : (c.addConst 1).toNat = (c.toNat + 1) % 2 ^ c.width := by
    have hone : BitVec.ofInt c.width 1 = BitVec.ofNat c.width 1 := BitVec.ofInt_natCast c.width 1
    show (c.bits + BitVec.ofInt c.width 1).toNat = _
    rw [hone, BitVec.toNat_add, BitVec.toNat_ofNat, Nat.add_mod_mod]
    rfl
  unfold APInt.succIsPowerOf2 at h
  simp only [Bool.and_eq_true, decide_eq_true_iff, hval] at h
  obtain ⟨hne, hpow⟩ := h
  -- the successor does not wrap, and is strictly between two powers of two
  have hsmall : c.toNat + 1 < 2 ^ c.width := by
    by_contra hge
    have heq : c.toNat + 1 = 2 ^ c.width := by
      unfold APInt.toNat at *
      omega
    rw [heq, Nat.mod_self] at hne
    exact hne rfl
  rw [Nat.mod_eq_of_lt hsmall] at hpow
  have hbig : 2 ^ c.width < 2 * (c.toNat + 1) := by
    have : ((2 ^ c.width : Nat) : Int) < 2 * (c.toNat + 1) := by
      push_cast at *
      omega
    exact_mod_cast this
  rw [← hpow] at hsmall hbig
  have h1 : (c.toNat + 1).log2 < c.width := (Nat.pow_lt_pow_iff_right (by decide)).mp hsmall
  rw [← Nat.pow_succ'] at hbig
  have h2 : c.width < (c.toNat + 1).log2 + 1 := (Nat.pow_lt_pow_iff_right (by decide)).mp hbig
  omega

/-- Both readings of an `and` with a number that is not negative. -/
theorem toInt_and_mem {w : Nat} {x y : BitVec w} (hx : 0 ≤ x.toInt) :
    0 ≤ (x &&& y).toInt ∧ (x &&& y).toInt ≤ x.toInt := by
  have hxn : x.toInt = x.toNat := (APInt.mk w x).toInt_of_nonneg hx
  have hlt : 2 * x.toNat < 2 ^ w := by
    have := BitVec.two_mul_toInt_lt (x := x)
    rw [hxn] at this
    exact_mod_cast this
  have hle : (x &&& y).toNat ≤ x.toNat := by
    rw [BitVec.toNat_and]
    exact Nat.and_le_left
  rw [BitVec.toInt_eq_toNat_of_lt (by omega), hxn]
  omega

/-- An `and` with a mask is sound. -/
theorem binOPSound_and (w : Nat) (op1 op2 : Value) (s : RangeState) :
    BinOPSound w .and op1 op2 s := by
  intro l r hres x y hx hy z hz
  obtain rfl := Option.some.inj hz
  have hmask : ∀ v : Value, masking v = true → ∃ c, v = .constInt c ∧ 0 ≤ c.toInt := by
    intro v hv
    cases v with
    | constInt c => exact ⟨c, rfl, nonneg_of_succIsPowerOf2 hv⟩
    | _ => cases hv
  unfold evaluateBinOP at hres
  dsimp only at hres
  rw [if_pos rfl] at hres
  have hzero : (APInt.ofNat 1 0).toInt = 0 := by decide
  split at hres
  · rename_i m hm
    obtain ⟨rfl, rfl⟩ := RangeValue.constant.inj hres
    rw [hzero]
    split_ifs at hm with h1 h2
    · obtain ⟨c, rfl, hc⟩ := hmask op1 (Bool.and_eq_true_iff.mp h1).2
      obtain rfl := Option.some.inj hm
      have hxc : x.toInt = c.toInt := le_antisymm hx.2 hx.1
      rw [← hxc] at hc ⊢
      exact toInt_and_mem hc
    · obtain ⟨c, rfl, hc⟩ := hmask op2 (Bool.and_eq_true_iff.mp h2).2
      obtain rfl := Option.some.inj hm
      have hyc : y.toInt = c.toInt := le_antisymm hy.2 hy.1
      rw [← hyc] at hc ⊢
      rw [BitVec.and_comm]
      exact toInt_and_mem hc
  · cases hres
  · split_ifs at hres
    cases hres

/-! ## All operators -/

/-- Soundness comes down to the constant ranges that have values in them. -/
theorem binOPSound_iff {w : Nat} {op : BinOp} (hop : op ≠ .and) (op1 op2 : Value)
    (s : RangeState) : BinOPSound w op op1 op2 s ↔
      ∀ a1 b1 a2 b2, (getRangeFor op1 s).1 = .constant a1 b1 →
        (getRangeFor op2 s).1 = .constant a2 b2 → leastIn w a1 ≤ greatestIn w b1 →
        leastIn w a2 ≤ greatestIn w b2 → ConstSound w op a1 b1 a2 b2 := by
  constructor
  · intro hsound a1 b1 a2 b2 h1 h2 _ _ l r hres x y hx hy
    refine hsound l r ((evaluateBinOP_eq_constant hop).mpr ⟨a1, b1, a2, b2, h1, h2, hres⟩) x y ?_ ?_
    · rw [h1]
      exact hx
    · rw [h2]
      exact hy
  · intro hconst l r hres x y hx hy
    obtain ⟨a1, b1, a2, b2, h1, h2, hres⟩ := (evaluateBinOP_eq_constant hop).mp hres
    rw [h1] at hx
    rw [h2] at hy
    have hx' := mem_of_contains hx
    have hy' := mem_of_contains hy
    exact hconst a1 b1 a2 b2 h1 h2 (hx'.1.trans hx'.2) (hy'.1.trans hy'.2) l r hres x y hx hy

/-- Where the condition is also necessary: no product wraps around. One that does may come back into
its range. -/
def Settled (w : Nat) (op : BinOp) (op1 op2 : Value) (s : RangeState) : Prop :=
  op = .mul → ∀ a1 b1 a2 b2, (getRangeFor op1 s).1 = .constant a1 b1 →
    (getRangeFor op2 s).1 = .constant a2 b2 →
      GivesConstant .mul (a1.sextOrTrunc 64) (b1.sextOrTrunc 64) (a2.sextOrTrunc 64)
        (b2.sextOrTrunc 64) → ProductsFit w a1 b1 a2 b2

/-- **When `evaluateBinOP` is sound.** -/
theorem evaluateBinOP_sound (w : Nat) (op : BinOp) (op1 op2 : Value) (s : RangeState) :
    (BinOPOK w op op1 op2 s → BinOPSound w op op1 op2 s) ∧
      (Settled w op op1 op2 s → BinOPSound w op op1 op2 s → BinOPOK w op op1 op2 s) := by
  -- the operators with an exact condition
  have hiff (hop : op ≠ .and) (hconst : ∀ a1 b1 a2 b2, leastIn w a1 ≤ greatestIn w b1 →
      leastIn w a2 ≤ greatestIn w b2 → (ConstSound w op a1 b1 a2 b2 ↔ EndsOK w op a1 b1 a2 b2)) :
      BinOPSound w op op1 op2 s ↔ BinOPOK w op op1 op2 s := by
    rw [binOPSound_iff hop]
    unfold BinOPOK
    exact forall₄_congr fun a1 b1 a2 b2 => forall₄_congr fun _ _ hx hy => hconst a1 b1 a2 b2 hx hy
  cases op with
  | and => exact ⟨fun _ => binOPSound_and w op1 op2 s, fun _ _ _ _ _ _ _ _ _ _ _ => trivial⟩
  | other =>
      have h := hiff (by decide) fun a1 b1 a2 b2 _ _ =>
        iff_of_true (fun _ _ hres => nomatch hres) fun _ => trivial
      exact ⟨h.mpr, fun _ => h.mp⟩
  | add =>
      have h := hiff (by decide) fun a1 b1 a2 b2 => constSound_add_iff
      exact ⟨h.mpr, fun _ => h.mp⟩
  | sub =>
      have h := hiff (by decide) fun a1 b1 a2 b2 => constSound_sub_iff
      exact ⟨h.mpr, fun _ => h.mp⟩
  | mul =>
      rw [binOPSound_iff (by decide)]
      refine ⟨fun h a1 b1 a2 b2 h1 h2 hx hy => constSound_mul (h _ _ _ _ h1 h2 hx hy),
        fun hset h a1 b1 a2 b2 h1 h2 hx hy hconst => ?_⟩
      exact endsOK_mul (hset rfl _ _ _ _ h1 h2 hconst) (h _ _ _ _ h1 h2 hx hy) hconst
  | sdiv =>
      have h := hiff (by decide) fun a1 b1 a2 b2 _ _ => constSound_sdiv_iff
      exact ⟨h.mpr, fun _ => h.mp⟩
  | udiv =>
      have h := hiff (by decide) fun a1 b1 a2 b2 _ _ => constSound_udiv_iff
      exact ⟨h.mpr, fun _ => h.mp⟩

/-! ## Adding bytes -/

/-- Two bytes between `0` and `n`. -/
def byteState (n : Nat) : RangeState :=
  (FMap.set ∅ (.arg 0 0) (.constant (APInt.ofNat 8 0) (APInt.ofNat 8 n))).set (.arg 0 1)
    (.constant (APInt.ofNat 8 0) (APInt.ofNat 8 n))

theorem add_of_small :
    (evaluateBinOP .add (.arg 0 0) (.arg 0 1) (byteState 50)).1 =
        .constant (APInt.ofNat 64 0) (APInt.ofNat 64 100) ∧
      BinOPSound 8 .add (.arg 0 0) (.arg 0 1) (byteState 50) := by
  refine ⟨by decide, (evaluateBinOP_sound 8 .add _ _ _).1 fun a1 b1 a2 b2 h1 h2 _ _ => ?_⟩
  obtain ⟨rfl, rfl⟩ := RangeValue.constant.inj h1
  obtain ⟨rfl, rfl⟩ := RangeValue.constant.inj h2
  intro _
  show ResidueWithin (2 ^ 8) (half 8) 0 100 0 100
  decide

/-- `[0, 100] + [0, 100]` is `[0, 200]`, and `100 + 100` is `-56` in a byte. -/
theorem add_wraps : ¬ BinOPSound 8 .add (.arg 0 0) (.arg 0 1) (byteState 100) := by
  intro hsound
  have hsum := hsound (APInt.ofNat 64 0) (APInt.ofNat 64 200) (by decide) 100#8 100#8 (by decide)
    (by decide) (200#8) (by decide)
  exact absurd hsum.1 (by decide)

end MSV
