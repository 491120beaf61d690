import MSV.Range.BinOPProof
import MSV.Range.CastProof
import MSV.Range.JoinProof
import MSV.Range.OffsetProof
import MSV.Range.SummaryProof

/-!
# The ends of a range

A constant range should have two ends of one width, the lower one first in signed order. Every place
that makes a range picks a width of its own: a mask starts from a default `APInt`, one bit wide;
arithmetic is done at 64 bits; a cast takes the width of its type, a store that of the stored type;
a size behind a GEP has 64 bits.

**The property** (`StateEnds`). Give every value a width. The constant ranges recorded for a value
have both ends at its width and in order.

**Theorem (`transfer_keeps_ends_iff`).** The transfer of a value keeps the property exactly when the
place that makes its range does (`TransferOK`), a condition on the ranges that are read.
-/

namespace MSV

open Engine

/-! ## The property -/

namespace RangeValue

/-- The ends, which the source keeps as pointers that may be null. -/
def lvalue : RangeValue → Option APInt
  | constant l _ => some l
  | _ => none

def rvalue : RangeValue → Option APInt
  | constant _ r => some r
  | _ => none

/-- A constant range has both ends, of one width and in order. -/
def Represented (R : RangeValue) : Prop :=
  R.isConstant = true → ∃ l r, R.lvalue = some l ∧ R.rvalue = some r ∧ l.width = r.width ∧
    l.toInt ≤ r.toInt

/-- Two constant ranges have ends of the same widths. -/
def SameWidths (a b : RangeValue) : Prop :=
  ∀ l r l' r', a = constant l r → b = constant l' r' → l.width = l'.width ∧ r.width = r'.width

/-- A constant range has both ends at width `w`, in order. -/
def HasEnds (w : Nat) (R : RangeValue) : Prop :=
  ∀ l r, R = constant l r → l.width = w ∧ r.width = w ∧ l.toInt ≤ r.toInt

theorem hasEnds_constant {w : Nat} {l r : APInt} :
    (constant l r).HasEnds w ↔ l.width = w ∧ r.width = w ∧ l.toInt ≤ r.toInt := by
  constructor
  · exact fun h => h l r rfl
  · rintro h _ _ ⟨⟩
    exact h

theorem hasEnds_of_not_constant {w : Nat} {R : RangeValue} (h : R.isConstant = false) :
    R.HasEnds w := by
  rintro l r rfl
  cases h

theorem HasEnds.represented {w : Nat} {R : RangeValue} (h : R.HasEnds w) : R.Represented := by
  intro hconst
  cases R with
  | constant l r =>
      obtain ⟨hl, hr, hle⟩ := h l r rfl
      exact ⟨l, r, rfl, rfl, hl.trans hr.symm, hle⟩
  | _ => cases hconst

theorem HasEnds.sameWidths {w : Nat} {a b : RangeValue} (ha : a.HasEnds w) (hb : b.HasEnds w) :
    a.SameWidths b := by
  intro l r l' r' hal hbl
  obtain ⟨hl, hr, -⟩ := ha l r hal
  obtain ⟨hl', hr', -⟩ := hb l' r' hbl
  exact ⟨hl.trans hl'.symm, hr.trans hr'.symm⟩

theorem sameWidths_unknown (R : RangeValue) : unknown.SameWidths R := by
  intro l r l' r' h
  cases h

end RangeValue

/-- The ranges of a state have their ends at the widths that go with their keys. -/
def StateEnds (W : Value → Nat) (s : RangeState) : Prop :=
  ∀ k R, s.find k = some R → R.HasEnds (W k)

/-! ## The condition on an instruction -/

section

variable (M : Module) (DL : DataLayout) (W : Value → Nat)

/-- The width `handleStore` gives a size. -/
def storeWidth (val : Value) : Nat :=
  match M.typeOf val with
  | .int w => w
  | _ => 64

/-- A size `[0, n]` at width `w` recorded for a value: the width is the value's, and `n` is not
negative there. -/
def SizeOK (v : Value) (w n : Nat) : Prop := w = W v ∧ 0 ≤ (APInt.ofNat w n).toInt

/-- A store makes a size of a `malloc` and of a value with a range, and takes a constant over. -/
structure StoreEnds (val ptr : Value) (s : RangeState) : Prop where
  malloc : ∀ n, isKnownMallocCall M val = some (n + 1) → SizeOK W ptr (storeWidth M val) n
  entry : isKnownMallocCall M val = none → ∀ l r, s.find val = some (.constant l r) →
    SizeOK W ptr (storeWidth M val) (r.sextOrTrunc 64).toNat
  literal : isKnownMallocCall M val = none → ∀ c, val = .constInt c →
    (∀ l r, s.find val ≠ some (.constant l r)) → c.width = W ptr

/-- The mask of an `and`. -/
def maskOf (op : BinOp) (a b : Value) : Option APInt :=
  if op = .and then
    if masking a then a.asConstInt
    else if masking b then b.asConstInt
    else none
  else none

/-- The ends that an operation computes from the four ends at 64 bits are in order. -/
def OperandsInOrder (op : BinOp) (l1 r1 l2 r2 : APInt) : Prop :=
  match op with
  | .add | .sub => l1.toInt + l2.toInt ≤ r1.toInt + r2.toInt
  -- the quotients are the other way round
  | .udiv => (r1.udiv l2).toInt ≤ (l1.udiv r2).toInt
  | _ => True

/-- A mask has one bit; another operation gives 64, and its ends are in order. -/
structure BinOPEnds (v : Value) (op : BinOp) (a b : Value) (s : RangeState) : Prop where
  mask : ∀ m, maskOf op a b = some m → m.width = 1 ∧ W v = 1
  const : maskOf op a b = none → ∀ l1 r1 l2 r2, recordedRange s a = .constant l1 r1 →
    recordedRange s b = .constant l2 r2 →
      GivesConstant op (l1.sextOrTrunc 64) (r1.sextOrTrunc 64) (l2.sextOrTrunc 64)
        (r2.sextOrTrunc 64) →
      W v = 64 ∧ OperandsInOrder op (l1.sextOrTrunc 64) (r1.sextOrTrunc 64) (l2.sextOrTrunc 64)
        (r2.sextOrTrunc 64)

/-- An integer cast of a range has the width of its type, and the ends are in order after it. -/
def CastEnds (v : Value) (op : CastOp) (a : Value) (s : RangeState) : Prop :=
  ∀ l r w, recordedRange s a = .constant l r → M.typeOf v = .int w →
    (IntCast op l.width w → w = W v ∧ (castBits op l.bits w).toInt ≤ (castBits op r.bits w).toInt) ∧
      (op = .bitcast → w = l.width → w = W v)

/-- The bytes a GEP leaves are fewer than half the addresses. -/
def GEPEnds (v base : Value) (indices : List Value) (s : RangeState) : Prop :=
  ∀ l r o, recordedRange s base = .constant l r →
    (gepOffset (DL.allocSize (resultElementType (M.typeOf v))) indices 0
      (getRangeFor base s).2).1 = some o → o < allocSizeOf r →
      SizeOK W v 64 (allocSizeOf r - o - 1)

/-- The condition on the transfer of a value. -/
def TransferOK (v : Value) (s : RangeState) : Prop :=
  match M.kindOf v with
  | some (.store val ptr) => isLocalAllocaPointer M ptr = true → StoreEnds M W val ptr s
  | some (.load ptr) => isLocalAllocaPointer M ptr = true →
      ∀ l r, s.find ptr = some (.constant l r) → W ptr = W v
  | some (.gep _ base indices) => GEPEnds M DL W v base indices s
  | some (.binop op a b) => BinOPEnds W v op a b s
  -- a cast is not its own operand
  | some (.cast op a) => a ≠ v ∧ CastEnds M W v op a s
  | some _ => True
  | none => ∀ c, v = .constInt c → c.width = W v

end

section

variable {M : Module} {DL : DataLayout} {W : Value → Nat} {s : RangeState} {v val ptr : Value}
  {w n : Nat}

/-! ## States -/

theorem StateEnds.touch (h : StateEnds W s) (v : Value) : StateEnds W (s.touch v) := by
  intro k R hk
  rw [FMap.find_touch] at hk
  split_ifs at hk with hkv
  · subst hkv
    obtain rfl := Option.some.inj hk
    cases hfind : s.find k with
    | none =>
        rw [FMap.get, hfind]
        exact RangeValue.hasEnds_of_not_constant rfl
    | some x =>
        rw [FMap.get_of_find hfind]
        exact h k x hfind
  · exact h k R hk

theorem StateEnds.getRangeFor (h : StateEnds W s) (v : Value) :
    StateEnds W (getRangeFor v s).2 := by
  unfold MSV.getRangeFor
  split
  · exact h
  · exact h.touch v

/-- A state in which one range is written. -/
theorem StateEnds.set_iff (h : StateEnds W s) (v : Value) (R : RangeValue) :
    StateEnds W (s.set v R) ↔ R.HasEnds (W v) := by
  constructor
  · exact fun hset => hset v R (FMap.find_set_self ..)
  · intro hR k x hk
    rw [FMap.find_set] at hk
    split_ifs at hk with hkv
    · subst hkv
      exact Option.some.inj hk ▸ hR
    · exact h k x hk

/-- A second write to the same key. -/
theorem StateEnds.set_again (h : StateEnds W s) (v : Value) (R R' : RangeValue) :
    StateEnds W ((s.set v R).set v R') ↔ R'.HasEnds (W v) := by
  constructor
  · exact fun hset => hset v R' (FMap.find_set_self ..)
  · intro hR k x hk
    rw [FMap.find_set] at hk
    split_ifs at hk with hkv
    · subst hkv
      exact Option.some.inj hk ▸ hR
    · rw [FMap.find_set_ne _ _ hkv] at hk
      exact h k x hk

theorem hasEnds_size : (makeRange (APInt.ofNat w 0) (APInt.ofNat w n)).HasEnds (W v) ↔
    SizeOK W v w n := by
  have hzero : (APInt.ofNat w 0).toInt = 0 := by
    unfold APInt.ofNat APInt.toInt
    simp
  rw [makeRange, RangeValue.hasEnds_constant, hzero]
  exact ⟨fun h => ⟨h.1, h.2.2⟩, fun h => ⟨h.1, h.1, h.2⟩⟩

/-! ## Operations -/

theorem hasEnds_iff_of_width {R : RangeValue} {p : Prop}
    (h : ∀ l r, R = .constant l r → l.width = n ∧ r.width = n ∧ (l.toInt ≤ r.toInt ↔ p)) :
    R.HasEnds w ↔ (R.isConstant = true → w = n ∧ p) := by
  constructor
  · intro hends hconst
    cases R with
    | constant l r =>
        obtain ⟨hl, -, hle⟩ := hends l r rfl
        obtain ⟨hn, -, hp⟩ := h l r rfl
        exact ⟨hl.symm.trans hn, hp.mp hle⟩
    | _ => cases hconst
  · rintro hok l r rfl
    obtain ⟨rfl, hp⟩ := hok rfl
    obtain ⟨hl, hr, hiff⟩ := h l r rfl
    exact ⟨hl, hr, hiff.mpr hp⟩

/-- A choice among numbers of one width. -/
theorem width_foldl_pick {pick : APInt → APInt → Bool} {cs : List (APInt × Bool)} {m : APInt}
    (hm : m.width = n) (hcs : ∀ c ∈ cs, c.1.width = n) :
    (cs.foldl (fun m x => if pick x.1 m then x.1 else m) m).width = n := by
  induction cs generalizing m with
  | nil => exact hm
  | cons c cs ih =>
      refine ih ?_ fun d hd => hcs d (List.mem_cons_of_mem _ hd)
      dsimp only
      split_ifs
      · exact hcs c List.mem_cons_self
      · exact hm

theorem corners_ends {is : List Int} {l r : APInt}
    (h : corners (is.map (APInt.ov 64)) = .constant l r) :
    l.width = 64 ∧ r.width = 64 ∧ l.toInt ≤ r.toInt := by
  have hcontain := corners_contain h
  have hwidth : ∀ c ∈ is.map (APInt.ov 64), c.1.width = 64 := by
    intro c hc
    obtain ⟨i, -, rfl⟩ := List.mem_map.mp hc
    rfl
  unfold corners at h
  cases is with
  | nil => cases h
  | cons i is =>
      have hi := hcontain i List.mem_cons_self
      rw [List.map_cons] at h hwidth
      dsimp only at h
      split at h
      · cases h
      · obtain ⟨rfl, rfl⟩ := RangeValue.constant.inj h
        exact ⟨width_foldl_pick rfl hwidth, width_foldl_pick rfl hwidth, hi.1.trans hi.2⟩

/-- An absolute value is not less than its negation, also where it overflows. -/
theorem negate_abs_le (a : APInt) (h : a.width = 64) : a.abs.negate.toInt ≤ a.abs.toInt := by
  obtain ⟨_, bits⟩ := a
  obtain rfl := h
  show (APInt.ofInt 64 (-(APInt.ofInt 64 |bits.toInt|).toInt)).toInt ≤
    (APInt.ofInt 64 |bits.toInt|).toInt
  have hlo := BitVec.le_toInt (x := bits)
  have hhi := BitVec.toInt_lt (x := bits)
  by_cases hmin : bits.toInt = -2 ^ 63
  · rw [hmin]
    decide
  · have habs : In64 |bits.toInt| := by
      unfold In64
      constructor <;> cases abs_cases bits.toInt <;> omega
    have hnonneg := abs_nonneg bits.toInt
    have hneg : In64 (-|bits.toInt|) := by
      unfold In64 at habs ⊢
      omega
    rw [toInt_ofInt_64.mpr habs, toInt_ofInt_64.mpr hneg]
    omega

theorem constBinOP_ends {op : BinOp} {l1 r1 l2 r2 l r : APInt}
    (h : evaluateConstBinOP op (l1.sextOrTrunc 64) (r1.sextOrTrunc 64) (l2.sextOrTrunc 64)
      (r2.sextOrTrunc 64) = .constant l r) :
    l.width = 64 ∧ r.width = 64 ∧ (l.toInt ≤ r.toInt ↔ OperandsInOrder op (l1.sextOrTrunc 64)
      (r1.sextOrTrunc 64) (l2.sextOrTrunc 64) (r2.sextOrTrunc 64)) := by
  cases op with
  | add =>
      obtain ⟨hl, hr, rfl, rfl⟩ := (evaluateConstBinOP_add ..).mp h
      rw [toInt_ofInt_64.mpr hl, toInt_ofInt_64.mpr hr]
      exact ⟨rfl, rfl, Iff.rfl⟩
  | sub =>
      obtain ⟨hl, hr, rfl, rfl⟩ := (evaluateConstBinOP_sub ..).mp h
      rw [toInt_ofInt_64.mpr hl, toInt_ofInt_64.mpr hr]
      refine ⟨rfl, rfl, ?_⟩
      show _ ↔ end64 l1 + end64 l2 ≤ end64 r1 + end64 r2
      omega
  | mul =>
      have hcorners : corners ([end64 l1 * end64 l2, end64 l1 * end64 r2, end64 r1 * end64 l2,
        end64 r1 * end64 r2].map (APInt.ov 64)) = .constant l r := h
      obtain ⟨hl, hr, hle⟩ := corners_ends hcorners
      exact ⟨hl, hr, iff_of_true hle trivial⟩
  | sdiv =>
      unfold evaluateConstBinOP at h
      dsimp only at h
      split_ifs at h
      · obtain ⟨rfl, rfl⟩ := RangeValue.constant.inj h
        exact ⟨rfl, rfl, iff_of_true (negate_abs_le _ rfl) trivial⟩
      · obtain ⟨rfl, rfl⟩ := RangeValue.constant.inj h
        exact ⟨rfl, rfl, iff_of_true (negate_abs_le _ rfl) trivial⟩
      · cases h
      · have hcorners : corners ([(end64 l1).tdiv (end64 l2), (end64 l1).tdiv (end64 r2),
          (end64 r1).tdiv (end64 l2), (end64 r1).tdiv (end64 r2)].map (APInt.ov 64)) =
            .constant l r := h
        obtain ⟨hl, hr, hle⟩ := corners_ends hcorners
        exact ⟨hl, hr, iff_of_true hle trivial⟩
  | udiv =>
      unfold evaluateConstBinOP at h
      dsimp only at h
      split_ifs at h
      · cases h
      · obtain ⟨rfl, rfl⟩ := RangeValue.constant.inj h
        exact ⟨rfl, rfl, Iff.rfl⟩
  | _ => cases h

theorem hasEnds_constBinOP {op : BinOp} {l1 r1 l2 r2 : APInt} :
    (evaluateConstBinOP op (l1.sextOrTrunc 64) (r1.sextOrTrunc 64) (l2.sextOrTrunc 64)
      (r2.sextOrTrunc 64)).HasEnds w ↔
      (GivesConstant op (l1.sextOrTrunc 64) (r1.sextOrTrunc 64) (l2.sextOrTrunc 64)
        (r2.sextOrTrunc 64) → w = 64 ∧ OperandsInOrder op
          (l1.sextOrTrunc 64) (r1.sextOrTrunc 64) (l2.sextOrTrunc 64) (r2.sextOrTrunc 64)) := by
  rw [← isConstant_constBinOP]
  exact hasEnds_iff_of_width fun _ _ h => constBinOP_ends h

/-- The mask that is read off an operand. -/
theorem maskOf_eq (op : BinOp) (a b : Value) (s : RangeState) :
    (if op = .and then
      if (recordedRange s a).isConstant && masking a then a.asConstInt
      else if (recordedRange s b).isConstant && masking b then b.asConstInt
      else none
    else none) = maskOf op a b := by
  have hconst : ∀ v, ((recordedRange s v).isConstant && masking v) = masking v := by
    intro v
    cases v with
    | constInt c => exact Bool.true_and _
    | _ => exact Bool.and_false _
  rw [hconst, hconst, maskOf]

theorem isMask_of_maskOf {op : BinOp} {a b : Value} {m : APInt} (h : maskOf op a b = some m) :
    m.succIsPowerOf2 = true := by
  unfold maskOf at h
  split_ifs at h with _ ha hb
  · cases a with
    | constInt c =>
        obtain rfl := Option.some.inj h
        exact ha
    | _ => cases h
  · cases b with
    | constInt c =>
        obtain rfl := Option.some.inj h
        exact hb
    | _ => cases h

theorem hasEnds_binOP {op : BinOp} {a b : Value} :
    (evaluateBinOP op a b s).1.HasEnds (W v) ↔ BinOPEnds W v op a b s := by
  unfold evaluateBinOP
  dsimp only
  rw [getRangeFor_after, getRangeFor_fst, getRangeFor_fst, maskOf_eq]
  cases hm : maskOf op a b with
  | some m =>
      have hmask := nonneg_of_succIsPowerOf2 (isMask_of_maskOf hm)
      have hzero : (APInt.ofNat 1 0).toInt = 0 := rfl
      dsimp only
      rw [makeRange, RangeValue.hasEnds_constant, hzero]
      constructor
      · rintro ⟨hone, hm', -⟩
        refine ⟨fun m' h => ?_, fun h => by cases hm.symm.trans h⟩
        obtain rfl := Option.some.inj (hm.symm.trans h)
        exact ⟨hm'.trans hone.symm, hone.symm⟩
      · intro h
        obtain ⟨hm', hone⟩ := h.mask m hm
        exact ⟨hone.symm, hm'.trans hone.symm, hmask⟩
  | none =>
      have hquiet : ∀ R : RangeValue, R.isConstant = false →
          (∀ l1 r1 l2 r2, recordedRange s a = .constant l1 r1 →
            recordedRange s b ≠ .constant l2 r2) → (R.HasEnds (W v) ↔ BinOPEnds W v op a b s) :=
        fun R hR hno => iff_of_true (RangeValue.hasEnds_of_not_constant hR)
          ⟨fun m h => (by cases hm.symm.trans h), fun _ l1 r1 l2 r2 h1 h2 =>
            absurd h2 (hno l1 r1 l2 r2 h1)⟩
      split
      · cases ‹none = some _›
      · rename_i l1 r1 l2 r2 _ h1 h2
        rw [hasEnds_constBinOP]
        constructor
        · intro h
          refine ⟨fun m h => (by cases hm.symm.trans h), fun _ l1' r1' l2' r2' h1' h2' => ?_⟩
          obtain ⟨rfl, rfl⟩ := RangeValue.constant.inj (h1.symm.trans h1')
          obtain ⟨rfl, rfl⟩ := RangeValue.constant.inj (h2.symm.trans h2')
          exact h
        · exact fun h => h.const hm l1 r1 l2 r2 h1 h2
      · rename_i hno
        have hpair : ∀ l1 r1 l2 r2, recordedRange s a = .constant l1 r1 →
            recordedRange s b ≠ .constant l2 r2 := fun l1 r1 l2 r2 h1 h2 =>
          hno l1 r1 l2 r2 h1 h2
        split_ifs
        · exact hquiet _ rfl hpair
        · exact hquiet _ rfl hpair

/-! ## Casts, loads, GEPs and stores -/

theorem StateEnds.recorded (h : StateEnds W s) {a : Value} {l r : APInt}
    (hr : recordedRange s a = .constant l r) : l.width = r.width ∧ l.toInt ≤ r.toInt := by
  cases a with
  | constInt c =>
      obtain ⟨rfl, rfl⟩ := RangeValue.constant.inj hr
      exact ⟨rfl, le_rfl⟩
  | _ =>
      obtain ⟨hl, hr', hle⟩ := h _ _ (find_of_get_constant hr) l r rfl
      exact ⟨hl.trans hr'.symm, hle⟩

theorem foldCast_eq_none {op : CastOp} {c : APInt} {w : Nat} (h : ¬ IntCast op c.width w)
    (hb : op ≠ .bitcast) : foldCast op c (.int w) = none := by
  cases op with
  | trunc | zext | sext => exact if_neg h
  | bitcast => exact absurd rfl hb
  | _ => rfl

/-- There is one range to look at, and one width. -/
theorem castEnds_iff {op : CastOp} {a : Value} {l r : APInt}
    (hr : recordedRange s a = .constant l r) (ht : M.typeOf v = .int w) :
    CastEnds M W v op a s ↔
      (IntCast op l.width w →
        w = W v ∧ (castBits op l.bits w).toInt ≤ (castBits op r.bits w).toInt) ∧
      (op = .bitcast → w = l.width → w = W v) := by
  constructor
  · exact fun hok => hok l r w hr ht
  · intro hok l' r' w' hr' ht'
    obtain ⟨rfl, rfl⟩ := RangeValue.constant.inj (hr.symm.trans hr')
    obtain rfl := Ty.int.inj (ht.symm.trans ht')
    exact hok

theorem hasEnds_cast (h : StateEnds W s) {op : CastOp} {a : Value} :
    (evaluateCast op a (M.typeOf v) s).1.HasEnds (W v) ↔ CastEnds M W v op a s := by
  unfold evaluateCast
  dsimp only
  rw [getRangeFor_fst]
  cases hr : recordedRange s a with
  | constant l r =>
      dsimp only
      obtain ⟨hwidth, hle⟩ := h.recorded hr
      cases ht : M.typeOf v with
      | int w =>
          rw [castEnds_iff hr ht]
          by_cases hcast : IntCast op l.width w
          · have hbit : op ≠ .bitcast := by
              rintro rfl
              exact hcast
            have hcast' : IntCast op r.width w := hwidth ▸ hcast
            rw [foldCast_eq hcast, foldCast_eq hcast, if_pos hcast, if_pos hcast']
            dsimp only
            rw [RangeValue.hasEnds_constant]
            exact ⟨fun h => ⟨fun _ => ⟨h.1, h.2.2⟩, fun hb => absurd hb hbit⟩,
              fun h => ⟨(h.1 hcast).1, (h.1 hcast).1, (h.1 hcast).2⟩⟩
          · rw [and_iff_right fun h => absurd h hcast]
            by_cases hbit : op = .bitcast
            · subst hbit
              by_cases hw : w = l.width
              · have hl : foldCast .bitcast l (.int w) = some l := if_pos hw
                have hr' : foldCast .bitcast r (.int w) = some r := if_pos (hw.trans hwidth)
                rw [hl, hr']
                dsimp only
                rw [RangeValue.hasEnds_constant]
                exact ⟨fun h _ _ => hw.trans h.1,
                  fun h => ⟨hw ▸ h rfl hw, hwidth ▸ hw ▸ h rfl hw, hle⟩⟩
              · have hl : foldCast .bitcast l (.int w) = none := if_neg hw
                rw [hl]
                exact iff_of_true (RangeValue.hasEnds_of_not_constant rfl) fun _ h => absurd h hw
            · rw [foldCast_eq_none hcast hbit]
              exact iff_of_true (RangeValue.hasEnds_of_not_constant rfl) fun hb => absurd hb hbit
      | _ =>
          refine iff_of_true ?_ fun l r w _ ht' => (by cases ht.symm.trans ht')
          cases op <;> exact RangeValue.hasEnds_of_not_constant rfl
  | _ =>
      refine iff_of_true (RangeValue.hasEnds_of_not_constant rfl) fun l r w hr' => ?_
      cases hr.symm.trans hr'

theorem stateEnds_load (h : StateEnds W s) :
    StateEnds W (handleLoad M v ptr s) ↔ (isLocalAllocaPointer M ptr = true →
      ∀ l r, s.find ptr = some (.constant l r) → W ptr = W v) := by
  unfold handleLoad
  split_ifs with hlocal
  · cases hfind : s.find ptr with
    | none =>
        refine iff_of_true ((h.set_iff v _).mpr (RangeValue.hasEnds_of_not_constant rfl)) ?_
        exact fun _ l r hr => by cases hr
    | some R =>
        dsimp only
        rw [h.set_iff]
        cases R with
        | constant l r =>
            obtain ⟨hl, hr, hle⟩ := h ptr _ hfind l r rfl
            rw [RangeValue.hasEnds_constant]
            exact ⟨fun hv _ _ _ _ => hl.symm.trans hv.1, fun hok =>
              have hW := hok hlocal l r rfl
              ⟨hl.trans hW, hr.trans hW, hle⟩⟩
        | _ =>
            refine iff_of_true (RangeValue.hasEnds_of_not_constant rfl) ?_
            exact fun _ l r hr => by cases hr
  · rw [h.set_iff]
    exact iff_of_true (RangeValue.hasEnds_of_not_constant rfl) fun h => absurd h hlocal

theorem StateEnds.gepOffset (h : StateEnds W s) (elemSize : Nat) (vs : List Value) (total : Nat) :
    StateEnds W (gepOffset elemSize vs total s).2 := by
  induction vs generalizing s total with
  | nil => exact h
  | cons x vs ih =>
      have hread := h.getRangeFor x
      unfold MSV.gepOffset
      split
      · rename_i heq
        rw [heq] at hread
        dsimp only
        split_ifs
        · exact hread
        · exact ih hread _
      · rename_i heq
        rw [heq] at hread
        exact hread

theorem stateEnds_gep (h : StateEnds W s) {base : Value} {indices : List Value} :
    StateEnds W (handleGEP DL v (M.typeOf v) base indices s) ↔ GEPEnds M DL W v base indices s := by
  have hread := h.getRangeFor base
  have hrange := getRangeFor_fst base s
  unfold handleGEP GEPEnds
  split
  · rename_i l r s₁ heq
    rw [heq] at hread hrange
    rw [heq]
    dsimp only at hread hrange ⊢
    have hoff := hread.gepOffset (DL.allocSize (resultElementType (M.typeOf v))) indices 0
    split
    · rename_i o s₂ heq'
      rw [heq'] at hoff
      rw [heq']
      dsimp only at hoff ⊢
      split_ifs with hlt
      · rw [hoff.set_iff, hasEnds_size]
        refine ⟨fun hok l' r' o' hr' ho' _ => ?_, fun hok => hok l r o hrange.symm rfl hlt⟩
        obtain ⟨rfl, rfl⟩ := RangeValue.constant.inj (hrange.trans hr')
        obtain rfl := Option.some.inj ho'
        exact hok
      · rw [hoff.set_iff]
        refine iff_of_true (RangeValue.hasEnds_of_not_constant rfl) fun l' r' o' hr' ho' hlt' => ?_
        obtain ⟨rfl, rfl⟩ := RangeValue.constant.inj (hrange.trans hr')
        obtain rfl := Option.some.inj ho'
        exact absurd hlt' hlt
    · rename_i s₂ heq'
      rw [heq'] at hoff
      rw [heq', hoff.set_iff]
      exact iff_of_true (RangeValue.hasEnds_of_not_constant rfl) fun _ _ _ _ ho' => by cases ho'
  · rename_i R s₁ hno heq
    rw [heq] at hread hrange
    dsimp only at hread hrange
    rw [hread.set_iff]
    refine iff_of_true (RangeValue.hasEnds_of_not_constant rfl) fun l r o hr' => ?_
    exact absurd (hrange.trans hr') (hno l r)

/-- One more and one less at 64 bits. -/
theorem u64_allocSizeOf (r : APInt) :
    u64 (allocSizeOf r + 2 ^ 64 - 1) = (r.sextOrTrunc 64).toNat := by
  have hlt : (r.sextOrTrunc 64).toNat < 2 ^ 64 := (r.bits.signExtend 64).isLt
  unfold allocSizeOf u64
  omega

/-- Whether the stored value has a range is asked after the pointer has taken it. -/
theorem find_stored (hlocal : isLocalAllocaPointer M ptr = true) {l r : APInt} :
    ((getRangeFor val s).2.set ptr (getRangeFor val s).1).find val = some (.constant l r) ↔
      s.find val = some (.constant l r) := by
  have hget : ∀ v, s.get v = .constant l r ↔ s.find v = some (.constant l r) := fun v =>
    ⟨find_of_get_constant, FMap.get_of_find⟩
  cases val with
  | constInt c =>
      have hne : Value.constInt c ≠ ptr := by
        rintro rfl
        have hstrip : M.stripPointerCasts (.constInt c) = .constInt c := by
          unfold Module.stripPointerCasts
          cases M.insts.length <;> rfl
        unfold isLocalAllocaPointer at hlocal
        rw [hstrip] at hlocal
        cases hlocal
      show (s.set ptr _).find _ = _ ↔ _
      rw [FMap.find_set_ne _ _ hne]
  | _ =>
      rw [← hget]
      show ((s.touch _).set ptr (s.get _)).find _ = _ ↔ _
      rw [FMap.find_set, FMap.find_touch, if_pos rfl]
      split_ifs <;> exact ⟨Option.some.inj, congrArg some⟩

/-! What a store makes of the range, case by case. -/

theorem storeEnds_unsized (hm : isKnownMallocCall M val = some 0) : StoreEnds M W val ptr s := by
  refine ⟨fun n hn => ?_, fun hn => ?_, fun hn => ?_⟩ <;> cases hm.symm.trans hn

theorem storeEnds_malloc (hm : isKnownMallocCall M val = some (n + 1)) :
    StoreEnds M W val ptr s ↔ SizeOK W ptr (storeWidth M val) n := by
  refine ⟨fun h => h.malloc n hm, fun hok => ⟨fun m hm' => ?_, fun hn => ?_, fun hn => ?_⟩⟩
  · obtain rfl := Nat.succ.inj (Option.some.inj (hm.symm.trans hm'))
    exact hok
  · cases hm.symm.trans hn
  · cases hm.symm.trans hn

theorem storeEnds_entry (hm : isKnownMallocCall M val = none) {l r : APInt}
    (hfind : s.find val = some (.constant l r)) :
    StoreEnds M W val ptr s ↔ SizeOK W ptr (storeWidth M val) (r.sextOrTrunc 64).toNat := by
  refine ⟨fun h => h.entry hm l r hfind, fun hok => ⟨fun n hn => ?_, fun _ l' r' hfind' => ?_,
    fun _ c _ hno => absurd hfind (hno l r)⟩⟩
  · cases hm.symm.trans hn
  · obtain ⟨rfl, rfl⟩ := RangeValue.constant.inj (Option.some.inj (hfind.symm.trans hfind'))
    exact hok

theorem storeEnds_literal (hm : isKnownMallocCall M val = none)
    (hno : ∀ l r, s.find val ≠ some (.constant l r)) :
    StoreEnds M W val ptr s ↔ ∀ c, val = .constInt c → c.width = W ptr := by
  refine ⟨fun h c hc => h.literal hm c hc hno, fun hok => ⟨fun n hn => ?_,
    fun _ l r hfind => absurd hfind (hno l r), fun _ c hc _ => hok c hc⟩⟩
  cases hm.symm.trans hn

theorem stateEnds_store (h : StateEnds W s) : StateEnds W (handleStore M val ptr s) ↔
    (isLocalAllocaPointer M ptr = true → StoreEnds M W val ptr s) := by
  unfold handleStore
  dsimp only
  by_cases hlocal : isLocalAllocaPointer M ptr = true
  · rw [if_pos hlocal, forall_prop_of_true hlocal]
    have hread := h.getRangeFor val
    cases hmalloc : isKnownMallocCall M val with
    | some n =>
        cases n with
        | zero =>
            dsimp only
            rw [hread.set_again]
            exact iff_of_true (RangeValue.hasEnds_of_not_constant rfl) (storeEnds_unsized hmalloc)
        | succ n =>
            dsimp only
            rw [hread.set_again, storeEnds_malloc hmalloc]
            exact hasEnds_size
    | none =>
        dsimp only
        split
        · rename_i l r hfind
          rw [find_stored hlocal] at hfind
          rw [hread.set_again, u64_allocSizeOf, storeEnds_entry hmalloc hfind]
          exact hasEnds_size
        · rename_i hno
          have hno' : ∀ l r, s.find val ≠ some (.constant l r) := fun l r hfind =>
            hno l r ((find_stored hlocal).mpr hfind)
          rw [hread.set_iff, getRangeFor_fst, storeEnds_literal hmalloc hno']
          constructor
          · rintro hok c rfl
            exact (hok c c rfl).1
          · intro hok l r hr
            cases val with
            | constInt c =>
                obtain ⟨rfl, rfl⟩ := RangeValue.constant.inj hr
                exact ⟨hok _ rfl, hok _ rfl, le_rfl⟩
            | _ => exact absurd (find_of_get_constant hr) (hno' l r)
  · rw [if_neg hlocal]
    exact iff_of_true h fun h => absurd h hlocal

/-- The size that a bitcast copies is written over by the cast. -/
theorem stateEnds_cast (h : StateEnds W s) {op : CastOp} {a : Value} (ha : a ≠ v)
    {s' : RangeState} (hs' : s' = s ∨ ∃ R, s' = s.set v R) :
    StateEnds W ((evaluateCast op a (M.typeOf v) s').2.set v
      (evaluateCast op a (M.typeOf v) s').1) ↔ CastEnds M W v op a s := by
  have hrange : recordedRange s' a = recordedRange s a := by
    obtain rfl | ⟨R, rfl⟩ := hs'
    · rfl
    · cases a with
      | constInt c => rfl
      | _ => exact (FMap.get_set ..).trans (if_neg ha)
  have hvalue : (evaluateCast op a (M.typeOf v) s').1 = (evaluateCast op a (M.typeOf v) s).1 := by
    unfold evaluateCast
    dsimp only
    rw [getRangeFor_fst, getRangeFor_fst, hrange]
    cases recordedRange s a with
    | constant l r =>
        dsimp only
        cases foldCast op l (M.typeOf v) with
        | none => rfl
        | some x => cases foldCast op r (M.typeOf v) <;> rfl
    | _ => rfl
  rw [hvalue, evaluateCast_snd, ← hasEnds_cast h]
  obtain rfl | ⟨R, rfl⟩ := hs'
  · exact (h.getRangeFor a).set_iff ..
  · constructor
    · exact fun hset => hset v _ (FMap.find_set_self ..)
    · intro hR k x hk
      rw [FMap.find_set] at hk
      split_ifs at hk with hkv
      · subst hkv
        exact Option.some.inj hk ▸ hR
      · refine h.getRangeFor a k x (Eq.trans ?_ hk)
        cases a with
        | constInt c => exact (FMap.find_set_ne _ _ hkv).symm
        | _ =>
            show (s.touch _).find k = ((s.set v R).touch _).find k
            rw [FMap.find_touch, FMap.find_touch, FMap.get_set, if_neg ha,
              FMap.find_set_ne _ _ hkv]

/-- **When a transfer keeps the ends.** -/
theorem transfer_keeps_ends_iff (h : StateEnds W s)
    (hself : ∀ op a, M.kindOf v = some (.cast op a) → a ≠ v) :
    StateEnds W (transfer M DL v s) ↔ TransferOK M DL W v s := by
  have hinf : StateEnds W (s.set v .infinity) :=
    (h.set_iff v _).mpr (RangeValue.hasEnds_of_not_constant rfl)
  unfold transfer TransferOK
  cases hk : M.kindOf v with
  | none =>
      cases v with
      | constInt c =>
          dsimp only
          rw [h.set_iff, RangeValue.hasEnds_constant]
          constructor
          · rintro hc _ ⟨⟩
            exact hc.1
          · exact fun hc => ⟨hc c rfl, hc c rfl, le_rfl⟩
      | _ => exact iff_of_true hinf fun c hc => by cases hc
  | some k =>
      cases k with
      | store val ptr => exact stateEnds_store h
      | load ptr => exact stateEnds_load h
      | gep src base indices => exact stateEnds_gep h
      | binop op a b =>
          dsimp only
          rw [← hasEnds_binOP, evaluateBinOP_snd]
          exact ((h.getRangeFor a).getRangeFor b).set_iff ..
      | cast op a =>
          have ha := hself op a hk
          dsimp only
          rw [and_iff_right ha]
          refine stateEnds_cast h ha ?_
          split_ifs
          · split
            · exact Or.inr ⟨_, rfl⟩
            · exact Or.inl rfl
          · exact Or.inl rfl
      | _ => exact iff_of_true hinf trivial

end

end MSV
