import MSV.IR.Syntax

/-!
# Range values

The abstract domain of the value-range analysis. A range is unknown, a pair of constants, or
infinite. The source keeps a kind and two nullable endpoints; the endpoints are read only when the
kind is `constant`, and every place that sets that kind sets both, so here a constant carries them.

The operators are the source's: `join` is `operator|`, `inter` is `operator&`. Unknown absorbs
under `|` and is dropped by `&`.
-/

namespace MSV

/-- `RangeValue`. A fresh one is unknown. -/
inductive RangeValue where
  | unknown
  | constant (lvalue rvalue : APInt)
  | infinity
deriving DecidableEq

namespace RangeValue

instance : Inhabited RangeValue := ⟨unknown⟩

def isUnknown : RangeValue → Bool
  | unknown => true
  | _ => false

def isInfinity : RangeValue → Bool
  | infinity => true
  | _ => false

def isConstant : RangeValue → Bool
  | constant _ _ => true
  | _ => false

/-- `operator&`. The comparison is made at 64 bits; the endpoints keep their own widths. -/
def inter (a b : RangeValue) : RangeValue :=
  match a, b with
  | unknown, b => b
  | a, unknown => a
  | infinity, b => b
  | a, infinity => a
  | constant l r, constant l' r' =>
      constant (if (l.sextOrTrunc 64).slt (l'.sextOrTrunc 64) then l' else l)
        (if (r.sextOrTrunc 64).sgt (r'.sextOrTrunc 64) then r' else r)

/-- `operator|`. -/
def join (a b : RangeValue) : RangeValue :=
  match a, b with
  | unknown, _ => unknown
  | _, unknown => unknown
  | infinity, _ => infinity
  | _, infinity => infinity
  | constant l r, constant l' r' =>
      constant (if l.slt l' then l else l') (if r.sgt r' then r else r')

/-- `operator==`. Comparing endpoints of different widths is an assertion failure in the source;
here such endpoints are different. -/
def beq (a b : RangeValue) : Bool := decide (a = b)

/-- The integer is in the range: between the endpoints in signed order. Unknown and infinity admit
every integer. -/
def Contains (x : Int) : RangeValue → Prop
  | constant l r => l.toInt ≤ x ∧ x ≤ r.toInt
  | _ => True

instance (x : Int) (r : RangeValue) : Decidable (r.Contains x) := by
  cases r <;> unfold Contains <;> infer_instance

/-- The first range is inside the second. -/
def Included : RangeValue → RangeValue → Prop
  | constant l r, constant l' r' => l'.toInt ≤ l.toInt ∧ r.toInt ≤ r'.toInt
  | _, _ => False

/-- `getRangeForConditionalBranch`. `opWidth` is the width of the compared type, `none` when it is
not an integer type. The signed minimum is taken to be `0` unless the constant is negative. -/
def getRangeForConditionalBranch (pred : Pred) (opWidth : Option Nat) (known : APInt)
    (isTrueBranch isVariableOpFirst : Bool) : RangeValue :=
  match opWidth with
  | none => infinity
  | some w =>
      let maxVal := APInt.getMaxValue w
      let minVal := APInt.getMinValue w
      let signedMaxVal := APInt.getSignedMaxValue w
      let signedMinVal :=
        if known.isNegative then APInt.getSignedMinValue w else APInt.getMinValue w
      -- The four shapes shared by the ordered predicates.
      let above (hi : APInt) := constant known hi
      let aboveStrict (hi : APInt) := constant (known.addConst 1) hi
      let below (lo : APInt) := constant lo known
      let belowStrict (lo : APInt) := constant lo (known.addConst (-1))
      match pred, isTrueBranch, isVariableOpFirst with
      | .eq, true, _ => constant known known
      | .eq, false, _ => infinity
      | .ne, false, _ => constant known known
      | .ne, true, _ => infinity
      | .ugt, true, true => aboveStrict maxVal
      | .ugt, false, false => above maxVal
      | .ugt, false, true => below minVal
      | .ugt, true, false => belowStrict minVal
      | .uge, true, true => above maxVal
      | .uge, false, false => aboveStrict maxVal
      | .uge, false, true => belowStrict minVal
      | .uge, true, false => below minVal
      | .ult, true, true => belowStrict minVal
      | .ult, false, false => below minVal
      | .ult, false, true => above maxVal
      | .ult, true, false => aboveStrict maxVal
      | .ule, true, true => below minVal
      | .ule, false, false => belowStrict minVal
      | .ule, false, true => aboveStrict maxVal
      | .ule, true, false => above maxVal
      | .sgt, true, true => aboveStrict signedMaxVal
      | .sgt, false, false => above signedMaxVal
      | .sgt, false, true => below signedMinVal
      | .sgt, true, false => belowStrict signedMinVal
      | .sge, true, true => above signedMaxVal
      | .sge, false, false => aboveStrict signedMaxVal
      | .sge, false, true => belowStrict signedMinVal
      | .sge, true, false => below signedMinVal
      | .slt, true, true => belowStrict signedMinVal
      | .slt, false, false => below signedMinVal
      | .slt, false, true => above signedMaxVal
      | .slt, true, false => aboveStrict signedMaxVal
      | .sle, true, true => below signedMinVal
      | .sle, false, false => belowStrict signedMinVal
      | .sle, false, true => aboveStrict signedMaxVal
      | .sle, true, false => above signedMaxVal

@[simp] theorem unknown_join (a : RangeValue) : join unknown a = unknown := by cases a <;> rfl

@[simp] theorem join_unknown (a : RangeValue) : join a unknown = unknown := by cases a <;> rfl

@[simp] theorem unknown_inter (a : RangeValue) : inter unknown a = a := by cases a <;> rfl

theorem Included.refl_constant (l r : APInt) : Included (constant l r) (constant l r) :=
  ⟨le_refl _, le_refl _⟩

end RangeValue

/-- `RangeMeet`: the fold of `operator|` from a fresh range value. -/
def rangeMeet (values : List RangeValue) : RangeValue :=
  values.foldl RangeValue.join default

/-- The fold starts at unknown, which absorbs: every meet is unknown. -/
@[simp] theorem rangeMeet_eq (values : List RangeValue) : rangeMeet values = .unknown := by
  unfold rangeMeet
  induction values with
  | nil => rfl
  | cons v vs ih =>
      show vs.foldl RangeValue.join (RangeValue.join .unknown v) = .unknown
      rw [RangeValue.unknown_join]
      exact ih

end MSV
