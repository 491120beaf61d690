import Mathlib.Data.Finset.Sort
import MSV.Range.Markers

/-!
# Sizes from the points-to analysis

`PTAWrapper::getSizeForValue`: the size of an argument, from the type of the objects it may point
to. The type must be the same for all of them. The size of an array is worked out as the flattened
number of its elements times the size of one element, in `int`.

**Theorem (`svf_size_iff`).** No object is smaller than a size that is not negative, if and only if
the type the objects have in common, if there is one, is fit for that (`SizeWithin`): it is no array
of aggregates, unless the product overflows to something small, and no array of length 0 unless its
elements have no bytes, and what it points to, if it is a pointer, is no larger than the pointer.

What SVF does with its types is `SVFTypes.Flattens`.
-/

namespace MSV

/-- What is asked of SVF about types and objects. -/
structure SVFTypes extends PTAWrapper where
  /-- `getMemObj()->getType()` of an object; none for a node that is no object. -/
  getType : NodeID → Option Ty
  getByteSize : Ty → Nat
  getNumOfFlattenElements : Ty → Nat

/-- Conversion to `int`. -/
def int32 (x : Int) : Int := (BitVec.ofInt 32 x).toInt

namespace SVFTypes

variable (svf : SVFTypes)

/-- The loop over the points-to set: the common type so far, or `none` once two types differ. -/
def finalType : Option Ty → List NodeID → Option (Option Ty)
  | t, [] => some t
  | t, id :: rest =>
      match svf.getType id with
      | none => finalType t rest
      | some u =>
          match t with
          | none => finalType (some u) rest
          | some t => if t = u then finalType (some t) rest else none

/-- The size of what the final type stands for. -/
def finalSize (t : Ty) : Int :=
  -- a pointer type stands for what it points to
  let t := match t with
    | .ptr elem => elem
    | t => t
  match t with
  | .array n elem =>
      let arraysize := int32 (svf.getNumOfFlattenElements (.array n elem))
      let totalsize := int32 (svf.getByteSize elem)
      int32 (arraysize * totalsize)
  | .struct s => int32 (svf.getByteSize (.struct s))
  | _ => -1

/-- The set is iterated in the order of the node numbers. -/
def getSizeForValue (v : Value) : Int :=
  match svf.finalType none ((svf.getExpandedFIPts v).sort (· ≤ ·)) with
  | some (some t) => svf.finalSize t
  | _ => -1

/-- The number of innermost elements, which `collectArrayInfo` works out. -/
def totalElemNum : Ty → Nat
  | .array n elem => n * totalElemNum elem
  | _ => 1

/-- The flattened number of elements of an array: one dummy element if there are none. -/
def arrayLeaves (n : Nat) (elem : Ty) : Nat :=
  if totalElemNum (.array n elem) = 0 then 1 else n * svf.getNumOfFlattenElements elem

/-- What SVF does with arrays: all leaves are counted, and the bytes are those of the elements. -/
structure Flattens : Prop where
  leaves : ∀ n elem, svf.getNumOfFlattenElements (.array n elem) = svf.arrayLeaves n elem
  bytes : ∀ n elem, svf.getByteSize (.array n elem) = n * svf.getByteSize elem

/-- No object the value may point to is smaller than a size that is not negative. -/
def SizeSound (v : Value) : Prop :=
  0 ≤ svf.getSizeForValue v → ∀ id ∈ svf.getExpandedFIPts v, ∀ t, svf.getType id = some t →
    svf.getSizeForValue v ≤ svf.getByteSize t

/-- The size worked out for the type is not above the size of an object of the type. -/
def SizeWithin : Ty → Prop
  | .array n elem =>
      -- one element is counted where there is none
      if n = 0 then int32 (svf.getByteSize elem) ≤ 0
      -- an element is a leaf, or has no bytes, or the product overflows
      else svf.getNumOfFlattenElements elem ≤ 1 ∨ svf.getByteSize elem = 0 ∨
        2 ^ 31 ≤ n * svf.getNumOfFlattenElements elem * svf.getByteSize elem ∧
          int32 (n * svf.getNumOfFlattenElements elem * svf.getByteSize elem) ≤
            (n * svf.getByteSize elem : Nat)
  | .ptr (.array n elem) =>
      int32 (svf.arrayLeaves n elem * svf.getByteSize elem) ≤
        svf.getByteSize (.ptr (.array n elem))
  | .ptr (.struct s) => int32 (svf.getByteSize (.struct s)) ≤ svf.getByteSize (.ptr (.struct s))
  | _ => True

/-- All objects the value may point to have the type, and there is one. -/
def CommonType (v : Value) (t : Ty) : Prop :=
  (∃ id ∈ svf.getExpandedFIPts v, svf.getType id = some t) ∧
    ∀ id ∈ svf.getExpandedFIPts v, ∀ u, svf.getType id = some u → u = t

end SVFTypes

/-! ## Thirty-two bits -/

theorem int32_eq_bmod (x : Int) : int32 x = Int.bmod x (2 ^ 32) := BitVec.toInt_ofInt x

theorem int32_mul (x y : Int) : int32 (int32 x * int32 y) = int32 (x * y) := by
  simp only [int32_eq_bmod, Int.bmod_mul_bmod, Int.mul_bmod_bmod]

/-- A number that is not negative gets no larger. -/
theorem int32_le (x : Nat) : int32 x ≤ x := by
  rw [int32_eq_bmod, Int.bmod_def]
  split <;> omega

theorem int32_of_lt {x : Nat} (h : x < 2 ^ 31) : int32 x = x := by
  rw [int32_eq_bmod]
  exact Int.bmod_eq_of_le_mul_two (by omega) (by omega)

namespace SVFTypes

variable {svf : SVFTypes} {v : Value} {t : Ty} {n : Nat} {elem : Ty}

/-! ## The common type -/

/-- What the loop ends with, from a type that objects before have had. -/
theorem finalType_some_iff (l : List NodeID) :
    svf.finalType (some t) l = some (some t) ↔ ∀ id ∈ l, ∀ u, svf.getType id = some u → u = t := by
  induction l with
  | nil => simp [finalType]
  | cons id l ih =>
      rw [List.forall_mem_cons, ← ih, finalType]
      cases svf.getType id with
      | none => simp
      | some u =>
          by_cases htu : t = u
          · simp [htu]
          · simp [htu, Ne.symm htu]

theorem finalType_some_eq (l : List NodeID) {u : Ty}
    (h : svf.finalType (some t) l = some (some u)) : u = t := by
  induction l with
  | nil => exact (Option.some.inj (Option.some.inj h)).symm
  | cons id l ih =>
      rw [finalType] at h
      cases hid : svf.getType id with
      | none =>
          rw [hid] at h
          exact ih h
      | some w =>
          rw [hid] at h
          dsimp only at h
          by_cases htw : t = w
          · rw [if_pos htw] at h
            exact ih h
          · rw [if_neg htw] at h
            cases h

theorem finalType_none_iff (l : List NodeID) :
    svf.finalType none l = some (some t) ↔ (∃ id ∈ l, svf.getType id = some t) ∧
      ∀ id ∈ l, ∀ u, svf.getType id = some u → u = t := by
  induction l with
  | nil => simp [finalType]
  | cons id l ih =>
      rw [finalType]
      cases hid : svf.getType id with
      | none =>
          dsimp only
          rw [ih]
          simp [hid]
      | some u =>
          dsimp only
          constructor
          · intro h
            obtain rfl := finalType_some_eq l h
            refine ⟨⟨id, by simp, hid⟩, ?_⟩
            rw [List.forall_mem_cons]
            refine ⟨fun w hw => ?_, (finalType_some_iff l).mp h⟩
            rw [hid] at hw
            exact (Option.some.inj hw).symm
          · rintro ⟨-, hall⟩
            rw [List.forall_mem_cons] at hall
            obtain rfl := hall.1 u hid
            exact (finalType_some_iff l).mpr hall.2

theorem commonType_iff : svf.finalType none ((svf.getExpandedFIPts v).sort (· ≤ ·)) =
    some (some t) ↔ svf.CommonType v t := by
  rw [finalType_none_iff, CommonType]
  simp only [Finset.mem_sort]

theorem CommonType.getSizeForValue (h : svf.CommonType v t) :
    svf.getSizeForValue v = svf.finalSize t := by
  rw [SVFTypes.getSizeForValue, commonType_iff.mpr h]

/-- Without a common type there is no size. -/
theorem getSizeForValue_of_not (h : ∀ t, ¬ svf.CommonType v t) : svf.getSizeForValue v = -1 := by
  unfold SVFTypes.getSizeForValue
  cases hfinal : svf.finalType none ((svf.getExpandedFIPts v).sort (· ≤ ·)) with
  | none => rfl
  | some o =>
      cases o with
      | none => rfl
      | some t => exact absurd (commonType_iff.mp hfinal) (h t)

/-! ## The size of the common type -/

/-- The size of an array, from the exact product. -/
theorem arraySize_eq (hsvf : svf.Flattens) (n : Nat) (elem : Ty) :
    int32 (int32 (svf.getNumOfFlattenElements (.array n elem)) * int32 (svf.getByteSize elem)) =
      int32 (svf.arrayLeaves n elem * svf.getByteSize elem) := by
  rw [int32_mul, hsvf.leaves]

/-- What has no elements has no bytes. -/
theorem Flattens.byteSize_eq_zero (hsvf : svf.Flattens) :
    ∀ {t : Ty}, totalElemNum t = 0 → svf.getByteSize t = 0
  | .array n elem, h => by
      rw [hsvf.bytes]
      obtain h | h := Nat.mul_eq_zero.mp h
      · rw [h, Nat.zero_mul]
      · rw [hsvf.byteSize_eq_zero h, Nat.mul_zero]

/-- With leaves for elements the product is the size. -/
theorem arraySize_le_of_leaf (hleaf : svf.getNumOfFlattenElements elem ≤ 1) :
    int32 (n * svf.getNumOfFlattenElements elem * svf.getByteSize elem) ≤
      (n * svf.getByteSize elem : Nat) := by
  have hcast : (n * svf.getNumOfFlattenElements elem * svf.getByteSize elem : Int) =
      (n * svf.getNumOfFlattenElements elem * svf.getByteSize elem : Nat) := by push_cast; rfl
  rw [hcast]
  refine (int32_le _).trans ?_
  have hle : n * svf.getNumOfFlattenElements elem * svf.getByteSize elem ≤
      n * svf.getByteSize elem := by
    have := Nat.mul_le_mul_left n hleaf
    rw [Nat.mul_one] at this
    exact Nat.mul_le_mul_right _ this
  exact_mod_cast hle

/-- Without overflow the size is too large for an array of aggregates. -/
theorem lt_arraySize (hmany : 1 < svf.getNumOfFlattenElements elem)
    (hpos : n * svf.getByteSize elem ≠ 0)
    (hlt : n * svf.getNumOfFlattenElements elem * svf.getByteSize elem < 2 ^ 31) :
    ((n * svf.getByteSize elem : Nat) : Int) <
      int32 (n * svf.getNumOfFlattenElements elem * svf.getByteSize elem) := by
  have hcast : (n * svf.getNumOfFlattenElements elem * svf.getByteSize elem : Int) =
      (n * svf.getNumOfFlattenElements elem * svf.getByteSize elem : Nat) := by push_cast; rfl
  rw [hcast, int32_of_lt hlt]
  have hswap : n * svf.getNumOfFlattenElements elem * svf.getByteSize elem =
      svf.getNumOfFlattenElements elem * (n * svf.getByteSize elem) := by
    rw [Nat.mul_comm n, Nat.mul_assoc]
  have hgt : n * svf.getByteSize elem <
      n * svf.getNumOfFlattenElements elem * svf.getByteSize elem := by
    rw [hswap]
    exact (Nat.lt_mul_iff_one_lt_left (Nat.pos_of_ne_zero hpos)).mpr hmany
  exact_mod_cast hgt

theorem arraySize_le_iff (hsvf : svf.Flattens) :
    svf.finalSize (.array n elem) ≤ svf.getByteSize (.array n elem) ↔
      svf.SizeWithin (.array n elem) := by
  show int32 (int32 _ * int32 _) ≤ _ ↔ _
  rw [arraySize_eq hsvf, hsvf.bytes, SizeWithin, arrayLeaves, totalElemNum]
  by_cases hn : n = 0
  · rw [if_pos hn, if_pos (by rw [hn, Nat.zero_mul]), Nat.cast_one, one_mul, hn, Nat.zero_mul,
      Nat.cast_zero]
  rw [if_neg hn]
  by_cases helem : totalElemNum elem = 0
  · have hbytes := hsvf.byteSize_eq_zero helem
    refine iff_of_true ?_ (Or.inr (Or.inl hbytes))
    rw [hbytes, Nat.cast_zero, mul_zero, Nat.mul_zero]
    decide
  rw [if_neg (Nat.mul_ne_zero hn helem), Nat.cast_mul]
  by_cases hleaf : svf.getNumOfFlattenElements elem ≤ 1
  · exact iff_of_true (arraySize_le_of_leaf hleaf) (Or.inl hleaf)
  by_cases hzero : svf.getByteSize elem = 0
  · refine iff_of_true ?_ (Or.inr (Or.inl hzero))
    rw [hzero, Nat.cast_zero, mul_zero, Nat.mul_zero]
    decide
  by_cases hlt : n * svf.getNumOfFlattenElements elem * svf.getByteSize elem < 2 ^ 31
  · have hpos := Nat.mul_ne_zero hn hzero
    refine iff_of_false (Int.not_le.mpr (lt_arraySize (by omega) hpos hlt)) ?_
    rintro (h | h | ⟨h, -⟩)
    · exact hleaf h
    · exact hzero h
    · omega
  · constructor
    · intro h
      exact Or.inr (Or.inr ⟨by omega, h⟩)
    · rintro (h | h | ⟨-, h⟩)
      · exact absurd h hleaf
      · exact absurd h hzero
      · exact h

/-- The size worked out for a type and the size of an object of the type. -/
theorem finalSize_le_iff (hsvf : svf.Flattens) (t : Ty) :
    svf.finalSize t ≤ svf.getByteSize t ↔ svf.SizeWithin t := by
  have hnone : (-1 : Int) ≤ svf.getByteSize t := by omega
  cases t with
  | array n elem => exact arraySize_le_iff hsvf
  | struct s => exact iff_of_true (int32_le _) trivial
  | ptr t =>
      cases t with
      | array n elem =>
          show int32 (int32 _ * int32 _) ≤ _ ↔ _
          rw [arraySize_eq hsvf]
          rfl
      | struct s => exact Iff.rfl
      | _ => exact iff_of_true hnone trivial
  | _ => exact iff_of_true hnone trivial

end SVFTypes

/-- **The size from the points-to analysis** is no object's overestimate exactly if the common type
of the objects is fit for it. -/
theorem svf_size_iff (svf : SVFTypes) (hsvf : svf.Flattens) (v : Value) :
    svf.SizeSound v ↔ ∀ t, svf.CommonType v t → svf.SizeWithin t := by
  unfold SVFTypes.SizeSound
  constructor
  · intro h t ht
    rw [← SVFTypes.finalSize_le_iff hsvf]
    rw [ht.getSizeForValue] at h
    obtain ⟨⟨id, hid, htype⟩, -⟩ := ht
    rcases Int.lt_or_le (svf.finalSize t) 0 with hneg | hpos
    · omega
    · exact h hpos id hid t htype
  · intro h hpos id hid t htype
    by_cases hcommon : ∃ t, svf.CommonType v t
    · obtain ⟨t', ht'⟩ := hcommon
      obtain rfl := ht'.2 id hid t htype
      rw [ht'.getSizeForValue]
      exact (SVFTypes.finalSize_le_iff hsvf t).mpr (h t ht')
    · have hnone := SVFTypes.getSizeForValue_of_not fun t ht => hcommon ⟨t, ht⟩
      omega

/-! ## One object -/

/-- The leaves of nested arrays, for types without structs. -/
def leavesOf : Ty → Nat
  | .array n elem => if SVFTypes.totalElemNum (.array n elem) = 0 then 1 else n * leavesOf elem
  | _ => 1

/-- Bytes, for types without structs. -/
def byteSizeOf : Ty → Nat
  | .int w => (w + 7) / 8
  | .array n elem => n * byteSizeOf elem
  | _ => 8

/-- Everything points to one object of type `t`. -/
def oneObject (t : Ty) : SVFTypes where
  getExpandedFIPts _ := {0}
  getBaseObj := id
  isStackObject _ := true
  isHeapObject _ := false
  isGlobalObject _ := false
  getAlloca _ := none
  getMalloc _ := none
  getGlobal _ := none
  getType _ := some t
  getByteSize := byteSizeOf
  getNumOfFlattenElements := leavesOf

theorem oneObject_flattens (t : Ty) : (oneObject t).Flattens := ⟨fun _ _ => rfl, fun _ _ => rfl⟩

theorem oneObject_commonType (t : Ty) (v : Value) : (oneObject t).CommonType v t :=
  ⟨⟨0, Finset.mem_singleton_self 0, rfl⟩, fun _ _ _ hu => (Option.some.inj hu).symm⟩

/-- The size of `int a[8]` is its size. -/
theorem svf_size_of_flat_array : (oneObject (.array 8 (.int 32))).SizeSound (.arg 0 0) := by
  refine (svf_size_iff _ (oneObject_flattens _) _).mpr fun t ht => ?_
  obtain ⟨⟨id, -, hid⟩, -⟩ := ht
  obtain rfl : Ty.array 8 (.int 32) = t := Option.some.inj hid
  exact Or.inl (by decide)

/-- The size of `int a[2][4]` is taken to be 128, and it is 32. -/
theorem svf_size_of_nested_array :
    (oneObject (.array 2 (.array 4 (.int 32)))).getSizeForValue (.arg 0 0) = 128 ∧
      (oneObject (.array 2 (.array 4 (.int 32)))).getByteSize (.array 2 (.array 4 (.int 32))) =
        32 ∧
      ¬ (oneObject (.array 2 (.array 4 (.int 32)))).SizeSound (.arg 0 0) := by
  have hsize : (oneObject (.array 2 (.array 4 (.int 32)))).getSizeForValue (.arg 0 0) = 128 := by
    rw [(oneObject_commonType _ _).getSizeForValue]
    decide
  refine ⟨hsize, by decide, fun h => ?_⟩
  have hle := h (by omega) 0 (Finset.mem_singleton_self 0) _ rfl
  rw [hsize] at hle
  exact absurd hle (by decide)

end MSV
