import MSV.Range.Verdict

/-!
# What an unflagged GEP guarantees

A GEP is in bounds when its leading index is zero and every later index is inside the array or
struct it steps over. The verdict examines a single index, so for an unflagged GEP the recorded
ranges promise this of the examined index of an array and of no other.

**Theorem (`unflagged_in_bounds_iff`).** An unflagged GEP is in bounds, for every choice of
index values within the recorded ranges, exactly when the ranges of the indices the verdict did
not examine already say so.

The statement is over all vectors of index values. `forall_vector_iff` turns it into one about
each range on its own: a product of ranges is inside a product of intervals exactly when each
range is, unless some range is empty.
-/

namespace MSV

/-! ## Vectors of values -/

section Vectors

variable {α β ι : Type*} {R : α → ι → Prop} {Q : β → ι → Prop}

theorem exists_vector (as : List α) (h : ∀ a ∈ as, ∃ x, R a x) : ∃ xs, List.Forall₂ R as xs := by
  induction as with
  | nil => exact ⟨[], .nil⟩
  | cons a as ih =>
      obtain ⟨x, hx⟩ := h a (by simp)
      obtain ⟨xs, hxs⟩ := ih fun b hb => h b (by simp [hb])
      exact ⟨x :: xs, .cons hx hxs⟩

theorem exists_of_forall₂ {as : List α} {xs : List ι} (h : List.Forall₂ R as xs) {a : α}
    (ha : a ∈ as) : ∃ x, R a x := by
  induction h with
  | nil => simp at ha
  | cons hx _ ih =>
      rcases List.mem_cons.mp ha with rfl | ha
      · exact ⟨_, hx⟩
      · exact ih ha

theorem forall₂_of_each {as : List α} {bs : List β}
    (h : List.Forall₂ (fun a b => ∀ x, R a x → Q b x) as bs) {xs : List ι}
    (hxs : List.Forall₂ R as xs) : List.Forall₂ Q bs xs := by
  induction h generalizing xs with
  | nil => cases hxs; exact .nil
  | cons hab _ ih =>
      cases hxs with
      | cons hx hxs => exact .cons (hab _ hx) (ih hxs)

theorem each_of_forall₂ {as : List α} {bs : List β} (hne : ∀ a ∈ as, ∃ x, R a x)
    (hlen : as.length = bs.length)
    (h : ∀ xs, List.Forall₂ R as xs → List.Forall₂ Q bs xs) :
    List.Forall₂ (fun a b => ∀ x, R a x → Q b x) as bs := by
  induction as generalizing bs with
  | nil =>
      cases bs with
      | nil => exact .nil
      | cons b bs => simp at hlen
  | cons a as ih =>
      cases bs with
      | nil => simp at hlen
      | cons b bs =>
          obtain ⟨x, hx⟩ := hne a (by simp)
          obtain ⟨xs, hxs⟩ := exists_vector as fun c hc => hne c (by simp [hc])
          refine .cons (fun y hy => ?_) (ih (fun c hc => hne c (by simp [hc])) (by simpa using hlen)
            fun ys hys => ?_)
          · exact (List.forall₂_cons.mp (h _ (.cons hy hxs))).1
          · exact (List.forall₂_cons.mp (h _ (.cons hx hys))).2

/-- Every vector drawn from `as` fits `bs` exactly when nothing can be drawn or each entry fits. -/
theorem forall_vector_iff {as : List α} {bs : List β} (hlen : as.length = bs.length) :
    (∀ xs, List.Forall₂ R as xs → List.Forall₂ Q bs xs) ↔
      (∃ a ∈ as, ∀ x, ¬ R a x) ∨ List.Forall₂ (fun a b => ∀ x, R a x → Q b x) as bs := by
  constructor
  · intro h
    by_cases hne : ∃ a ∈ as, ∀ x, ¬ R a x
    · exact Or.inl hne
    · push Not at hne
      exact Or.inr (each_of_forall₂ hne hlen h)
  · rintro (⟨a, ha, hnone⟩ | h) xs hxs
    · obtain ⟨x, hx⟩ := exists_of_forall₂ hxs ha
      exact absurd hx (hnone x)
    · exact forall₂_of_each h hxs

end Vectors

/-! ## The levels of a GEP -/

/-- What an index of a GEP steps over: the leading index over whole objects, a later one over the
elements of an aggregate, or (in a vector) over something that is neither array nor struct. -/
inductive Level where
  | pointer
  | aggregate (n : Nat)
  | free
deriving DecidableEq

/-- The index stays inside the level. -/
def Level.Inside : Level → Int → Prop
  | .pointer, x => x = 0
  | .aggregate n, x => 0 ≤ x ∧ x < n
  | .free, _ => True

/-- The range is a constant one, and inside the level. -/
def RangeValue.Within : RangeValue → Level → Prop
  | .constant l r, .pointer => l.toInt = 0 ∧ r.toInt = 0
  | .constant l r, .aggregate n => 0 ≤ l.toInt ∧ r.toInt < n
  | _, .free => True
  | _, _ => False

/-- No integer is in the range. -/
def RangeValue.Empty : RangeValue → Prop
  | .constant l r => r.toInt < l.toInt
  | _ => False

theorem RangeValue.empty_iff (r : RangeValue) : r.Empty ↔ ∀ x, ¬ r.Contains x := by
  cases r with
  | unknown => simp [Empty, Contains]
  | infinity => simp [Empty, Contains]
  | constant l r =>
      simp only [Empty, Contains]
      constructor
      · intro h x hx; omega
      · intro h; have := h l.toInt; omega

theorem RangeValue.within_iff {r : RangeValue} (hne : ¬ r.Empty) (L : Level) :
    (∀ x, r.Contains x → L.Inside x) ↔ r.Within L := by
  cases r with
  | constant l r =>
      simp only [Empty, not_lt] at hne
      cases L with
      | free => simp [Level.Inside, Within]
      | pointer =>
          simp only [Contains, Level.Inside, Within]
          constructor
          · intro h; exact ⟨h _ ⟨le_refl _, hne⟩, h _ ⟨hne, le_refl _⟩⟩
          · intro h x hx; omega
      | aggregate n =>
          simp only [Contains, Level.Inside, Within]
          constructor
          · intro h; exact ⟨(h _ ⟨le_refl _, hne⟩).1, (h _ ⟨hne, le_refl _⟩).2⟩
          · intro h x hx; omega
  | unknown =>
      cases L with
      | free => simp [Level.Inside, Within]
      | pointer => simpa [Contains, Level.Inside, Within] using ⟨1, by omega⟩
      | aggregate n => simpa [Contains, Level.Inside, Within] using ⟨-1, by omega⟩
  | infinity =>
      cases L with
      | free => simp [Level.Inside, Within]
      | pointer => simpa [Contains, Level.Inside, Within] using ⟨1, by omega⟩
      | aggregate n => simpa [Contains, Level.Inside, Within] using ⟨-1, by omega⟩

section

variable (M : Module)

/-- The field type a struct index selects; the IR allows only constants there. -/
def selectField (s : StructId) : Value → Ty
  | .constInt c => (M.structs s).getD c.toNat .void
  | _ => .void

/-- The levels the indices after the leading one step over, starting inside a value of type
`ty`. -/
def innerLevels : Ty → List Value → List Level
  | _, [] => []
  | .array n elem, _ :: vs => .aggregate n :: innerLevels elem vs
  | .struct s, v :: vs => .aggregate (M.structs s).length :: innerLevels (selectField M s v) vs
  | .vector _ elem, _ :: vs => .free :: innerLevels elem vs
  | _, _ :: vs => .free :: innerLevels .void vs

/-- The levels of all indices of a GEP over `src`. -/
def gepLevels (src : Ty) : List Value → List Level
  | [] => []
  | _ :: vs => .pointer :: innerLevels M src vs

/-- The same, with nothing asked of the index an array verdict has examined. -/
def uncheckedLevels (src : Ty) : List Value → List Level
  | _ :: v :: vs =>
      match src with
      | .array _ elem => .pointer :: .free :: innerLevels M elem vs
      | src => .pointer :: innerLevels M src (v :: vs)
  | vs => gepLevels M src vs

theorem length_innerLevels (ty : Ty) (vs : List Value) :
    (innerLevels M ty vs).length = vs.length := by
  induction vs generalizing ty with
  | nil => cases ty <;> rfl
  | cons v vs ih => cases ty <;> simp [innerLevels, ih]

theorem length_gepLevels (src : Ty) (vs : List Value) :
    (gepLevels M src vs).length = vs.length := by
  cases vs with
  | nil => rfl
  | cons v vs => simp [gepLevels, length_innerLevels]

end

/-! ## The property and the condition -/

/-- The range recorded for an index; a constant is its own range. -/
def recordedRange (state : RangeState) : Value → RangeValue
  | .constInt c => .constant c c
  | v => state.get v

section

variable (M : Module) (DL : DataLayout)

/-- Whatever values within their recorded ranges the indices take, the GEP is in bounds. -/
def IndicesInBounds (src : Ty) (indices : List Value) (state : RangeState) : Prop :=
  ∀ xs : List Int, List.Forall₂ (fun v x => (recordedRange state v).Contains x) indices xs →
    List.Forall₂ Level.Inside (gepLevels M src indices) xs

/-- The recorded ranges of the indices that the verdict does not examine are inside their levels,
unless the ranges admit no index values at all. -/
def UncheckedWithin (src : Ty) (indices : List Value) (state : RangeState) : Prop :=
  (∃ v ∈ indices, (recordedRange state v).Empty) ∨
    List.Forall₂ (fun v L => (recordedRange state v).Within L) indices
      (uncheckedLevels M src indices)

/-- An array index the verdict objects to: it is not recorded inside the array, or its byte offset
exceeds the array. -/
def ArrayOutside (n : Nat) (elem : Ty) (state : RangeState) : Value → Prop
  | .constInt c =>
      c.toInt < 0 ∨ n ≤ c.toNat ∨
        DL.allocSize (.array n elem) < u64 (c.getLimitedValue * DL.allocSize elem)
  | v => ∀ l r, state.get v = .constant l r → l.toInt < 0 ∨ n ≤ r.toNat

/-- A struct index the verdict objects to: a constant beyond the last field, or whose field starts
beyond the struct, or an index without a constant range. -/
def StructOutside (s : StructId) (state : RangeState) : Value → Prop
  | .constInt c =>
      (M.structs s).length ≤ c.getLimitedValue ∨
        0 ≤ c.toInt ∧ c.toNat < (M.structs s).length ∧
          DL.allocSize (.struct s) < DL.elementOffset s c.getLimitedValue
  | v => ∀ l r, state.get v ≠ .constant l r

/-- The verdict objects to the index it examines. -/
def ExaminedOutside (src : Ty) (indices : List Value) (state : RangeState) : Prop :=
  ∃ v, examinedIndex indices = some v ∧
    match src with
    | .array n elem => ArrayOutside DL n elem state v
    | .struct s => StructOutside M DL s state v
    | _ => False

/-! ## The verdict -/

variable {M DL}

theorem arrayVerdict_iff {n : Nat} {elem : Ty} {v : Value} {state : RangeState} :
    arrayVerdict DL n elem v state = true ↔ ArrayOutside DL n elem state v := by
  cases v with
  | constInt c =>
      simp only [arrayVerdict, ArrayOutside, APInt.isNegative, APInt.uge]
      by_cases h1 : c.toInt < 0
      · simp [h1]
      · by_cases h2 : n ≤ c.toNat <;> simp [h1, h2]
  | _ =>
      simp only [arrayVerdict, ArrayOutside, APInt.isNegative, APInt.uge]
      split
      · rename_i l r h; simp [h]
      · rename_i h; simp only [true_iff]; intro l r hlr; exact absurd hlr (h l r)

theorem structVerdict_iff {s : StructId} {v : Value} {state : RangeState} :
    structVerdict DL s (M.structs s).length v state = true ↔ StructOutside M DL s state v := by
  cases v with
  | constInt c =>
      simp only [structVerdict, StructOutside, APInt.isNegative, APInt.uge]
      by_cases h1 : c.getLimitedValue < (M.structs s).length
      · have h1' : ¬ (M.structs s).length ≤ c.getLimitedValue := by omega
        by_cases h2 : c.toInt < 0
        · simp [h1, h1', h2]
        · by_cases h3 : (M.structs s).length ≤ c.toNat
          · simp [h1, h1', h3]
          · have h2' : 0 ≤ c.toInt := by omega
            have h3' : c.toNat < (M.structs s).length := by omega
            simp [h1, h1', h2, h2', h3, h3']
      · have h1' : (M.structs s).length ≤ c.getLimitedValue := by omega
        simp [h1, h1']
  | _ =>
      simp only [structVerdict, StructOutside]
      split
      · rename_i l r h; simp [h]
      · rename_i h; simp only [true_iff]; exact h

theorem gepVerdict_iff {info : VariableInfo} {src : Ty} {indices : List Value} {state : RangeState}
    (hagg : (∃ n elem, src = .array n elem) ∨ ∃ s, src = .struct s) :
    gepVerdict M DL info src indices state = true ↔ ExaminedOutside M DL src indices state := by
  unfold gepVerdict ExaminedOutside
  cases examinedIndex indices with
  | none => simp
  | some v =>
      rcases hagg with ⟨n, elem, rfl⟩ | ⟨s, rfl⟩
      · simpa using arrayVerdict_iff
      · simpa using structVerdict_iff

/-- An array index the verdict does not object to is recorded inside the array. -/
theorem within_of_not_arrayOutside {n : Nat} {elem : Ty} {v : Value} {state : RangeState}
    (h : ¬ ArrayOutside DL n elem state v) :
    (recordedRange state v).Within (.aggregate n) := by
  cases v with
  | constInt c =>
      simp only [ArrayOutside, not_or, not_lt, not_le] at h
      have := APInt.toInt_of_nonneg h.1
      exact ⟨h.1, by omega⟩
  | _ =>
      simp only [ArrayOutside] at h
      push Not at h
      obtain ⟨l, r, hlr, hl, hr⟩ := h
      have := r.toInt_le_toNat
      simp only [recordedRange, hlr]
      exact ⟨hl, by omega⟩

/-! ## The set of unsafe GEPs -/

variable {heapSeqPointerSet : FMap Value VariableInfo} {T : AnalysisState} {g : InstId}
  {src : Ty} {base : Value} {indices : List Value} {info : VariableInfo}

theorem has_visitKey (hkind : M.kindOf (.inst g) = some (.gep src base indices))
    (hinfo : T.GetPointerVariableInfo (.inst g) = some info)
    (hseq : heapSeqPointerSet.has (.inst g)) (result : RangeResult)
    (s : FMap Value VariableInfo) (key : Value) :
    (visitKey M DL heapSeqPointerSet T result s key).has (.inst g) ↔ s.has (.inst g) ∨
      (key = .inst g ∧
        gepVerdict M DL info src indices (getIncomingState M result g) = true) := by
  by_cases hkey : key = .inst g
  · subst hkey
    simp only [visitKey, hkind, hinfo, hseq, true_and]
    split_ifs with hv <;> simp [hv]
  · have hkeep : ∀ i, (FMap.set s key i).has (.inst g) ↔ s.has (.inst g) := by
      intro i
      rw [FMap.has_set]
      simp [Ne.symm hkey]
    unfold visitKey
    split
    · split_ifs
      · simp [hkeep, hkey]
      · simp [hkey]
    · simp [hkey]

/-- The GEP is in the set exactly when the verdict objects in some context that visited it. -/
theorem has_heapUnsafeSeqPointerSet (hkind : M.kindOf (.inst g) = some (.gep src base indices))
    (hinfo : T.GetPointerVariableInfo (.inst g) = some info)
    (hseq : heapSeqPointerSet.has (.inst g)) (results : RangeResults) :
    (heapUnsafeSeqPointerSet M DL heapSeqPointerSet T results).has (.inst g) ↔
      ∃ e ∈ results.entries, e.2.has (.inst g) ∧
        gepVerdict M DL info src indices (getIncomingState M e.2 g) = true := by
  unfold heapUnsafeSeqPointerSet
  rw [FMap.has_foldl (P := fun e => e.2.has (.inst g) ∧
    gepVerdict M DL info src indices (getIncomingState M e.2 g) = true)]
  · simp
  · intro s e
    rw [FMap.has_foldl fun m x => has_visitKey hkind hinfo hseq e.2 m x.1,
      ← FMap.mem_keys_iff_has (m := e.2)]
    simp only [← and_assoc, exists_and_right]

/-! ## In bounds, range by range -/

theorem indicesInBounds_iff {state : RangeState} :
    IndicesInBounds M src indices state ↔
      (∃ v ∈ indices, (recordedRange state v).Empty) ∨
        List.Forall₂ (fun v L => (recordedRange state v).Within L) indices
          (gepLevels M src indices) := by
  unfold IndicesInBounds
  rw [forall_vector_iff (length_gepLevels M src indices).symm]
  simp only [← RangeValue.empty_iff]
  by_cases hne : ∃ v ∈ indices, (recordedRange state v).Empty
  · simp [hne]
  · push Not at hne
    have hiff : ∀ {vs : List Value} {Ls : List Level},
        (∀ v ∈ vs, ¬ (recordedRange state v).Empty) →
        (List.Forall₂ (fun v L => ∀ x, (recordedRange state v).Contains x → L.Inside x) vs Ls ↔
          List.Forall₂ (fun v L => (recordedRange state v).Within L) vs Ls) := by
      intro vs
      induction vs with
      | nil => intro Ls _; cases Ls <;> simp
      | cons v vs ih =>
          intro Ls h
          cases Ls with
          | nil => simp
          | cons L Ls =>
              rw [List.forall₂_cons, List.forall₂_cons, ih fun w hw => h w (by simp [hw]),
                RangeValue.within_iff (h v (by simp))]
    rw [hiff hne]

/-- Where the verdict does not object, being in bounds is left to the unexamined indices. -/
theorem inBounds_iff_unchecked {state : RangeState}
    (h : ¬ ExaminedOutside M DL src indices state) :
    IndicesInBounds M src indices state ↔ UncheckedWithin M src indices state := by
  rw [indicesInBounds_iff, UncheckedWithin]
  -- The two lists of levels differ only at the second index of an array.
  match indices, src, h with
  | [], _, _ => rfl
  | [_], _, _ => rfl
  | u :: v :: vs, .array n elem, h =>
      have hv : (recordedRange state v).Within (.aggregate n) :=
        within_of_not_arrayOutside fun hout => h ⟨v, rfl, hout⟩
      have hfree : (recordedRange state v).Within .free := by
        cases recordedRange state v <;> trivial
      simp [gepLevels, innerLevels, uncheckedLevels, hv, hfree]
  | _ :: _ :: _, .struct _, _ => rfl
  | _ :: _ :: _, .vector _ _, _ => rfl
  | _ :: _ :: _, .void, _ => rfl
  | _ :: _ :: _, .int _, _ => rfl
  | _ :: _ :: _, .float _, _ => rfl
  | _ :: _ :: _, .ptr _, _ => rfl
  | _ :: _ :: _, .func _, _ => rfl

/-- **When the verdict is sound.** For an aggregate GEP of the set: being unflagged guarantees that
it is in bounds in every context that visited it, if and only if the verdict objects in some
context, or in every context the ranges of the unexamined indices are inside their levels. -/
theorem unflagged_in_bounds_iff (results : RangeResults)
    (hkind : M.kindOf (.inst g) = some (.gep src base indices))
    (hagg : (∃ n elem, src = .array n elem) ∨ ∃ s, src = .struct s)
    (hseq : heapSeqPointerSet.has (.inst g))
    (hinfo : T.GetPointerVariableInfo (.inst g) = some info) :
    (¬ (heapUnsafeSeqPointerSet M DL heapSeqPointerSet T results).has (.inst g) →
        ∀ e ∈ results.entries, e.2.has (.inst g) →
          IndicesInBounds M src indices (getIncomingState M e.2 g)) ↔
      (∃ e ∈ results.entries, e.2.has (.inst g) ∧
        ExaminedOutside M DL src indices (getIncomingState M e.2 g)) ∨
      ∀ e ∈ results.entries, e.2.has (.inst g) →
        UncheckedWithin M src indices (getIncomingState M e.2 g) := by
  rw [has_heapUnsafeSeqPointerSet hkind hinfo hseq]
  simp only [gepVerdict_iff hagg]
  by_cases hflag : ∃ e ∈ results.entries, e.2.has (.inst g) ∧
      ExaminedOutside M DL src indices (getIncomingState M e.2 g)
  · simp only [hflag, not_true_eq_false, true_or, iff_true]
    exact fun h => h.elim
  · simp only [hflag, not_false_eq_true, false_or, true_imp_iff]
    have hclear : ∀ e ∈ results.entries, e.2.has (.inst g) →
        ¬ ExaminedOutside M DL src indices (getIncomingState M e.2 g) :=
      fun e he hkey hout => hflag ⟨e, he, hkey, hout⟩
    exact forall_congr' fun e => forall_congr' fun he => forall_congr' fun hkey =>
      inBounds_iff_unchecked (hclear e he hkey)

end

/-! ## Two GEPs over a global array -/

/-- Sizes in bytes, for modules without structs. -/
def bytesOf : Ty → Nat
  | .int w => (w + 7) / 8
  | .array n elem => n * bytesOf elem
  | _ => 8

def structlessLayout : DataLayout where
  allocSize := bytesOf
  storeSize := bytesOf
  elementOffset := fun _ _ => 0

/-- `%g = getelementptr [10 x i32], [10 x i32]* @a, i64 i, i64 j`, in the entry function. -/
def arrayModule (i j : Nat) : Module where
  structs := fun _ => []
  globals := [(0, .array 10 (.int 32))]
  funcs := [⟨0, "main", [], [⟨0, [
    ⟨0, .ptr (.int 32), .gep (.array 10 (.int 32)) (.global 0) [sizeConst i, sizeConst j]⟩,
    ⟨1, .void, .ret none⟩]⟩]⟩]

/-- One step of the range analysis of that module. -/
def arrayStep (i j : Nat) : Engine RangeValue → Option (Engine RangeValue) :=
  Engine.step (arrayModule i j) (rangePolicy (arrayModule i j) structlessLayout) false fun _ => [0]

/-- The analysis of that module after six steps, when it is over. -/
def arrayEnd (i j : Nat) : Engine RangeValue := stepN (arrayStep i j) 6 (Engine.initial [0])

/-- The GEP, as the classification hands it over. -/
def arraySeqPointers : FMap Value VariableInfo :=
  FMap.set ∅ (.inst 0) { VariableInfo.registered with classification := .seq }

/-- The verdict of the analysis on that module. -/
def arrayUnsafe (i j : Nat) : FMap Value VariableInfo :=
  heapUnsafeSeqPointerSet (arrayModule i j) structlessLayout arraySeqPointers
    ⟨1, arraySeqPointers⟩ (arrayEnd i j).allResults

/-- With indices `0, 3` the GEP is unflagged and in bounds. -/
theorem unflagged_in_bounds_zero_three :
    (arrayStep 0 3 (arrayEnd 0 3)).isNone = true ∧ ¬ (arrayUnsafe 0 3).has (.inst 0) ∧
      ∀ e ∈ (arrayEnd 0 3).allResults.entries, e.2.has (.inst 0) →
        IndicesInBounds (arrayModule 0 3) (.array 10 (.int 32)) [sizeConst 0, sizeConst 3]
          (getIncomingState (arrayModule 0 3) e.2 0) := by
  have hflag : ¬ (arrayUnsafe 0 3).has (.inst 0) := by decide
  refine ⟨by decide, hflag, (unflagged_in_bounds_iff (arrayEnd 0 3).allResults rfl
    (Or.inl ⟨10, .int 32, rfl⟩) (by decide) rfl).mpr (Or.inr fun e _ _ => Or.inr ?_) hflag⟩
  exact .cons ⟨by decide, by decide⟩ (.cons trivial .nil)

/-- With indices `5, 0` the GEP is visited and unflagged, and out of bounds: it is five whole
arrays past the base. -/
theorem unflagged_out_of_bounds_five_zero :
    (arrayStep 5 0 (arrayEnd 5 0)).isNone = true ∧
      ((arrayEnd 5 0).results (none, 0)).has (.inst 0) ∧
      ¬ (¬ (arrayUnsafe 5 0).has (.inst 0) →
        ∀ e ∈ (arrayEnd 5 0).allResults.entries, e.2.has (.inst 0) →
          IndicesInBounds (arrayModule 5 0) (.array 10 (.int 32)) [sizeConst 5, sizeConst 0]
            (getIncomingState (arrayModule 5 0) e.2 0)) := by
  refine ⟨by decide, by decide, fun h => ?_⟩
  have hentry : ⟨(none, 0), (arrayEnd 5 0).results (none, 0)⟩ ∈
      (arrayEnd 5 0).allResults.entries := by
    rw [← AList.mem_lookup_iff]; rfl
  have hin := h (by decide) _ hentry (by decide) [5, 0]
    (.cons ⟨by decide, by decide⟩ (.cons ⟨by decide, by decide⟩ .nil))
  cases hin with
  | cons hlead _ => exact absurd (show (5 : Int) = 0 from hlead) (by decide)

end MSV
