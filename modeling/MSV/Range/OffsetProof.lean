import MSV.Range.VerdictProof

/-!
# The bytes behind a GEP

`handleGEP` takes the lower end of every index range, scales it by the size of the result's element
type, and takes the sum off the bytes that are available behind the base. LLVM scales every index by
the type it steps over, and a range has more values than its lower end.

**Theorem (`gep_sound_iff`).** The bytes recorded for a GEP are available for every choice of index
values, and exact for single ones, if and only if there is no range, or no index values have an
offset above that sum, and single ones inside the object have just that one.

Where no index value wraps, the greatest offset is that of the upper ends
(`addressOffset_le_iff_upper`).
-/

namespace MSV

/-! ## Byte offsets -/

section

variable (M : Module) (DL : DataLayout)

/-- The offset of index values at a type: a field of a struct, or so many elements. -/
def innerByteOffset : Ty → List Int → Int
  | .struct s, x :: xs =>
      DL.elementOffset s x.toNat + innerByteOffset ((M.structs s).getD x.toNat .void) xs
  | .array _ elem, x :: xs | .vector _ elem, x :: xs =>
      x * DL.allocSize elem + innerByteOffset elem xs
  | _, _ => 0

/-- The offset of the index values of a GEP over `src`: the first one steps over the whole type. -/
def gepByteOffset (src : Ty) : List Int → Int
  | [] => 0
  | x :: xs => x * DL.allocSize src + innerByteOffset M DL src xs

/-- The offset of the address, which is computed at 64 bits. -/
def addressOffset (src : Ty) (xs : List Int) : Nat := (gepByteOffset M DL src xs % 2 ^ 64).toNat

end

/-! ## The property and the condition -/

/-- The range says that `n` bytes are available. No object takes more than half the addresses. -/
def SaysAvailable (R : RangeValue) (n : Nat) : Prop :=
  ∃ l r, R = .constant l r ∧ l.toInt = 0 ∧ r.toInt + 1 = n ∧ 1 ≤ n ∧ n ≤ 2 ^ 63

/-- The range is that of one value. -/
def RangeValue.IsSingle (R : RangeValue) : Prop := ∃ l r, R = .constant l r ∧ l.toInt = r.toInt

/-- Values inside the recorded ranges of the indices. -/
def Admitted (s : RangeState) (indices : List Value) (xs : List Int) : Prop :=
  List.Forall₂ (fun v x => (recordedRange s v).Contains x) indices xs

section

variable (M : Module) (DL : DataLayout)

/-- The bytes that `handleGEP` records are there: `n` bytes are available behind the base. -/
structure RemainingSound (gep : Value) (ty src : Ty) (base : Value) (indices : List Value)
    (s : RangeState) (n : Nat) : Prop where
  available : ∀ l r, (handleGEP DL gep ty base indices s).find gep = some (.constant l r) →
    ∀ xs, Admitted s indices xs → addressOffset M DL src xs + (r.toNat + 1) ≤ n
  exact : ∀ l r, (handleGEP DL gep ty base indices s).find gep = some (.constant l r) →
    (∀ v ∈ indices, (recordedRange s v).IsSingle) → ∀ xs, Admitted s indices xs →
      addressOffset M DL src xs < n → r.toNat + 1 = n - addressOffset M DL src xs

/-- The lower end of the recorded range, read at 64 bits, when it is not negative. -/
def LowerIndex (s : RangeState) (v : Value) (k : Nat) : Prop :=
  ∃ l r, recordedRange s v = .constant l r ∧ (l.sextOrTrunc 64).toInt = k

/-- The lower ends times the size of the result's element bound the offset of all index values, and
are the offset of single ones inside the `n` bytes; unless an index has no lower end or the product
is no less than `n`. -/
def LowerEndsBound (ty src : Ty) (indices : List Value) (s : RangeState) (n : Nat) : Prop :=
  ∀ ks, List.Forall₂ (LowerIndex s) indices ks →
    u64 (ks.sum * DL.allocSize (resultElementType ty)) < n →
      ∀ xs, Admitted s indices xs →
        addressOffset M DL src xs ≤ u64 (ks.sum * DL.allocSize (resultElementType ty)) ∧
          ((∀ v ∈ indices, (recordedRange s v).IsSingle) → addressOffset M DL src xs < n →
            addressOffset M DL src xs = u64 (ks.sum * DL.allocSize (resultElementType ty)))

end

section

variable {M : Module} {DL : DataLayout} {s : RangeState} {v base gep : Value} {n : Nat}
  {ty src : Ty} {indices : List Value}

/-! ## What `handleGEP` records -/

theorem getRangeFor_fst (v : Value) (s : RangeState) : (getRangeFor v s).1 = recordedRange s v := by
  cases v <;> rfl

/-- Reading leaves the recorded ranges. -/
theorem recordedRange_getRangeFor (v w : Value) (s : RangeState) :
    recordedRange (getRangeFor v s).2 w = recordedRange s w := by
  have htouch : ∀ u, recordedRange (s.touch u) w = recordedRange s w := by
    intro u
    cases w with
    | constInt c => rfl
    | _ => exact FMap.get_touch ..
  cases v with
  | constInt c => rfl
  | _ => exact htouch _

theorem LowerIndex.getRangeFor {w : Value} {k : Nat} :
    LowerIndex (getRangeFor v s).2 w k ↔ LowerIndex s w k := by
  unfold LowerIndex
  rw [recordedRange_getRangeFor]

theorem u64_lt (x : Nat) : u64 x < 2 ^ 64 := Nat.mod_lt _ (by decide)

/-- Reading a value leaves the lower ends of the others. -/
theorem forall₂_lowerIndex_getRangeFor {vs : List Value} {ks : List Nat} :
    List.Forall₂ (LowerIndex (getRangeFor v s).2) vs ks ↔ List.Forall₂ (LowerIndex s) vs ks := by
  have hsame : LowerIndex (getRangeFor v s).2 = LowerIndex s := by
    funext w k
    exact propext LowerIndex.getRangeFor
  rw [hsame]

/-- The first lower end is added before the others. -/
theorem exists_lowerEnds_cons {E total o : Nat} {vs : List Value} :
    (∃ ks, List.Forall₂ (LowerIndex s) (v :: vs) ks ∧ o = u64 (total + ks.sum * E)) ↔
      ∃ k, LowerIndex s v k ∧
        ∃ ks, List.Forall₂ (LowerIndex s) vs ks ∧ o = u64 (u64 (total + k * E) + ks.sum * E) := by
  have hsum : ∀ (k : Nat) (ks : List Nat),
      u64 (u64 (total + k * E) + ks.sum * E) = u64 (total + (k :: ks).sum * E) := by
    intro k ks
    unfold u64
    rw [Nat.mod_add_mod, List.sum_cons, Nat.add_mul, Nat.add_assoc]
  constructor
  · rintro ⟨ks, hks, rfl⟩
    cases hks with
    | @cons _ k _ ks hk hks => exact ⟨k, hk, ks, hks, (hsum k ks).symm⟩
  · rintro ⟨k, hk, ks, hks, rfl⟩
    exact ⟨k :: ks, .cons hk hks, hsum k ks⟩

/-- The loop adds up the lower ends. -/
theorem gepOffset_eq_some_iff (E : Nat) {o : Nat} : ∀ (vs : List Value) {total : Nat}
    {s : RangeState}, total < 2 ^ 64 → ((gepOffset E vs total s).1 = some o ↔
      ∃ ks, List.Forall₂ (LowerIndex s) vs ks ∧ o = u64 (total + ks.sum * E))
  | [], total, s, htotal => by
    have hself : u64 (total + ([] : List Nat).sum * E) = total := by
      simp only [List.sum_nil, Nat.zero_mul, Nat.add_zero]
      exact Nat.mod_eq_of_lt htotal
    constructor
    · intro h
      refine ⟨[], .nil, ?_⟩
      rw [hself]
      exact (Option.some.inj h).symm
    · rintro ⟨ks, hks, rfl⟩
      cases hks
      rw [hself]
      rfl
  | v :: vs, total, s, htotal => by
    have hlower : ∀ k, LowerIndex s v k ↔
        ∃ l r, (getRangeFor v s).1 = .constant l r ∧ (l.sextOrTrunc 64).toInt = k := by
      intro k
      rw [getRangeFor_fst]
      rfl
    have hrest : ∀ ks, List.Forall₂ (LowerIndex (getRangeFor v s).2) vs ks ↔
        List.Forall₂ (LowerIndex s) vs ks := fun _ => forall₂_lowerIndex_getRangeFor
    rw [exists_lowerEnds_cons]
    unfold gepOffset
    cases hv : getRangeFor v s with
    | mk R s' =>
        rw [hv] at hlower hrest
        cases R with
        | constant l r =>
            dsimp only
            by_cases hneg : (l.sextOrTrunc 64).toInt < 0
            · rw [if_pos hneg]
              refine iff_of_false (by simp) ?_
              rintro ⟨k, hk, -⟩
              obtain ⟨l', r', heq, hint⟩ := (hlower k).mp hk
              cases heq
              omega
            · rw [if_neg hneg, gepOffset_eq_some_iff E vs (u64_lt _)]
              simp only [hrest]
              constructor
              · intro h
                refine ⟨(l.sextOrTrunc 64).toInt.toNat, (hlower _).mpr ⟨l, r, rfl, by omega⟩, h⟩
              · rintro ⟨k, hk, h⟩
                obtain ⟨l', r', heq, hint⟩ := (hlower k).mp hk
                cases heq
                rw [hint]
                exact h
        | _ =>
            refine iff_of_false (by simp) ?_
            rintro ⟨k, hk, -⟩
            obtain ⟨l', r', heq, -⟩ := (hlower k).mp hk
            cases heq

/-- The constant ranges `handleGEP` records, for a base with `n` bytes. -/
theorem find_handleGEP_iff (DL : DataLayout) (gep : Value) (ty : Ty) (indices : List Value)
    {l r : APInt} (hbase : recordedRange s base = .constant l r) (hn : allocSizeOf r = n)
    (l' r' : APInt) :
    (handleGEP DL gep ty base indices s).find gep = some (.constant l' r') ↔
      ∃ ks, List.Forall₂ (LowerIndex s) indices ks ∧
        u64 (ks.sum * DL.allocSize (resultElementType ty)) < n ∧ l' = APInt.ofNat 64 0 ∧
        r' = APInt.ofNat 64 (n - u64 (ks.sum * DL.allocSize (resultElementType ty)) - 1) := by
  have hoff := fun o => gepOffset_eq_some_iff (o := o) (DL.allocSize (resultElementType ty)) indices
    (s := (getRangeFor base s).2) (Nat.zero_lt_succ _)
  have hsame : LowerIndex (getRangeFor base s).2 = LowerIndex s := by
    funext w k
    exact propext LowerIndex.getRangeFor
  simp only [hsame, Nat.zero_add] at hoff
  unfold handleGEP
  rw [← getRangeFor_fst] at hbase
  cases hb : getRangeFor base s with
  | mk R s' =>
      rw [hb] at hbase hoff
      obtain rfl : R = .constant l r := hbase
      dsimp only at hoff ⊢
      cases hg : gepOffset (DL.allocSize (resultElementType ty)) indices 0 s' with
      | mk o s'' =>
          rw [hg] at hoff
          cases o with
          | none =>
              dsimp only
              rw [FMap.find_set_self]
              refine iff_of_false (by simp) ?_
              rintro ⟨ks, hks, -⟩
              cases (hoff _).mpr ⟨ks, hks, rfl⟩
          | some o =>
              dsimp only
              rw [hn]
              have hunique : ∀ ks, List.Forall₂ (LowerIndex s) indices ks →
                  u64 (ks.sum * DL.allocSize (resultElementType ty)) = o := fun ks hks =>
                (Option.some.inj ((hoff _).mpr ⟨ks, hks, rfl⟩)).symm
              obtain ⟨ks, hks, -⟩ := (hoff o).mp rfl
              by_cases hlt : o < n
              · rw [if_pos hlt, FMap.find_set_self, Option.some.injEq, makeRange,
                  RangeValue.constant.injEq]
                constructor
                · rintro ⟨rfl, rfl⟩
                  exact ⟨ks, hks, by rwa [hunique ks hks], rfl, by rw [hunique ks hks]⟩
                · rintro ⟨ks', hks', -, rfl, rfl⟩
                  rw [hunique ks' hks']
                  exact ⟨rfl, rfl⟩
              · rw [if_neg hlt, FMap.find_set_self]
                refine iff_of_false (by simp) ?_
                rintro ⟨ks', hks', hlt', -⟩
                rw [hunique ks' hks'] at hlt'
                exact hlt hlt'

/-- A number that fits 64 bits is the same there. -/
theorem toInt_sextOrTrunc {r : APInt} (h0 : 0 ≤ r.toInt) (hr : r.toInt < 2 ^ 63) :
    (r.sextOrTrunc 64).toInt = r.toInt := by
  rcases Nat.le_total r.width 64 with hw | hw
  · exact BitVec.toInt_signExtend_of_le hw
  · have hbmod : (r.sextOrTrunc 64).toInt = Int.bmod r.toNat (2 ^ 64) :=
      BitVec.toInt_signExtend_eq_toNat_bmod_of_le hw
    rw [hbmod, ← APInt.toInt_of_nonneg h0]
    exact Int.bmod_eq_of_le_mul_two (by omega) (by omega)

theorem SaysAvailable.allocSizeOf {R : RangeValue} (h : SaysAvailable R n) :
    ∃ l r, R = .constant l r ∧ allocSizeOf r = n := by
  obtain ⟨l, r, rfl, -, hr, hn, hmax⟩ := h
  refine ⟨l, r, rfl, ?_⟩
  have hint : (r.sextOrTrunc 64).toInt = r.toInt := toInt_sextOrTrunc (by omega) (by omega)
  have hnat := (r.sextOrTrunc 64).toInt_of_nonneg (by omega)
  unfold MSV.allocSizeOf u64
  omega

/-! ## The theorem -/

/-- **The bytes recorded for a GEP** are available, and exact for single indices, exactly when the
scaled lower ends bound the offsets. -/
theorem gep_sound_iff (M : Module) (DL : DataLayout) (gep : Value) (ty src : Ty) (base : Value)
    (indices : List Value) (s : RangeState) (n : Nat)
    (hbase : SaysAvailable (recordedRange s base) n) :
    RemainingSound M DL gep ty src base indices s n ↔
      LowerEndsBound M DL ty src indices s n := by
  have hmax : n ≤ 2 ^ 63 := by
    obtain ⟨-, -, -, -, -, -, hmax⟩ := hbase
    exact hmax
  obtain ⟨l, r, hrange, hsize⟩ := hbase.allocSizeOf
  have hfind := find_handleGEP_iff DL gep ty indices hrange hsize
  have htoNat : ∀ o, o < n → (APInt.ofNat 64 (n - o - 1)).toNat + 1 = n - o := by
    intro o ho
    have hmod : (n - o - 1) % 2 ^ 64 = n - o - 1 := Nat.mod_eq_of_lt (by omega)
    rw [APInt.ofNat, APInt.toNat, BitVec.toNat_ofNat, hmod]
    omega
  constructor
  · intro h ks hks hlt xs hxs
    have hrec := (hfind _ _).mpr ⟨ks, hks, hlt, rfl, rfl⟩
    have havail := h.available _ _ hrec xs hxs
    rw [htoNat _ hlt] at havail
    refine ⟨by omega, fun hsingle hin => ?_⟩
    have hexact := h.exact _ _ hrec hsingle xs hxs hin
    rw [htoNat _ hlt] at hexact
    omega
  · intro h
    constructor
    · intro l' r' hrec xs hxs
      obtain ⟨ks, hks, hlt, -, rfl⟩ := (hfind _ _).mp hrec
      have hle := (h ks hks hlt xs hxs).1
      rw [htoNat _ hlt]
      omega
    · intro l' r' hrec hsingle xs hxs hin
      obtain ⟨ks, hks, hlt, -, rfl⟩ := (hfind _ _).mp hrec
      rw [htoNat _ hlt, (h ks hks hlt xs hxs).2 hsingle hin]

/-! ## Without wrapping -/

/-- At a struct the index is a constant, as LLVM has it. -/
def StructIndicesConst (M : Module) : Ty → List Value → Prop
  | .struct s, .constInt c :: vs => StructIndicesConst M ((M.structs s).getD c.toInt.toNat .void) vs
  | .struct _, _ :: _ => False
  | .array _ elem, _ :: vs | .vector _ elem, _ :: vs => StructIndicesConst M elem vs
  | _, _ => True

/-- The upper end of a recorded range that holds integers, none of them negative. -/
def UpperIndex (s : RangeState) (v : Value) (u : Int) : Prop :=
  ∃ l r, recordedRange s v = .constant l r ∧ 0 ≤ l.toInt ∧ l.toInt ≤ r.toInt ∧ r.toInt = u

theorem UpperIndex.contains {u : Int} (h : UpperIndex s v u) :
    (recordedRange s v).Contains u ∧ 0 ≤ u ∧
      ∀ x, (recordedRange s v).Contains x → 0 ≤ x ∧ x ≤ u := by
  obtain ⟨l, r, hv, h0, hlr, rfl⟩ := h
  rw [hv]
  exact ⟨⟨hlr, le_refl _⟩, h0.trans hlr, fun x hx => ⟨h0.trans hx.1, hx.2⟩⟩

theorem scaled_le {x u a b : Int} {size : Nat} (h0 : 0 ≤ x) (hx : x ≤ u) (ha : 0 ≤ a)
    (hab : a ≤ b) : 0 ≤ x * size + a ∧ x * size + a ≤ u * size + b := by
  have hsize : (0 : Int) ≤ size := Int.natCast_nonneg size
  exact ⟨Int.add_nonneg (Int.mul_nonneg h0 hsize) ha,
    Int.add_le_add (Int.mul_le_mul_of_nonneg_right hx hsize) hab⟩

/-- The upper ends have the greatest offset at a type. -/
theorem innerByteOffset_le (src : Ty) {vs : List Value} {us xs : List Int}
    (hconst : StructIndicesConst M src vs) (hus : List.Forall₂ (UpperIndex s) vs us)
    (hxs : Admitted s vs xs) :
    0 ≤ innerByteOffset M DL src xs ∧
      innerByteOffset M DL src xs ≤ innerByteOffset M DL src us := by
  induction hus generalizing src xs with
  | nil =>
      cases hxs
      cases src <;> exact ⟨le_refl _, le_refl _⟩
  | @cons v _ _ _ hu _ ih =>
      obtain ⟨x, xs, hx, hrest, rfl⟩ := List.forall₂_cons_left_iff.mp hxs
      -- an index into an array or a vector scales its element
      have helem : ∀ {elem : Ty}, StructIndicesConst M elem _ →
          0 ≤ x * DL.allocSize elem + innerByteOffset M DL elem xs ∧
            x * DL.allocSize elem + innerByteOffset M DL elem xs ≤
              _ * DL.allocSize elem + innerByteOffset M DL elem _ := fun hconst =>
        have hle := ih _ hconst hrest
        have hxu := hu.contains.2.2 x hx
        scaled_le hxu.1 hxu.2 hle.1 hle.2
      cases src with
      | struct t =>
          cases v with
          | constInt c =>
              -- both are the constant
              obtain ⟨l, r, hv, -, -, rfl⟩ := hu
              obtain ⟨rfl, rfl⟩ : c = l ∧ c = r := by simpa [recordedRange] using hv
              obtain rfl := le_antisymm hx.2 hx.1
              have hle := ih _ hconst hrest
              simp only [innerByteOffset]
              omega
          | _ => cases hconst
      | array n elem => exact helem hconst
      | vector n elem => exact helem hconst
      | _ => exact ⟨le_refl _, le_refl _⟩

theorem gepByteOffset_le {vs : List Value} {us xs : List Int}
    (hconst : StructIndicesConst M src vs.tail) (hus : List.Forall₂ (UpperIndex s) vs us)
    (hxs : Admitted s vs xs) :
    0 ≤ gepByteOffset M DL src xs ∧ gepByteOffset M DL src xs ≤ gepByteOffset M DL src us := by
  cases hus with
  | nil =>
      cases hxs
      exact ⟨le_refl _, le_refl _⟩
  | cons hu hus =>
      cases hxs with
      | cons hx hxs =>
          have hle : 0 ≤ innerByteOffset M DL src _ ∧ innerByteOffset M DL src _ ≤ _ :=
            innerByteOffset_le src hconst hus hxs
          obtain ⟨h0, hxu⟩ := hu.contains.2.2 _ hx
          exact scaled_le h0 hxu hle.1 hle.2

theorem addressOffset_eq {xs : List Int} (h0 : 0 ≤ gepByteOffset M DL src xs)
    (hlt : gepByteOffset M DL src xs < 2 ^ 64) :
    (addressOffset M DL src xs : Int) = gepByteOffset M DL src xs := by
  unfold addressOffset
  rw [Int.emod_eq_of_lt h0 hlt]
  exact Int.toNat_of_nonneg h0

/-- **The worst case.** Where the upper ends do not wrap, they decide. -/
theorem addressOffset_le_iff_upper {us : List Int} (b : Nat)
    (hconst : StructIndicesConst M src indices.tail)
    (hus : List.Forall₂ (UpperIndex s) indices us)
    (hwrap : gepByteOffset M DL src us < 2 ^ 64) :
    (∀ xs, Admitted s indices xs → addressOffset M DL src xs ≤ b) ↔
      gepByteOffset M DL src us ≤ b := by
  have hself : Admitted s indices us := hus.imp fun _ _ hu => hu.contains.1
  constructor
  · intro h
    have hle := h us hself
    have heq := addressOffset_eq (gepByteOffset_le hconst hus hself).1 hwrap
    omega
  · intro h xs hxs
    have hupper : 0 ≤ gepByteOffset M DL src xs ∧ _ ≤ gepByteOffset M DL src us :=
      gepByteOffset_le hconst hus hxs
    obtain ⟨h0, hle⟩ := hupper
    have heq := addressOffset_eq h0 (by omega)
    omega

end

/-! ## A GEP into an array -/

/-- 40 bytes behind the first argument, and the second one from 0 to 9. -/
def arrayState : RangeState :=
  FMap.set (FMap.set ∅ (.arg 0 0) (.constant (.ofNat 64 0) (.ofNat 64 39))) (.arg 0 1)
    (.constant (.ofNat 64 0) (.ofNat 64 9))

/-- `getelementptr [10 x i32], %0, i64 0, i64 3` leaves the last 28 bytes. -/
theorem remaining_sound_at_three :
    RemainingSound (arrayModule 0 3) structlessLayout (.inst 0) (.ptr (.int 32))
      (.array 10 (.int 32)) (.arg 0 0) [sizeConst 0, sizeConst 3] arrayState 40 := by
  refine (gep_sound_iff _ _ _ _ _ _ _ _ _ ⟨_, _, rfl, by decide, by decide, by decide,
    by decide⟩).mpr fun ks hks _ xs hxs => ?_
  obtain ⟨k₀, k₁, rfl, hk₀, hk₁⟩ : ∃ k₀ k₁, ks = [k₀, k₁] ∧ (k₀ : Int) = 0 ∧ (k₁ : Int) = 3 := by
    obtain _ | ⟨⟨_, _, h₀, hk₀⟩, _ | ⟨⟨_, _, h₁, hk₁⟩, _ | _⟩⟩ := hks
    cases h₀
    cases h₁
    exact ⟨_, _, rfl, hk₀.symm, hk₁.symm⟩
  obtain ⟨rfl, rfl⟩ : k₀ = 0 ∧ k₁ = 3 := by omega
  obtain ⟨x₀, x₁, rfl, hx₀, hx₁⟩ : ∃ x₀ x₁, xs = [x₀, x₁] ∧ x₀ = 0 ∧ x₁ = 3 := by
    obtain _ | ⟨hx₀, _ | ⟨hx₁, _ | _⟩⟩ := hxs
    exact ⟨_, _, rfl, le_antisymm hx₀.2 hx₀.1, le_antisymm hx₁.2 hx₁.1⟩
  subst hx₀ hx₁
  have hoff : addressOffset (arrayModule 0 3) structlessLayout (.array 10 (.int 32)) [0, 3] =
    u64 ([0, 3].sum * structlessLayout.allocSize (resultElementType (.ptr (.int 32)))) := by decide
  exact ⟨hoff.le, fun _ _ => hoff⟩

/-- With the second argument for an index all 40 bytes are said to be left, and 4 are when it is
9. -/
theorem remaining_unsound_at_nine :
    ¬ RemainingSound (arrayModule 0 0) structlessLayout (.inst 0) (.ptr (.int 32))
      (.array 10 (.int 32)) (.arg 0 0) [sizeConst 0, .arg 0 1] arrayState 40 := by
  intro h
  have havail := h.available (.ofNat 64 0) (.ofNat 64 39) (by decide) [0, 9]
    (.cons (by decide) (.cons (by decide) .nil))
  have hoff : addressOffset (arrayModule 0 0) structlessLayout (.array 10 (.int 32)) [0, 9] = 36 :=
    by decide
  rw [hoff] at havail
  exact absurd havail (by decide)

end MSV
