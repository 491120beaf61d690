import MSV.Infer.SizeProof
import MSV.Range.VerdictProof

/-!
# The verdict on raw pointers

A GEP with a constant index over a type that is neither array nor struct is kept when its recorded
size, narrowed to `int`, is positive. The size of the accessed element plays no part.

**Theorem (`raw_unflagged_in_bounds`).** In a run of the inference whose steps meet the condition of
`sizeInv_run`, a GEP that is kept ends in its allocation, if its size is a constant that narrowing
does not make positive, was made for the GEP, and the GEP does not start in the allocation and end
after it.

The last condition is not idle: six bytes from `malloc`, taken as `i32 *`, have two bytes left at
index 1, and the GEP is kept.
-/

namespace MSV

variable {E : SizeEnv} {M : Module} (X : Execution E M)

/-- Neither an array nor a struct. -/
def IsRaw (ty : Ty) : Prop := (∀ n elem, ty ≠ .array n elem) ∧ ∀ s, ty ≠ .struct s

/-- The bytes a GEP's result is accessed with. -/
def accessBytes (E : SizeEnv) (M : Module) (g : InstId) : Nat :=
  E.DL.storeSize (resultElementType (M.typeOf (.inst g)))

/-- The condition on a GEP and its entry. -/
structure VerdictOK (t : Tracked) (g : InstId) (info : VariableInfo) : Prop where
  /-- The size is a constant, and narrowing it to `int` does not make it positive. -/
  size : ∃ s, info.size = .constInt s ∧ s.width ≤ 64 ∧
    (s.toInt ≤ 0 → (BitVec.ofInt 32 s.toInt).toInt ≤ 0)
  /-- It was made for a place with no more left than the GEP has. -/
  held : TakenOver (t.held (.inst g)) (X.place (.inst g))
  /-- The access does not start inside and end outside. -/
  inside : ∀ p, X.place (.inst g) = some p → p.offset < p.size →
    p.offset + accessBytes E M g ≤ p.size

/-- At no more than 64 bits the signed reading is at most the one with zeros. -/
theorem toInt_le_sizeInt {s : APInt} (h : s.width ≤ 64) : s.toInt ≤ s.sizeInt := by
  obtain hlt | heq := Nat.lt_or_eq_of_le h
  · have hpow : 2 ^ s.width ≤ 2 ^ 63 := Nat.pow_le_pow_right (by decide) (by omega)
    have hbits := s.bits.isLt
    have hsize : s.sizeInt = s.toNat := by
      have hmod : s.bits.toNat % 2 ^ 64 = s.bits.toNat := Nat.mod_eq_of_lt (by omega)
      unfold APInt.sizeInt APInt.toNat
      rw [BitVec.toInt_eq_toNat_of_lt, BitVec.toNat_setWidth, hmod]
      rw [BitVec.toNat_setWidth, hmod]
      omega
    rw [hsize]
    exact s.toInt_le_toNat
  · obtain ⟨w, bits⟩ := s
    obtain rfl : w = 64 := heq
    unfold APInt.sizeInt APInt.toInt
    rw [BitVec.setWidth_eq]

/-- A positive size made for the GEP leaves it inside. -/
theorem inside_of_rawVerdict {t : Tracked} (hinv : SizeInv t.pass.state t.held) {g : InstId}
    {info : VariableInfo} (hinfo : t.pass.state.GetPointerVariableInfo (.inst g) = some info)
    {p : Placement} (hp : X.place (.inst g) = some p) (hok : VerdictOK X t g info) {c : APInt}
    (hverdict : rawVerdict info.size (.constInt c) = false) : p.offset < p.size := by
  obtain ⟨s, hs, hwidth, hnarrow⟩ := hok.size
  have hfit := (hinv.fits_info hinfo).takenOver hok.held
  unfold rawVerdict at hverdict
  rw [hs] at hverdict
  simp only [Bool.not_eq_false', Bool.and_eq_true, decide_eq_true_iff] at hverdict
  have hpos : 0 < s.toInt := by
    by_contra hle
    have := hnarrow (Int.not_lt.mp hle)
    omega
  have hne : s.toNat ≠ 0 := by
    have := s.toInt_le_toNat
    omega
  have hleft := hfit s p hs hne hp
  have := toInt_le_sizeInt hwidth
  simp only [Placement.left] at hleft
  omega

/-- **A kept GEP over a raw pointer ends in its allocation.** -/
theorem raw_unflagged_in_bounds (hglobals : ∀ g ∈ M.globals, StandInOK X (.global g.1))
    (halias : AliasInModule (E.inferEnv M) M) {t : Tracked}
    (h : Run (Tracked.step X) (Tracked.StepOK X) (Tracked.initial X) t) {g : InstId} {src : Ty}
    {base : Value} {indices : List Value} {c : APInt}
    (hkind : M.kindOf (.inst g) = some (.gep src base indices)) (hraw : IsRaw src)
    (hindex : examinedIndex indices = some (.constInt c)) {info : VariableInfo}
    (hinfo : t.pass.state.GetPointerVariableInfo (.inst g) = some info)
    {heapSeqPointerSet : FMap Value VariableInfo} (hseq : heapSeqPointerSet.has (.inst g))
    {results : RangeResults} (hres : ∃ e ∈ results.entries, e.2.has (.inst g)) {p : Placement}
    (hp : X.place (.inst g) = some p) (hok : VerdictOK X t g info)
    (hkept : ¬ (heapUnsafeSeqPointerSet M E.DL heapSeqPointerSet t.pass.state results).has
      (.inst g)) : p.offset + accessBytes E M g ≤ p.size := by
  have hinv := Tracked.sizeInv_run X hglobals halias h
  rw [has_heapUnsafeSeqPointerSet hkind hinfo hseq] at hkept
  obtain ⟨e, he, hg⟩ := hres
  have hverdict : rawVerdict info.size (.constInt c) = false := by
    have hno : ¬ gepVerdict M E.DL info src indices (getIncomingState M e.2 g) = true :=
      fun hv => hkept ⟨e, he, hg, hv⟩
    unfold gepVerdict at hno
    rw [hindex] at hno
    cases src with
    | array n elem => exact absurd rfl (hraw.1 n elem)
    | struct s => exact absurd rfl (hraw.2 s)
    | _ => simpa using hno
  exact hok.inside p hp (inside_of_rawVerdict X hinv hinfo hp hok hverdict)

/-! ## Bytes taken as words -/

/-- `n` bytes from `malloc`, taken as `i32 *`, and the GEP at index 1. -/
def wordModule (n : Nat) : Module where
  structs := fun _ => []
  globals := []
  funcs := [
    ⟨0, "main", [], [⟨0, [
      ⟨0, .ptr (.int 8), .call (.direct 1) [sizeConst n]⟩,
      ⟨1, .ptr (.int 32), .cast .bitcast (.inst 0)⟩,
      ⟨2, .ptr (.int 32), .gep (.int 32) (.inst 1) [sizeConst 1]⟩,
      ⟨3, .void, .ret none⟩]⟩]⟩,
    ⟨1, "malloc", [.int 64], []⟩]

/-- The evaluation knows the three pointers. -/
def wordEnv (n : Nat) : SizeEnv where
  DL := structlessLayout
  compute v :=
    match v with
    | .inst 0 | .inst 1 => (some (sizeConst n), some (sizeConst 0))
    | .inst 2 => (some (sizeConst n), some (sizeConst 4))
    | _ => (none, none)
  svfSize := fun _ => 0
  constantExpr := fun _ _ => 0
  gepOperatorGlobals := fun _ => []
  aliasNeighbors := fun _ => []
  globalOrder := []

def wordPlace (n : Nat) : Value → Option Placement
  | .inst 0 | .inst 1 => some ⟨n, 0⟩
  | .inst 2 => some ⟨n, 4⟩
  | _ => none

theorem mem_wordModule {n : Nat} {i : Inst} (hi : i ∈ (wordModule n).insts) :
    i = ⟨0, .ptr (.int 8), .call (.direct 1) [sizeConst n]⟩ ∨
      i = ⟨1, .ptr (.int 32), .cast .bitcast (.inst 0)⟩ ∨
      i = ⟨2, .ptr (.int 32), .gep (.int 32) (.inst 1) [sizeConst 1]⟩ ∨
      i = ⟨3, .void, .ret none⟩ := by
  simpa [wordModule, Module.insts, Function.insts] using hi

theorem toNat_sizeConst {n : Nat} (hn : n < 2 ^ 64) : (APInt.ofNat 64 n).toNat = n := by
  unfold APInt.ofNat APInt.toNat
  rw [BitVec.toNat_ofNat, Nat.mod_eq_of_lt hn]

def wordExecution (n : Nat) (hn : n < 2 ^ 64) : Execution (wordEnv n) (wordModule n) where
  place := wordPlace n
  alloca i hi ty m p hk := by
    obtain rfl | rfl | rfl | rfl := mem_wordModule hi <;> cases hk
  call i hi callee args f k p hk hf ha hp := by
    obtain rfl | rfl | rfl | rfl := mem_wordModule hi <;> cases hk
    obtain rfl := Option.some.inj hf
    obtain rfl : 0 = k := Option.some.inj ha
    obtain rfl := Option.some.inj hp
    exact ⟨APInt.ofNat 64 n, rfl, by rw [toNat_sizeConst hn]⟩
  gep i hi src base indices b d hk hb hd := by
    obtain rfl | rfl | rfl | rfl := mem_wordModule hi <;> cases hk
    obtain rfl := Option.some.inj hb
    obtain rfl : (4 : Int) = d := Option.some.inj hd
    rfl
  size_eq v p c hp hc := by
    have hc' : some (sizeConst n) = some (.constInt c) ∧ p.size = n := by
      unfold wordPlace at hp
      split at hp <;> first
        | (obtain rfl := Option.some.inj hp; exact ⟨hc, rfl⟩)
        | cases hp
    obtain rfl := Value.constInt.inj (Option.some.inj hc'.1)
    rw [toNat_sizeConst hn, hc'.2]
  offset_eq v p o hp ho := by
    unfold wordPlace at hp
    split at hp
    · obtain rfl := Option.some.inj hp
      obtain rfl := Value.constInt.inj (Option.some.inj ho)
      rfl
    · obtain rfl := Option.some.inj hp
      obtain rfl := Value.constInt.inj (Option.some.inj ho)
      rfl
    · obtain rfl := Option.some.inj hp
      obtain rfl := Value.constInt.inj (Option.some.inj ho)
      rfl
    · cases hp

/-- The inference after `k` steps. -/
def wordRun (n : Nat) (hn : n < 2 ^ 64) (k : Nat) : Tracked :=
  stepN (Tracked.step (wordExecution n hn)) k (Tracked.initial (wordExecution n hn))

/-- The range analysis of the module, when it is over. -/
def wordEnd (n : Nat) : Engine RangeValue :=
  stepN
    (Engine.step (wordModule n) (rangePolicy (wordModule n) structlessLayout) false fun f => [f])
    10 (Engine.initial [0])

/-- The GEP, as the classification hands it over. -/
def wordSeqPointers : FMap Value VariableInfo :=
  FMap.set ∅ (.inst 2) { VariableInfo.registered with classification := .seq }

/-- The verdict. -/
def wordUnsafe (n : Nat) (hn : n < 2 ^ 64) : FMap Value VariableInfo :=
  heapUnsafeSeqPointerSet (wordModule n) structlessLayout wordSeqPointers
    (wordRun n hn 5).pass.state (wordEnd n).allResults

theorem exists_word_result (n : Nat) (h : ((wordEnd n).results (none, 0)).has (.inst 2)) :
    ∃ e ∈ (wordEnd n).allResults.entries, e.2.has (.inst 2) := by
  cases hfind : (wordEnd n).allResults.find (none, 0) with
  | none =>
      unfold Engine.results FMap.get at h
      rw [hfind] at h
      exact absurd h (by decide)
  | some r =>
      refine ⟨⟨(none, 0), r⟩, AList.mem_lookup_iff.mp hfind, ?_⟩
      unfold Engine.results at h
      rwa [FMap.get_of_find hfind] at h

/-- The bitcast between integer pointers sets no size, so the GEP finds zero and starts over from
the whole object. -/
theorem gepOK_word {st : AnalysisState} {held : Value → Option Placement}
    (hzero : ((gepState ⟨2, .ptr (.int 32), .gep (.int 32) (.inst 1) [sizeConst 1]⟩ (.inst 1)
      [sizeConst 1] st).GetPointerVariableInfo (.inst 1)).map VariableInfo.size =
        some (sizeConst 0)) :
    GepOK (wordExecution 8 (by decide))
      ⟨2, .ptr (.int 32), .gep (.int 32) (.inst 1) [sizeConst 1]⟩ (.int 32) (.inst 1)
      [sizeConst 1] st held := by
  have hsize : ∀ info, (gepState ⟨2, .ptr (.int 32), .gep (.int 32) (.inst 1) [sizeConst 1]⟩
      (.inst 1) [sizeConst 1] st).GetPointerVariableInfo (.inst 1) = some info →
      info.size = sizeConst 0 := by
    intro info hinfo
    rw [hinfo] at hzero
    exact Option.some.inj hzero
  refine ⟨fun info _ _ _ hnone => ?_, fun info _ hinfo => ⟨fun hor => ?_, ?_⟩⟩
  · cases hnone
  · obtain h | h := hor <;> exact absurd h (by decide)
  · intro _ q s o hq hs ho
    unfold baseSize at hs
    unfold heldBase
    rw [hsize info hinfo] at hs ⊢
    rw [if_pos (by decide)] at hs
    rw [if_pos (by decide), Function.update_self]
    obtain rfl := Option.some.inj hq
    obtain rfl := Value.constInt.inj hs
    obtain rfl := Value.constInt.inj ho
    refine ⟨by unfold InRange64; decide, 8, ⟨8, 0⟩, ?_, rfl, by decide, fun h => ?_⟩
    · show Limit _ _ _ _ _
      rfl
    · exact absurd h (by decide)

theorem stepOK_word {m : Nat} (hm : m < 5) :
    Tracked.StepOK (wordExecution 8 (by decide)) (wordRun 8 (by decide) m) := by
  intro i rest htodo
  have hm' : m = 0 ∨ m = 1 ∨ m = 2 ∨ m = 3 ∨ m = 4 := by omega
  obtain rfl | rfl | rfl | rfl | rfl := hm'
  · cases htodo
  · -- the call of `malloc`
    obtain ⟨rfl, -⟩ := List.cons.inj htodo
    intro f hf ha
    obtain rfl := Option.some.inj hf
    cases ha
  · -- the bitcast
    obtain ⟨rfl, -⟩ := List.cons.inj htodo
    refine ⟨fun hm => ?_, fun _ _ hs => ?_, fun _ _ hs => ?_⟩
    · exact absurd hm (by decide +kernel)
    · exact absurd hs (by decide)
    · exact absurd hs (by decide)
  · obtain ⟨rfl, -⟩ := List.cons.inj htodo
    exact gepOK_word (by decide +kernel)
  · obtain ⟨rfl, -⟩ := List.cons.inj htodo
    trivial

/-- With eight bytes the GEP is kept, and ends in the allocation. -/
theorem word_kept_inside :
    ¬ (wordUnsafe 8 (by decide)).has (.inst 2) ∧
      (4 : Int) + accessBytes (wordEnv 8) (wordModule 8) 2 ≤ 8 := by
  have hkept : ¬ (wordUnsafe 8 (by decide)).has (.inst 2) := by decide +kernel
  have hrun : Run (Tracked.step (wordExecution 8 (by decide)))
      (Tracked.StepOK (wordExecution 8 (by decide)))
      (Tracked.initial (wordExecution 8 (by decide))) (wordRun 8 (by decide) 5) :=
    run_stepN_of 5 _ fun m hm => stepOK_word hm
  have hmap : ((wordRun 8 (by decide) 5).pass.state.GetPointerVariableInfo (.inst 2)).map
      VariableInfo.size = some (sizeConst 4) := by
    decide +kernel
  obtain ⟨info, hinfo, hsize⟩ := Option.map_eq_some_iff.mp hmap
  have hok : VerdictOK (wordExecution 8 (by decide)) (wordRun 8 (by decide) 5) 2 info := by
    refine ⟨⟨APInt.ofNat 64 4, hsize, by decide, by decide⟩, fun q hq => ?_, fun p hp _ => ?_⟩
    · exact ⟨q, hq, le_rfl⟩
    · obtain rfl := Option.some.inj hp
      decide
  have hraw : IsRaw (.int 32) := ⟨fun _ _ h => (by cases h), fun _ h => (by cases h)⟩
  refine ⟨hkept, raw_unflagged_in_bounds (wordExecution 8 (by decide)) (fun g hg => nomatch hg)
    (fun i _ j hj => nomatch hj) hrun rfl hraw rfl hinfo
    (by decide) (exists_word_result 8 (by decide +kernel)) rfl hok hkept⟩

/-- Two of the four bytes at index 1 are outside of six, and the GEP is kept. -/
theorem word_kept_outside :
    Run (Tracked.step (wordExecution 6 (by decide))) (fun _ => True)
        (Tracked.initial (wordExecution 6 (by decide))) (wordRun 6 (by decide) 5) ∧
      ((wordEnd 6).results (none, 0)).has (.inst 2) ∧ wordSeqPointers.has (.inst 2) ∧
      (wordExecution 6 (by decide)).place (.inst 2) = some ⟨6, 4⟩ ∧
      ¬ (¬ (wordUnsafe 6 (by decide)).has (.inst 2) →
        (4 : Int) + accessBytes (wordEnv 6) (wordModule 6) 2 ≤ 6) := by
  refine ⟨run_stepN _ 5 _, by decide +kernel, by decide, rfl, fun h => ?_⟩
  exact absurd (h (by decide +kernel)) (by decide)

end MSV
