import Mathlib.Data.Finset.Card
import MSV.Heap.Uriah
import MSV.Lib.SetFamily

/-!
# Heap pointers that nothing aliases

`Uriah.cpp`: of the calls and invokes among the heap pointers,
`findNonAliasedAndRepresentativeHeapPointers` takes away every call that has its root in common with
another heap pointer, and then every call in a group of two or more that may point to one object.
Of the groups only those are kept that are not included in others.

**Theorem (`nonAliased_exact`).** A call is left exactly when no other heap pointer has its root and
no other call may point to one of its objects, in whatever order the maps are run through. Two calls
are in a common group that is kept exactly when they may point to one object.
-/

namespace MSV

/-- What the function takes from outside. -/
structure NonAliasedEnv where
  /-- `getExpandedFIPts`. -/
  getExpandedFIPts : Value → List Nat
  /-- The orders in which `heapPointerSet`, `obj_to_instset_map` and `unique_alias_inst_set` are run
  through. -/
  keyOrder : List Value → List Value
  keyOrder_perm : ∀ l, (keyOrder l).Perm l
  objectOrder : List Nat → List Nat
  objectOrder_perm : ∀ l, (objectOrder l).Perm l
  setOrder : List (List Value) → List (List Value)
  setOrder_perm : ∀ l, (setOrder l).Perm l

/-- What the loop over the calls changes. -/
structure CallGroups where
  NonAliasedHeapPointers : List Value
  obj_to_instset_map : FMap Nat (List Value)

section

variable (M : Module) (env : NonAliasedEnv)

/-- The keys of `heapPointerSet`. -/
def heapPointers (heapPointerSet : PointerSet) : List Value :=
  env.keyOrder (heapPointerSet.entries.map (·.1))

/-- The first loop: calls and invokes. -/
def insertCalls (keys NonAliasedHeapPointers : List Value) : List Value :=
  keys.foldl (fun s v =>
    if ((M.kindOf v).bind InstKind.asCallBase).isSome then s.insert v else s) NonAliasedHeapPointers

/-- The body of the second loop. The inner loop ends at the first alias. -/
def visitCall (keys : List Value) (s : CallGroups) (v : Value) : CallGroups :=
  if !isCallValue M v then s
  else {
    NonAliasedHeapPointers :=
      if keys.any fun w => decide (w ≠ v) && queryAliasing M v w then
        s.NonAliasedHeapPointers.filter (· ≠ v)
      else s.NonAliasedHeapPointers
    obj_to_instset_map := SetFamily.enter s.obj_to_instset_map (env.getExpandedFIPts v) v }

def visitCalls (heapPointerSet : PointerSet) (NonAliasedHeapPointers : List Value) : CallGroups :=
  let keys := heapPointers env heapPointerSet
  keys.foldl (visitCall M env keys) ⟨insertCalls M keys NonAliasedHeapPointers, ∅⟩

/-- `unique_alias_inst_set`. -/
def uniqueAliasInstSet (objs : FMap Nat (List Value)) : List (List Value) :=
  SetFamily.reduce env.setOrder
    ((env.objectOrder (objs.entries.map (·.1))).map (FMap.get objs))

/-- `findNonAliasedAndRepresentativeHeapPointers`, as far as it does something. -/
def findNonAliasedHeapPointers (heapPointerSet : PointerSet)
    (NonAliasedHeapPointers : List Value) : List Value :=
  let visited := visitCalls M env heapPointerSet NonAliasedHeapPointers
  (env.setOrder (uniqueAliasInstSet env visited.obj_to_instset_map)).foldl
    (fun s inst_set => if inst_set.length > 1 then s.filter (· ∉ inst_set) else s)
    visited.NonAliasedHeapPointers

end

variable {M : Module} {env : NonAliasedEnv} {H : PointerSet} {keys : List Value} {v w : Value}

theorem mem_heapPointers : v ∈ heapPointers env H ↔ H.has v := by
  unfold heapPointers
  rw [(env.keyOrder_perm _).mem_iff, List.mem_map, FMap.mem_keys_iff_has]

/-! ## The loops -/

theorem mem_insertCalls {s : List Value} :
    v ∈ insertCalls M keys s ↔
      v ∈ s ∨ (v ∈ keys ∧ ((M.kindOf v).bind InstKind.asCallBase).isSome = true) := by
  refine (foldl_adds (Q := fun s : List Value => v ∈ s)
    (P := fun w => v = w ∧ ((M.kindOf w).bind InstKind.asCallBase).isSome = true)
    (fun s w => ?_) keys s).trans ?_
  · split_ifs with hcall
    · rw [List.mem_insert_iff]
      tauto
    · simp [hcall]
  · refine or_congr_right ⟨fun ⟨w, hw, heq, hcall⟩ => ?_, fun ⟨hv, hcall⟩ => ⟨v, hv, rfl, hcall⟩⟩
    subst heq
    exact ⟨hw, hcall⟩

/-- Another key has the same root. -/
def SameRoot (M : Module) (keys : List Value) (v : Value) : Prop :=
  ∃ w ∈ keys, w ≠ v ∧ getRootValue M w = getRootValue M v

theorem any_queryAliasing :
    (keys.any fun w => decide (w ≠ v) && queryAliasing M v w) = true ↔ SameRoot M keys v := by
  unfold SameRoot queryAliasing
  rw [List.any_eq_true]
  refine exists_congr fun w => and_congr_right fun _ => ?_
  rw [Bool.and_eq_true, decide_eq_true_iff, beq_iff_eq, eq_comm (a := getRootValue M v)]

/-- What one call takes away. -/
theorem notMem_visitCall {s : CallGroups} :
    v ∉ (visitCall M env keys s w).NonAliasedHeapPointers ↔
      v ∉ s.NonAliasedHeapPointers ∨ (w = v ∧ isCallValue M w = true ∧ SameRoot M keys w) := by
  unfold visitCall
  cases isCallValue M w with
  | false => simp
  | true =>
      simp only [Bool.not_true, Bool.false_eq_true, if_false]
      split_ifs with hroot
      · simp only [List.mem_filter, decide_eq_true_iff, any_queryAliasing.mp hroot]
        tauto
      · simp [any_queryAliasing.not.mp hroot]

theorem mem_get_visitCall {s : CallGroups} {o : Nat} :
    v ∈ FMap.get (visitCall M env keys s w).obj_to_instset_map o ↔
      v ∈ FMap.get s.obj_to_instset_map o ∨
        (w = v ∧ isCallValue M w = true ∧ o ∈ env.getExpandedFIPts w) := by
  unfold visitCall
  cases isCallValue M w with
  | false => simp
  | true =>
      simp only [Bool.not_true, Bool.false_eq_true, if_false, SetFamily.mem_get_enter]
      tauto

theorem nodup_get_visitCall {s : CallGroups}
    (h : ∀ o, (FMap.get s.obj_to_instset_map o).Nodup) :
    ∀ o, (FMap.get (visitCall M env keys s w).obj_to_instset_map o).Nodup := by
  unfold visitCall
  cases isCallValue M w with
  | false => exact h
  | true => exact SetFamily.nodup_get_enter h _ _

/-! ## What they leave -/

section

variable {s : List Value}

theorem mem_visitCalls :
    v ∈ (visitCalls M env H s).NonAliasedHeapPointers ↔
      v ∈ insertCalls M (heapPointers env H) s ∧
        ¬ (H.has v ∧ isCallValue M v = true ∧ SameRoot M (heapPointers env H) v) := by
  unfold visitCalls
  have hloop := foldl_adds (f := visitCall M env (heapPointers env H))
    (Q := fun s => v ∉ s.NonAliasedHeapPointers) (fun s w => notMem_visitCall)
    (heapPointers env H) ⟨insertCalls M (heapPointers env H) s, ∅⟩
  rw [← not_iff_not, hloop, not_and_or, not_not]
  refine or_congr_right ⟨fun ⟨w, hw, heq, hcall⟩ => ?_, fun ⟨hv, hcall⟩ => ?_⟩
  · subst heq
    exact ⟨mem_heapPointers.mp hw, hcall⟩
  · exact ⟨v, mem_heapPointers.mpr hv, rfl, hcall⟩

/-- The group of an object: the calls that may point to it. -/
theorem mem_group {o : Nat} :
    v ∈ FMap.get (visitCalls M env H s).obj_to_instset_map o ↔
      H.has v ∧ isCallValue M v = true ∧ o ∈ env.getExpandedFIPts v := by
  unfold visitCalls
  have hloop := foldl_adds (f := visitCall M env (heapPointers env H))
    (Q := fun s => v ∈ FMap.get s.obj_to_instset_map o) (fun s w => mem_get_visitCall)
    (heapPointers env H) ⟨insertCalls M (heapPointers env H) s, ∅⟩
  rw [hloop]
  constructor
  · rintro (h | ⟨w, hw, heq, hcall⟩)
    · cases h
    · subst heq
      exact ⟨mem_heapPointers.mp hw, hcall⟩
  · exact fun ⟨hv, hcall⟩ => .inr ⟨v, mem_heapPointers.mpr hv, rfl, hcall⟩

theorem nodup_group (o : Nat) :
    (FMap.get (visitCalls M env H s).obj_to_instset_map o).Nodup :=
  have hempty : ∀ o, (FMap.get (∅ : FMap Nat (List Value)) o).Nodup := fun _ => List.nodup_nil
  List.foldlRecOn (motive := fun s => ∀ o, (FMap.get s.obj_to_instset_map o).Nodup) _
    (visitCall M env (heapPointers env H)) (b := ⟨insertCalls M (heapPointers env H) s, ∅⟩) hempty
    (fun _ h _ _ => nodup_get_visitCall h) o

/-- The two calls may point to one object. -/
structure ShareObject (M : Module) (env : NonAliasedEnv) (H : PointerSet) (v w : Value) : Prop where
  left : H.has v ∧ isCallValue M v = true
  right : H.has w ∧ isCallValue M w = true
  object : ∃ o ∈ env.getExpandedFIPts v, o ∈ env.getExpandedFIPts w

/-- **Dropping the included groups hides no pair.** -/
theorem exists_mem_uniqueAliasInstSet :
    (∃ t ∈ uniqueAliasInstSet env (visitCalls M env H s).obj_to_instset_map, v ∈ t ∧ w ∈ t) ↔
      ShareObject M env H v w := by
  unfold uniqueAliasInstSet
  rw [SetFamily.exists_mem_reduce_iff env.setOrder_perm (env.objectOrder_perm _)]
  simp only [mem_group]
  constructor
  · rintro ⟨o, ⟨hv, hcall, ho⟩, hw, hcall', ho'⟩
    exact ⟨⟨hv, hcall⟩, ⟨hw, hcall'⟩, o, ho, ho'⟩
  · rintro ⟨⟨hv, hcall⟩, ⟨hw, hcall'⟩, o, ho, ho'⟩
    exact ⟨o, ⟨hv, hcall, ho⟩, hw, hcall', ho'⟩

theorem nodup_of_mem_uniqueAliasInstSet {t : List Value}
    (h : t ∈ uniqueAliasInstSet env (visitCalls M env H s).obj_to_instset_map) : t.Nodup := by
  obtain ⟨o, -, rfl⟩ := List.mem_map.mp
    ((SetFamily.merged_reduce env.setOrder_perm _).kept t h)
  exact nodup_group o

omit M env H in
/-- A set of more than one has something else in it. -/
theorem one_lt_length_iff {t : List Value} (ht : t.Nodup) (hv : v ∈ t) :
    1 < t.length ↔ ∃ w ∈ t, w ≠ v := by
  rw [← List.toFinset_card_of_nodup ht]
  constructor
  · intro hlong
    obtain ⟨w, hw, hne⟩ := Finset.exists_mem_ne hlong v
    exact ⟨w, List.mem_toFinset.mp hw, hne⟩
  · intro ⟨w, hw, hne⟩
    exact Finset.one_lt_card.mpr
      ⟨w, List.mem_toFinset.mpr hw, v, List.mem_toFinset.mpr hv, hne⟩

/-- The last loop takes away what is in a group with something else. -/
theorem mem_findNonAliasedHeapPointers :
    v ∈ findNonAliasedHeapPointers M env H s ↔
      v ∈ (visitCalls M env H s).NonAliasedHeapPointers ∧
        ∀ w, w ≠ v → ¬ ShareObject M env H v w := by
  unfold findNonAliasedHeapPointers
  have hround : ∀ (s inst_set : List Value),
      v ∉ (if inst_set.length > 1 then s.filter (· ∉ inst_set) else s) ↔
        v ∉ s ∨ (1 < inst_set.length ∧ v ∈ inst_set) := by
    intro s inst_set
    split_ifs with hlong
    · simp only [List.mem_filter, decide_eq_true_iff]
      tauto
    · simp [hlong]
  rw [← not_iff_not, foldl_adds (Q := fun s : List Value => v ∉ s) hround, not_and_or]
  refine or_congr_right ⟨fun ⟨t, ht, hlong, hv⟩ => ?_, fun h => ?_⟩
  · rw [(env.setOrder_perm _).mem_iff] at ht
    obtain ⟨w, hw, hne⟩ := (one_lt_length_iff (nodup_of_mem_uniqueAliasInstSet ht) hv).mp hlong
    push Not
    exact ⟨w, hne, exists_mem_uniqueAliasInstSet.mp ⟨t, ht, hv, hw⟩⟩
  · push Not at h
    obtain ⟨w, hne, hshare⟩ := h
    obtain ⟨t, ht, hv, hw⟩ := (exists_mem_uniqueAliasInstSet (s := s)).mpr hshare
    refine ⟨t, (env.setOrder_perm _).mem_iff.mpr ht, ?_, hv⟩
    exact (one_lt_length_iff (nodup_of_mem_uniqueAliasInstSet ht) hv).mpr ⟨w, hw, hne⟩

end

/-! ## The result -/

theorem sameRoot_iff : SameRoot M (heapPointers env H) v ↔
    ∃ w, H.has w ∧ w ≠ v ∧ getRootValue M w = getRootValue M v :=
  exists_congr fun _ => and_congr_left' mem_heapPointers

/-- From the empty set: the calls and invokes, without the calls that have a root or an object in
common with another. -/
theorem mem_findNonAliased_iff :
    v ∈ findNonAliasedHeapPointers M env H [] ↔
      H.has v ∧ ((M.kindOf v).bind InstKind.asCallBase).isSome = true ∧
        (isCallValue M v = true →
          (∀ w, H.has w → w ≠ v → getRootValue M w ≠ getRootValue M v) ∧
            ∀ w, w ≠ v → ¬ ShareObject M env H v w) := by
  rw [mem_findNonAliasedHeapPointers, mem_visitCalls, mem_insertCalls, mem_heapPointers,
    sameRoot_iff]
  constructor
  · rintro ⟨⟨hv, hroot⟩, hshare⟩
    obtain ⟨hv, hbase⟩ := hv.resolve_left List.not_mem_nil
    exact ⟨hv, hbase, fun hcall =>
      ⟨fun w hw hne heq => hroot ⟨hv, hcall, w, hw, hne, heq⟩, hshare⟩⟩
  · rintro ⟨hv, hbase, hcall⟩
    refine ⟨⟨.inr ⟨hv, hbase⟩, ?_⟩, fun w hne hshare => ?_⟩
    · rintro ⟨-, hc, w, hw, hne, heq⟩
      exact (hcall hc).1 w hw hne heq
    · exact (hcall hshare.left.2).2 w hne hshare

theorem isCallBase_of_isCallValue (h : isCallValue M v = true) :
    ((M.kindOf v).bind InstKind.asCallBase).isSome = true := by
  unfold isCallValue at h
  split at h
  · rename_i hkind
    rw [hkind]
    rfl
  · cases h

/-- A call is left exactly when no other heap pointer has its root and no other call may point to
one of its objects. The orders do not matter, and the sets that are kept have exactly the pairs that
share an object in common. -/
theorem nonAliased_exact (M : Module) (env : NonAliasedEnv) (H : PointerSet) :
    (∀ c, H.has c → isCallValue M c = true →
      (c ∈ findNonAliasedHeapPointers M env H [] ↔
        (∀ k, H.has k → k ≠ c → getRootValue M k ≠ getRootValue M c) ∧
          ∀ k, H.has k → isCallValue M k = true → k ≠ c →
            ∀ o ∈ env.getExpandedFIPts k, o ∉ env.getExpandedFIPts c)) ∧
    (∀ env' : NonAliasedEnv, env'.getExpandedFIPts = env.getExpandedFIPts → ∀ v,
      v ∈ findNonAliasedHeapPointers M env' H [] ↔ v ∈ findNonAliasedHeapPointers M env H []) ∧
    ∀ c d, (∃ t ∈ uniqueAliasInstSet env (visitCalls M env H []).obj_to_instset_map,
      c ∈ t ∧ d ∈ t) ↔ ShareObject M env H c d := by
  refine ⟨fun c hc hcall => ?_, fun env' hpts v => ?_, fun c d => exists_mem_uniqueAliasInstSet⟩
  · rw [mem_findNonAliased_iff]
    constructor
    · rintro ⟨-, -, h⟩
      refine ⟨(h hcall).1, fun k hk hkcall hne o hok hoc => ?_⟩
      exact (h hcall).2 k hne ⟨⟨hc, hcall⟩, ⟨hk, hkcall⟩, o, hoc, hok⟩
    · rintro ⟨hroot, hobject⟩
      refine ⟨hc, isCallBase_of_isCallValue hcall, fun _ => ⟨hroot, fun k hne hshare => ?_⟩⟩
      obtain ⟨o, hoc, hok⟩ := hshare.object
      exact hobject k hshare.right.1 hshare.right.2 hne o hok hoc
  · have hshare : ∀ w, ShareObject M env' H v w ↔ ShareObject M env H v w := by
      intro w
      exact ⟨fun h => ⟨h.left, h.right, hpts ▸ h.object⟩,
        fun h => ⟨h.left, h.right, hpts ▸ h.object⟩⟩
    rw [mem_findNonAliased_iff, mem_findNonAliased_iff]
    simp only [hshare]

end MSV
