import MSV.Lib.SparseBits
import MSV.Range.MarkersProof
import MSV.Taint.Taint

/-!
# Tagging the operations on unsafe objects

The last step of `tagOperationsForProtections` (`ValueRange.cpp`). The set of unsafe objects is
built with `getBaseObj`; it is asked with `isPointToUnsafeObjects` (`PTAWrapper.cpp`), which puts
the base nodes of the field objects into the points-to set while it runs over it. The two agree
when the base node of a `GepObjVar` is its memory object.

**Theorem (`tagging_consistent`).** The query holds iff the pointer has a base object in the set.
So the step tags the loads, stores and pointer comparisons on an object of an unsafe GEP, the other
GEPs on such an object that are not just the address of loads and stores, and nothing else.
-/

namespace MSV

/-- The points-to analysis with the nodes of its graph. -/
structure PTAGraph extends PTAWrapper where
  /-- The base node, for a `GepObjVar`. -/
  getBaseNode : NodeID → Option NodeID

/-- The metadata that is set. -/
inductive MDKind where
  /-- `dualguard.unsafe`. -/
  | dualguardUnsafe
  /-- `dualguard.unsafe.dponly`. -/
  | dualguardUnsafeDponly
deriving DecidableEq

section

variable (pta : PTAGraph) (M : Module)

/-- The points-to set, after the first loop of the query. -/
def withBaseNodes (v : Value) : Finset NodeID :=
  SparseBits.sweep (fun id => (pta.getBaseNode id).toFinset) (pta.getExpandedFIPts v)

def isPointToUnsafeObjects (unsafeObjSet : Finset NodeID) (v : Value) : Bool :=
  decide (∃ id ∈ withBaseNodes pta v, id ∈ unsafeObjSet)

/-- The loop over the users of a GEP, from the value the flag has. -/
def onlyUsedInLoadStore (gep : Value) : Bool → List Inst → Bool
  | flag, [] => flag
  | _, user :: rest =>
      match user.kind with
      | .load _ => onlyUsedInLoadStore gep true rest
      | .store _ ptr => if ptr = gep then onlyUsedInLoadStore gep true rest else false
      | _ => false

/-- What is set on one instruction. -/
def operationTag (unsafeSeqPointerSet : List Inst) (dgUnsafeObjectSet : Finset NodeID)
    (i : Inst) : Option MDKind :=
  match i.kind with
  | .call .. | .invoke .. => none
  | .load ptr =>
      if isPointToUnsafeObjects pta dgUnsafeObjectSet ptr then some .dualguardUnsafe else none
  | .store _ ptr =>
      if isPointToUnsafeObjects pta dgUnsafeObjectSet ptr then some .dualguardUnsafe else none
  | .gep _ base _ =>
      if isPointToUnsafeObjects pta dgUnsafeObjectSet base then
        if i ∈ unsafeSeqPointerSet then none
        else if onlyUsedInLoadStore (.inst i.id) false (users M (.inst i.id)) then none
        else some .dualguardUnsafeDponly
      else none
  | .icmp _ op1 op2 =>
      if (M.typeOf op1).isPointerTy then
        if isPointToUnsafeObjects pta dgUnsafeObjectSet op1 ||
            isPointToUnsafeObjects pta dgUnsafeObjectSet op2 then some .dualguardUnsafe
        else none
      else none
  | _ => none

/-- What the step sets, in order. -/
def tagOperations (unsafeSeqPointerSet : List Inst) : List (Inst × MDKind) :=
  let dgUnsafeObjectSet :=
    (tagOperationsForProtections pta.toPTAWrapper unsafeSeqPointerSet).objects
  M.insts.filterMap fun i =>
    (operationTag pta M unsafeSeqPointerSet dgUnsafeObjectSet i).map (i, ·)

end

/-! ## The query -/

variable {pta : PTAGraph} {M : Module} {geps : List Inst}

/-- What the constructors of the object nodes set up. -/
structure PTAGraph.WF (pta : PTAGraph) : Prop where
  /-- A `GepObjVar` has the id of its memory object as base node. -/
  gep : ∀ id b, pta.getBaseNode id = some b → pta.getBaseObj id = b
  /-- Any other object node has the id of its memory object. -/
  object : ∀ id, pta.getBaseNode id = none → pta.getBaseObj id = id
  /-- The node with the id of a memory object is no `GepObjVar`. -/
  base : ∀ id, pta.getBaseNode (pta.getBaseObj id) = none

theorem mem_withBaseNodes (h : pta.WF) {v : Value} {x : NodeID} : x ∈ withBaseNodes pta v ↔
    x ∈ pta.getExpandedFIPts v ∨ ∃ id ∈ pta.getExpandedFIPts v, pta.getBaseNode id = some x := by
  unfold withBaseNodes
  rw [SparseBits.sweep_eq, Finset.mem_union, Finset.mem_biUnion]
  · simp only [Option.mem_toFinset, Option.mem_def]
  · -- a base node is no field object, so nothing is inserted for it
    intro id _ b hb
    have hb : pta.getBaseNode id = some b := Option.mem_toFinset.mp hb
    rw [← h.gep id b hb, h.base id]
    exact Finset.empty_subset _

theorem mem_baseObjects {v : Value} {o : NodeID} : o ∈ pta.baseObjects v ↔
    ∃ id ∈ pta.getExpandedFIPts v, pta.getBaseObj id = o :=
  Finset.mem_image

/-- On a set of memory objects the query is intersection with the base objects. -/
theorem isPointToUnsafeObjects_iff (h : pta.WF) {S : Finset NodeID}
    (hS : ∀ o ∈ S, ∃ id, pta.getBaseObj id = o) {v : Value} :
    isPointToUnsafeObjects pta S v = true ↔ ∃ o ∈ pta.baseObjects v, o ∈ S := by
  rw [isPointToUnsafeObjects, decide_eq_true_iff]
  constructor
  · intro hq
    obtain ⟨o, ho, hoS⟩ := hq
    refine ⟨o, mem_baseObjects.mpr ?_, hoS⟩
    obtain ho | ⟨id, hid, hbase⟩ := (mem_withBaseNodes h).mp ho
    · obtain ⟨id, rfl⟩ := hS o hoS
      exact ⟨_, ho, h.object _ (h.base id)⟩
    · exact ⟨id, hid, h.gep id o hbase⟩
  · intro hq
    obtain ⟨o, ho, hoS⟩ := hq
    refine ⟨o, (mem_withBaseNodes h).mpr ?_, hoS⟩
    obtain ⟨id, hid, hbase⟩ := mem_baseObjects.mp ho
    cases hnode : pta.getBaseNode id with
    | none =>
        rw [h.object id hnode] at hbase
        exact Or.inl (hbase ▸ hid)
    | some b =>
        rw [h.gep id b hnode] at hbase
        exact Or.inr ⟨id, hid, hbase ▸ hnode⟩

/-! ## The tags -/

/-- The pointer may point into an object that one of the GEPs may point into. -/
def MayShare (pta : PTAWrapper) (geps : List Inst) (v : Value) : Prop :=
  ∃ g ∈ geps, ∃ o ∈ pta.gepObjects g, o ∈ pta.baseObjects v

/-- The pointers a load, a store or a pointer comparison works on. -/
def accessedPointers (M : Module) (i : Inst) : List Value :=
  match i.kind with
  | .load ptr => [ptr]
  | .store _ ptr => [ptr]
  | .icmp _ op1 op2 => if (M.typeOf op1).isPointerTy then [op1, op2] else []
  | _ => []

/-- The unsafe objects are memory objects. -/
theorem unsafeObjects_base (pta : PTAGraph) (geps : List Inst) :
    ∀ o ∈ pta.unsafeObjects geps, ∃ id, pta.getBaseObj id = o := by
  intro o ho
  obtain ⟨g, -, hg⟩ := mem_unsafeObjects.mp ho
  unfold PTAWrapper.gepObjects at hg
  split at hg
  · obtain ⟨id, -, hid⟩ := mem_baseObjects.mp hg
    exact ⟨id, hid⟩
  · cases hg

/-- The value is used, and only as the address of loads and stores. -/
def OnlyAddress (M : Module) (v : Value) : Prop :=
  users M v ≠ [] ∧ ∀ user ∈ users M v, user.kind = .load v ∨ ∃ val, user.kind = .store val v

theorem onlyUsedInLoadStore_eq_true {v : Value} : ∀ {l : List Inst} {flag : Bool},
    (∀ user ∈ l, v ∈ user.kind.operands) → (onlyUsedInLoadStore v flag l = true ↔
      (l = [] → flag = true) ∧
        ∀ user ∈ l, user.kind = .load v ∨ ∃ val, user.kind = .store val v)
  | [], flag, _ => by simp [onlyUsedInLoadStore]
  | user :: rest, flag, huse => by
    have hrest : ∀ user ∈ rest, v ∈ user.kind.operands :=
      fun u hu => huse u (List.mem_cons_of_mem _ hu)
    have hv := huse user List.mem_cons_self
    have ih := @onlyUsedInLoadStore_eq_true v rest true hrest
    rw [List.forall_mem_cons]
    cases hkind : user.kind with
    | load ptr =>
        rw [hkind] at hv
        obtain rfl := List.mem_singleton.mp hv
        simp [onlyUsedInLoadStore, hkind, ih]
    | store val ptr =>
        by_cases hptr : ptr = v
        · simp [onlyUsedInLoadStore, hkind, hptr, ih]
        · simp [onlyUsedInLoadStore, hkind, hptr]
    | _ => simp [onlyUsedInLoadStore, hkind]

theorem onlyUsedInLoadStore_iff {v : Value} :
    onlyUsedInLoadStore v false (users M v) = true ↔ OnlyAddress M v := by
  refine (onlyUsedInLoadStore_eq_true fun user hu => ?_).trans ?_
  · exact of_decide_eq_true (List.mem_filter.mp hu).2
  · simp [OnlyAddress]

theorem isPointTo_iff_mayShare (h : pta.WF) {v : Value} :
    isPointToUnsafeObjects pta (pta.unsafeObjects geps) v = true ↔
      MayShare pta.toPTAWrapper geps v := by
  rw [isPointToUnsafeObjects_iff h (unsafeObjects_base pta geps)]
  constructor
  · intro hq
    obtain ⟨o, ho, hoS⟩ := hq
    obtain ⟨g, hg, hog⟩ := mem_unsafeObjects.mp hoS
    exact ⟨g, hg, o, hog, ho⟩
  · intro hq
    obtain ⟨g, hg, o, hog, ho⟩ := hq
    exact ⟨o, ho, mem_unsafeObjects.mpr ⟨g, hg, hog⟩⟩

theorem operationTag_eq_some (h : pta.WF) {i : Inst} {t : MDKind} :
    operationTag pta M geps (pta.unsafeObjects geps) i = some t ↔
      t = .dualguardUnsafe ∧ (∃ ptr ∈ accessedPointers M i, MayShare pta.toPTAWrapper geps ptr) ∨
      t = .dualguardUnsafeDponly ∧ i ∉ geps ∧ ¬ OnlyAddress M (.inst i.id) ∧
        ∃ src base indices, i.kind = .gep src base indices ∧
          MayShare pta.toPTAWrapper geps base := by
  unfold operationTag accessedPointers
  cases hkind : i.kind with
  | load ptr => simp [isPointTo_iff_mayShare h, eq_comm, and_comm]
  | store val ptr => simp [isPointTo_iff_mayShare h, eq_comm, and_comm]
  | gep src base indices =>
      simp only [← isPointTo_iff_mayShare h, ← onlyUsedInLoadStore_iff]
      cases t <;> split_ifs <;> simp_all
  | icmp p op1 op2 =>
      simp only [Bool.or_eq_true, ← isPointTo_iff_mayShare h]
      cases t <;> split_ifs <;> simp_all
  | _ => simp

/-- Tagging by objects. -/
theorem tagging_consistent (h : pta.WF) (M : Module) (geps : List Inst) :
    (∀ w, isPointToUnsafeObjects pta (tagOperationsForProtections pta.toPTAWrapper geps).objects w =
        true ↔
      ∃ o ∈ pta.baseObjects w, o ∈ (tagOperationsForProtections pta.toPTAWrapper geps).objects) ∧
    ∀ i t, (i, t) ∈ tagOperations pta M geps ↔ i ∈ M.insts ∧
      (t = .dualguardUnsafe ∧ (∃ ptr ∈ accessedPointers M i, MayShare pta.toPTAWrapper geps ptr) ∨
        t = .dualguardUnsafeDponly ∧ i ∉ geps ∧ ¬ OnlyAddress M (.inst i.id) ∧
          ∃ src base indices, i.kind = .gep src base indices ∧
            MayShare pta.toPTAWrapper geps base) := by
  refine ⟨fun w => isPointToUnsafeObjects_iff h (unsafeObjects_base pta geps), fun i t => ?_⟩
  rw [← operationTag_eq_some h, tagOperations, List.mem_filterMap]
  constructor
  · intro hmem
    obtain ⟨j, hj, hjt⟩ := hmem
    obtain ⟨t', ht', heq⟩ := Option.map_eq_some_iff.mp hjt
    obtain ⟨rfl, rfl⟩ := Prod.mk.inj heq
    exact ⟨hj, ht'⟩
  · intro hmem
    exact ⟨i, hmem.1, Option.map_eq_some_iff.mpr ⟨t, hmem.2, rfl⟩⟩

/-- Object 10 with two fields. The argument may point to both fields, a GEP on it to the second. -/
def fieldGraph : PTAGraph where
  getExpandedFIPts v :=
    match v with
    | .arg _ _ => {11, 12}
    | .inst _ => {12}
    | _ => ∅
  getBaseObj id := if id = 11 ∨ id = 12 then 10 else id
  isStackObject _ := false
  isHeapObject _ := false
  isGlobalObject _ := false
  getAlloca _ := none
  getMalloc _ := none
  getGlobal _ := none
  getBaseNode id := if id = 11 ∨ id = 12 then some 10 else none

theorem fieldGraph_wf : fieldGraph.WF where
  gep id b h := by
    change (if id = 11 ∨ id = 12 then some 10 else none) = some b at h
    show (if id = 11 ∨ id = 12 then 10 else id) = b
    split_ifs at h ⊢
    exact Option.some.inj h
  object id h := by
    change (if id = 11 ∨ id = 12 then some 10 else none) = none at h
    show (if id = 11 ∨ id = 12 then 10 else id) = id
    split_ifs at h ⊢
    rfl
  base id := by
    show (if (if id = 11 ∨ id = 12 then 10 else id) = 11 ∨
      (if id = 11 ∨ id = 12 then 10 else id) = 12 then some 10 else none) = none
    split_ifs <;> simp_all

/-- GEP 0 is unsafe. GEP 1 is loaded through, and compared. -/
def fieldModule : Module where
  structs := fun _ => []
  globals := []
  funcs := [⟨0, "main", [.ptr (.int 8), .int 64], [⟨0, [
    ⟨0, .ptr (.int 8), .gep (.int 8) (.arg 0 0) [.arg 0 1]⟩,
    ⟨1, .ptr (.int 8), .gep (.int 8) (.arg 0 0) [.constInt (.ofNat 64 1)]⟩,
    ⟨2, .int 8, .load (.inst 1)⟩,
    ⟨3, .int 1, .icmp .eq (.inst 1) (.arg 0 0)⟩,
    ⟨4, .void, .ret none⟩]⟩]⟩]

def unsafeFieldGEP : Inst := ⟨0, .ptr (.int 8), .gep (.int 8) (.arg 0 0) [.arg 0 1]⟩

theorem field_tagging :
    (⟨2, .int 8, .load (.inst 1)⟩, .dualguardUnsafe) ∈
        tagOperations fieldGraph fieldModule [unsafeFieldGEP] ∧
      (⟨1, .ptr (.int 8), .gep (.int 8) (.arg 0 0) [.constInt (.ofNat 64 1)]⟩,
        .dualguardUnsafeDponly) ∈ tagOperations fieldGraph fieldModule [unsafeFieldGEP] := by
  have h := tagging_consistent fieldGraph_wf fieldModule [unsafeFieldGEP]
  constructor
  · refine (h.2 _ _).mpr ⟨by decide, Or.inl ⟨rfl, .inst 1, by decide, ?_⟩⟩
    exact ⟨unsafeFieldGEP, by decide, 10, by decide, by decide⟩
  · refine (h.2 _ _).mpr ⟨by decide, Or.inr ⟨rfl, by decide, fun hno => ?_, _, _, _, rfl, ?_⟩⟩
    · -- the comparison uses it too
      obtain hload | ⟨val, hstore⟩ :=
        hno.2 ⟨3, .int 1, .icmp .eq (.inst 1) (.arg 0 0)⟩ (by decide)
      · cases hload
      · cases hstore
    · exact ⟨unsafeFieldGEP, by decide, 10, by decide, by decide⟩

end MSV
