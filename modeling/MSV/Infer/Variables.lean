import MSV.Infer.AnalysisState

/-!
# The table of variables

`AnalysisState::Variables` as the source keeps it: a map whose `operator[]` creates an entry with a
null size, and operations that write one member after the other. `AnalysisState` of the model is
what is left when no entry has a null size; `represents_run` says that no sequence of operations
leaves one.

**Theorem (`variables_invariant`).** After any sequence of operations every entry is classified
`Safe`, `Seq` or `Dyn` and has a size, a variable is `Seq` or `Dyn` according to the last such
argument that arrived for it, it is never `Safe` again, and the three counts add up to the number of
variables.
-/

namespace MSV

/-- `VariableInfo`, with a size that may be null. -/
structure VariableEntry where
  classification : VariableStates
  size : Option Value
  hasMetadataTableEntry : Bool
  hasExplicitSizeVariable : Bool
  instantiatedExplicitSizeVariable : Bool
  explicitSizeVariable : Option Value
  isGlobal : Bool
  didClassificationChange : Bool
  dependentFunctions : List String

/-- The entry `operator[]` creates: all members zero. -/
instance : Inhabited VariableEntry :=
  ⟨⟨.safe, none, false, false, false, none, false, false, []⟩⟩

/-- `Variables`. -/
abbrev VariableTable := FMap Value VariableEntry

namespace VariableTable

/-- A write to a member of `Variables[v]`. -/
def write (t : VariableTable) (v : Value) (f : VariableEntry → VariableEntry) : VariableTable :=
  t.set v (f (t.get v))

def RegisterVariable (t : VariableTable) (v : Value) : VariableTable :=
  if t.has v then t
  else
    let t := write t v fun i => { i with classification := .safe }
    write t v fun i => { i with size := some (sizeConst 0) }

def ClassifyPointerVariable (t : VariableTable) (v : Value) (ptrType : VariableStates) :
    VariableTable :=
  let t := RegisterVariable t v
  -- both branches of the source that take the classification do the same
  if (t.get v).classification.rank < ptrType.rank ∨
      ((t.get v).classification = .dyn ∧ ptrType = .seq) then
    let t := write t v fun i => { i with classification := ptrType }
    if (t.get v).isGlobal then write t v fun i => { i with didClassificationChange := true } else t
  else t

def SetSizeForPointerVariable (t : VariableTable) (v : Value) (size : Option Value) :
    VariableTable :=
  let t := RegisterVariable t v
  match size with
  | none => write t v fun i => { i with size := some (sizeConst 0) }
  | some size => write t v fun i => { i with size := some size }

def SetExplicitSizeVariableForPointerVariable (t : VariableTable) (v : Value)
    (explicitSize : Option Value) : VariableTable :=
  let t := RegisterVariable t v
  let t := write t v fun i => { i with hasExplicitSizeVariable := explicitSize.isSome }
  write t v fun i => { i with explicitSizeVariable := explicitSize }

def SetInstantiatedExplicitSizeVariable (t : VariableTable) (v : Value) (b : Bool) :
    VariableTable :=
  write (RegisterVariable t v) v fun i => { i with instantiatedExplicitSizeVariable := b }

def SetHasMetadataTableEntry (t : VariableTable) (v : Value) : VariableTable :=
  write (RegisterVariable t v) v fun i => { i with hasMetadataTableEntry := true }

end VariableTable

/-! ## Counting -/

/-- The counters `GetVariablesStateAsString` computes and prints. -/
structure VariableCounts where
  tot : Nat
  safeptrscount : Nat
  seqptrscount : Nat
  dynptrscount : Nat
  hasmetadatatableentrycount : Nat

/-- One round of its loop. -/
def VariableCounts.count (c : VariableCounts) (i : VariableEntry) : VariableCounts :=
  let c := match i.classification with
    | .safe => { c with safeptrscount := c.safeptrscount + 1 }
    | .seq => { c with seqptrscount := c.seqptrscount + 1 }
    | .dyn => { c with dynptrscount := c.dynptrscount + 1 }
    | .unknown => c
  if i.hasMetadataTableEntry then
    { c with hasmetadatatableentrycount := c.hasmetadatatableentrycount + 1 }
  else c

/-- `GetVariablesStateAsString`, without the text. -/
def VariableTable.GetVariablesState (t : VariableTable) : VariableCounts :=
  t.entries.foldl (fun c e => c.count e.2) ⟨t.size, 0, 0, 0, 0⟩

/-! ## Sequences of operations -/

inductive VariableOp where
  | RegisterVariable
  | ClassifyPointerVariable (ptrType : VariableStates)
  | SetSizeForPointerVariable (size : Option Value)
  | SetExplicitSizeVariableForPointerVariable (explicitSize : Option Value)
  | SetInstantiatedExplicitSizeVariable (b : Bool)
  | SetHasMetadataTableEntry

/-- An operation on a variable. -/
def VariableTable.apply (t : VariableTable) (v : Value) : VariableOp → VariableTable
  | .RegisterVariable => t.RegisterVariable v
  | .ClassifyPointerVariable c => t.ClassifyPointerVariable v c
  | .SetSizeForPointerVariable s => t.SetSizeForPointerVariable v s
  | .SetExplicitSizeVariableForPointerVariable s => t.SetExplicitSizeVariableForPointerVariable v s
  | .SetInstantiatedExplicitSizeVariable b => t.SetInstantiatedExplicitSizeVariable v b
  | .SetHasMetadataTableEntry => t.SetHasMetadataTableEntry v

def VariableTable.run (ops : List (Value × VariableOp)) : VariableTable :=
  ops.foldl (fun t op => t.apply op.1 op.2) ∅

/-- The argument of a classification as `Seq` or `Dyn`. -/
def VariableOp.unsafeArg : VariableOp → Option VariableStates
  | .ClassifyPointerVariable c => if c.isUnsafe then some c else none
  | _ => none

/-- The last argument `Seq` or `Dyn` that arrived for the variable. -/
def lastClass (v : Value) (ops : List (Value × VariableOp)) : Option VariableStates :=
  ops.foldl (fun last op => if op.1 = v then op.2.unsafeArg.or last else last) none

/-! ## What an operation does to an entry -/

/-- What `RegisterVariable` leaves of an entry. -/
def VariableEntry.registered : VariableEntry := { (default : VariableEntry) with
  size := some (sizeConst 0) }

/-- The entry after an operation on its variable, from the entry registered before. -/
def VariableOp.entry (i : VariableEntry) : VariableOp → VariableEntry
  | .RegisterVariable => i
  | .ClassifyPointerVariable c =>
      if i.classification.rank < c.rank ∨ (i.classification = .dyn ∧ c = .seq) then
        { i with
          classification := c
          didClassificationChange := i.didClassificationChange || i.isGlobal }
      else i
  | .SetSizeForPointerVariable s => { i with size := some (s.getD (sizeConst 0)) }
  | .SetExplicitSizeVariableForPointerVariable s =>
      { i with hasExplicitSizeVariable := s.isSome, explicitSizeVariable := s }
  | .SetInstantiatedExplicitSizeVariable b => { i with instantiatedExplicitSizeVariable := b }
  | .SetHasMetadataTableEntry => { i with hasMetadataTableEntry := true }

namespace VariableTable

variable (t : VariableTable) (v k : Value)

theorem find_write (f : VariableEntry → VariableEntry) :
    FMap.find (t.write v f) k = if k = v then some (f (FMap.get t v)) else FMap.find t k :=
  FMap.find_set ..

theorem get_write (f : VariableEntry → VariableEntry) :
    FMap.get (t.write v f) v = f (FMap.get t v) := FMap.get_set_self ..

theorem find_RegisterVariable : FMap.find (t.RegisterVariable v) k =
    if k = v then some ((FMap.find t v).getD .registered) else FMap.find t k := by
  unfold RegisterVariable
  by_cases hv : FMap.has t v
  · rw [if_pos hv]
    obtain ⟨i, hi⟩ := FMap.has_iff_find.mp hv
    split_ifs with hk
    · rw [hk, hi]
      rfl
    · rfl
  · have hnone := FMap.not_has_iff_find.mp hv
    have hget : FMap.get t v = default := by simp [FMap.get, hnone]
    rw [if_neg hv]
    dsimp only
    rw [find_write, find_write, get_write, hget, hnone]
    split_ifs <;> rfl

theorem get_RegisterVariable : FMap.get (t.RegisterVariable v) v =
    (FMap.find t v).getD .registered := by
  refine FMap.get_of_find ?_
  rw [find_RegisterVariable, if_pos rfl]

/-- **One operation.** It writes the entry of its variable, and no other. -/
theorem find_apply (op : VariableOp) : FMap.find (t.apply v op) k =
    if k = v then some (op.entry ((FMap.find t v).getD .registered)) else FMap.find t k := by
  have hwrite : ∀ f g, (f (g ((FMap.find t v).getD .registered)) =
      op.entry ((FMap.find t v).getD .registered)) →
      FMap.find (write (write (RegisterVariable t v) v g) v f) k =
        if k = v then some (op.entry ((FMap.find t v).getD .registered)) else FMap.find t k := by
    intro f g h
    rw [find_write, get_write, get_RegisterVariable, find_write, find_RegisterVariable, h]
    split_ifs <;> rfl
  have hwrite1 : ∀ f, (f ((FMap.find t v).getD .registered) =
      op.entry ((FMap.find t v).getD .registered)) →
      FMap.find (write (RegisterVariable t v) v f) k =
        if k = v then some (op.entry ((FMap.find t v).getD .registered)) else FMap.find t k := by
    intro f h
    rw [find_write, get_RegisterVariable, find_RegisterVariable, h]
    split_ifs <;> rfl
  cases op with
  | RegisterVariable => exact find_RegisterVariable t v k
  | ClassifyPointerVariable c =>
      show FMap.find (ClassifyPointerVariable t v c) k = _
      unfold ClassifyPointerVariable
      dsimp only
      rw [get_write, get_RegisterVariable]
      by_cases htake : ((FMap.find t v).getD .registered).classification.rank < c.rank ∨
          (((FMap.find t v).getD .registered).classification = .dyn ∧ c = .seq)
      · rw [if_pos htake]
        cases hglobal : ((FMap.find t v).getD .registered).isGlobal with
        | true =>
            rw [if_pos rfl]
            refine hwrite _ _ ?_
            simp [VariableOp.entry, htake, hglobal]
        | false =>
            rw [if_neg Bool.false_ne_true]
            refine hwrite1 _ ?_
            simp [VariableOp.entry, htake, hglobal]
      · rw [if_neg htake, find_RegisterVariable]
        simp [VariableOp.entry, htake]
  | SetSizeForPointerVariable s =>
      cases s with
      | none => exact hwrite1 _ rfl
      | some s => exact hwrite1 _ rfl
  | SetExplicitSizeVariableForPointerVariable s => exact hwrite _ _ rfl
  | SetInstantiatedExplicitSizeVariable b => exact hwrite1 _ rfl
  | SetHasMetadataTableEntry => exact hwrite1 _ rfl

end VariableTable

/-! ## Entries -/

/-- The entry is classified, and has a size. -/
structure VariableEntry.WF (i : VariableEntry) : Prop where
  classified : i.classification ≠ .unknown
  size : i.size ≠ none

theorem VariableEntry.wf_registered : VariableEntry.registered.WF where
  classified := by decide
  size := by simp [VariableEntry.registered]

theorem VariableEntry.WF.entry {i : VariableEntry} (h : i.WF) (op : VariableOp) :
    (op.entry i).WF := by
  cases op with
  | ClassifyPointerVariable c =>
      rw [VariableOp.entry]
      split_ifs with htake
      · refine ⟨?_, h.size⟩
        rintro (rfl : c = .unknown)
        obtain hlt | ⟨-, hc⟩ := htake
        · have hknown := h.classified
          cases hi : i.classification <;> simp_all [VariableStates.rank]
        · cases hc
      · exact h
  | SetSizeForPointerVariable s => exact ⟨h.classified, by simp [VariableOp.entry]⟩
  | _ => exact ⟨h.classified, h.size⟩

/-- A classification that is `Seq` or `Dyn` is always taken, and no other ever is. -/
theorem VariableEntry.WF.classification_entry {i : VariableEntry} (h : i.WF) (op : VariableOp) :
    (op.entry i).classification = op.unsafeArg.getD i.classification := by
  have hknown := h.classified
  cases op with
  | ClassifyPointerVariable c =>
      unfold VariableOp.entry VariableOp.unsafeArg
      cases hi : i.classification <;> cases c <;>
        simp_all [VariableStates.rank, VariableStates.isUnsafe]
  | _ => rfl

/-! ## Runs -/

section

variable (ops : List (Value × VariableOp)) (op : Value × VariableOp) (v : Value)

theorem VariableTable.run_concat :
    VariableTable.run (ops ++ [op]) = (VariableTable.run ops).apply op.1 op.2 := by
  unfold VariableTable.run
  rw [List.foldl_append]
  rfl

theorem lastClass_concat : lastClass v (ops ++ [op]) =
    if op.1 = v then op.2.unsafeArg.or (lastClass v ops) else lastClass v ops := by
  unfold lastClass
  rw [List.foldl_append]
  rfl

end

/-- Every entry is well formed, with the class of the last argument; a variable for which one
arrived has an entry. -/
structure VariableTable.Inv (t : VariableTable) (ops : List (Value × VariableOp)) : Prop where
  wf : ∀ v i, FMap.find t v = some i → i.WF
  last : ∀ v i, FMap.find t v = some i → i.classification = (lastClass v ops).getD .safe
  has : ∀ v, lastClass v ops ≠ none → FMap.has t v

theorem VariableTable.Inv.step {t : VariableTable} {ops : List (Value × VariableOp)}
    (h : t.Inv ops) (op : Value × VariableOp) : (t.apply op.1 op.2).Inv (ops ++ [op]) := by
  have hold : ((FMap.find t op.1).getD .registered).WF ∧
      ((FMap.find t op.1).getD .registered).classification = (lastClass op.1 ops).getD .safe := by
    cases hfind : FMap.find t op.1 with
    | some i => exact ⟨h.wf op.1 i hfind, h.last op.1 i hfind⟩
    | none =>
        refine ⟨VariableEntry.wf_registered, ?_⟩
        have hnone : lastClass op.1 ops = none := by
          by_contra hne
          exact FMap.not_has_iff_find.mpr hfind (h.has op.1 hne)
        rw [hnone]
        rfl
  refine ⟨fun v i hi => ?_, fun v i hi => ?_, fun v hv => ?_⟩
  · rw [find_apply] at hi
    split_ifs at hi with hk
    · obtain rfl := Option.some.inj hi
      exact hold.1.entry op.2
    · exact h.wf v i hi
  · rw [find_apply] at hi
    split_ifs at hi with hk
    · subst hk
      obtain rfl := Option.some.inj hi
      rw [hold.1.classification_entry, lastClass_concat, if_pos rfl, hold.2]
      cases op.2.unsafeArg with
      | some c => rfl
      | none => rfl
    · rw [lastClass_concat, if_neg (Ne.symm hk)]
      exact h.last v i hi
  · rw [FMap.has_iff_find, find_apply]
    split_ifs with hk
    · exact ⟨_, rfl⟩
    · rw [lastClass_concat, if_neg (Ne.symm hk)] at hv
      exact FMap.has_iff_find.mp (h.has v hv)

theorem VariableTable.inv_run (ops : List (Value × VariableOp)) :
    (VariableTable.run ops).Inv ops := by
  induction ops using List.reverseRecOn with
  | nil =>
      refine ⟨fun v i hi => ?_, fun v i hi => ?_, fun v hv => ?_⟩
      · cases hi
      · cases hi
      · exact absurd rfl hv
  | append_singleton ops op ih =>
      rw [VariableTable.run_concat]
      exact ih.step op

/-! ## Counts -/

theorem VariableCounts.count_sum (c : VariableCounts) {i : VariableEntry} (h : i.WF) :
    (c.count i).safeptrscount + (c.count i).seqptrscount + (c.count i).dynptrscount =
      c.safeptrscount + c.seqptrscount + c.dynptrscount + 1 := by
  have hknown := h.classified
  unfold VariableCounts.count
  cases hi : i.classification with
  | unknown => exact absurd hi hknown
  | _ =>
      dsimp only
      split_ifs <;> dsimp only <;> omega

/-- The three counters grow by one in every round. -/
theorem foldl_count_sum (l : List (Sigma fun _ : Value => VariableEntry)) (hl : ∀ e ∈ l, e.2.WF)
    (c : VariableCounts) :
    let c' := l.foldl (fun c e => c.count e.2) c
    c'.safeptrscount + c'.seqptrscount + c'.dynptrscount =
      c.safeptrscount + c.seqptrscount + c.dynptrscount + l.length := by
  induction l generalizing c with
  | nil => rfl
  | cons e l ih =>
      have hsum := c.count_sum (hl e List.mem_cons_self)
      have hrest := ih (fun e' he' => hl e' (List.mem_cons_of_mem e he')) (c.count e.2)
      dsimp only at hrest ⊢
      rw [List.foldl_cons, hrest, hsum, List.length_cons]
      omega

/-! ## The table and the state of the model -/

/-- An entry of the model's state. -/
def VariableEntry.ofInfo (i : VariableInfo) : VariableEntry where
  classification := i.classification
  size := some i.size
  hasMetadataTableEntry := i.hasMetadataTableEntry
  hasExplicitSizeVariable := i.hasExplicitSizeVariable
  instantiatedExplicitSizeVariable := i.instantiatedExplicitSizeVariable
  explicitSizeVariable := i.explicitSizeVariable
  isGlobal := i.isGlobal
  didClassificationChange := i.didClassificationChange
  dependentFunctions := i.dependentFunctions

/-- The table holds the entries of the state. -/
def VariableTable.Represents (t : VariableTable) (st : AnalysisState) : Prop :=
  ∀ v, FMap.find t v = (st.Variables.find v).map VariableEntry.ofInfo

namespace AnalysisState

/-- An operation of the model. -/
def applyOp (st : AnalysisState) (v : Value) : VariableOp → AnalysisState
  | .RegisterVariable => st.RegisterVariable v
  | .ClassifyPointerVariable c => st.ClassifyPointerVariable v c
  | .SetSizeForPointerVariable s => st.SetSizeForPointerVariable v s
  | .SetExplicitSizeVariableForPointerVariable s => st.SetExplicitSizeVariableForPointerVariable v s
  | .SetInstantiatedExplicitSizeVariable b => st.SetInstantiatedExplicitSizeVariable v b
  | .SetHasMetadataTableEntry => st.SetHasMetadataTableEntry v

variable (st : AnalysisState) (v k : Value)

theorem find_modify (f : VariableInfo → VariableInfo) : (st.modify v f).Variables.find k =
    if k = v then some (f (st.info v)) else st.Variables.find k := FMap.find_set ..

theorem find_register : (st.RegisterVariable v).Variables.find k =
    if k = v then some (st.info v) else st.Variables.find k := by
  unfold RegisterVariable
  split_ifs with hv hk hk
  · obtain ⟨i, hi⟩ := FMap.has_iff_find.mp hv
    rw [hk, hi, info, hi]
    rfl
  · rfl
  · rw [find_modify, if_pos hk]
    rfl
  · rw [find_modify, if_neg hk]

theorem info_register : (st.RegisterVariable v).info v = st.info v := by
  show ((st.RegisterVariable v).Variables.find v).getD .registered = _
  rw [find_register, if_pos rfl]
  rfl

/-- The model's operation does to an entry what the source's does. -/
theorem find_applyOp (op : VariableOp) :
    ((st.applyOp v op).Variables.find k).map VariableEntry.ofInfo =
      if k = v then some (op.entry (.ofInfo (st.info v)))
      else (st.Variables.find k).map VariableEntry.ofInfo := by
  have hmodify : ∀ f : VariableInfo → VariableInfo,
      VariableEntry.ofInfo (f (st.info v)) = op.entry (.ofInfo (st.info v)) →
      (((st.RegisterVariable v).modify v f).Variables.find k).map VariableEntry.ofInfo =
        if k = v then some (op.entry (.ofInfo (st.info v)))
        else (st.Variables.find k).map VariableEntry.ofInfo := by
    intro f hf
    rw [find_modify, info_register, find_register]
    split_ifs with hk
    · exact congrArg some hf
    · rfl
  have hregister : VariableEntry.ofInfo (st.info v) = op.entry (.ofInfo (st.info v)) →
      ((st.RegisterVariable v).Variables.find k).map VariableEntry.ofInfo =
        if k = v then some (op.entry (.ofInfo (st.info v)))
        else (st.Variables.find k).map VariableEntry.ofInfo := by
    intro hf
    rw [find_register]
    split_ifs with hk
    · exact congrArg some hf
    · rfl
  cases op with
  | RegisterVariable => exact hregister rfl
  | ClassifyPointerVariable c =>
      show ((st.ClassifyPointerVariable v c).Variables.find k).map VariableEntry.ofInfo = _
      unfold ClassifyPointerVariable
      dsimp only
      rw [info_register]
      by_cases htake : (st.info v).classification.rank < c.rank ∨
          ((st.info v).classification = .dyn ∧ c = .seq)
      · rw [if_pos htake]
        refine hmodify _ ?_
        simp [VariableOp.entry, VariableEntry.ofInfo, htake]
      · rw [if_neg htake]
        refine hregister ?_
        simp [VariableOp.entry, VariableEntry.ofInfo, htake]
  | SetSizeForPointerVariable s => exact hmodify _ rfl
  | SetExplicitSizeVariableForPointerVariable s => exact hmodify _ rfl
  | SetInstantiatedExplicitSizeVariable b => exact hmodify _ rfl
  | SetHasMetadataTableEntry => exact hmodify _ rfl

end AnalysisState

theorem VariableTable.Represents.step {t : VariableTable} {st : AnalysisState}
    (h : t.Represents st) (v : Value) (op : VariableOp) :
    (t.apply v op).Represents (st.applyOp v op) := by
  intro k
  have hinfo : (FMap.find t v).getD .registered = .ofInfo (st.info v) := by
    rw [h v]
    unfold AnalysisState.info
    cases st.Variables.find v <;> rfl
  rw [find_apply, AnalysisState.find_applyOp, hinfo, h k]

/-- **The source's table refines to the model's state.** -/
theorem VariableTable.represents_run (ops : List (Value × VariableOp)) :
    (VariableTable.run ops).Represents
      (ops.foldl (fun st op => st.applyOp op.1 op.2) AnalysisState.initial) := by
  induction ops using List.reverseRecOn with
  | nil => exact fun v => rfl
  | append_singleton ops op ih =>
      rw [VariableTable.run_concat, List.foldl_append]
      exact ih.step op.1 op.2

/-! ## The invariant -/

/-- An argument that arrived is not forgotten. -/
theorem lastClass_append (v : Value) (pre suf : List (Value × VariableOp))
    (h : lastClass v pre ≠ none) : lastClass v (pre ++ suf) ≠ none := by
  induction suf using List.reverseRecOn with
  | nil => rwa [List.append_nil]
  | append_singleton suf op ih =>
      rw [← List.append_assoc, lastClass_concat]
      split_ifs
      · cases hop : op.2.unsafeArg with
        | some c => exact Option.some_ne_none c
        | none => exact ih
      · exact ih

theorem isUnsafe_unsafeArg {op : VariableOp} {c : VariableStates} (h : op.unsafeArg = some c) :
    c.isUnsafe = true := by
  cases op with
  | ClassifyPointerVariable d =>
      rw [VariableOp.unsafeArg] at h
      split_ifs at h with hd
      obtain rfl := Option.some.inj h
      exact hd
  | _ => cases h

theorem isUnsafe_lastClass {v : Value} {ops : List (Value × VariableOp)} {c : VariableStates}
    (h : lastClass v ops = some c) : c.isUnsafe = true := by
  induction ops using List.reverseRecOn with
  | nil => cases h
  | append_singleton ops op ih =>
      rw [lastClass_concat] at h
      split_ifs at h
      · cases hop : op.2.unsafeArg with
        | none =>
            rw [hop] at h
            exact ih h
        | some d =>
            rw [hop] at h
            obtain rfl := Option.some.inj h
            exact isUnsafe_unsafeArg hop
      · exact ih h

/-- **The table's invariant.** -/
theorem variables_invariant (ops : List (Value × VariableOp)) :
    (∀ v i, FMap.find (VariableTable.run ops) v = some i →
      i.classification ∈ [.safe, .seq, .dyn] ∧ i.size ≠ none) ∧
    (∀ pre suf, ops = pre ++ suf → ∀ v i, FMap.find (VariableTable.run pre) v = some i →
      i.classification.isUnsafe = true →
      ∃ j, FMap.find (VariableTable.run ops) v = some j ∧ j.classification ≠ .safe) ∧
    (∀ v c, lastClass v ops = some c →
      ∃ i, FMap.find (VariableTable.run ops) v = some i ∧ i.classification = c) ∧
    (VariableTable.run ops).GetVariablesState.safeptrscount +
        (VariableTable.run ops).GetVariablesState.seqptrscount +
        (VariableTable.run ops).GetVariablesState.dynptrscount = (VariableTable.run ops).size := by
  have hinv := VariableTable.inv_run ops
  have hlast : ∀ v c, lastClass v ops = some c →
      ∃ i, FMap.find (VariableTable.run ops) v = some i ∧ i.classification = c := by
    intro v c hc
    obtain ⟨i, hi⟩ := FMap.has_iff_find.mp (hinv.has v (by rw [hc]; exact Option.some_ne_none c))
    refine ⟨i, hi, ?_⟩
    rw [hinv.last v i hi, hc]
    rfl
  refine ⟨fun v i hi => ?_, fun pre suf hops v i hi hunsafe => ?_, hlast, ?_⟩
  · obtain ⟨hclass, hsize⟩ := hinv.wf v i hi
    refine ⟨?_, hsize⟩
    cases hc : i.classification with
    | unknown => exact absurd hc hclass
    | _ => simp
  · -- an unsafe class comes from an argument, which is not forgotten
    have hne : lastClass v pre ≠ none := by
      intro hnone
      rw [(VariableTable.inv_run pre).last v i hi, hnone] at hunsafe
      cases hunsafe
    obtain ⟨c, hc⟩ := Option.ne_none_iff_exists'.mp (lastClass_append v pre suf hne)
    rw [← hops] at hc
    obtain ⟨j, hj, hjc⟩ := hlast v c hc
    refine ⟨j, hj, ?_⟩
    rw [hjc]
    rintro rfl
    cases isUnsafe_lastClass hc
  · have hwf : ∀ e ∈ (VariableTable.run ops).entries, e.2.WF := by
      intro e he
      exact hinv.wf e.1 e.2 (AList.mem_lookup_iff.mpr he)
    have hsum := foldl_count_sum _ hwf ⟨(VariableTable.run ops).size, 0, 0, 0, 0⟩
    dsimp only at hsum
    unfold VariableTable.GetVariablesState
    rw [hsum]
    simp [FMap.size]

end MSV
