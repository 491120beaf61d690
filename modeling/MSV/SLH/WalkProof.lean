import MSV.SLH.PlanProof

/-!
# The second walk

A step of the second walk changes what the sets say of the instruction it is at, and which results
are still to be hardened.

**Theorem (`mem_awaiting_iff`).** The results that are still to be hardened behind a stretch of the
block are the awaiting ones.

**Theorem (`prefixed_iff_marked`).** The filter finds a `DUMMY_AFTER` before an instruction in front
of the first fence exactly when the instruction is marked.
-/

namespace MSV.SLH

variable {O : Options} {T : Target} {F : MachineFunction} {bb : MachineBasicBlock}

/-! ## Seen from one instruction -/

/-- What the second walk will ask about instruction `i`, its result apart, and what it has recorded
of it. -/
structure View where
  loadAddr : Bool
  storeAddr : Bool
  condition : Bool
  other : Bool
  log : List (Hardening × Nat)

def Hardened.view (w : Hardened) (i : Nat) : View where
  loadAddr := decide (i ∈ w.sets.HardenLoadAddr)
  storeAddr := decide (i ∈ w.sets.HardenStoreAddr)
  condition := decide (i ∈ w.sets.HardenCondition)
  other := decide (inOtherHardenList w.sets i)
  log := w.log.filter fun e => e.2 = i

section View

variable {w : Hardened} {i : Nat} {mi : MachineInstr} {prev prevPrev : Option MachineInstr}

theorem view_record (hi : mi.id ≠ i) (h : Hardening) : (w.record h mi).view i = w.view i := by
  have hlog : (w.log ++ [(h, mi.id)]).filter (fun e => e.2 = i) =
      w.log.filter fun e => e.2 = i := by simp [hi]
  show View.mk _ _ _ _ ((w.log ++ [(h, mi.id)]).filter fun e => e.2 = i) = _
  rw [hlog]
  rfl

theorem view_markAsProtected : (markAsProtected prev prevPrev w).view i = w.view i := by
  unfold markAsProtected
  split_ifs <;> rfl

theorem view_update {f : Collected → Collected}
    (h1 : i ∈ (f w.sets).HardenLoadAddr ↔ i ∈ w.sets.HardenLoadAddr)
    (h2 : i ∈ (f w.sets).HardenStoreAddr ↔ i ∈ w.sets.HardenStoreAddr)
    (h3 : i ∈ (f w.sets).HardenCondition ↔ i ∈ w.sets.HardenCondition)
    (h4 : inOtherHardenList (f w.sets) i ↔ inOtherHardenList w.sets i) :
    (w.update f).view i = w.view i := by
  simp only [Hardened.view, Hardened.update, h1, h2, h3, h4]

theorem view_removeLoadAddr (hi : mi.id ≠ i) :
    (w.update (Collected.removeLoadAddr mi.id)).view i = w.view i := by
  refine view_update ?_ Iff.rfl Iff.rfl Iff.rfl
  simp [Collected.removeLoadAddr, hi.symm]

theorem view_removeStoreAddr (hi : mi.id ≠ i) :
    (w.update (Collected.removeStoreAddr mi.id)).view i = w.view i := by
  refine view_update Iff.rfl ?_ Iff.rfl Iff.rfl
  simp [Collected.removeStoreAddr, hi.symm]

theorem view_removeCondition (hi : mi.id ≠ i) :
    (w.update (Collected.removeCondition mi.id)).view i = w.view i := by
  refine view_update Iff.rfl Iff.rfl ?_ ?_
  · simp [Collected.removeCondition, hi.symm]
  · simp [Collected.removeCondition, inOtherHardenList, hi.symm]

theorem view_removeVTInstr (hi : mi.id ≠ i) :
    (w.update (Collected.removeVTInstr mi.id)).view i = w.view i := by
  refine view_update Iff.rfl Iff.rfl Iff.rfl ?_
  simp [Collected.removeVTInstr, inOtherHardenList, hi.symm]

theorem view_removeFixedAddress (hi : mi.id ≠ i) :
    (w.update (Collected.removeFixedAddress mi.id)).view i = w.view i := by
  refine view_update Iff.rfl Iff.rfl Iff.rfl ?_
  simp only [Collected.removeFixedAddress, inOtherHardenList]
  split_ifs <;> simp [hi.symm]

theorem view_removePostLoad (hi : mi.id ≠ i) :
    (w.update (Collected.removePostLoad O mi.id)).view i = w.view i := by
  refine view_update Iff.rfl ?_ ?_ ?_
  · simp [Collected.removePostLoad, hi.symm]
  · simp only [Collected.removePostLoad]
    split_ifs <;> simp [hi.symm]
  · simp only [Collected.removePostLoad, inOtherHardenList]
    split_ifs <;> simp [hi.symm]

theorem view_insertPostLoad (j : Nat) :
    (w.update (Collected.insertPostLoad j)).view i = w.view i :=
  view_update Iff.rfl Iff.rfl Iff.rfl Iff.rfl

theorem view_orElse {r : Hardened × Bool} {next : Hardened → Hardened × Bool}
    (h : r.1.view i = w.view i) (hnext : ∀ w', (next w').1.view i = w'.view i) :
    (orElse r next).1.view i = w.view i := by
  unfold orElse
  split_ifs
  · exact h
  · rw [hnext, h]

end View

section Elsewhere

variable {w : Hardened} {i : Nat} {mi : MachineInstr} {prev prevPrev : Option MachineInstr}

theorem view_visitLoadAddr (hi : mi.id ≠ i) :
    (visitLoadAddr O prev prevPrev mi w).1.view i = w.view i := by
  unfold visitLoadAddr hardenAccess
  split_ifs
  · exact view_removeLoadAddr hi
  · rw [view_record hi, view_removeStoreAddr hi, view_markAsProtected, view_removeLoadAddr hi]
  · rw [view_markAsProtected, view_removeLoadAddr hi]
  · rw [view_record hi, view_markAsProtected, view_removeLoadAddr hi]
  · rfl

theorem view_visitPostLoad (hi : mi.id ≠ i) :
    (visitPostLoad O T F bb mi w).1.view i = w.view i := by
  unfold visitPostLoad finishPostLoad
  split_ifs
  · split
    · exact view_removePostLoad hi
    · split_ifs
      · rw [view_record hi, view_removePostLoad hi]
      · rw [view_record hi, view_insertPostLoad, view_removePostLoad hi]
  · rfl

theorem view_visitFixedAddress (hi : mi.id ≠ i) :
    (visitFixedAddress prev prevPrev mi w).view i = w.view i := by
  unfold visitFixedAddress
  split_ifs
  · rw [view_record hi, view_markAsProtected, view_removeFixedAddress hi]
  · rfl

theorem view_visitCondition (hi : mi.id ≠ i) :
    (visitCondition prev prevPrev mi w).1.view i = w.view i := by
  unfold visitCondition
  split_ifs
  · rw [view_record hi, view_markAsProtected, view_removeCondition hi]
  · rfl

theorem view_visitVTInstr (hi : mi.id ≠ i) :
    (visitVTInstr prev prevPrev mi w).1.view i = w.view i := by
  unfold visitVTInstr
  split_ifs
  · rw [view_record hi, view_markAsProtected, view_removeVTInstr hi]
  · rfl

theorem view_visitStoreAddr (hi : mi.id ≠ i) :
    (visitStoreAddr T prev prevPrev mi w).view i = w.view i := by
  unfold visitStoreAddr hardenPush
  split_ifs
  · rw [view_record hi, view_update Iff.rfl Iff.rfl Iff.rfl Iff.rfl, view_record hi,
      view_markAsProtected, view_removeStoreAddr hi]
  · rw [view_record hi, view_markAsProtected, view_removeStoreAddr hi]
  · rfl

theorem view_visitControl (hi : mi.id ≠ i) :
    (visitInterprocedural O mi (visitIndirect O mi w)).view i = w.view i ∧
      (visitInterprocedural O mi w).view i = w.view i := by
  have hind : (visitIndirect O mi w).view i = w.view i := by
    unfold visitIndirect
    split_ifs
    · exact view_record hi _
    · rfl
  have hint : ∀ w', (visitInterprocedural O mi w').view i = w'.view i := by
    intro w'
    unfold visitInterprocedural
    split_ifs
    · rfl
    · rfl
    · exact view_record hi _
    · exact view_record hi _
  exact ⟨(hint _).trans hind, hint w⟩

/-- A step of the second walk at one instruction changes nothing at another. -/
theorem view_visitInstr (hi : mi.id ≠ i) :
    (visitInstr O T F bb prev prevPrev mi w).view i = w.view i := by
  unfold visitInstr visitLoads
  split_ifs
  · refine view_orElse (view_orElse (view_visitLoadAddr hi) fun w => ?_) fun w => ?_
    · refine view_orElse (view_visitPostLoad hi) fun w => ?_
      refine view_orElse ?_ fun w => ?_
      · rw [view_visitCondition hi, view_visitFixedAddress hi]
      · exact view_orElse (view_visitVTInstr hi) fun w => view_visitStoreAddr hi
    · exact (view_visitControl hi).1
  · exact (view_visitControl hi).2

theorem view_hardenWalk {l : List MachineInstr} (hl : ∀ y ∈ l, y.id ≠ i) :
    (hardenWalk O T F bb prevPrev prev l w).view i = w.view i := by
  induction l generalizing prev prevPrev w with
  | nil => rfl
  | cons mi l ih =>
      rw [hardenWalk, ih fun y hy => hl y (by simp [hy])]
      exact view_visitInstr (hl mi (by simp))

end Elsewhere

/-! ## Results -/

theorem sinkCheck_spec {hardened : List Nat} {r : Reg} {us : List MachineInstr}
    {single : Option MachineInstr} {u : MachineInstr}
    (h : sinkCheckToSingleUse T bb hardened r us single = some (some u)) :
    single = some u ∨ u ∈ us ∧ u.isDataInvariant = true := by
  induction us generalizing single with
  | nil => simpa [sinkCheckToSingleUse] using h
  | cons x us ih =>
      unfold sinkCheckToSingleUse at h
      split_ifs at h with h1 h2 h3 h4 h5
      · exact (ih h).imp_right fun hu => ⟨by simp [hu.1], hu.2⟩
      · split at h
        · split_ifs at h
          rcases ih h with hu | hu
          · refine Or.inr ⟨by simp [← Option.some.inj hu], ?_⟩
            rw [← Option.some.inj hu]
            simp only [Bool.or_eq_true, Bool.not_eq_true', decide_eq_true_eq, not_or] at h4
            simpa using h4.1.1
          · exact Or.inr ⟨by simp [hu.1], hu.2⟩
        · cases h

/-- Hardening is sunk to a data invariant instruction of the function. -/
theorem sinkPostLoad_spec {hardened : List Nat} {fuel : Nat} {mi u : MachineInstr}
    (h : sinkPostLoadHardenedInst T F bb hardened fuel mi = some u) :
    u = mi ∨ u ∈ F.flatten ∧ u.isDataInvariant = true := by
  induction fuel generalizing mi with
  | zero => exact Or.inl (by simpa [sinkPostLoadHardenedInst] using h.symm)
  | succ fuel ih =>
      unfold sinkPostLoadHardenedInst at h
      split at h
      · exact Or.inl (by simpa using h.symm)
      · split at h
        · exact Or.inl (by simpa using h.symm)
        · cases h
        · rename_i x hx
          rcases sinkCheck_spec hx with hs | ⟨hmem, hinv⟩
          · cases hs
          · rcases ih h with rfl | hu
            · exact Or.inr ⟨(List.mem_filter.mp hmem).1, hinv⟩
            · exact Or.inr hu

/-! ### The results that are still to be hardened -/

/-- The second walk gets to the result of an instruction, by the sets. -/
def ToResult (O : Options) (i : Nat) (c : Collected) : Prop :=
  i ∈ c.HardenLoadAddr →
    O.HardenAllBranchConditions = true ∧ i ∈ c.HardenCondition ∧ i ∉ c.HardenStoreAddr

section Results

variable {w : Hardened} {mi : MachineInstr} {prev prevPrev : Option MachineInstr}

@[simp] theorem markAsProtected_log : (markAsProtected prev prevPrev w).log = w.log := by
  unfold markAsProtected; split_ifs <;> rfl

@[simp] theorem markAsProtected_sets : (markAsProtected prev prevPrev w).sets = w.sets := by
  unfold markAsProtected; split_ifs <;> rfl

@[simp] theorem update_log (f : Collected → Collected) : (w.update f).log = w.log := rfl

@[simp] theorem update_sets (f : Collected → Collected) : (w.update f).sets = f w.sets := rfl

@[simp] theorem record_sets (k : Hardening) : (w.record k mi).sets = w.sets := rfl

variable (O mi w prev prevPrev) in
theorem postLoad_visitLoadAddr :
    (visitLoadAddr O prev prevPrev mi w).1.sets.HardenPostLoad = w.sets.HardenPostLoad ∧
      ((visitLoadAddr O prev prevPrev mi w).2 = false ↔ ToResult O mi.id w.sets) := by
  unfold visitLoadAddr ToResult
  by_cases hmem : mi.id ∈ w.sets.HardenLoadAddr
  · rw [if_pos hmem]
    by_cases hf : Filtered O prev mi.id w.sets
    · rw [if_pos hf]
      have hcond : mi.id ∉ w.sets.HardenCondition := fun h => hf.2.1 (.inl h)
      simp [hmem, hcond, Collected.removeLoadAddr]
    · rw [if_neg hf]
      unfold hardenAccess doneWith
      by_cases hst : mi.id ∈ w.sets.HardenStoreAddr
      · rw [if_pos (by simpa [Collected.removeLoadAddr] using hst)]
        simp [hmem, hst, Collected.removeLoadAddr, Collected.removeStoreAddr]
      · rw [if_neg (by simpa [Collected.removeLoadAddr] using hst)]
        split_ifs <;> simp [hmem, hst, Collected.removeLoadAddr]
  · rw [if_neg hmem]
    simp [hmem]

theorem postLoad_visitPostLoad : (visitPostLoad O T F bb mi w).1.sets.HardenPostLoad =
    if mi.id ∈ w.sets.HardenPostLoad then moveResult T F bb w.sets.HardenPostLoad mi
    else w.sets.HardenPostLoad := by
  have htarget : sinkTarget T F bb mi (Collected.removePostLoad O mi.id w.sets) =
      resultTarget T F bb w.sets.HardenPostLoad mi := rfl
  unfold visitPostLoad finishPostLoad moveResult
  rw [htarget]
  split_ifs
  · cases resultTarget T F bb w.sets.HardenPostLoad mi with
    | none => rfl
    | some u =>
        simp only
        split_ifs <;> rfl
  · rfl

theorem postLoad_orElse {r : Hardened × Bool} {next : Hardened → Hardened × Bool}
    (h : ∀ w, (next w).1.sets.HardenPostLoad = w.sets.HardenPostLoad) :
    (orElse r next).1.sets.HardenPostLoad = r.1.sets.HardenPostLoad := by
  unfold orElse
  split_ifs
  · rfl
  · exact h _

theorem postLoad_rest (w : Hardened) : (orElse (visitCondition prev prevPrev mi
    (visitFixedAddress prev prevPrev mi w)) fun w => orElse (visitVTInstr prev prevPrev mi w)
      fun w => (visitStoreAddr T prev prevPrev mi w, false)).1.sets.HardenPostLoad =
    w.sets.HardenPostLoad := by
  have hfixed : (visitFixedAddress prev prevPrev mi w).sets.HardenPostLoad =
      w.sets.HardenPostLoad := by
    unfold visitFixedAddress
    split_ifs <;> simp [Collected.removeFixedAddress]
  have hcond (w : Hardened) : (visitCondition prev prevPrev mi w).1.sets.HardenPostLoad =
      w.sets.HardenPostLoad := by
    unfold visitCondition
    split_ifs <;> simp [Collected.removeCondition]
  have hvt (w : Hardened) : (visitVTInstr prev prevPrev mi w).1.sets.HardenPostLoad =
      w.sets.HardenPostLoad := by
    unfold visitVTInstr
    split_ifs <;> simp [Collected.removeVTInstr]
  have hstore (w : Hardened) : (visitStoreAddr T prev prevPrev mi w).sets.HardenPostLoad =
      w.sets.HardenPostLoad := by
    unfold visitStoreAddr hardenPush
    split_ifs <;> simp [Collected.removeStoreAddr, Collected.setHardenedRSP]
  rw [postLoad_orElse fun w => (postLoad_orElse fun w => hstore w).trans (hvt w), hcond, hfixed]

theorem postLoad_visitControl :
    (visitInterprocedural O mi (visitIndirect O mi w)).sets.HardenPostLoad =
        w.sets.HardenPostLoad ∧
      (visitInterprocedural O mi w).sets.HardenPostLoad = w.sets.HardenPostLoad := by
  unfold visitInterprocedural visitIndirect
  constructor <;> split_ifs <;> rfl

open Classical in
/-- What a step does to the results that are still to be hardened. -/
theorem postLoad_visitInstr (hO : O.HardenLoads = true) :
    (visitInstr O T F bb prev prevPrev mi w).sets.HardenPostLoad =
      if mi.id ∈ w.sets.HardenPostLoad ∧ ToResult O mi.id w.sets then
        moveResult T F bb w.sets.HardenPostLoad mi
      else w.sets.HardenPostLoad := by
  obtain ⟨hsame, hflag⟩ := postLoad_visitLoadAddr O w mi prev prevPrev
  unfold visitInstr visitLoads
  rw [if_pos hO, postLoad_orElse fun w => postLoad_visitControl.1, orElse]
  cases hdone : (visitLoadAddr O prev prevPrev mi w).2 with
  | true =>
      have hnot : ¬ ToResult O mi.id w.sets := fun h => by simp [hflag.mpr h] at hdone
      rw [if_pos rfl, hsame, if_neg fun h => hnot h.2]
  | false =>
      rw [if_neg Bool.false_ne_true, postLoad_orElse postLoad_rest, postLoad_visitPostLoad, hsame]
      simp [hflag.mp hdone]

end Results

/-! ### Awaiting results -/

/-- The instruction is neither a marker nor a debug instruction. -/
def Known (F : MachineFunction) (i : Nat) : Prop :=
  ∃ x ∈ F.flatten, x.id = i ∧ x.isMarker = false ∧ x.isDebugInstr = false

theorem known_of {x : MachineInstr} (hx : x ∈ F.flatten)
    (h : x.isMarker = true ∨ x.isDebugInstr = true → False) : Known F x.id := by
  refine ⟨x, hx, rfl, ?_, ?_⟩
  · by_contra hm
    exact h (Or.inl (by simpa using hm))
  · by_contra hd
    exact h (Or.inr (by simpa using hd))

theorem known_of_isDataInvariant {x : MachineInstr} (hx : x ∈ F.flatten) (hwf : x.WF)
    (h : x.isDataInvariant = true) : Known F x.id := by
  refine known_of hx fun hs => ?_
  rcases hs with hs | hs
  · rw [hwf.marker hs] at h; cases h
  · rw [hwf.debug hs] at h; cases h

theorem PlannedIn.known {x : MachineInstr} {way : Way} (hF : WF F) (hbb : bb ∈ F)
    (h : PlannedIn O T bb x way) : Known F x.id := by
  obtain ⟨p, q, heq, -, hp⟩ := h
  have hx : x ∈ bb := by simp [heq]
  have hmem := mem_ne_none_of_addrRegs (planned_iff.mp hp).1.2.1
  have hwf := block_wf hF hbb hx
  refine known_of (List.mem_flatten.mpr ⟨bb, hbb, hx⟩) fun hs => hmem ?_
  rcases hs with hs | hs
  · rw [hwf.marker hs]
  · rw [hwf.debug hs]

theorem resultTarget_spec {A : List Nat} {x u : MachineInstr}
    (h : resultTarget T F bb A x = some u) : u = x ∨ u ∈ F.flatten ∧ u.isDataInvariant = true := by
  unfold resultTarget sinkTarget at h
  split_ifs at h
  · exact sinkPostLoad_spec h
  · exact .inl (Option.some.inj h).symm

theorem mem_moveResult {A : List Nat} {x : MachineInstr} {i : Nat} :
    i ∈ moveResult T F bb A x ↔ i ∈ A ∧ i ≠ x.id ∨
      ∃ u, resultTarget T F bb A x = some u ∧ u.id ≠ x.id ∧ u.id = i := by
  unfold moveResult
  cases resultTarget T F bb A x with
  | none => simp
  | some u =>
      simp only [Option.some.injEq, exists_eq_left']
      split_ifs with hu
      · simp [hu]
      · simp only [List.mem_insert_iff, List.mem_filter, decide_eq_true_eq, hu, ne_eq,
          not_false_eq_true, true_and]
        tauto

/-- Every awaiting result is that of a known instruction. -/
def KnownIn (F : MachineFunction) (A : List Nat) : Prop := ∀ i ∈ A, Known F i

theorem KnownIn.move {A : List Nat} {x : MachineInstr} (h : KnownIn F A)
    (hwf : ∀ x ∈ F.flatten, x.WF) : KnownIn F (moveResult T F bb A x) := by
  intro i hi
  rcases mem_moveResult.mp hi with ⟨hi, -⟩ | ⟨u, hu, hne, rfl⟩
  · exact h i hi
  · rcases resultTarget_spec hu with rfl | ⟨hmem, hinv⟩
    · exact absurd rfl hne
    · exact known_of_isDataInvariant hmem (hwf u hmem) hinv

theorem KnownIn.pass {A : List Nat} {x : MachineInstr} (h : KnownIn F A)
    (hwf : ∀ x ∈ F.flatten, x.WF) : KnownIn F (passResult O T F bb A x) := by
  unfold passResult
  split_ifs
  · exact h.move hwf
  · exact h

theorem passResult_of_unknown {A : List Nat} {x : MachineInstr} (h : KnownIn F A)
    (hx : ¬ Known F x.id) : passResult O T F bb A x = A :=
  if_neg fun h' => hx (h _ h'.1)

theorem foldl_passResult_nil (l : List MachineInstr) : l.foldl (passResult O T F bb) [] = [] := by
  induction l with
  | nil => rfl
  | cons x l ih => rw [List.foldl_cons, passResult, if_neg fun h => List.not_mem_nil h.1, ih]

theorem KnownIn.foldl {A : List Nat} (hwf : ∀ x ∈ F.flatten, x.WF) (h : KnownIn F A)
    (l : List MachineInstr) : KnownIn F (l.foldl (passResult O T F bb) A) := by
  induction l generalizing A with
  | nil => exact h
  | cons x l ih => exact ih (h.pass hwf)

/-- Instructions that are not known do not matter. -/
theorem foldl_passResult_filter {A : List Nat} (hwf : ∀ x ∈ F.flatten, x.WF) (h : KnownIn F A)
    {P : MachineInstr → Bool} {l : List MachineInstr}
    (hP : ∀ x ∈ l, P x = false → ¬ Known F x.id) :
    (l.filter P).foldl (passResult O T F bb) A = l.foldl (passResult O T F bb) A := by
  induction l generalizing A with
  | nil => rfl
  | cons x l ih =>
      have hP' : ∀ y ∈ l, P y = false → ¬ Known F y.id := fun y hy => hP y (by simp [hy])
      rw [List.foldl_cons]
      cases hx : P x with
      | true => rw [List.filter_cons_of_pos hx, List.foldl_cons, ih (h.pass hwf) hP']
      | false =>
          rw [List.filter_cons_of_neg (by simp [hx]), passResult_of_unknown h (hP x (by simp) hx),
            ih h hP']

theorem sinkCheck_congr {bb' : MachineBasicBlock} {H H' : List Nat} {r : Reg}
    (hH : ∀ i, i ∈ H' ↔ i ∈ H) (us : List MachineInstr)
    (hbb : ∀ u ∈ us, u.isDataInvariant = true → (u ∈ bb' ↔ u ∈ bb))
    (single : Option MachineInstr) :
    sinkCheckToSingleUse T bb' H' r us single = sinkCheckToSingleUse T bb H r us single := by
  induction us generalizing single with
  | nil => rfl
  | cons u us ih =>
      have ih' := ih fun x hx => hbb x (by simp [hx])
      have hmem : (!u.isDataInvariant || decide (u ∉ bb') || u.isEFLAGSDefLive) =
          (!u.isDataInvariant || decide (u ∉ bb) || u.isEFLAGSDefLive) := by
        cases hinv : u.isDataInvariant with
        | false => simp
        | true => simp [hbb u (by simp) hinv]
      unfold sinkCheckToSingleUse
      simp only [ih', hmem, hH]

theorem sinkPostLoad_congr {bb' : MachineBasicBlock} {H H' : List Nat}
    (hH : ∀ i, i ∈ H' ↔ i ∈ H)
    (hbb : ∀ u ∈ F.flatten, u.isDataInvariant = true → (u ∈ bb' ↔ u ∈ bb)) (fuel : Nat)
    (mi : MachineInstr) : sinkPostLoadHardenedInst T F bb' H' fuel mi =
      sinkPostLoadHardenedInst T F bb H fuel mi := by
  induction fuel generalizing mi with
  | zero => rfl
  | succ fuel ih =>
      unfold sinkPostLoadHardenedInst
      cases mi.defs with
      | nil => rfl
      | cons r rs =>
          simp only [sinkCheck_congr (T := T) hH (F.flatten.filter (r ∈ ·.uses))
            (fun u hu => hbb u (List.mem_filter.mp hu).1) none, ih]

/-- Only the members of `A` matter, and the data invariant instructions of the block. -/
theorem resultTarget_congr {bb' : MachineBasicBlock} {A A' : List Nat}
    (hA : ∀ i, i ∈ A' ↔ i ∈ A)
    (hbb : ∀ u ∈ F.flatten, u.isDataInvariant = true → (u ∈ bb' ↔ u ∈ bb)) (x : MachineInstr) :
    resultTarget T F bb' A' x = resultTarget T F bb A x := by
  have hfilter : ∀ i, i ∈ A'.filter (· ≠ x.id) ↔ i ∈ A.filter (· ≠ x.id) := by simp [hA]
  unfold resultTarget sinkTarget
  simp only [sinkPostLoad_congr hfilter hbb]

theorem mem_moveResult_congr {bb' : MachineBasicBlock} {A A' : List Nat}
    (hA : ∀ i, i ∈ A' ↔ i ∈ A)
    (hbb : ∀ u ∈ F.flatten, u.isDataInvariant = true → (u ∈ bb' ↔ u ∈ bb)) (x : MachineInstr)
    (i : Nat) : i ∈ moveResult T F bb' A' x ↔ i ∈ moveResult T F bb A x := by
  rw [mem_moveResult, mem_moveResult, resultTarget_congr hA hbb, hA]

/-! ## The block as the second walk finds it -/

theorem collect_of_stops_lfence {mi : MachineInstr} (h : mi.opcode = .LFENCE) (fresh : Nat)
    (l : List MachineInstr) (c : Collected) : collect O T fresh bb (mi :: l) c =
      (propagateLoadDep mi (collectMarker mi l c), mi :: l) := by
  simp only [collect, if_pos h]

theorem collect_of_stops_x87 {mi : MachineInstr} (h : mi.opcode ≠ .LFENCE)
    (h' : stopsX87 O mi = true) (fresh : Nat) (l : List MachineInstr) (c : Collected) :
    collect O T fresh bb (mi :: l) c =
      (collectStep O T bb mi l c, newLFENCE fresh :: mi :: l) := by
  simp only [collect, if_neg h, if_pos h', collectStep]

theorem collect_mem {fresh : Nat} {l : List MachineInstr} {c : Collected} {x : MachineInstr}
    (h : x ∈ (collect O T fresh bb l c).2) : x ∈ l ∨ x = newLFENCE fresh := by
  obtain ⟨rest, hrest⟩ := visited_prefix (O := O) l
  obtain ⟨V, hV, hmem⟩ := collect_instrs T bb fresh c hrest
  rw [hV, List.mem_append] at h
  rw [hrest, List.mem_append]
  rcases h with h | h
  · exact (hmem x h).imp_left Or.inl
  · exact Or.inl (Or.inr h)

theorem collect_nodup {fresh : Nat} {l : List MachineInstr} {c : Collected}
    (hnd : (l.map MachineInstr.id).Nodup) (hfresh : ∀ x ∈ l, x.id ≠ fresh) :
    ((collect O T fresh bb l c).2.map MachineInstr.id).Nodup := by
  induction l generalizing c with
  | nil => exact List.nodup_nil
  | cons mi rest ih =>
      by_cases h1 : mi.opcode = .LFENCE
      · rw [collect_of_stops_lfence h1]
        exact hnd
      · by_cases h2 : stopsX87 O mi = true
        · rw [collect_of_stops_x87 h1 h2, List.map_cons, List.nodup_cons]
          refine ⟨fun h => ?_, hnd⟩
          obtain ⟨x, hx, hid⟩ := List.mem_map.mp h
          exact hfresh x hx hid
        · rw [collect_cons_of_not_stops fun hs => hs.elim h1 h2, List.map_cons, List.nodup_cons]
          rw [List.map_cons, List.nodup_cons] at hnd
          refine ⟨fun h => ?_, ih hnd.2 fun x hx => hfresh x (by simp [hx])⟩
          obtain ⟨x, hx, hid⟩ := List.mem_map.mp h
          rcases collect_mem hx with hx | rfl
          · exact hnd.1 (hid ▸ List.mem_map_of_mem hx)
          · exact hfresh mi (by simp) hid.symm

theorem collectBlock_mem {x : MachineInstr} (h : x ∈ (collectBlock O T F bb).2) :
    x ∈ bb ∨ x = newLFENCE (freshId F) := by
  unfold collectBlock at h
  split_ifs at h
  · exact collect_mem h
  · exact Or.inl h

theorem collectBlock_nodup (hF : WF F) (hbb : bb ∈ F) :
    ((collectBlock O T F bb).2.map MachineInstr.id).Nodup := by
  have hfresh : ∀ x ∈ bb, x.id ≠ freshId F := fun x hx =>
    Nat.ne_of_lt (id_lt_freshId (List.mem_flatten.mpr ⟨bb, hbb, hx⟩))
  unfold collectBlock
  split_ifs
  · exact collect_nodup (block_nodup hF hbb) hfresh
  · exact block_nodup hF hbb

/-- Without the new LFENCE the block is the one it was. -/
theorem collect_filter {fresh : Nat} {l : List MachineInstr} (hfresh : ∀ x ∈ l, x.id ≠ fresh)
    (c : Collected) : (collect O T fresh bb l c).2.filter (fun x => decide (x.id ≠ fresh)) = l := by
  induction l generalizing c with
  | nil => rfl
  | cons mi rest ih =>
      have hself : (mi :: rest).filter (fun x => decide (x.id ≠ fresh)) = mi :: rest :=
        List.filter_eq_self.mpr fun x hx => by simpa using hfresh x hx
      by_cases h1 : mi.opcode = .LFENCE
      · rw [collect_of_stops_lfence h1, hself]
      · by_cases h2 : stopsX87 O mi = true
        · rw [collect_of_stops_x87 h1 h2, List.filter_cons_of_neg (by simp [newLFENCE]), hself]
        · rw [collect_cons_of_not_stops fun hs => hs.elim h1 h2,
            List.filter_cons_of_pos (by simpa using hfresh mi (by simp)),
            ih fun x hx => hfresh x (by simp [hx])]

theorem append_cons_inj {p p' q q' : List MachineInstr} {x : MachineInstr} (hx : x ∉ p)
    (hx' : x ∉ p') (h : p ++ x :: q = p' ++ x :: q') : p = p' ∧ q = q' := by
  induction p generalizing p' with
  | nil =>
      cases p' with
      | nil => exact ⟨rfl, by simpa using h⟩
      | cons y p' =>
          simp only [List.nil_append, List.cons_append, List.cons.injEq] at h
          exact absurd (by simp [h.1]) hx'
  | cons y p ih =>
      cases p' with
      | nil =>
          simp only [List.nil_append, List.cons_append, List.cons.injEq] at h
          exact absurd (by simp [h.1]) hx
      | cons z p' =>
          simp only [List.cons_append, List.cons.injEq] at h
          obtain ⟨hp, hq⟩ := ih (fun hm => hx (by simp [hm])) (fun hm => hx' (by simp [hm])) h.2
          exact ⟨by rw [h.1, hp], hq⟩

theorem not_mem_of_split {l p q : List MachineInstr} {x : MachineInstr}
    (hnd : (l.map MachineInstr.id).Nodup) (h : l = p ++ x :: q) : x ∉ p := by
  intro hmem
  rw [h, List.map_append, List.nodup_append] at hnd
  exact hnd.2.2 _ (List.mem_map_of_mem hmem) x.id (by simp) rfl

/-- The instruction before `K` in a list. -/
def prevNode (l : List MachineInstr) (K : MachineInstr) : Option MachineInstr :=
  (l.takeWhile fun x => x.id ≠ K.id).getLast?

theorem prevNode_eq {l l' : List MachineInstr} {K : MachineInstr} (h : ∀ x ∈ l, x.id ≠ K.id) :
    prevNode (l ++ K :: l') K = l.getLast? := by
  unfold prevNode
  rw [List.takeWhile_append_of_pos fun x hx => by simpa using h x hx]
  simp

/-- The block as the second walk finds it: without the stand-alone markers. -/
def walkedBlock (O : Options) (T : Target) (F : MachineFunction) (bb : MachineBasicBlock) :
    List MachineInstr :=
  eraseAll (collectBlock O T F bb).1.StandAloneGEPDummyInstr (collectBlock O T F bb).2

theorem not_isMarker_of_mayLoad {mi : MachineInstr} (hwf : mi.WF) (h : mi.mayLoad = true) :
    mi.isMarker = false := by
  by_contra hm
  rw [Bool.not_eq_false] at hm
  rw [hwf.marker hm] at h
  exact Bool.noConfusion h

/-- A set of markers has no load. -/
theorem not_mem_standAlone_of_not_isMarker (hO : O.HardenLoads = true) (hF : WF F) (hbb : bb ∈ F)
    {K : MachineInstr} (hK : K ∈ bb)
    (hm : K.isMarker = false) : K.id ∉ (collectBlock O T F bb).1.StandAloneGEPDummyInstr := by
  intro h
  have hmarkers : (collectBlock O T F bb).1.markers =
      markerWalk O bb ({} : Collected).markers := by
    rw [collectBlock_eq hO]; exact collect_markers ..
  have h' : K.id ∈ (markerWalk O bb ({} : Collected).markers).2 := by rw [← hmarkers]; exact h
  have hinj := List.inj_on_of_nodup_map (block_nodup hF hbb)
  rcases markerWalk_mem (Or.inr h') with h | ⟨y, hy, hb, hid⟩ | ⟨y, hy, ha, hid⟩
  · simp [Collected.markers] at h
  · obtain ⟨rest, hrest⟩ := visited_prefix (O := O) bb
    have hy' : y ∈ bb := by rw [hrest]; exact List.mem_append_left _ hy
    rw [hinj hy' hK hid, not_isBefore_of_not_isMarker hm] at hb
    exact Bool.noConfusion hb
  · rw [hinj hy hK hid, not_isAfter_of_not_isMarker hm] at ha
    exact Bool.noConfusion ha

theorem not_mem_standAlone (hF : WF F) (hbb : bb ∈ F) {K : MachineInstr} (hK : K ∈ bb)
    (hm : K.isMarker = false) : K.id ∉ (collectBlock O T F bb).1.StandAloneGEPDummyInstr := by
  by_cases hO : O.HardenLoads = true
  · exact not_mem_standAlone_of_not_isMarker hO hF hbb hK hm
  · unfold collectBlock
    rw [if_neg hO]
    exact List.not_mem_nil

/-- The instruction before `X` among those the second walk meets. -/
theorem prevNode_walkedBlock (hF : WF F) (hbb : bb ∈ F) {q l : List MachineInstr}
    {X : MachineInstr} (heq : (collectBlock O T F bb).2 = q ++ X :: l)
    (hX : X.id ∉ (collectBlock O T F bb).1.StandAloneGEPDummyInstr) :
    prevNode (walkedBlock O T F bb) X =
      (eraseAll (collectBlock O T F bb).1.StandAloneGEPDummyInstr q).getLast? := by
  have hnd := collectBlock_nodup (O := O) (T := T) hF hbb
  unfold walkedBlock
  rw [heq] at hnd ⊢
  have hsplit : eraseAll (collectBlock O T F bb).1.StandAloneGEPDummyInstr (q ++ X :: l) =
      eraseAll (collectBlock O T F bb).1.StandAloneGEPDummyInstr q ++
        X :: eraseAll (collectBlock O T F bb).1.StandAloneGEPDummyInstr l := by
    simp [eraseAll, hX]
  rw [hsplit]
  refine prevNode_eq fun x hx hid => ?_
  rw [List.map_append, List.map_cons, List.nodup_append] at hnd
  exact hnd.2.2 x.id (List.mem_map_of_mem (mem_eraseAll.mp hx).1) X.id (by simp) hid

theorem fresh_block (hbb : bb ∈ F) : ∀ x ∈ bb, x.id ≠ freshId F :=
  fun _ hx => Nat.ne_of_lt (id_lt_freshId (List.mem_flatten.mpr ⟨bb, hbb, hx⟩))

theorem collectBlock_filter (hbb : bb ∈ F) :
    (collectBlock O T F bb).2.filter (fun x => decide (x.id ≠ freshId F)) = bb := by
  unfold collectBlock
  split_ifs
  · exact collect_filter (fresh_block hbb) _
  · exact List.filter_eq_self.mpr fun x hx => by simpa using fresh_block hbb x hx

theorem mem_collectBlock (hbb : bb ∈ F) {x : MachineInstr} (h : x ∈ bb) :
    x ∈ (collectBlock O T F bb).2 := by
  rw [← collectBlock_filter (O := O) (T := T) hbb] at h
  exact (List.mem_filter.mp h).1

/-- The second walk meets the same data invariant instructions. -/
theorem mem_walkedBlock {u : MachineInstr} (hF : WF F) (hbb : bb ∈ F) (hu : u ∈ F.flatten)
    (hinv : u.isDataInvariant = true) : u ∈ walkedBlock O T F bb ↔ u ∈ bb := by
  obtain ⟨x, hx, hid, hm, -⟩ := known_of_isDataInvariant hu (hF.instr u hu) hinv
  obtain rfl : x = u := List.inj_on_of_nodup_map hF.nodup hx hu hid
  unfold walkedBlock
  rw [mem_eraseAll]
  constructor
  · rintro ⟨hmem, -⟩
    rcases collectBlock_mem hmem with h | rfl
    · exact h
    · cases hinv
  · intro h
    refine ⟨?_, not_mem_standAlone hF hbb h hm⟩
    exact mem_collectBlock hbb h

section Block

variable (hF : WF F) (hbb : bb ∈ F)

include hF hbb in
/-- The results the second walk starts with. -/
theorem mem_postLoad_iff {i : Nat} : i ∈ (collectBlock O T F bb).1.HardenPostLoad ↔
    i ∈ awaiting O T F bb [] := by
  have hstart : i ∈ awaiting O T F bb [] ↔ ∃ x ∈ bb, PlannedIn O T bb x .result ∧ x.id = i := by
    simp [awaiting, and_assoc]
  rw [hstart]
  constructor
  · intro h
    by_cases hO : O.HardenLoads = true
    · obtain ⟨c, hinv, hsame⟩ := collectBlock_sets (T := T) hO hF hbb
      obtain ⟨q, J, m, heq, -, rfl⟩ := (hinv.result i).mp (hsame.result ▸ h)
      have hJ : J ∈ bb := (List.takeWhile_sublist _).subset (show J ∈ unfenced O bb by simp [heq])
      exact ⟨J, hJ, (mem_collectBlock_iff hF hbb hJ).2.mp h, rfl⟩
    · rw [collectBlock_of_not_hardenLoads hO] at h
      cases h
  · rintro ⟨x, hx, hp, rfl⟩
    exact (mem_collectBlock_iff hF hbb hx).2.mpr hp

include hF hbb in
theorem knownIn_awaiting (p : List MachineInstr) : KnownIn F (awaiting O T F bb p) := by
  refine KnownIn.foldl hF.instr (fun i hi => ?_) p
  obtain ⟨x, hx, rfl⟩ := List.mem_map.mp hi
  exact PlannedIn.known hF hbb (by simpa using (List.mem_filter.mp hx).2)

/-- The state the second walk starts with. -/
abbrev startWalk (O : Options) (T : Target) (F : MachineFunction) (bb : MachineBasicBlock) :
    Hardened :=
  startHardening O (collectBlock O T F bb).1

/-- The markers of stand-alone GEPs the first walk found. -/
abbrev standAloneIds (O : Options) (T : Target) (F : MachineFunction) (bb : MachineBasicBlock) :
    List Nat :=
  (collectBlock O T F bb).1.StandAloneGEPDummyInstr

include hF hbb in
/-- A known instruction the second walk finds in the block was in it before. -/
theorem mem_block_of_known {x : MachineInstr} (hx : x ∈ (collectBlock O T F bb).2)
    (h : Known F x.id) : x ∈ bb ∧ x.isMarker = false := by
  obtain ⟨y, hy, hid, hm, -⟩ := h
  rcases collectBlock_mem hx with hx | rfl
  · obtain rfl := List.inj_on_of_nodup_map hF.nodup hy (List.mem_flatten.mpr ⟨bb, hbb, hx⟩) hid
    exact ⟨hx, hm⟩
  · exact absurd hid (Nat.ne_of_lt (id_lt_freshId hy))

include hF hbb in
/-- By the sets the second walk starts with, it gets to the results it does. -/
theorem toResult_iff {x : MachineInstr} (hx : x ∈ bb) :
    ToResult O x.id (collectBlock O T F bb).1 ↔ GetsToResult O T bb x := by
  unfold ToResult GetsToResult
  rw [(mem_collectBlock_iff hF hbb hx).1, mem_condition_iff hF hbb hx]
  refine imp_congr_right fun hp => ?_
  rw [(planned_others hF hbb hp).2, Bool.not_eq_true]

theorem toResult_congr {w v : Hardened} {i : Nat} (h : w.view i = v.view i) :
    ToResult O i w.sets ↔ ToResult O i v.sets := by
  simp only [Hardened.view, View.mk.injEq, decide_eq_decide] at h
  obtain ⟨h1, h2, h3, -⟩ := h
  unfold ToResult
  rw [h1, h2, h3]

theorem awaiting_of_not_hardenLoads (hO : ¬ O.HardenLoads = true) (p : List MachineInstr) :
    awaiting O T F bb p = [] := by
  have hstart : awaiting O T F bb [] = [] := by
    simp [awaiting, not_planned_of_not_hardenLoads hO]
  show p.foldl _ (awaiting O T F bb []) = []
  rw [hstart, foldl_passResult_nil]

theorem awaiting_append_singleton (q : List MachineInstr) (x : MachineInstr) :
    awaiting O T F bb (q ++ [x]) = passResult O T F bb (awaiting O T F bb q) x := by
  simp [awaiting]

include hF hbb in
theorem awaiting_of_unknown (q : List MachineInstr) {x : MachineInstr} (hx : ¬ Known F x.id) :
    awaiting O T F bb (q ++ [x]) = awaiting O T F bb q := by
  rw [awaiting_append_singleton, passResult_of_unknown (knownIn_awaiting hF hbb q) hx]

include hF hbb in
/-- A step keeps the results that are still to be hardened the awaiting ones. -/
theorem mem_awaiting_step {q : List MachineInstr} {x : MachineInstr}
    (hx : x ∈ (collectBlock O T F bb).2) {w : Hardened}
    (hview : w.view x.id = (startWalk O T F bb).view x.id)
    (hpost : ∀ i, i ∈ w.sets.HardenPostLoad ↔ i ∈ awaiting O T F bb q)
    (prev prevPrev : Option MachineInstr) (i : Nat) :
    i ∈ (visitInstr O T F (walkedBlock O T F bb) prev prevPrev x w).sets.HardenPostLoad ↔
      i ∈ awaiting O T F bb (q ++ [x]) := by
  by_cases hO : O.HardenLoads = true
  · have hiff : x.id ∈ w.sets.HardenPostLoad ∧ ToResult O x.id w.sets ↔
        x.id ∈ awaiting O T F bb q ∧ GetsToResult O T bb x := by
      rw [hpost, toResult_congr hview]
      refine and_congr_right fun hin => ?_
      exact toResult_iff hF hbb (mem_block_of_known hF hbb hx (knownIn_awaiting hF hbb q _ hin)).1
    rw [awaiting_append_singleton, postLoad_visitInstr hO, passResult]
    by_cases hgets : x.id ∈ awaiting O T F bb q ∧ GetsToResult O T bb x
    · rw [if_pos (hiff.mpr hgets), if_pos hgets]
      exact mem_moveResult_congr hpost (fun u hu => mem_walkedBlock hF hbb hu) x i
    · rw [if_neg fun h => hgets (hiff.mp h), if_neg hgets]
      exact hpost i
  · rw [visitInstr, if_neg hO, postLoad_visitControl.2, hpost, awaiting_of_not_hardenLoads hO,
      awaiting_of_not_hardenLoads hO]

include hF hbb in
/-- **The results that are still to be hardened** are the awaiting ones, all along the walk. -/
theorem mem_awaiting_iff (q l : List MachineInstr) (heq : (collectBlock O T F bb).2 = q ++ l)
    (i : Nat) : i ∈ (hardenWalk O T F (walkedBlock O T F bb) none none
      (eraseAll (standAloneIds O T F bb) q) (startWalk O T F bb)).sets.HardenPostLoad ↔
      i ∈ awaiting O T F bb q := by
  induction q using List.reverseRecOn generalizing l i with
  | nil => exact mem_postLoad_iff hF hbb
  | append_singleton q x ih =>
      have ih' := fun i => ih (x :: l) (by simp [heq]) i
      have hx : x ∈ (collectBlock O T F bb).2 := by simp [heq]
      by_cases hid : x.id ∈ standAloneIds O T F bb
      · have herase : eraseAll (standAloneIds O T F bb) (q ++ [x]) =
            eraseAll (standAloneIds O T F bb) q := by simp [eraseAll, hid]
        rw [herase, ih', awaiting_of_unknown hF hbb q fun h => ?_]
        obtain ⟨hx, hm⟩ := mem_block_of_known hF hbb hx h
        exact not_mem_standAlone hF hbb hx hm hid
      · have herase : eraseAll (standAloneIds O T F bb) (q ++ [x]) =
            eraseAll (standAloneIds O T F bb) q ++ [x] := by simp [eraseAll, hid]
        obtain ⟨pp, happ⟩ := hardenWalk_append (O := O) (T := T) (F := F) (walkedBlock O T F bb)
          none none (eraseAll (standAloneIds O T F bb) q) [x] (startWalk O T F bb)
        have hview : (hardenWalk O T F (walkedBlock O T F bb) none none
            (eraseAll (standAloneIds O T F bb) q) (startWalk O T F bb)).view x.id =
            (startWalk O T F bb).view x.id := by
          have hnd := collectBlock_nodup (O := O) (T := T) hF hbb
          rw [heq, List.append_assoc, List.map_append, List.nodup_append] at hnd
          exact view_hardenWalk fun y hy => hnd.2.2 _ (List.mem_map_of_mem (mem_eraseAll.mp hy).1)
            x.id (by simp)
        rw [herase, happ, hardenWalk, hardenWalk]
        exact mem_awaiting_step hF hbb hx hview ih' _ pp i

include hF hbb in
/-- What is awaiting at an instruction does not depend on the LFENCE the first walk may have put
in. -/
theorem awaiting_walked {q l p r : List MachineInstr} {X : MachineInstr}
    (heq : (collectBlock O T F bb).2 = q ++ X :: l) (hsplit : bb = p ++ X :: r) :
    awaiting O T F bb q = awaiting O T F bb p := by
  have hX : X ∈ bb := by simp [hsplit]
  have hfilter := collectBlock_filter (O := O) (T := T) hbb
  rw [heq, List.filter_append, List.filter_cons_of_pos (by simpa using fresh_block hbb X hX)]
    at hfilter
  have hX' : X ∉ q.filter fun x => x.id ≠ freshId F := fun h =>
    not_mem_of_split (collectBlock_nodup (O := O) (T := T) hF hbb) heq (List.mem_filter.mp h).1
  rw [← (append_cons_inj hX' (not_mem_of_split (block_nodup hF hbb) hsplit)
    (hfilter.trans hsplit)).1]
  refine (foldl_passResult_filter hF.instr (knownIn_awaiting hF hbb []) fun x _ hx hk => ?_).symm
  obtain ⟨y, hy, hid, -⟩ := hk
  have hid' : x.id = freshId F := by simpa using hx
  exact Nat.ne_of_lt (id_lt_freshId hy) (hid.trans hid')

/-- The second walk at an instruction of the block: the sets say of it what they said at the start,
and the results that are still to be hardened are the awaiting ones. -/
structure SeenAt (O : Options) (T : Target) (F : MachineFunction) (bb : MachineBasicBlock)
    (p : List MachineInstr) (X : MachineInstr) (w : Hardened) : Prop where
  view : w.view X.id = (startWalk O T F bb).view X.id
  postLoad : ∀ i, i ∈ w.sets.HardenPostLoad ↔ i ∈ awaiting O T F bb p

include hF hbb in
/-- **The second walk, seen from an instruction.** What becomes of it is decided by the step at
it. -/
theorem hardenBlock_at {p r : List MachineInstr} {X : MachineInstr} (heq : bb = p ++ X :: r)
    (hm : X.isMarker = false) : ∃ pp w, SeenAt O T F bb p X w ∧
      (hardenBlock O T F bb).log.filter (fun e => e.2 = X.id) =
        ((visitInstr O T F (walkedBlock O T F bb) (prevNode (walkedBlock O T F bb) X) pp X w).view
          X.id).log := by
  have hX : X ∈ bb := by simp [heq]
  have hsa := not_mem_standAlone (O := O) (T := T) hF hbb hX hm
  obtain ⟨q, l, hsplit⟩ := List.append_of_mem (mem_collectBlock (O := O) (T := T) hbb hX)
  have hnd := collectBlock_nodup (O := O) (T := T) hF hbb
  have hp := awaiting_walked hF hbb hsplit heq
  have hwalked : walkedBlock O T F bb = eraseAll (standAloneIds O T F bb) q ++
      X :: eraseAll (standAloneIds O T F bb) l := by
    unfold walkedBlock
    rw [hsplit]
    simp [eraseAll, hsa]
  obtain ⟨pp, happ⟩ := hardenWalk_append (O := O) (T := T) (F := F) (walkedBlock O T F bb) none none
    (eraseAll (standAloneIds O T F bb) q) (X :: eraseAll (standAloneIds O T F bb) l)
    (startWalk O T F bb)
  rw [hsplit, List.map_append, List.map_cons, List.nodup_append, List.nodup_cons] at hnd
  have hq : ∀ y ∈ eraseAll (standAloneIds O T F bb) q, y.id ≠ X.id :=
    fun y hy hid => hnd.2.2 y.id (List.mem_map_of_mem (mem_eraseAll.mp hy).1) X.id (by simp) hid
  have hl : ∀ y ∈ eraseAll (standAloneIds O T F bb) l, y.id ≠ X.id :=
    fun y hy hid => hnd.2.1.1 (hid ▸ List.mem_map_of_mem (mem_eraseAll.mp hy).1)
  refine ⟨pp, hardenWalk O T F (walkedBlock O T F bb) none none
    (eraseAll (standAloneIds O T F bb) q) (startWalk O T F bb),
    ⟨view_hardenWalk hq, fun i => by rw [mem_awaiting_iff hF hbb q (X :: l) hsplit, hp]⟩, ?_⟩
  have hlog : (hardenBlock O T F bb).log = (hardenWalk O T F (walkedBlock O T F bb) none none
      (walkedBlock O T F bb) (startWalk O T F bb)).log := rfl
  rw [prevNode_walkedBlock hF hbb hsplit hsa, hlog]
  nth_rewrite 2 [hwalked]
  rw [happ, hardenWalk, Option.or_none]
  exact congrArg View.log (view_hardenWalk hl)

end Block

/-! ## Markers -/

theorem mem_addMarkers_standAlone {mi : MachineInstr} {rest : List MachineInstr}
    {m : List Nat × List Nat} {i : Nat} :
    i ∈ (addMarkers mi rest m).2 ↔ i ∈ m.2 ∨ mi.isBefore = true ∧ betweenMarkers rest ≠ [] ∧
      (i = mi.id ∨ ∃ a, nextAfter rest = some a ∧ i = a.id) := by
  unfold addMarkers
  by_cases hb : mi.isBefore = true
  · rw [if_pos hb]
    by_cases hlen : (betweenMarkers rest).length > 0
    · have hne : betweenMarkers rest ≠ [] := List.length_pos_iff.mp hlen
      rw [if_pos hlen]
      cases hn : nextAfter rest with
      | none => simp [insertInstr, hb, hne]; tauto
      | some a => simp [insertInstr, hb, hne]; tauto
    · have hnil : betweenMarkers rest = [] := by
        rw [← List.length_eq_zero_iff]
        omega
      rw [if_neg hlen]
      simp [hnil]
  · rw [if_neg hb]
    simp [hb]

/-- The markers of stand-alone GEPs in front of the first fence. -/
theorem mem_standAlone_iff {l : List MachineInstr} {m : List Nat × List Nat} {i : Nat} :
    i ∈ (markerWalk O l m).2 ↔ i ∈ m.2 ∨ ∃ p b q, l = p ++ b :: q ∧ Unfenced O p ∧
      b.isBefore = true ∧ betweenMarkers q ≠ [] ∧
      (i = b.id ∨ ∃ a, nextAfter q = some a ∧ i = a.id) := by
  induction l generalizing m with
  | nil => simp [markerWalk]
  | cons mi rest ih =>
      have hhere : (∃ p b q, mi :: rest = p ++ b :: q ∧ Unfenced O p ∧ b.isBefore = true ∧
          betweenMarkers q ≠ [] ∧ (i = b.id ∨ ∃ a, nextAfter q = some a ∧ i = a.id)) ↔
          (mi.isBefore = true ∧ betweenMarkers rest ≠ [] ∧
            (i = mi.id ∨ ∃ a, nextAfter rest = some a ∧ i = a.id)) ∨
          ¬ Stops O mi ∧ ∃ p b q, rest = p ++ b :: q ∧ Unfenced O p ∧ b.isBefore = true ∧
            betweenMarkers q ≠ [] ∧ (i = b.id ∨ ∃ a, nextAfter q = some a ∧ i = a.id) := by
        constructor
        · rintro ⟨p, b, q, heq, hns, h⟩
          cases p with
          | nil =>
              simp only [List.nil_append, List.cons.injEq] at heq
              obtain ⟨rfl, rfl⟩ := heq
              exact .inl h
          | cons x p =>
              simp only [List.cons_append, List.cons.injEq] at heq
              obtain ⟨rfl, rfl⟩ := heq
              exact .inr ⟨hns mi (by simp), p, b, q, rfl, fun y hy => hns y (by simp [hy]), h⟩
        · rintro (h | ⟨hmi, p, b, q, rfl, hns, h⟩)
          · exact ⟨[], mi, rest, rfl, fun y hy => (List.not_mem_nil hy).elim, h⟩
          · refine ⟨mi :: p, b, q, rfl, fun y hy => ?_, h⟩
            rcases List.mem_cons.mp hy with rfl | hy
            · exact hmi
            · exact hns y hy
      rw [markerWalk, hhere]
      split_ifs with hs
      · simp only [mem_addMarkers_standAlone, hs, not_true, false_and, or_false]
      · simp only [ih, mem_addMarkers_standAlone, hs, not_false_eq_true, true_and, or_assoc]

theorem collect_instrs_append (bb : MachineBasicBlock) {p : List MachineInstr}
    (h : ∀ mi ∈ p, ¬ Stops O mi) (fresh : Nat) (l : List MachineInstr) (c : Collected) :
    (collect O T fresh bb (p ++ l) c).2 =
      p ++ (collect O T fresh bb l (collectRun O T bb p l c)).2 := by
  induction p generalizing c with
  | nil => rfl
  | cons mi p ih =>
      rw [List.cons_append, collect_cons_of_not_stops (h mi (by simp)), collectRun]
      simp only [ih fun x hx => h x (by simp [hx]), List.cons_append]

/-- The last of those that a filter keeps. -/
theorem getLast?_filter_iff {l : List MachineInstr} {P : MachineInstr → Bool} {a : MachineInstr} :
    (l.filter P).getLast? = some a ↔
      ∃ p m, l = p ++ a :: m ∧ P a = true ∧ ∀ y ∈ m, P y = false := by
  rw [List.getLast?_eq_head?_reverse, ← List.filter_reverse, List.head?_filter,
    List.find?_eq_some_iff_append]
  constructor
  · rintro ⟨ha, m, p, hl, hm⟩
    refine ⟨p.reverse, m.reverse, ?_, ha, fun y hy => by simpa using hm y (by simpa using hy)⟩
    rw [← List.reverse_reverse l, hl]
    simp
  · rintro ⟨p, m, rfl, ha, hm⟩
    exact ⟨ha, m.reverse, p.reverse, by simp, fun y hy => by simpa using hm y (by simpa using hy)⟩

section Marked

variable (hO : O.HardenLoads = true) (hF : WF F) (hbb : bb ∈ F)

include hO hF hbb in
theorem mem_standAloneIds_iff {X : MachineInstr} (hX : X ∈ bb) :
    X.id ∈ standAloneIds O T F bb ↔ StandAlone O bb X := by
  have hinj := List.inj_on_of_nodup_map (block_nodup hF hbb)
  have hmarkers : (collectBlock O T F bb).1.markers =
      markerWalk O bb ({} : Collected).markers := by
    rw [collectBlock_eq hO]; exact collect_markers ..
  rw [show standAloneIds O T F bb = (collectBlock O T F bb).1.markers.2 from rfl, hmarkers,
    mem_standAlone_iff]
  simp only [Collected.markers, List.not_mem_nil, false_or, StandAlone, hO, true_and]
  constructor
  · rintro ⟨p, b, q, heq, hns, hb, hne, hid | ⟨a, ha, hid⟩⟩
    · exact ⟨p, b, q, heq, hns, hb, hne, .inl (hinj hX (by simp [heq]) hid)⟩
    · have hmem : a ∈ bb := by simp [heq, List.mem_of_find?_eq_some ha]
      exact ⟨p, b, q, heq, hns, hb, hne, .inr (hinj hX hmem hid ▸ ha)⟩
  · rintro ⟨p, b, q, heq, hns, hb, hne, rfl | ha⟩
    · exact ⟨p, X, q, heq, hns, hb, hne, .inl rfl⟩
    · exact ⟨p, b, q, heq, hns, hb, hne, .inr ⟨X, ha, rfl⟩⟩

include hO hF hbb in
/-- **What the filter finds before an instruction.** -/
theorem prefixed_iff_marked {p r : List MachineInstr} {X : MachineInstr} (heq : bb = p ++ X :: r)
    (hm : X.isMarker = false) (hns : Unfenced O (p ++ [X])) :
    isPrefixedByDummies (prevNode (walkedBlock O T F bb) X) = true ↔ Marked O bb X := by
  have hX : X ∈ bb := by simp [heq]
  have hsplit : ∃ l, (collectBlock O T F bb).2 = p ++ X :: l := by
    have happ := collect_instrs_append (T := T) bb (p := p) (fun y hy => hns y (by simp [hy]))
      (freshId F) (X :: r) {}
    rw [← heq] at happ
    rw [collectBlock_eq hO, happ, collect_cons_of_not_stops (hns X (by simp))]
    exact ⟨_, rfl⟩
  obtain ⟨l, hl⟩ := hsplit
  have hids : ∀ y ∈ p, y.id ∈ standAloneIds O T F bb ↔ StandAlone O bb y :=
    fun y hy => mem_standAloneIds_iff hO hF hbb (by simp [heq, hy])
  rw [prevNode_walkedBlock hF hbb hl (not_mem_standAlone hF hbb hX hm), isPrefixedByDummies,
    Option.any_eq_true]
  simp only [eraseAll, getLast?_filter_iff]
  constructor
  · rintro ⟨A, ⟨p', m, rfl, hA, hmid⟩, hafter⟩
    refine ⟨p', A, m, r, by simp [heq], hafter, fun h => ?_, fun y hy => ?_⟩
    · simp [(hids A (by simp)).mpr h] at hA
    · exact (hids y (by simp [hy])).mp (by simpa using hmid y hy)
  · rintro ⟨p', A, m, q, heq', hafter, hA, hmid⟩
    have hsame : bb = (p' ++ A :: m) ++ X :: q := by rw [heq']; simp
    have hp := (append_cons_inj (not_mem_of_split (block_nodup hF hbb) heq)
      (not_mem_of_split (block_nodup hF hbb) hsame) (heq.symm.trans hsame)).1
    refine ⟨A, ⟨p', m, hp, ?_, fun y hy => ?_⟩, hafter⟩
    · simpa using fun h => hA ((hids A (by simp [hp])).mp h)
    · simpa using (hids y (by simp [hp, hy])).mpr (hmid y hy)

end Marked

end MSV.SLH
