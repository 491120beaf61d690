import MSV.SLH.WalkProof

/-!
# What the filter drops

The first walk leaves a load alone when its address depends on a load already queued for address
hardening. The second walk drops queued loads that no markers prefix. So a marked load that
relies on an unmarked one is not hardened, and neither is the load it relies on.

**Theorem (`marked_load_protected_iff`).** In a block without fences, a marked load is hardened,
or depends on a hardened load, exactly when it, or a load it depends on, is kept (`Kept`): its
address is to be hardened and the filter lets it pass, or its result is and some use needs it.
-/

namespace MSV.SLH

variable {O : Options} {T : Target} {F : MachineFunction} {bb : MachineBasicBlock}

/-- An address register of `L` depends, through the definitions between them, on a result of
`K`. -/
def DependsOn (bb : MachineBasicBlock) (K L : MachineInstr) : Prop :=
  ∃ p m q, bb = p ++ K :: (m ++ L :: q) ∧ ∃ r ∈ L.addrRegs, r ∈ taint K.defs m

/-- The filter lets the address of an access pass: it computes a condition, its timing varies, or it
is marked. -/
def Passes (O : Options) (bb : MachineBasicBlock) (K : MachineInstr) (marked : Prop) : Prop :=
  ComputesCondition O bb K ∨ mayVariant O K = true ∨ marked

/-- The hardening of `K`, which is behind `p`, is kept: that of its address, where there is a
register to harden and the filter lets it pass, or that of its result, unless every use is hardened
already. -/
def KeptBehind (O : Options) (T : Target) (F : MachineFunction) (bb : MachineBasicBlock)
    (p : List MachineInstr) (K : MachineInstr) (marked : Prop) : Prop :=
  Planned O T bb p K .addr ∧ hardenOpRegs K ≠ [] ∧ Passes O bb K marked ∨
    Planned O T bb p K .result ∧ resultTarget T F bb (awaiting O T F bb p) K ≠ none

/-- The hardening of an access of the block is kept. -/
def Kept (O : Options) (T : Target) (F : MachineFunction) (bb : MachineBasicBlock)
    (K : MachineInstr) : Prop :=
  ∃ p q, bb = p ++ K :: q ∧ KeptBehind O T F bb p K (Marked O bb K)

/-! ## What the second walk does with a queued load -/

/-- The hardening of a load: its address, its result, or its result further down. -/
def Hardening.isLoad : Hardening → Bool
  | .loadAddr | .postLoad | .sunk _ => true
  | _ => false

/-- The log has the load with identity `i` hardened. -/
def LoadHardened (log : List (Hardening × Nat)) (i : Nat) : Prop :=
  ∃ h : Hardening, h.isLoad = true ∧ (h, i) ∈ log

theorem loadHardened_filter {log : List (Hardening × Nat)} {i : Nat} :
    LoadHardened (log.filter fun e => e.2 = i) i ↔ LoadHardened log i := by
  simp [LoadHardened]

/-- How the result of `mi` is hardened at `u`. -/
def resultEvent (mi u : MachineInstr) : Hardening :=
  if u.id = mi.id then .postLoad else .sunk u.id

theorem isLoad_resultEvent (mi u : MachineInstr) : (resultEvent mi u).isLoad = true := by
  unfold resultEvent
  split_ifs <;> rfl

section Self

variable {w : Hardened} {i : Nat} {mi : MachineInstr} {prev prevPrev : Option MachineInstr}
  {h : Hardening}

theorem mem_log_record {k : Hardening} :
    (h, i) ∈ (w.record k mi).log ↔ (h, i) ∈ w.log ∨ h = k ∧ i = mi.id := by
  simp [Hardened.record]

theorem orElse_true (next : Hardened → Hardened × Bool) : orElse (w, true) next = (w, true) := rfl

theorem orElse_false (next : Hardened → Hardened × Bool) : orElse (w, false) next = next w := rfl

theorem mem_log_orElse {r : Hardened × Bool} {next : Hardened → Hardened × Bool}
    (hnext : ∀ w', (h, i) ∈ (next w').1.log ↔ (h, i) ∈ w'.log) :
    (h, i) ∈ (orElse r next).1.log ↔ (h, i) ∈ r.1.log := by
  unfold orElse
  split_ifs
  · rfl
  · exact hnext _

section Load

variable (hh : h.isLoad = true)

include hh

theorem mem_log_record_of_not_isLoad {k : Hardening} (hk : k.isLoad = false) :
    (h, i) ∈ (w.record k mi).log ↔ (h, i) ∈ w.log := by
  rw [mem_log_record, or_iff_left]
  rintro ⟨rfl, -⟩
  rw [hh] at hk
  cases hk

theorem mem_log_visitFixedAddress :
    (h, i) ∈ (visitFixedAddress prev prevPrev mi w).log ↔ (h, i) ∈ w.log := by
  unfold visitFixedAddress
  split_ifs
  · rw [mem_log_record_of_not_isLoad hh rfl, markAsProtected_log, update_log]
  · rfl

theorem mem_log_visitCondition :
    (h, i) ∈ (visitCondition prev prevPrev mi w).1.log ↔ (h, i) ∈ w.log := by
  unfold visitCondition
  split_ifs
  · rw [mem_log_record_of_not_isLoad hh rfl, markAsProtected_log, update_log]
  · rfl

theorem mem_log_visitVTInstr :
    (h, i) ∈ (visitVTInstr prev prevPrev mi w).1.log ↔ (h, i) ∈ w.log := by
  unfold visitVTInstr
  split_ifs
  · rw [mem_log_record_of_not_isLoad hh rfl, markAsProtected_log, update_log]
  · rfl

theorem mem_log_visitStoreAddr :
    (h, i) ∈ (visitStoreAddr T prev prevPrev mi w).log ↔ (h, i) ∈ w.log := by
  unfold visitStoreAddr hardenPush
  split_ifs
  · rw [mem_log_record_of_not_isLoad hh rfl, update_log, mem_log_record_of_not_isLoad hh rfl,
      markAsProtected_log, update_log]
  · rw [mem_log_record_of_not_isLoad hh rfl, markAsProtected_log, update_log]
  · rfl

theorem mem_log_visitControl :
    (h, i) ∈ (visitInterprocedural O mi (visitIndirect O mi w)).log ↔ (h, i) ∈ w.log := by
  have hindirect : (h, i) ∈ (visitIndirect O mi w).log ↔ (h, i) ∈ w.log := by
    unfold visitIndirect
    split_ifs
    · exact mem_log_record_of_not_isLoad hh rfl
    · rfl
  rw [← hindirect]
  unfold visitInterprocedural
  split_ifs
  · rfl
  · rfl
  · exact mem_log_record_of_not_isLoad hh rfl
  · exact mem_log_record_of_not_isLoad hh rfl

/-- The cases after the post-load case harden no load. -/
theorem mem_log_rest (w : Hardened) :
    (h, i) ∈ (orElse (visitCondition prev prevPrev mi (visitFixedAddress prev prevPrev mi w))
      fun w => orElse (visitVTInstr prev prevPrev mi w) fun w =>
        (visitStoreAddr T prev prevPrev mi w, false)).1.log ↔ (h, i) ∈ w.log := by
  rw [mem_log_orElse, mem_log_visitCondition hh, mem_log_visitFixedAddress hh]
  intro w'
  rw [mem_log_orElse fun w'' => mem_log_visitStoreAddr hh, mem_log_visitVTInstr hh]

end Load

/-- A result is hardened unless its hardening is not needed anywhere. -/
theorem mem_log_visitPostLoad :
    (h, mi.id) ∈ (visitPostLoad O T F bb mi w).1.log ↔ (h, mi.id) ∈ w.log ∨
      mi.id ∈ w.sets.HardenPostLoad ∧
        ∃ u, resultTarget T F bb w.sets.HardenPostLoad mi = some u ∧ h = resultEvent mi u := by
  have htarget : sinkTarget T F bb mi (Collected.removePostLoad O mi.id w.sets) =
      resultTarget T F bb w.sets.HardenPostLoad mi := rfl
  unfold visitPostLoad finishPostLoad
  rw [htarget]
  split_ifs with hmem
  · cases resultTarget T F bb w.sets.HardenPostLoad mi with
    | none => simp
    | some u =>
        simp only [resultEvent]
        split_ifs with hu <;> simp [mem_log_record, hmem, hu]
  · simp [hmem]

/-- All the cases, from the outcome of the first one. -/
theorem mem_log_after (hh : h.isLoad = true) (r : Hardened × Bool) :
    (h, mi.id) ∈ (orElse r fun w => orElse (visitPostLoad O T F bb mi w) fun w =>
      orElse (visitCondition prev prevPrev mi (visitFixedAddress prev prevPrev mi w)) fun w =>
      orElse (visitVTInstr prev prevPrev mi w) fun w =>
      (visitStoreAddr T prev prevPrev mi w, false)).1.log ↔
      (h, mi.id) ∈ r.1.log ∨ r.2 = false ∧ mi.id ∈ r.1.sets.HardenPostLoad ∧
        ∃ u, resultTarget T F bb r.1.sets.HardenPostLoad mi = some u ∧ h = resultEvent mi u := by
  obtain ⟨w', done⟩ := r
  cases done with
  | true => rw [orElse_true]; simp
  | false =>
      rw [orElse_false, mem_log_orElse fun w' => mem_log_rest hh w', mem_log_visitPostLoad]
      simp

/-- What a step records of a load: what the address case does, and its result when the walk gets
to it. -/
theorem mem_log_visitInstr (hO : O.HardenLoads = true) (hh : h.isLoad = true) :
    (h, mi.id) ∈ (visitInstr O T F bb prev prevPrev mi w).log ↔
      (h, mi.id) ∈ (visitLoadAddr O prev prevPrev mi w).1.log ∨
        ToResult O mi.id w.sets ∧ mi.id ∈ w.sets.HardenPostLoad ∧
          ∃ u, resultTarget T F bb w.sets.HardenPostLoad mi = some u ∧ h = resultEvent mi u := by
  obtain ⟨hsame, hflag⟩ := postLoad_visitLoadAddr O w mi prev prevPrev
  unfold visitInstr visitLoads
  rw [if_pos hO, mem_log_orElse fun w' => mem_log_visitControl hh, mem_log_after hh, hsame, hflag]

/-- What is hardened before the walk is no load. -/
theorem not_mem_startWalk_log (hh : h.isLoad = true) : (h, i) ∉ (startWalk O T F bb).log := by
  intro hmem
  simp only [startHardening, hardenStandAlone] at hmem
  split_ifs at hmem
  · obtain ⟨j, -, hj⟩ := List.mem_map.mp hmem
    rw [← (Prod.mk.inj hj).1] at hh
    cases hh
  · cases hmem

/-- The address case at a queued load: it is hardened when the filter keeps it and there is a
register to harden. -/
theorem loadHardened_visitLoadAddr (hfilter : O.EnableFilter = true)
    (hmem : mi.id ∈ w.sets.HardenLoadAddr) (hstore : mi.id ∉ w.sets.HardenStoreAddr) :
    LoadHardened (visitLoadAddr O prev prevPrev mi w).1.log mi.id ↔
      LoadHardened w.log mi.id ∨ hardenOpRegs mi ≠ [] ∧
        (inOtherHardenList w.sets mi.id ∨ isPrefixedByDummies prev = true) := by
  unfold visitLoadAddr
  rw [if_pos hmem]
  by_cases hf : Filtered O prev mi.id w.sets
  · rw [if_pos hf]
    obtain ⟨-, hother, -, hprev⟩ := hf
    simp [hother, hprev]
  · rw [if_neg hf]
    have hkeep : inOtherHardenList w.sets mi.id ∨ isPrefixedByDummies prev = true := by
      by_contra hno
      rw [not_or, Bool.not_eq_true] at hno
      exact hf ⟨hfilter, hno.1, fun _ => hstore, hno.2⟩
    unfold hardenAccess
    rw [if_neg (by simpa [Collected.removeLoadAddr] using hstore)]
    by_cases hops : hardenOpRegs mi = []
    · rw [if_pos hops]
      simp [hops]
    · rw [if_neg hops]
      simp only [hops, ne_eq, not_false_eq_true, true_and, hkeep, or_true, iff_true]
      exact ⟨.loadAddr, rfl, mem_log_record.mpr (.inr ⟨rfl, rfl⟩)⟩

/-- The second walk at a queued load: a post-load one is hardened where it is needed; an address one
is hardened when the filter keeps it and there is a register to harden. -/
theorem loadHardened_visitInstr (hO : O.HardenLoads = true) (hfilter : O.EnableFilter = true)
    (hstore : mi.id ∈ w.sets.HardenLoadAddr → mi.id ∉ w.sets.HardenStoreAddr)
    (hdisj : mi.id ∈ w.sets.HardenLoadAddr → mi.id ∉ w.sets.HardenPostLoad) :
    LoadHardened (visitInstr O T F bb prev prevPrev mi w).log mi.id ↔
      LoadHardened w.log mi.id ∨ (mi.id ∈ w.sets.HardenPostLoad ∧
          resultTarget T F bb w.sets.HardenPostLoad mi ≠ none) ∨
        mi.id ∈ w.sets.HardenLoadAddr ∧ hardenOpRegs mi ≠ [] ∧
          (inOtherHardenList w.sets mi.id ∨ isPrefixedByDummies prev = true) := by
  have hstep : LoadHardened (visitInstr O T F bb prev prevPrev mi w).log mi.id ↔
      LoadHardened (visitLoadAddr O prev prevPrev mi w).1.log mi.id ∨
        ToResult O mi.id w.sets ∧ mi.id ∈ w.sets.HardenPostLoad ∧
          resultTarget T F bb w.sets.HardenPostLoad mi ≠ none := by
    unfold LoadHardened
    constructor
    · rintro ⟨h, hh, hmem⟩
      rcases (mem_log_visitInstr hO hh).mp hmem with hmem | ⟨hto, hpost, u, hu, -⟩
      · exact .inl ⟨h, hh, hmem⟩
      · exact .inr ⟨hto, hpost, by simp [hu]⟩
    · rintro (⟨h, hh, hmem⟩ | ⟨hto, hpost, hne⟩)
      · exact ⟨h, hh, (mem_log_visitInstr hO hh).mpr (.inl hmem)⟩
      · obtain ⟨u, hu⟩ := Option.ne_none_iff_exists'.mp hne
        have hh := isLoad_resultEvent mi u
        exact ⟨_, hh, (mem_log_visitInstr hO hh).mpr (.inr ⟨hto, hpost, u, hu, rfl⟩)⟩
  rw [hstep]
  by_cases hmem : mi.id ∈ w.sets.HardenLoadAddr
  · rw [loadHardened_visitLoadAddr hfilter hmem (hstore hmem)]
    simp [hmem, hdisj hmem]
  · rw [visitLoadAddr, if_neg hmem]
    simp [hmem, ToResult]

end Self


/-! ## Loads that are kept -/

/-- A planned access, at its place in the block. -/
theorem plannedIn_at (hF : WF F) (hbb : bb ∈ F) {p q : List MachineInstr} {K : MachineInstr}
    (heq : bb = p ++ K :: q) {way : Way} :
    PlannedIn O T bb K way ↔ Unfenced O (p ++ [K]) ∧ Planned O T bb p K way := by
  have hnd := block_nodup hF hbb
  constructor
  · rintro ⟨p', q', heq', hns, hp⟩
    have hpp := (append_cons_inj (not_mem_of_split hnd heq) (not_mem_of_split hnd heq')
      (heq.symm.trans heq')).1
    exact hpp ▸ ⟨hns, hp⟩
  · exact fun ⟨hns, hp⟩ => ⟨p, q, heq, hns, hp⟩

/-- Nothing is sunk to a load. -/
theorem mem_passResult_of_load {A : List Nat} {x K : MachineInstr} (hF : WF F)
    (hK : K ∈ F.flatten) (hload : K.mayLoad = true) (hne : x.id ≠ K.id) :
    K.id ∈ passResult O T F bb A x ↔ K.id ∈ A := by
  unfold passResult
  split_ifs
  · rw [mem_moveResult]
    constructor
    · rintro (⟨h, -⟩ | ⟨u, hu, hux, hid⟩)
      · exact h
      · rcases resultTarget_spec hu with rfl | ⟨hmem, hinv⟩
        · exact absurd rfl hux
        · obtain rfl := List.inj_on_of_nodup_map hF.nodup hmem hK hid
          rw [(hF.instr u hmem).invariant hinv] at hload
          cases hload
    · exact fun h => .inl ⟨h, hne.symm⟩
  · rfl

/-- A load awaits hardening when it is planned so. -/
theorem mem_awaiting_of_load (hF : WF F) (hbb : bb ∈ F) {p q : List MachineInstr}
    {K : MachineInstr} (heq : bb = p ++ K :: q) (hload : K.mayLoad = true) :
    K.id ∈ awaiting O T F bb p ↔ PlannedIn O T bb K .result := by
  have hK : K ∈ bb := by simp [heq]
  have hKF : K ∈ F.flatten := List.mem_flatten.mpr ⟨bb, hbb, hK⟩
  have hnd := block_nodup hF hbb
  rw [← (mem_collectBlock_iff hF hbb hK).2, mem_postLoad_iff hF hbb]
  rw [heq, List.map_append, List.nodup_append] at hnd
  have hne : ∀ x ∈ p, x.id ≠ K.id := fun x hx => hnd.2.2 _ (List.mem_map_of_mem hx) _ (by simp)
  show K.id ∈ p.foldl (passResult O T F bb) (awaiting O T F bb []) ↔ _
  generalize awaiting O T F bb [] = A
  clear heq hnd
  induction p generalizing A with
  | nil => rfl
  | cons x p ih =>
      rw [List.foldl_cons, ih fun y hy => hne y (by simp [hy]),
        mem_passResult_of_load hF hKF hload (hne x (by simp))]

section Block

variable (hO : O.HardenLoads = true) (hF : WF F) (hbb : bb ∈ F) (hns : ∀ mi ∈ bb, ¬ Stops O mi)

include hO hF hbb hns in
/-- **What the second walk hardens.** A load of the block is hardened exactly when its hardening is
kept. -/
theorem hardened_iff_kept (hfilter : O.EnableFilter = true) {p q : List MachineInstr}
    {K : MachineInstr} (heq : bb = p ++ K :: q) (hload : K.mayLoad = true) :
    LoadHardened (hardenBlock O T F bb).log K.id ↔
      KeptBehind O T F bb p K (Marked O bb K) := by
  have hK : K ∈ bb := by simp [heq]
  have hm := not_isMarker_of_mayLoad (block_wf hF hbb hK) hload
  have hunfenced : Unfenced O (p ++ [K]) := fun y hy => hns y (by
    rw [heq]
    rcases List.mem_append.mp hy with hy | hy <;> simp_all)
  have hplan {way : Way} : PlannedIn O T bb K way ↔ Planned O T bb p K way := by
    rw [plannedIn_at hF hbb heq]
    exact and_iff_right hunfenced
  obtain ⟨pp, w, hseen, hlog⟩ := hardenBlock_at (O := O) (T := T) hF hbb heq hm
  have hview := hseen.view
  simp only [Hardened.view, View.mk.injEq, decide_eq_decide] at hview
  obtain ⟨haddr, hstore, -, hother, hstart⟩ := hview
  have haddr' : K.id ∈ w.sets.HardenLoadAddr ↔ Planned O T bb p K .addr :=
    haddr.trans ((mem_collectBlock_iff hF hbb hK).1.trans hplan)
  have hpost : K.id ∈ w.sets.HardenPostLoad ↔ Planned O T bb p K .result :=
    (hseen.postLoad _).trans ((mem_awaiting_of_load hF hbb heq hload).trans hplan)
  have htarget : resultTarget T F (walkedBlock O T F bb) w.sets.HardenPostLoad K =
      resultTarget T F bb (awaiting O T F bb p) K :=
    resultTarget_congr hseen.postLoad (fun u hu => mem_walkedBlock hF hbb hu) K
  have hnone : ¬ LoadHardened w.log K.id := by
    rw [← loadHardened_filter, hstart]
    rintro ⟨h, hh, hmem⟩
    exact not_mem_startWalk_log hh (List.mem_filter.mp hmem).1
  have hpasses (hp : Planned O T bb p K .addr) : (inOtherHardenList w.sets K.id ∨
      isPrefixedByDummies (prevNode (walkedBlock O T F bb) K) = true) ↔
      Passes O bb K (Marked O bb K) := by
    rw [hother, prefixed_iff_marked hO hF hbb heq hm hunfenced,
      show inOtherHardenList (startWalk O T F bb).sets K.id ↔ _ from
        (planned_others hF hbb (hplan.mpr hp)).1, Passes, or_assoc]
  have hnostore (h : K.id ∈ w.sets.HardenLoadAddr) : K.id ∉ w.sets.HardenStoreAddr := by
    rw [hstore, show K.id ∈ (startWalk O T F bb).sets.HardenStoreAddr ↔ _ from
      (planned_others hF hbb (hplan.mpr (haddr'.mp h))).2, storeHardened, hload]
    simp
  have hdisjoint (h : K.id ∈ w.sets.HardenLoadAddr) : K.id ∉ w.sets.HardenPostLoad := by
    rw [hpost]
    exact (haddr'.mp h).not_result
  rw [← loadHardened_filter, hlog, Hardened.view, loadHardened_filter,
    loadHardened_visitInstr hO hfilter hnostore hdisjoint, or_iff_right hnone, haddr', hpost,
    htarget, KeptBehind, or_comm]
  refine or_congr_left (and_congr_right fun hp => and_congr_right fun _ => ?_)
  exact hpasses hp

end Block

/-- A `DUMMY_BEFORE` is still waiting for its `DUMMY_AFTER`. -/
def Open (pre : List MachineInstr) : Prop :=
  ∃ p b q, pre = p ++ b :: q ∧ b.isBefore = true ∧ ∀ x ∈ q, x.isAfter = false

section Marked

variable (hO : O.HardenLoads = true) (hF : WF F) (hbb : bb ∈ F) (hns : ∀ mi ∈ bb, ¬ Stops O mi)
  {pre post : List MachineInstr} {B A L : MachineInstr} (heq : bb = pre ++ B :: A :: L :: post)
  (hB : B.isBefore = true) (hA : A.isAfter = true)

include hO hF hbb hns heq hB hA in
/-- The second marker of a pair is taken as a stand-alone one exactly when an earlier
`DUMMY_BEFORE` is still open. -/
theorem after_standAlone_iff : StandAlone O bb A ↔ Open pre := by
  have hnd := block_nodup hF hbb
  have hAB : B.isAfter = false := MachineInstr.not_isAfter_of_isBefore hB
  constructor
  · rintro ⟨-, p, b, q, hsplit, -, hb, hne, rfl | hnext⟩
    · rw [MachineInstr.not_isAfter_of_isBefore hb] at hA
      exact Bool.noConfusion hA
    · obtain ⟨-, mid, q', hq, hmid⟩ := List.find?_eq_some_iff_append.mp hnext
      have hsame : (p ++ b :: mid) ++ A :: q' = (pre ++ [B]) ++ A :: L :: post := by
        have : bb = (p ++ b :: mid) ++ A :: q' := by rw [hsplit, hq]; simp
        rw [← this, heq]; simp
      have hinit := (append_cons_inj
        (not_mem_of_split hnd (show bb = (p ++ b :: mid) ++ A :: q' by rw [hsplit, hq]; simp))
        (not_mem_of_split hnd (show bb = (pre ++ [B]) ++ A :: L :: post by rw [heq]; simp))
        hsame).1
      rcases List.eq_nil_or_concat mid with rfl | ⟨mid', x, rfl⟩
      · rw [hq] at hne
        simp [betweenMarkers, hA] at hne
      · have hcat : (p ++ b :: mid') ++ [x] = pre ++ [B] := by rw [← hinit]; simp
        have hpre := (List.append_inj' hcat rfl).1
        exact ⟨p, b, mid', hpre.symm, hb, fun y hy => by simpa using hmid y (by simp [hy])⟩
  · rintro ⟨p, b, q, rfl, hb, hq⟩
    have hrun : ∀ x ∈ q ++ [B], x.isAfter = false := by
      intro x hx
      rcases List.mem_append.mp hx with hx | hx
      · exact hq x hx
      · rw [List.mem_singleton.mp hx]; exact hAB
    have hbb' : bb = p ++ b :: (q ++ B :: A :: L :: post) := by rw [heq]; simp
    refine ⟨hO, p, b, q ++ B :: A :: L :: post, hbb', fun y hy => hns y (by simp [hbb', hy]), hb,
      ?_, .inr ?_⟩
    · rw [show q ++ B :: A :: L :: post = (q ++ [B]) ++ A :: L :: post by simp, betweenMarkers,
        List.takeWhile_append_of_pos fun x hx => by simp [hrun x hx]]
      simp
    · rw [show q ++ B :: A :: L :: post = (q ++ [B]) ++ A :: L :: post by simp, nextAfter,
        List.find?_append, List.find?_eq_none.mpr fun x hx => by simp [hrun x hx]]
      simp [hA]

include hO hF hbb hns heq hB hA in
/-- A load behind a pair of markers is marked unless the pair is taken apart. -/
theorem marked_iff_not_open : Marked O bb L ↔ ¬ Open pre := by
  have hnd := block_nodup hF hbb
  -- Nothing stands between `B` and `A`, so `B` is not a stand-alone marker.
  have hBsa : ¬ StandAlone O bb B := by
    rintro ⟨-, p, b, q, hsplit, -, hb, hne, rfl | hnext⟩
    · have hq := (append_cons_inj (not_mem_of_split hnd hsplit) (not_mem_of_split hnd heq)
        (hsplit.symm.trans heq)).2
      rw [hq] at hne
      simp [betweenMarkers, hA] at hne
    · have ha := List.find?_some hnext
      rw [MachineInstr.not_isAfter_of_isBefore hB] at ha
      exact Bool.noConfusion ha
  have hsplit : bb = (pre ++ [B, A]) ++ L :: post := by rw [heq]; simp
  rw [← after_standAlone_iff hO hF hbb hns heq hB hA]
  constructor
  · rintro ⟨p, A', m, q, heq', hafter, hsa, hmid⟩ hA'
    have hsame : bb = (p ++ A' :: m) ++ L :: q := by rw [heq']; simp
    have hp := (append_cons_inj (not_mem_of_split hnd hsame) (not_mem_of_split hnd hsplit)
      (hsame.symm.trans hsplit)).1
    -- Behind `A'` there are stand-alone markers only, but `B` is none and no `DUMMY_AFTER`.
    rcases List.eq_nil_or_concat m with rfl | ⟨m', x, rfl⟩
    · have hp' : p ++ [A'] = (pre ++ [B]) ++ [A] := by simpa using hp
      have hlast := (List.append_inj' hp' rfl).2
      rw [List.singleton_inj.mp hlast] at hsa
      exact hsa hA'
    · have hp' : (p ++ A' :: m') ++ [x] = (pre ++ [B]) ++ [A] := by simpa using hp
      have hinit := (List.append_inj' hp' rfl).1
      rcases List.eq_nil_or_concat m' with rfl | ⟨m'', y, rfl⟩
      · have hlast := (List.append_inj' hinit rfl).2
        rw [List.singleton_inj.mp hlast, MachineInstr.not_isAfter_of_isBefore hB] at hafter
        exact Bool.noConfusion hafter
      · have hbefore : (p ++ A' :: m'') ++ [y] = pre ++ [B] := by simpa using hinit
        have hlast := (List.append_inj' hbefore rfl).2
        exact hBsa (List.singleton_inj.mp hlast ▸ hmid y (by simp))
  · intro hsa
    exact ⟨pre ++ [B], A, [], post, by rw [heq]; simp, hA, hsa, by simp⟩

/-- **When a marked load is protected.** In a block without fences, with the filter on: a load
directly behind a pair of markers is hardened, or its address depends on a hardened load, if and
only if its address depends on a load whose hardening is kept, or its own is. Its pair marks it
unless an open `DUMMY_BEFORE` takes the pair apart. -/
theorem marked_load_protected_iff (hO : O.HardenLoads = true) (hfilter : O.EnableFilter = true)
    (hF : WF F) (hbb : bb ∈ F) (hns : ∀ mi ∈ bb, ¬ Stops O mi)
    (heq : bb = pre ++ B :: A :: L :: post) (hB : B.isBefore = true) (hA : A.isAfter = true)
    (hload : L.mayLoad = true) :
    (LoadHardened (hardenBlock O T F bb).log L.id ∨
        ∃ K ∈ bb, K.mayLoad = true ∧ DependsOn bb K L ∧
          LoadHardened (hardenBlock O T F bb).log K.id) ↔
      (∃ K ∈ bb, K.mayLoad = true ∧ DependsOn bb K L ∧ Kept O T F bb K) ∨
        KeptBehind O T F bb (pre ++ [B, A]) L (¬ Open pre) := by
  have hdep {K : MachineInstr} (hK : K ∈ bb) (hKload : K.mayLoad = true) :
      LoadHardened (hardenBlock O T F bb).log K.id ↔ Kept O T F bb K := by
    constructor
    · intro h
      obtain ⟨p, q, hsplit⟩ := List.append_of_mem hK
      exact ⟨p, q, hsplit, (hardened_iff_kept hO hF hbb hns hfilter hsplit hKload).mp h⟩
    · rintro ⟨p, q, hsplit, h⟩
      exact (hardened_iff_kept hO hF hbb hns hfilter hsplit hKload).mpr h
  rw [hardened_iff_kept hO hF hbb hns hfilter (p := pre ++ [B, A]) (q := post)
    (by rw [heq]; simp) hload, or_comm, propext (marked_iff_not_open hO hF hbb hns heq hB hA)]
  refine or_congr_left (exists_congr fun K => and_congr_right fun hK => and_congr_right
    fun hKload => and_congr_right fun _ => hdep hK hKload)

end Marked

/-! ## Two loads behind one another -/

/-- A load of register `dst` through register `base`. -/
def loadVia (id dst base : Nat) (invariant : Bool) : MachineInstr where
  id := id
  defs := [.virt dst]
  uses := [.virt base]
  mem := some ⟨some (.virt base), .NoRegister⟩
  mayLoad := true
  isDataInvariantLoad := invariant

theorem loadVia_wf (id dst base : Nat) (invariant : Bool) :
    (loadVia id dst base invariant).WF where
  marker := fun h => Bool.noConfusion h
  debug := fun h => Bool.noConfusion h
  fence := fun h => h.elim (fun h => nomatch h) (fun h => nomatch h)
  invariant := fun h => Bool.noConfusion h
  addr := fun _ h => h

def filterOptions : Options where
  EnableFilter := true

def markedBlock : MachineBasicBlock := [dummyBefore 0, dummyAfter 1, loadVia 2 1 0 false]

/-- `%1 = CMOV64rm [%0]` without markers, and `%2 = MOV64rm [%1]` with. -/
def chainedBlock : MachineBasicBlock :=
  [loadVia 0 1 0 false, dummyBefore 1, dummyAfter 2, loadVia 3 2 1 true]

/-- A marked load on its own is hardened. -/
theorem marked_load_protected_alone :
    LoadHardened (hardenBlock filterOptions anyTarget [markedBlock] markedBlock).log 2 ∨
      ∃ K ∈ markedBlock, K.mayLoad = true ∧ DependsOn markedBlock K (loadVia 2 1 0 false) ∧
        LoadHardened (hardenBlock filterOptions anyTarget [markedBlock] markedBlock).log K.id := by
  have hwf : WF [markedBlock] := by
    refine .of_no_terminators (by decide) ?_ (by decide)
    simp only [markedBlock, List.flatten_cons, List.flatten_nil, List.append_nil, List.mem_cons,
      List.not_mem_nil, or_false, forall_eq_or_imp, forall_eq]
    exact ⟨dummyBefore_wf 0, dummyAfter_wf 1, loadVia_wf 2 1 0 false⟩
  have hsplit : markedBlock = [] ++ dummyBefore 0 :: dummyAfter 1 :: loadVia 2 1 0 false :: [] :=
    rfl
  have hplan : Planned filterOptions anyTarget markedBlock [dummyBefore 0, dummyAfter 1]
      (loadVia 2 1 0 false) .addr := by
    refine planned_iff.mpr ⟨⟨⟨rfl, .inl rfl⟩, by decide, ?_⟩,
      iff_of_false (by decide) fun h => absurd h.1 (by decide)⟩
    -- The markers have no address, so nothing is planned of them.
    rintro ⟨q, J, m, heq, hJ, -⟩
    have hJmem : J ∈ [dummyBefore 0, dummyAfter 1] := by simp [heq]
    refine (planned_iff.mp hJ).1.2.1 ?_
    rcases List.mem_pair.mp hJmem with rfl | rfl <;> rfl
  refine (marked_load_protected_iff rfl rfl hwf (by simp) (by decide) hsplit rfl rfl rfl).mpr
    (.inr (.inl ⟨hplan, by decide, .inr (.inr ?_)⟩))
  rintro ⟨p, b, q, heq, -⟩
  simp at heq

/-- A marked load whose address was loaded by an unmarked one: neither is hardened. -/
theorem marked_load_unprotected_behind_unmarked :
    WF [chainedBlock] ∧
      ¬ (LoadHardened (hardenBlock filterOptions anyTarget [chainedBlock] chainedBlock).log 3 ∨
          ∃ K ∈ chainedBlock, K.mayLoad = true ∧
            DependsOn chainedBlock K (loadVia 3 2 1 true) ∧ LoadHardened
              (hardenBlock filterOptions anyTarget [chainedBlock] chainedBlock).log K.id) := by
  have hlog : (hardenBlock filterOptions anyTarget [chainedBlock] chainedBlock).log = [] := by
    decide
  refine ⟨.of_no_terminators (by decide) ?_ (by decide), ?_⟩
  · simp only [chainedBlock, List.flatten_cons, List.flatten_nil, List.append_nil, List.mem_cons,
      List.not_mem_nil, or_false, forall_eq_or_imp, forall_eq]
    exact ⟨loadVia_wf 0 1 0 false, dummyBefore_wf 1, dummyAfter_wf 2, loadVia_wf 3 2 1 true⟩
  · rw [hlog]
    simp [LoadHardened]

end MSV.SLH
