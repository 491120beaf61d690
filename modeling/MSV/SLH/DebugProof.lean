import MSV.SLH.FilterProof

/-!
# Debug instructions and hardening

Inserting debug instructions should not change what is hardened. Two places look at them. The
filter asks for the node directly before an access, so a debug instruction between two markers, or
between the markers and the access, hides them. And the check whether post-load hardening can be
sunk counts the debug uses of a register.

**Theorem (`debug_invariant_iff`).** The logs of the two runs are equal exactly when the accesses
the filter asks about are marked alike (`MarkersSeenAlike`), and wherever a debug instruction reads
a result that hardening is sunk past, it would have stayed there anyway (`SinksAlike`).

The proof is a simulation of both walks. The first walk agrees on everything but which markers
stand alone (`collect_same`). The second walk passes markers, debug instructions and the new LFENCE
without effect, and meets the other instructions in the same order (`walk_same`). Conversely, the
log shows of each access whether it was prefixed, and where its result was hardened.
-/

namespace MSV.SLH

variable {O : Options} {T : Target} {F F' : MachineFunction} {bb bb' : MachineBasicBlock}

/-- The second list is the first with debug instructions inserted. -/
inductive InsertsDebug : List MachineInstr → List MachineInstr → Prop
  | nil : InsertsDebug [] []
  | keep (mi : MachineInstr) {l l' : List MachineInstr} (h : InsertsDebug l l') :
      InsertsDebug (mi :: l) (mi :: l')
  | insert {d : MachineInstr} {l l' : List MachineInstr} (hd : d.isDebugInstr = true)
      (h : InsertsDebug l l') : InsertsDebug l (d :: l')

theorem InsertsDebug.subset {l l' : List MachineInstr} (h : InsertsDebug l l') : l ⊆ l' := by
  induction h with
  | nil => exact fun _ h => h
  | keep mi _ ih => exact List.cons_subset_cons mi ih
  | insert _ _ ih => exact fun x hx => List.mem_cons_of_mem _ (ih hx)

/-- Only debug instructions are inserted. -/
theorem InsertsDebug.mem_of_not_debug {l l' : List MachineInstr} (h : InsertsDebug l l')
    {x : MachineInstr} (hx : x ∈ l') (hd : x.isDebugInstr = false) : x ∈ l := by
  induction h with
  | nil => exact hx
  | keep mi _ ih =>
      rcases List.mem_cons.mp hx with rfl | hx
      · exact List.mem_cons_self
      · exact List.mem_cons_of_mem _ (ih hx)
  | insert hdbg _ ih =>
      rcases List.mem_cons.mp hx with rfl | hx
      · rw [hd] at hdbg
        cases hdbg
      · exact ih hx

theorem InsertsDebug.append {l l' m m' : List MachineInstr} (h : InsertsDebug l l')
    (hm : InsertsDebug m m') : InsertsDebug (l ++ m) (l' ++ m') := by
  induction h with
  | nil => exact hm
  | keep mi _ ih => exact .keep mi ih
  | insert hd _ ih => exact .insert hd ih

theorem InsertsDebug.reverse {l l' : List MachineInstr} (h : InsertsDebug l l') :
    InsertsDebug l.reverse l'.reverse := by
  induction h with
  | nil => exact .nil
  | keep mi _ ih =>
      rw [List.reverse_cons, List.reverse_cons]
      exact ih.append (.keep mi .nil)
  | insert hd _ ih =>
      rw [List.reverse_cons]
      simpa using ih.append (.insert hd .nil)

theorem InsertsDebug.flatten (h : List.Forall₂ InsertsDebug F F') :
    InsertsDebug F.flatten F'.flatten := by
  induction h with
  | nil => exact .nil
  | cons h _ ih => exact h.append ih

/-- A property no inserted instruction has filters out the same instructions. -/
theorem InsertsDebug.filter_eq {l l' : List MachineInstr} (h : InsertsDebug l l')
    {P : MachineInstr → Bool} (hP : ∀ d ∈ l', d.isDebugInstr = true → d ∉ l → P d = false)
    (hnd : (l'.map MachineInstr.id).Nodup) : l'.filter P = l.filter P := by
  induction h with
  | nil => rfl
  | keep mi h ih =>
      rw [List.map_cons, List.nodup_cons] at hnd
      have := ih (fun d hd hdbg hnot => hP d (by simp [hd]) hdbg fun hmem => by
        rcases List.mem_cons.mp hmem with rfl | hmem
        · exact hnd.1 (List.mem_map_of_mem hd)
        · exact hnot hmem) hnd.2
      rw [List.filter_cons, List.filter_cons, this]
  | @insert d l l' hd h ih =>
      rw [List.map_cons, List.nodup_cons] at hnd
      have hdl : d ∉ l := fun hmem => hnd.1 (List.mem_map_of_mem (h.subset hmem))
      rw [List.filter_cons, hP d (by simp) hd hdl,
        ih (fun x hx hdbg hnot => hP x (by simp [hx]) hdbg hnot) hnd.2]
      simp

/-! ## The first walk -/

/-- The sets without those of the markers. -/
def Collected.forget (c : Collected) : Collected :=
  { c with DummyInstr := [], StandAloneGEPDummyInstr := [] }

theorem findCondition_insertsDebug {H : List Nat} {l l' : List MachineInstr}
    (h : InsertsDebug l l') (hwf : ∀ x ∈ l', x.WF) :
    findCondition H l' = findCondition H l := by
  induction h with
  | nil => rfl
  | keep mi _ ih =>
      rw [findCondition, findCondition, ih fun x hx => hwf x (by simp [hx])]
  | @insert d l l' hd _ ih =>
      have hd' := (hwf d (by simp)).debug hd
      rw [findCondition, if_pos (by rw [hd']; rfl), ih fun x hx => hwf x (by simp [hx])]

theorem mayBranch_insertsDebug (h : InsertsDebug bb bb') (hwf : ∀ x ∈ bb', x.WF)
    (mi : MachineInstr) (H : List Nat) : mayBranch O bb' mi H = mayBranch O bb mi H := by
  unfold mayBranch
  rw [findCondition_insertsDebug h.reverse fun x hx => hwf x (List.mem_reverse.mp hx)]

section Forget

variable (mi : MachineInstr) (c : Collected)

theorem propagateLoadDep_forget :
    (propagateLoadDep mi c).forget = propagateLoadDep mi c.forget := by
  unfold propagateLoadDep Collected.forget; split_ifs <;> rfl

theorem collectCondition_forget (x : Option MachineInstr) :
    (collectCondition x c).forget = collectCondition x c.forget := by
  cases x <;> rfl

theorem collectVTInstr_forget : (collectVTInstr O mi c).forget = collectVTInstr O mi c.forget := by
  unfold collectVTInstr; split_ifs <;> rfl

theorem collectStore_forget : (collectStore O mi c).forget = collectStore O mi c.forget := by
  unfold collectStore; split_ifs <;> rfl

theorem collectFixedAddress_forget (m : MemRef) :
    (collectFixedAddress O mi m c).forget = collectFixedAddress O mi m c.forget := by
  unfold collectFixedAddress
  by_cases h : O.HardenFixedAddress = true
  · rw [if_pos h, if_pos h]; rfl
  · rw [if_neg h, if_neg h]

theorem collectAccess_forget :
    (collectAccess O T mi c).forget = collectAccess O T mi c.forget := by
  unfold collectAccess
  cases mi.mem with
  | none => rfl
  | some m =>
      have hdep : mi.addrRegs.any (· ∈ c.forget.LoadDepRegs) =
        mi.addrRegs.any (· ∈ c.LoadDepRegs) := rfl
      have hregs : postLoadCompatible O T mi c.forget.HardenedAddrRegs =
        postLoadCompatible O T mi c.HardenedAddrRegs := rfl
      simp only [hdep, hregs]
      split_ifs
      · exact collectFixedAddress_forget mi c m
      · rfl
      · rfl
      · rfl

theorem collectInstr_forget :
    (collectInstr O T bb mi c).forget = collectInstr O T bb mi c.forget := by
  unfold collectInstr
  rw [show c.forget.HardenCondition = c.HardenCondition from rfl]
  split_ifs
  · rfl
  · rfl
  · exact collectCondition_forget c _
  · rw [collectAccess_forget, collectStore_forget, collectVTInstr_forget, collectCondition_forget]

/-- The last instruction of a stand-alone GEP. -/
def lastBetween (rest : List MachineInstr) : Option MachineInstr :=
  ((betweenMarkers rest).filter fun x => !x.isDebugInstr).getLast?

theorem collectMarker_forget (rest : List MachineInstr) :
    (collectMarker mi rest c).forget =
      if mi.isBefore then
        { c.forget with
          HardenStandAloneGEP := insertInstr c.HardenStandAloneGEP (lastBetween rest) }
      else c.forget := by
  unfold collectMarker
  by_cases hb : mi.isBefore = true
  · rw [if_pos hb, if_pos hb]
    by_cases hlen : (betweenMarkers rest).length > 0
    · rw [if_pos hlen]; rfl
    · have hnil : betweenMarkers rest = [] := by
        rw [← List.length_eq_zero_iff]
        omega
      rw [if_neg hlen, lastBetween, hnil]
      rfl
  · rw [if_neg hb, if_neg hb]

end Forget

theorem forget_standAloneGEP {c c' : Collected} (h : c'.forget = c.forget) :
    c'.HardenStandAloneGEP = c.HardenStandAloneGEP := by
  have := congrArg Collected.HardenStandAloneGEP h
  exact this

theorem not_isAfter_of_debug {d : MachineInstr} (hwf : d.WF) (hd : d.isDebugInstr = true) :
    d.isAfter = false ∧ d.isMarker = false := by
  rw [hwf.debug hd]
  exact ⟨rfl, rfl⟩

theorem lastBetween_insertsDebug {l l' : List MachineInstr} (h : InsertsDebug l l')
    (hwf : ∀ x ∈ l', x.WF) : lastBetween l' = lastBetween l := by
  have hfilter : (betweenMarkers l').filter (fun x => !x.isDebugInstr) =
      (betweenMarkers l).filter fun x => !x.isDebugInstr := by
    induction h with
    | nil => rfl
    | keep mi _ ih =>
        have ih' := ih fun x hx => hwf x (by simp [hx])
        unfold betweenMarkers at ih' ⊢
        rw [List.takeWhile_cons, List.takeWhile_cons]
        split_ifs
        · rw [List.filter_cons, List.filter_cons, ih']
        · rfl
    | @insert d l l' hd _ ih =>
        have ih' := ih fun x hx => hwf x (by simp [hx])
        unfold betweenMarkers at ih' ⊢
        rw [List.takeWhile_cons, if_pos (by simp [(not_isAfter_of_debug (hwf d (by simp)) hd).1]),
          List.filter_cons_of_neg (by simp [hd]), ih']
  rw [lastBetween, lastBetween, hfilter]

/-- A step of the first walk at the same instruction. -/
theorem collectStep_same (h : InsertsDebug bb bb') (hwf : ∀ x ∈ bb', x.WF) {mi : MachineInstr}
    {rest rest' : List MachineInstr} (hrest : InsertsDebug rest rest')
    (hwf' : ∀ x ∈ rest', x.WF) {c c' : Collected} (hc : c'.forget = c.forget) :
    (collectStep O T bb' mi rest' c').forget = (collectStep O T bb mi rest c).forget := by
  have hmarker : (collectMarker mi rest' c').forget = (collectMarker mi rest c).forget := by
    rw [collectMarker_forget, collectMarker_forget, lastBetween_insertsDebug hrest hwf', hc,
      forget_standAloneGEP hc]
  unfold collectStep
  rw [collectInstr_forget, collectInstr_forget, propagateLoadDep_forget, propagateLoadDep_forget,
    hmarker]
  unfold collectInstr
  rw [mayBranch_insertsDebug h hwf]

/-- The first walk passes a debug instruction without effect. -/
theorem collectStep_debug {d : MachineInstr} (hwf : d.WF) (hd : d.isDebugInstr = true)
    (rest : List MachineInstr) (c : Collected) : collectStep O T bb d rest c = c := by
  rw [hwf.debug hd]
  have hprop : propagateLoadDep { id := d.id, isDebugInstr := true, uses := d.uses } c = c := by
    unfold propagateLoadDep; split_ifs <;> rfl
  have hmark : collectMarker { id := d.id, isDebugInstr := true, uses := d.uses } rest c = c := rfl
  unfold collectStep
  rw [hmark, hprop]
  unfold collectInstr
  rw [if_pos]
  simp [skips, mayBranch, mayVariant]

theorem not_stops_of_debug {d : MachineInstr} (hwf : d.WF) (hd : d.isDebugInstr = true) :
    ¬ Stops O d := by
  rw [hwf.debug hd]
  simp [Stops, stopsX87, mayVariant]

/-- The blocks the second walk starts from: debug instructions are inserted, and the LFENCE of an
x87 instruction may have another identity. -/
inductive Extends (f f' : Nat) : List MachineInstr → List MachineInstr → Prop
  | nil : Extends f f' [] []
  | keep (mi : MachineInstr) {l l' : List MachineInstr} (h : Extends f f' l l') :
      Extends f f' (mi :: l) (mi :: l')
  | insert {d : MachineInstr} {l l' : List MachineInstr} (hd : d.isDebugInstr = true)
      (h : Extends f f' l l') : Extends f f' l (d :: l')
  | fence {l l' : List MachineInstr} (h : Extends f f' l l') :
      Extends f f' (newLFENCE f :: l) (newLFENCE f' :: l')

theorem InsertsDebug.extends {l l' : List MachineInstr} (h : InsertsDebug l l') (f f' : Nat) :
    Extends f f' l l' := by
  induction h with
  | nil => exact .nil
  | keep mi _ ih => exact .keep mi ih
  | insert hd _ ih => exact .insert hd ih

/-- **The first walk ignores debug instructions**, as far as anything but the markers goes. -/
theorem collect_same (h : InsertsDebug bb bb') (hwf : ∀ x ∈ bb', x.WF) (f f' : Nat)
    {l l' : List MachineInstr} (hl : InsertsDebug l l') (hwf' : ∀ x ∈ l', x.WF)
    {c c' : Collected} (hc : c'.forget = c.forget) :
    (collect O T f' bb' l' c').1.forget = (collect O T f bb l c).1.forget ∧
      Extends f f' (collect O T f bb l c).2 (collect O T f' bb' l' c').2 := by
  induction hl generalizing c c' with
  | nil => exact ⟨hc, .nil⟩
  | @keep mi l l' hl ih =>
      have hwf'' : ∀ x ∈ l', x.WF := fun x hx => hwf' x (by simp [hx])
      by_cases h1 : mi.opcode = .LFENCE
      · rw [collect_of_stops_lfence h1, collect_of_stops_lfence h1]
        refine ⟨?_, (InsertsDebug.keep mi hl).extends f f'⟩
        show (propagateLoadDep mi (collectMarker mi l' c')).forget =
          (propagateLoadDep mi (collectMarker mi l c)).forget
        rw [propagateLoadDep_forget, propagateLoadDep_forget, collectMarker_forget,
          collectMarker_forget, lastBetween_insertsDebug hl hwf'', hc,
          forget_standAloneGEP hc]
      · by_cases h2 : stopsX87 O mi = true
        · rw [collect_of_stops_x87 h1 h2, collect_of_stops_x87 h1 h2]
          exact ⟨collectStep_same h hwf hl hwf'' hc,
            .fence (.keep mi (hl.extends f f'))⟩
        · have hns : ¬ Stops O mi := fun hs => hs.elim h1 h2
          rw [collect_cons_of_not_stops hns, collect_cons_of_not_stops hns]
          obtain ⟨hsets, hext⟩ := ih hwf'' (collectStep_same h hwf hl hwf'' hc)
          exact ⟨hsets, .keep mi hext⟩
  | @insert d l l' hd hl ih =>
      have hdwf := hwf' d (by simp)
      rw [collect_cons_of_not_stops (not_stops_of_debug hdwf hd), collectStep_debug hdwf hd]
      obtain ⟨hsets, hext⟩ := ih (fun x hx => hwf' x (by simp [hx])) hc
      exact ⟨hsets, .insert hd hext⟩

theorem collectBlock_same (F F' : MachineFunction) (h : InsertsDebug bb bb')
    (hwf : ∀ x ∈ bb', x.WF) :
    (collectBlock O T F' bb').1.forget = (collectBlock O T F bb).1.forget ∧
      Extends (freshId F) (freshId F') (collectBlock O T F bb).2 (collectBlock O T F' bb').2 := by
  unfold collectBlock
  split_ifs
  · exact collect_same h hwf _ _ h hwf rfl
  · exact ⟨rfl, h.extends _ _⟩

/-! ## What the block asks for -/

section Plan

variable (hF : WF F) (hF' : WF F') (hbb : bb ∈ F) (hbb' : bb' ∈ F') (hblock : InsertsDebug bb bb')

include hF hF' hbb hbb' hblock

/-- Debug instructions do not change what is planned. -/
theorem planned_same {X : MachineInstr} (hX : X ∈ bb) {way : Way} :
    PlannedIn O T bb' X way ↔ PlannedIn O T bb X way := by
  have hsame := (collectBlock_same (O := O) (T := T) F F' hblock
    fun x hx => block_wf hF' hbb' hx).1
  have haddr : (collectBlock O T F' bb').1.HardenLoadAddr =
      (collectBlock O T F bb).1.HardenLoadAddr := congrArg (fun c => c.HardenLoadAddr) hsame
  have hpost : (collectBlock O T F' bb').1.HardenPostLoad =
      (collectBlock O T F bb).1.HardenPostLoad := congrArg (fun c => c.HardenPostLoad) hsame
  have h := mem_collectBlock_iff (O := O) (T := T) hF hbb hX
  have h' := mem_collectBlock_iff (O := O) (T := T) hF' hbb' (hblock.subset hX)
  cases way with
  | addr => rw [← h.1, ← h'.1, haddr]
  | result => rw [← h.2, ← h'.2, hpost]

theorem computesCondition_same {X : MachineInstr} (hX : X ∈ bb) :
    ComputesCondition O bb' X ↔ ComputesCondition O bb X := by
  have hsame := (collectBlock_same (O := O) (T := anyTarget) F F' hblock
    fun x hx => block_wf hF' hbb' hx).1
  have hcond : (collectBlock O anyTarget F' bb').1.HardenCondition =
      (collectBlock O anyTarget F bb).1.HardenCondition :=
    congrArg (fun c => c.HardenCondition) hsame
  rw [← mem_condition_iff (T := anyTarget) hF hbb hX,
    ← mem_condition_iff (T := anyTarget) hF' hbb' (hblock.subset hX), hcond]

theorem getsToResult_same {X : MachineInstr} (hX : X ∈ bb) :
    GetsToResult O T bb' X ↔ GetsToResult O T bb X := by
  unfold GetsToResult
  rw [planned_same hF hF' hbb hbb' hblock hX, computesCondition_same hF hF' hbb hbb' hblock hX]

end Plan

/-! ## Sinking -/

/-- An inserted debug instruction reads the result of `x`. -/
def ReadByInserted (F F' : MachineFunction) (x : MachineInstr) : Prop :=
  ∃ r ∈ x.defs.head?, ∃ d ∈ F'.flatten, d ∉ F.flatten ∧ r ∈ d.uses

/-- What the check says of the uses of the result of `x`. -/
def checkUses (T : Target) (F : MachineFunction) (bb : MachineBasicBlock) (H : List Nat)
    (x : MachineInstr) : Option (Option MachineInstr) :=
  match x.defs with
  | [] => none
  | r :: _ => sinkCheckToSingleUse T bb H r (F.flatten.filter (r ∈ ·.uses)) none

/-- The inserted instructions leave alone where the hardening of the result of `x` goes, when those
in `H` are to be hardened too. One that reads the result keeps the hardening at `x`, so it has to
stay there without it as well. When there is none, it is the result of the single use that
matters. -/
def SinkUndisturbed (T : Target) (F F' : MachineFunction) (bb : MachineBasicBlock) (H : List Nat) :
    Nat → MachineInstr → Prop
  | 0, _ => True
  | fuel + 1, x =>
      (ReadByInserted F F' x → sinkPostLoadHardenedInst T F bb H (fuel + 1) x = some x) ∧
        (¬ ReadByInserted F F' x → ∀ u, checkUses T F bb H x = some (some u) →
          SinkUndisturbed T F F' bb H fuel u)

/-- A use that is neither hardened nor data invariant keeps the hardening where it is. -/
theorem sinkCheck_of_use {H : List Nat} {r : Reg} {us : List MachineInstr} {d : MachineInstr}
    (hd : d ∈ us) (hH : d.id ∉ H) (hinv : d.isDataInvariant = false)
    (single : Option MachineInstr) : sinkCheckToSingleUse T bb H r us single = none := by
  induction us generalizing single with
  | nil => cases hd
  | cons u us ih =>
      unfold sinkCheckToSingleUse
      rcases List.mem_cons.mp hd with rfl | hd
      · simp [hH, hinv]
      · simp only [ih hd]
        split_ifs
        · rfl
        · rfl
        · rfl
        · rfl
        · rfl
        · split
          · split_ifs <;> rfl
          · rfl

section Sink

variable (hF' : WF F') (hins : InsertsDebug F.flatten F'.flatten)

include hF' hins

/-- An inserted instruction is a debug instruction, and never hardened. -/
theorem inserted_spec {d : MachineInstr} (hd : d ∈ F'.flatten) (hnot : d ∉ F.flatten) :
    d.isDebugInstr = true ∧ d.isDataInvariant = false ∧ ¬ Known F d.id := by
  have hdbg : d.isDebugInstr = true := by
    by_contra hdbg
    exact hnot (hins.mem_of_not_debug hd (by simpa using hdbg))
  refine ⟨hdbg, by rw [(hF'.instr d hd).debug hdbg], ?_⟩
  rintro ⟨x, hx, hid, -, -⟩
  exact hnot (List.inj_on_of_nodup_map hF'.nodup (hins.subset hx) hd hid ▸ hx)

/-- **Where hardening is sunk to**, with debug instructions inserted. -/
theorem sinkPostLoad_same_iff {H : List Nat} (hH : KnownIn F H)
    (hbb : ∀ u ∈ F.flatten, u.isDataInvariant = true → (u ∈ bb' ↔ u ∈ bb)) (fuel : Nat)
    (x : MachineInstr) : sinkPostLoadHardenedInst T F' bb' H fuel x =
      sinkPostLoadHardenedInst T F bb H fuel x ↔ SinkUndisturbed T F F' bb H fuel x := by
  induction fuel generalizing x with
  | zero => exact iff_of_true rfl trivial
  | succ fuel ih =>
      rw [SinkUndisturbed]
      cases hdefs : x.defs with
      | nil =>
          have hread : ¬ ReadByInserted F F' x := by simp [ReadByInserted, hdefs]
          simp [sinkPostLoadHardenedInst, checkUses, hdefs, hread]
      | cons r rs =>
          by_cases hread : ReadByInserted F F' x
          · have hstays : sinkPostLoadHardenedInst T F' bb' H (fuel + 1) x = some x := by
              obtain ⟨r', hr', d, hd, hnot, hreads⟩ := hread
              obtain rfl : r = r' := by simpa [hdefs] using hr'
              obtain ⟨-, hinv, hunknown⟩ := inserted_spec hF' hins hd hnot
              rw [sinkPostLoadHardenedInst, hdefs]
              simp only
              rw [sinkCheck_of_use (List.mem_filter.mpr ⟨hd, by simpa using hreads⟩)
                (fun h => hunknown (hH _ h)) hinv]
            rw [hstays]
            simp [hread, eq_comm]
          · have husers : F'.flatten.filter (r ∈ ·.uses) = F.flatten.filter (r ∈ ·.uses) := by
              refine hins.filter_eq (fun d hd _ hnot => ?_) hF'.nodup
              rw [decide_eq_false_iff_not]
              exact fun hr => hread ⟨r, by simp [hdefs], d, hd, hnot, hr⟩
            have hcheck := sinkCheck_congr (T := T) (H := H) (r := r) (fun _ => Iff.rfl)
              (F.flatten.filter (r ∈ ·.uses)) (fun u hu => hbb u (List.mem_filter.mp hu).1) none
            simp only [sinkPostLoadHardenedInst, checkUses, hdefs, husers, hcheck, hread,
              false_implies, true_and, not_false_eq_true, true_implies]
            generalize sinkCheckToSingleUse T bb H r (F.flatten.filter (r ∈ ·.uses)) none = check
            rcases check with _ | _ | u
            · simp
            · simp
            · simpa using ih u

theorem sinkFuel_insertsDebug : sinkFuel F' = sinkFuel F := by
  unfold sinkFuel
  rw [hins.filter_eq (fun d _ hdbg _ => by simp [hdbg]) hF'.nodup]

/-- The target of a result, with debug instructions inserted. -/
theorem resultTarget_same_iff {A : List Nat} (hA : KnownIn F A)
    (hbb : ∀ u ∈ F.flatten, u.isDataInvariant = true → (u ∈ bb' ↔ u ∈ bb)) {x : MachineInstr} :
    resultTarget T F' bb' A x = resultTarget T F bb A x ↔
      (x.isDataInvariantLoad = true → x.isEFLAGSDefLive = false →
        SinkUndisturbed T F F' bb (A.filter (· ≠ x.id)) (sinkFuel F) x) := by
  have hknown : KnownIn F (A.filter (· ≠ x.id)) := fun i hi => hA i (List.mem_filter.mp hi).1
  unfold resultTarget sinkTarget
  rw [sinkFuel_insertsDebug hF' hins]
  cases hload : x.isDataInvariantLoad <;> cases hflags : x.isEFLAGSDefLive <;> simp
  simpa using sinkPostLoad_same_iff (T := T) hF' hins hknown hbb (sinkFuel F) x

end Sink

/-- Where the second walk gets to the result of `X`, behind `p`, its hardening goes where it goes
without the inserted instructions. -/
def SinksAlikeAt (O : Options) (T : Target) (F F' : MachineFunction) (bb : MachineBasicBlock)
    (p : List MachineInstr) (X : MachineInstr) : Prop :=
  X.id ∈ awaiting O T F bb p → GetsToResult O T bb X → X.isDataInvariantLoad = true →
    X.isEFLAGSDefLive = false → SinkUndisturbed T F F' bb
      ((awaiting O T F bb p).filter (· ≠ X.id)) (sinkFuel F) X

/-- The inserted debug instructions do not change where the hardening of a result goes. -/
def SinksAlike (O : Options) (T : Target) (F F' : MachineFunction) (bb : MachineBasicBlock) :
    Prop :=
  ∀ p X q, bb = p ++ X :: q → SinksAlikeAt O T F F' bb p X

section Awaiting

variable (hF : WF F) (hF' : WF F') (hbb : bb ∈ F) (hbb' : bb' ∈ F')
  (hins : InsertsDebug F.flatten F'.flatten) (hblock : InsertsDebug bb bb')

include hF hblock in
theorem mem_block_same {u : MachineInstr} (hu : u ∈ F.flatten) (hinv : u.isDataInvariant = true) :
    u ∈ bb' ↔ u ∈ bb := by
  refine ⟨fun h => hblock.mem_of_not_debug h ?_, fun h => hblock.subset h⟩
  by_contra hd
  rw [(hF.instr u hu).debug (by simpa using hd)] at hinv
  cases hinv

include hF hF' hbb hins hblock in
theorem sinksAlikeAt_iff {p : List MachineInstr} {X : MachineInstr} :
    SinksAlikeAt O T F F' bb p X ↔ (X.id ∈ awaiting O T F bb p → GetsToResult O T bb X →
      resultTarget T F' bb' (awaiting O T F bb p) X =
        resultTarget T F bb (awaiting O T F bb p) X) := by
  unfold SinksAlikeAt
  rw [resultTarget_same_iff hF' hins (knownIn_awaiting hF hbb p)
    fun u hu hinv => mem_block_same hF hblock hu hinv]

include hF hF' hbb hbb' hins hblock in
/-- The same results are awaiting, as long as sinking was not disturbed. -/
theorem mem_awaiting_same {s s' : List MachineInstr} (h : InsertsDebug s s')
    (hs : s.reverse <+: bb) (hs' : s'.reverse <+: bb')
    (hsinks : ∀ p X r, s.reverse = p ++ X :: r → SinksAlikeAt O T F F' bb p X) (i : Nat) :
    i ∈ awaiting O T F' bb' s'.reverse ↔ i ∈ awaiting O T F bb s.reverse := by
  induction h generalizing i with
  | nil =>
      rw [List.reverse_nil, ← mem_postLoad_iff hF hbb, ← mem_postLoad_iff hF' hbb']
      have hsame := (collectBlock_same (O := O) (T := T) F F' hblock
        fun x hx => block_wf hF' hbb' hx).1
      rw [show (collectBlock O T F' bb').1.HardenPostLoad = _ from
        congrArg (fun c => c.HardenPostLoad) hsame]
      rfl
  | @keep X s s' _ ih =>
      rw [List.reverse_cons] at hs hs' hsinks
      have hpre := (List.prefix_append s.reverse [X]).trans hs
      have hpre' := (List.prefix_append s'.reverse [X]).trans hs'
      have hX : X ∈ bb := hs.subset (by simp)
      have ih' (i : Nat) : i ∈ awaiting O T F' bb' s'.reverse ↔ i ∈ awaiting O T F bb s.reverse :=
        ih hpre hpre' (fun p Y r heq => hsinks p Y (r ++ [X]) (by simp [heq])) i
      have hhere : X.id ∈ awaiting O T F bb s.reverse → GetsToResult O T bb X →
          resultTarget T F' bb' (awaiting O T F bb s.reverse) X =
            resultTarget T F bb (awaiting O T F bb s.reverse) X :=
        (sinksAlikeAt_iff hF hF' hbb hins hblock).mp (hsinks _ X [] rfl)
      rw [List.reverse_cons, List.reverse_cons, awaiting_append_singleton,
        awaiting_append_singleton, passResult, passResult]
      by_cases hgets : X.id ∈ awaiting O T F bb s.reverse ∧ GetsToResult O T bb X
      · have hgets' :=
          (and_congr (ih' X.id) (getsToResult_same hF hF' hbb hbb' hblock hX)).mpr hgets
        have htarget : resultTarget T F' bb' (awaiting O T F' bb' s'.reverse) X =
            resultTarget T F bb (awaiting O T F bb s.reverse) X :=
          (resultTarget_congr ih' (fun _ _ _ => Iff.rfl) X).trans (hhere hgets.1 hgets.2)
        rw [if_pos hgets, if_pos hgets', mem_moveResult, mem_moveResult, htarget, ih' i]
      · have hgets' : ¬ (X.id ∈ awaiting O T F' bb' s'.reverse ∧ GetsToResult O T bb' X) :=
          fun h => hgets ((and_congr (ih' X.id)
            (getsToResult_same hF hF' hbb hbb' hblock hX)).mp h)
        rw [if_neg hgets, if_neg hgets', ih' i]
  | @insert d s s' hd _ ih =>
      rw [List.reverse_cons] at hs'
      have hd' : d ∈ F'.flatten := List.mem_flatten.mpr ⟨bb', hbb', hs'.subset (by simp)⟩
      have hunknown : ¬ Known F' d.id := by
        rintro ⟨x, hx, hid, -, hdbg⟩
        rw [List.inj_on_of_nodup_map hF'.nodup hx hd' hid, hd] at hdbg
        cases hdbg
      rw [List.reverse_cons, awaiting_of_unknown hF' hbb' _ hunknown]
      exact ih hs ((List.prefix_append s'.reverse [d]).trans hs') hsinks i

end Awaiting

/-! ## The second walk -/

/-- The states of the two runs: only the sets of markers differ. -/
structure Alike (w w' : Hardened) : Prop where
  sets : ∃ d s, w'.sets = { w.sets with DummyInstr := d, StandAloneGEPDummyInstr := s }
  log : w'.log = w.log

/-- Outcomes of a case in the two runs. -/
def AlikeStep (r r' : Hardened × Bool) : Prop := Alike r.1 r'.1 ∧ r'.2 = r.2

section Alike

variable {w w' : Hardened} {mi : MachineInstr} {p p' pp pp' : Option MachineInstr}

theorem Alike.record (h : Alike w w') (k : Hardening) : Alike (w.record k mi) (w'.record k mi) :=
  ⟨h.sets, by simp [Hardened.record, h.log]⟩

theorem Alike.mark (h : Alike w w') : Alike (markAsProtected p pp w) (markAsProtected p' pp' w') :=
  ⟨by simpa using h.sets, by simpa using h.log⟩

theorem Alike.update (h : Alike w w') {f : Collected → Collected}
    (hf : ∀ c d s, f { c with DummyInstr := d, StandAloneGEPDummyInstr := s } =
      { f c with DummyInstr := d, StandAloneGEPDummyInstr := s }) :
    Alike (w.update f) (w'.update f) := by
  obtain ⟨⟨d, s, hs⟩, hlog⟩ := h
  exact ⟨⟨d, s, by rw [update_sets, update_sets, hs, hf]⟩, hlog⟩

theorem AlikeStep.orElse {r r' : Hardened × Bool} {next next' : Hardened → Hardened × Bool}
    (h : AlikeStep r r')
    (hnext : r.2 = false → Alike r.1 r'.1 → AlikeStep (next r.1) (next' r'.1)) :
    AlikeStep (SLH.orElse r next) (SLH.orElse r' next') := by
  obtain ⟨v, done⟩ := r
  obtain ⟨v', done'⟩ := r'
  obtain ⟨hv, hdone⟩ := h
  simp only at hdone
  subst hdone
  cases done' with
  | true => exact ⟨hv, rfl⟩
  | false => exact hnext rfl hv

/-- By the sets, the filter asks for the markers of the access, and there is something to
harden. -/
structure FilterAsks (O : Options) (c : Collected) (mi : MachineInstr) : Prop where
  filter : O.EnableFilter = true
  queued : mi.id ∈ c.HardenLoadAddr
  other : ¬ inOtherHardenList c mi.id
  store : O.EnableStoreFilter = false → mi.id ∉ c.HardenStoreAddr
  hardens : mi.id ∈ c.HardenStoreAddr ∨ hardenOpRegs mi ≠ []

/-- An access that is in no other list is done after its address. -/
theorem doneWith_of_not_other {c : Collected} {i : Nat} (h : ¬ inOtherHardenList c i) :
    doneWith O i c = true := by
  have hc : i ∉ c.HardenCondition := fun hc => h (Or.inl hc)
  simp [doneWith, hc]

theorem alike_hardenAccess (h : Alike w w') :
    AlikeStep (hardenAccess O mi w) (hardenAccess O mi w') := by
  obtain ⟨d, s, hs⟩ := h.sets
  have hstore : mi.id ∈ w'.sets.HardenStoreAddr ↔ mi.id ∈ w.sets.HardenStoreAddr := by rw [hs]
  have hdone : doneWith O mi.id w'.sets = doneWith O mi.id w.sets := by rw [hs]; rfl
  unfold hardenAccess
  simp only [hstore, hdone]
  split_ifs
  · exact ⟨(h.update fun _ _ _ => rfl).record _, rfl⟩
  · exact ⟨h, rfl⟩
  · exact ⟨h.record _, rfl⟩

/-- Without anything to harden, keeping an access is as good as dropping it. -/
theorem hardenAccess_of_nothing (hst : mi.id ∉ w.sets.HardenStoreAddr)
    (hregs : hardenOpRegs mi = []) (ho : ¬ inOtherHardenList w.sets mi.id) :
    hardenAccess O mi w = (w, true) := by
  unfold hardenAccess
  rw [if_neg hst, if_pos hregs, doneWith_of_not_other ho]

theorem alike_visitLoadAddr (h : Alike w w')
    (hp : FilterAsks O w.sets mi → isPrefixedByDummies p' = isPrefixedByDummies p) :
    AlikeStep (visitLoadAddr O p pp mi w) (visitLoadAddr O p' pp' mi w') := by
  obtain ⟨d, s, hs⟩ := h.sets
  have h1 : Alike (w.update (Collected.removeLoadAddr mi.id))
      (w'.update (Collected.removeLoadAddr mi.id)) := h.update fun _ _ _ => rfl
  have h2 : Alike (markAsProtected p pp (w.update (Collected.removeLoadAddr mi.id)))
      (markAsProtected p' pp' (w'.update (Collected.removeLoadAddr mi.id))) := h1.mark
  have hmem : mi.id ∈ w'.sets.HardenLoadAddr ↔ mi.id ∈ w.sets.HardenLoadAddr := by rw [hs]
  unfold visitLoadAddr
  simp only [hmem]
  by_cases hq : mi.id ∈ w.sets.HardenLoadAddr
  · rw [if_pos hq, if_pos hq]
    by_cases hasks : O.EnableFilter = true ∧ ¬ inOtherHardenList w.sets mi.id ∧
        (O.EnableStoreFilter = false → mi.id ∉ w.sets.HardenStoreAddr)
    · obtain ⟨hf, ho, hst⟩ := hasks
      by_cases hhard : mi.id ∈ w.sets.HardenStoreAddr ∨ hardenOpRegs mi ≠ []
      · have hbit := hp ⟨hf, hq, ho, hst, hhard⟩
        have hiff : Filtered O p' mi.id w'.sets ↔ Filtered O p mi.id w.sets := by
          unfold Filtered
          rw [hs, hbit]
          exact Iff.rfl
        simp only [hiff]
        split_ifs
        · exact ⟨h1, rfl⟩
        · exact alike_hardenAccess h2
      · -- both outcomes remove the access from its set and leave the log alone
        rw [not_or, not_not] at hhard
        rw [hardenAccess_of_nothing (by rw [markAsProtected_sets, update_sets]; exact hhard.1)
            hhard.2 (by rw [markAsProtected_sets, update_sets]; exact ho),
          hardenAccess_of_nothing (by rw [markAsProtected_sets, update_sets, hs]; exact hhard.1)
            hhard.2 (by rw [markAsProtected_sets, update_sets, hs]; exact ho)]
        split_ifs
        · exact ⟨h1, rfl⟩
        · exact ⟨⟨by simpa using h1.sets, by simpa using h1.log⟩, rfl⟩
        · exact ⟨⟨by simpa using h1.sets, by simpa using h1.log⟩, rfl⟩
        · exact ⟨h2, rfl⟩
    · have hnot : ¬ Filtered O p mi.id w.sets := fun hfil => hasks ⟨hfil.1, hfil.2.1, hfil.2.2.1⟩
      have hnot' : ¬ Filtered O p' mi.id w'.sets := by
        rw [hs]
        exact fun hfil => hasks ⟨hfil.1, hfil.2.1, hfil.2.2.1⟩
      rw [if_neg hnot, if_neg hnot']
      exact alike_hardenAccess h2
  · rw [if_neg hq, if_neg hq]
    exact ⟨h, rfl⟩

theorem alike_visitPostLoad (h : Alike w w') (hsink : mi.id ∈ w.sets.HardenPostLoad →
      resultTarget T F' bb' w.sets.HardenPostLoad mi =
        resultTarget T F bb w.sets.HardenPostLoad mi) :
    AlikeStep (visitPostLoad O T F bb mi w) (visitPostLoad O T F' bb' mi w') := by
  obtain ⟨d, s, hs⟩ := h.sets
  have h1 : Alike (w.update (Collected.removePostLoad O mi.id))
      (w'.update (Collected.removePostLoad O mi.id)) := h.update fun _ _ _ => rfl
  have hpost : w'.sets.HardenPostLoad = w.sets.HardenPostLoad := by rw [hs]
  have htarget (T : Target) (F : MachineFunction) (bb : MachineBasicBlock) (c : Collected) :
      sinkTarget T F bb mi (c.removePostLoad O mi.id) =
        resultTarget T F bb c.HardenPostLoad mi := rfl
  unfold visitPostLoad
  rw [htarget, htarget, hpost]
  by_cases hmem : mi.id ∈ w.sets.HardenPostLoad
  · rw [if_pos hmem, if_pos hmem, hsink hmem]
    generalize w.update (Collected.removePostLoad O mi.id) = v at h1
    generalize w'.update (Collected.removePostLoad O mi.id) = v' at h1
    obtain ⟨d', s', hs'⟩ := h1.sets
    have hdone : doneWith O mi.id v'.sets = doneWith O mi.id v.sets := by rw [hs']; rfl
    unfold finishPostLoad
    rw [hdone]
    split
    · exact ⟨h1, rfl⟩
    · split_ifs
      · exact ⟨h1.record _, rfl⟩
      · exact ⟨(h1.update fun _ _ _ => rfl).record _, rfl⟩
  · rw [if_neg hmem, if_neg hmem]
    exact ⟨h, rfl⟩

theorem alike_visitFixedAddress (h : Alike w w') :
    Alike (visitFixedAddress p pp mi w) (visitFixedAddress p' pp' mi w') := by
  obtain ⟨d, s, hs⟩ := h.sets
  have hmem : (mi.id ∈ w'.sets.HardenFixedAddressRBP ∨ mi.id ∈ w'.sets.HardenFixedAddressRSP) ↔
      (mi.id ∈ w.sets.HardenFixedAddressRBP ∨ mi.id ∈ w.sets.HardenFixedAddressRSP) := by rw [hs]
  unfold visitFixedAddress
  simp only [hmem]
  split_ifs
  · exact (h.update fun _ _ _ => rfl).mark.record _
  · exact h

theorem alike_visitCondition (h : Alike w w') :
    AlikeStep (visitCondition p pp mi w) (visitCondition p' pp' mi w') := by
  obtain ⟨d, s, hs⟩ := h.sets
  have hmem : mi.id ∈ w'.sets.HardenCondition ↔ mi.id ∈ w.sets.HardenCondition := by rw [hs]
  unfold visitCondition
  simp only [hmem]
  split_ifs
  · exact ⟨(h.update fun _ _ _ => rfl).mark.record _, rfl⟩
  · exact ⟨h, rfl⟩

theorem alike_visitVTInstr (h : Alike w w') :
    AlikeStep (visitVTInstr p pp mi w) (visitVTInstr p' pp' mi w') := by
  obtain ⟨d, s, hs⟩ := h.sets
  have hmem : mi.id ∈ w'.sets.HardenVTInstr ↔ mi.id ∈ w.sets.HardenVTInstr := by rw [hs]
  unfold visitVTInstr
  simp only [hmem]
  split_ifs
  · exact ⟨(h.update fun _ _ _ => rfl).mark.record _, rfl⟩
  · exact ⟨h, rfl⟩

theorem alike_visitStoreAddr (h : Alike w w') :
    Alike (visitStoreAddr T p pp mi w) (visitStoreAddr T p' pp' mi w') := by
  obtain ⟨d, s, hs⟩ := h.sets
  have hmem : mi.id ∈ w'.sets.HardenStoreAddr ↔ mi.id ∈ w.sets.HardenStoreAddr := by rw [hs]
  have h1 : Alike
      ((markAsProtected p pp (w.update (Collected.removeStoreAddr mi.id))).record .store mi)
      ((markAsProtected p' pp' (w'.update (Collected.removeStoreAddr mi.id))).record .store mi) :=
    (h.update fun _ _ _ => rfl).mark.record _
  unfold visitStoreAddr
  simp only [hmem]
  split_ifs
  · generalize (markAsProtected p pp (w.update (Collected.removeStoreAddr mi.id))).record
      .store mi = v at h1
    generalize (markAsProtected p' pp' (w'.update (Collected.removeStoreAddr mi.id))).record
      .store mi = v' at h1
    obtain ⟨d', s', hs'⟩ := h1.sets
    have hrsp : v'.sets.hardened_RSP = v.sets.hardened_RSP := by rw [hs']
    unfold hardenPush
    rw [hrsp]
    split_ifs
    · exact (h1.update fun _ _ _ => rfl).record _
    · exact h1
  · exact h

theorem alike_visitControl (h : Alike w w') :
    Alike (visitInterprocedural O mi (visitIndirect O mi w))
        (visitInterprocedural O mi (visitIndirect O mi w')) ∧
      Alike (visitInterprocedural O mi w) (visitInterprocedural O mi w') := by
  have hint : ∀ {v v' : Hardened}, Alike v v' →
      Alike (visitInterprocedural O mi v) (visitInterprocedural O mi v') := by
    intro v v' h
    unfold visitInterprocedural
    split_ifs
    · exact h
    · exact h
    · exact h.record _
    · exact h.record _
  refine ⟨hint ?_, hint h⟩
  unfold visitIndirect
  split_ifs
  · exact h.record _
  · exact h

/-- A step of the second walk at the same instruction. -/
theorem alike_visitInstr (h : Alike w w')
    (hp : FilterAsks O w.sets mi → isPrefixedByDummies p' = isPrefixedByDummies p)
    (hsink : mi.id ∈ w.sets.HardenPostLoad → ToResult O mi.id w.sets →
      resultTarget T F' bb' w.sets.HardenPostLoad mi =
        resultTarget T F bb w.sets.HardenPostLoad mi) :
    Alike (visitInstr O T F bb p pp mi w) (visitInstr O T F' bb' p' pp' mi w') := by
  have hloads : AlikeStep (visitLoads O T F bb p pp mi w) (visitLoads O T F' bb' p' pp' mi w') := by
    obtain ⟨hpost, hflag⟩ := postLoad_visitLoadAddr O w mi p pp
    unfold visitLoads
    refine (alike_visitLoadAddr h hp).orElse fun hdone h => ?_
    generalize visitLoadAddr O p pp mi w = r at hpost hflag hdone h
    generalize visitLoadAddr O p' pp' mi w' = r' at h
    have hpostLoad :
        AlikeStep (visitPostLoad O T F bb mi r.1) (visitPostLoad O T F' bb' mi r'.1) := by
      refine alike_visitPostLoad h fun hmem => ?_
      rw [hpost] at hmem ⊢
      exact hsink hmem (hflag.mp hdone)
    refine hpostLoad.orElse fun _ h => ?_
    refine (alike_visitCondition (alike_visitFixedAddress h)).orElse fun _ h => ?_
    exact (alike_visitVTInstr h).orElse fun _ h => ⟨alike_visitStoreAddr h, rfl⟩
  have hall : AlikeStep
      (orElse (visitLoads O T F bb p pp mi w) fun w =>
        (visitInterprocedural O mi (visitIndirect O mi w), false))
      (orElse (visitLoads O T F' bb' p' pp' mi w') fun w =>
        (visitInterprocedural O mi (visitIndirect O mi w), false)) :=
    hloads.orElse fun _ h => ⟨(alike_visitControl h).1, rfl⟩
  unfold visitInstr
  split_ifs
  · exact hall.1
  · exact (alike_visitControl h).2

end Alike

/-! ## Instructions the second walk passes without effect -/

/-- Every instruction in the sets is one of those with property `K`. -/
def AllKnown (K : Nat → Prop) (c : Collected) : Prop :=
  ∀ i, i ∈ c.HardenPostLoad ∨ Queued c i → K i

theorem visitInstr_silent {K : Nat → Prop} {w : Hardened} (hw : AllKnown K w.sets)
    {s : MachineInstr} (hs : ¬ K s.id) (hcall : s.isCall = false) (hret : s.isReturn = false)
    (hbr : s.isBranch = false) (p pp : Option MachineInstr) :
    visitInstr O T F bb p pp s w = w := by
  have hnone : ∀ {P : Prop}, (P → s.id ∈ w.sets.HardenPostLoad ∨ Queued w.sets s.id) → ¬ P :=
    fun h hP => hs (hw _ (h hP))
  have h1 : visitLoadAddr O p pp s w = (w, false) := by
    rw [visitLoadAddr, if_neg (hnone fun h => Or.inr (Or.inl h))]
  have h2 : visitPostLoad O T F bb s w = (w, false) := by
    rw [visitPostLoad, if_neg (hnone fun h => Or.inl h)]
  have h3 : visitFixedAddress p pp s w = w := by
    rw [visitFixedAddress, if_neg (hnone fun h => Or.inr (by unfold Queued; tauto))]
  have h4 : visitCondition p pp s w = (w, false) := by
    rw [visitCondition, if_neg (hnone fun h => Or.inr (by unfold Queued; tauto))]
  have h5 : visitVTInstr p pp s w = (w, false) := by
    rw [visitVTInstr, if_neg (hnone fun h => Or.inr (by unfold Queued; tauto))]
  have h6 : visitStoreAddr T p pp s w = w := by
    rw [visitStoreAddr, if_neg (hnone fun h => Or.inr (by unfold Queued; tauto))]
  have hind : visitIndirect O s w = w := by simp [visitIndirect, hcall, hbr]
  have hint : visitInterprocedural O s w = w := by simp [visitInterprocedural, hcall, hret]
  unfold visitInstr visitLoads
  simp only [h1, h2, h3, h4, h5, h6, hind, hint, orElse_false, ite_self]

/-! ## What the sets hold -/

theorem known_of_implicitEFLAGS {x : MachineInstr} (hx : x ∈ F.flatten) (hwf : x.WF)
    (h : x.implicitEFLAGS = true) : Known F x.id := by
  refine known_of hx fun hs => ?_
  rcases hs with hs | hs
  · rw [hwf.marker hs] at h; cases h
  · rw [hwf.debug hs] at h; cases h

theorem mayBranch_spec {mi x : MachineInstr} {H : List Nat} (h : mayBranch O bb mi H = some x) :
    x ∈ bb ∧ x.implicitEFLAGS = true := by
  unfold mayBranch at h
  split_ifs at h
  obtain ⟨hmem, hx⟩ := findCondition_spec h
  exact ⟨List.mem_reverse.mp hmem, hx⟩

section Known

variable {K : Nat → Prop} {c : Collected} {mi : MachineInstr}

theorem AllKnown.marker (h : AllKnown K c) (rest : List MachineInstr) :
    AllKnown K (propagateLoadDep mi (collectMarker mi rest c)) := by
  intro i hi
  have hpost : (propagateLoadDep mi (collectMarker mi rest c)).HardenPostLoad =
      c.HardenPostLoad := by
    unfold propagateLoadDep collectMarker
    split_ifs <;> rfl
  rw [hpost, collectMarker_queued] at hi
  exact h i hi

theorem AllKnown.condition (h : AllKnown K c) {x : Option MachineInstr}
    (hx : ∀ y ∈ x, K y.id) : AllKnown K (collectCondition x c) := by
  cases x with
  | none => exact h
  | some y =>
      intro i hi
      simp only [collectCondition, Queued, List.mem_insert_iff, List.mem_filter] at hi
      by_cases hiy : i = y.id
      · exact hiy ▸ hx y rfl
      · exact h i (by unfold Queued; tauto)

theorem AllKnown.access (h : AllKnown K c) (hmi : K mi.id) :
    AllKnown K (collectAccess O T mi c) := by
  intro i hi
  rcases hi with hi | hi
  · have hi' : i ∈ c.HardenPostLoad ∨ i = mi.id := by
      unfold collectAccess at hi
      split at hi
      · exact Or.inl hi
      · rename_i m _
        have hfix : (collectFixedAddress O mi m c).HardenPostLoad = c.HardenPostLoad :=
          congrArg Accesses.post (collectFixedAddress_accesses mi c m)
        split_ifs at hi
        · exact Or.inl (hfix ▸ hi)
        · exact Or.inl hi
        · exact (List.mem_insert_iff.mp hi).symm
        · exact Or.inl hi
    rcases hi' with hi' | rfl
    · exact h i (Or.inl hi')
    · exact hmi
  · rcases collectAccess_queued hi with hi | rfl
    · exact h i (Or.inr hi)
    · exact hmi

theorem AllKnown.store (h : AllKnown K c) (hmi : K mi.id) : AllKnown K (collectStore O mi c) := by
  intro i hi
  rcases hi with hi | hi
  · refine h i (Or.inl ?_)
    unfold collectStore at hi
    split_ifs at hi <;> exact hi
  · rcases collectStore_queued hi with hi | rfl
    · exact h i (Or.inr hi)
    · exact hmi

theorem AllKnown.vtInstr (h : AllKnown K c) (hmi : K mi.id) :
    AllKnown K (collectVTInstr O mi c) := by
  intro i hi
  rcases hi with hi | hi
  · refine h i (Or.inl ?_)
    unfold collectVTInstr at hi
    split_ifs at hi <;> exact hi
  · rcases collectVTInstr_queued hi with hi | rfl
    · exact h i (Or.inr hi)
    · exact hmi

end Known

/-- Markers and debug instructions are of no interest to the first walk. -/
theorem skips_of_bare {mi : MachineInstr} (hwf : mi.WF)
    (h : mi.isMarker = true ∨ mi.isDebugInstr = true) (H : List Nat) :
    skips O mi (mayBranch O bb mi H) = true := by
  rcases h with h | h
  · rw [hwf.marker h]
    simp [skips, mayBranch, mayVariant]
  · rw [hwf.debug h]
    simp [skips, mayBranch, mayVariant]

theorem AllKnown.instr (hwf : ∀ x ∈ bb, x.WF) (hbb : bb ⊆ F.flatten) {mi : MachineInstr}
    (hmi : mi ∈ bb) {c : Collected} (h : AllKnown (Known F) c) :
    AllKnown (Known F) (collectInstr O T bb mi c) := by
  have hcond : ∀ y ∈ mayBranch O bb mi c.HardenCondition, Known F y.id := by
    intro y hy
    obtain ⟨hmem, hfl⟩ := mayBranch_spec hy
    exact known_of_implicitEFLAGS (hbb hmem) (hwf y hmem) hfl
  unfold collectInstr
  split_ifs with h1
  · exact h
  · exact h
  · exact h.condition hcond
  · have hself : Known F mi.id :=
      known_of (hbb hmi) fun hs => h1 (skips_of_bare (hwf mi hmi) hs _)
    exact (((h.condition hcond).vtInstr hself).store hself).access hself

theorem allKnown_collect (hwf : ∀ x ∈ bb, x.WF) (hbb : bb ⊆ F.flatten) (fresh : Nat)
    {l : List MachineInstr} (hl : l ⊆ bb) {c : Collected} (h : AllKnown (Known F) c) :
    AllKnown (Known F) (collect O T fresh bb l c).1 := by
  induction l generalizing c with
  | nil => exact h
  | cons mi rest ih =>
      have hmi : mi ∈ bb := hl (by simp)
      by_cases h1 : mi.opcode = .LFENCE
      · rw [collect_of_stops_lfence h1]
        exact h.marker rest
      · have hstep : AllKnown (Known F) (collectStep O T bb mi rest c) :=
          (h.marker rest).instr hwf hbb hmi
        by_cases h2 : stopsX87 O mi = true
        · rw [collect_of_stops_x87 h1 h2]
          exact hstep
        · rw [collect_cons_of_not_stops fun hs => hs.elim h1 h2]
          exact ih (fun x hx => hl (by simp [hx])) hstep

theorem allKnown_collectBlock (hF : WF F) (hbb : bb ∈ F) :
    AllKnown (Known F) (collectBlock O T F bb).1 := by
  have hnone : AllKnown (Known F) {} := by
    intro i hi
    simp [Queued] at hi
  unfold collectBlock
  split_ifs
  · exact allKnown_collect (fun x hx => block_wf hF hbb hx)
      (fun x hx => List.mem_flatten.mpr ⟨bb, hbb, hx⟩) _ (List.Subset.refl _) hnone
  · exact hnone

theorem AllKnown.visit {w : Hardened} {mi : MachineInstr} {p pp : Option MachineInstr}
    (hwf : ∀ x ∈ F.flatten, x.WF) (h : AllKnown (Known F) w.sets) :
    AllKnown (Known F) (visitInstr O T F bb p pp mi w).sets := by
  have hpost : KnownIn F w.sets.HardenPostLoad := fun i hi => h i (.inl hi)
  intro i hi
  rcases hi with hi | hi
  · by_cases hO : O.HardenLoads = true
    · rw [postLoad_visitInstr hO] at hi
      split_ifs at hi
      · exact hpost.move hwf i hi
      · exact hpost i hi
    · rw [visitInstr, if_neg hO, postLoad_visitControl.2] at hi
      exact hpost i hi
  · have hq : Protects (fun _ => True) w (visitInstr O T F bb p pp mi w) :=
      visitInstr_protects fun _ _ _ => trivial
    exact h i (.inr (hq.queued i hi))

theorem AllKnown.alike {K : Nat → Prop} {w w' : Hardened} (h : AllKnown K w.sets)
    (ha : Alike w w') : AllKnown K w'.sets := by
  obtain ⟨d, s, hs⟩ := ha.sets
  rw [hs]
  exact h

/-- The second walk passes the instruction without effect. -/
structure Silent (F : MachineFunction) (s : MachineInstr) : Prop where
  unknown : ¬ Known F s.id
  call : s.isCall = false
  ret : s.isReturn = false
  branch : s.isBranch = false

section Silent

variable (hsub : F.flatten ⊆ F'.flatten)

include hsub in
theorem silent_newLFENCE : Silent F (newLFENCE (freshId F')) := by
  refine ⟨?_, rfl, rfl, rfl⟩
  rintro ⟨x, hx, hid, -⟩
  exact Nat.ne_of_lt (id_lt_freshId (hsub hx)) hid

include hsub in
theorem silent_of_bare (hF' : WF F') {s : MachineInstr} (hs : s ∈ F'.flatten)
    (h : s.isMarker = true ∨ s.isDebugInstr = true) : Silent F s := by
  have hwf := hF'.instr s hs
  refine ⟨?_, ?_, ?_, ?_⟩
  · rintro ⟨x, hx, hid, hm, hd⟩
    have : x = s := List.inj_on_of_nodup_map hF'.nodup (hsub hx) hs hid
    subst this
    rcases h with h | h
    · rw [hm] at h; cases h
    · rw [hd] at h; cases h
  all_goals
    rcases h with h | h
    · rw [hwf.marker h]
    · rw [hwf.debug h]

end Silent

/-- An instruction is erased from both sides of the place it stands at, or from neither. -/
theorem eraseAll_around (ids : List Nat) (q : List MachineInstr) (s : MachineInstr)
    (l : List MachineInstr) :
    (eraseAll ids (s :: l) = eraseAll ids l ∧ eraseAll ids (q ++ [s]) = eraseAll ids q) ∨
      (eraseAll ids (s :: l) = s :: eraseAll ids l ∧
        (eraseAll ids (q ++ [s])).getLast? = some s) := by
  by_cases hid : s.id ∈ ids
  · exact Or.inl ⟨by simp [eraseAll, hid], by simp [eraseAll, hid]⟩
  · exact Or.inr ⟨by simp [eraseAll, hid], by simp [eraseAll, hid]⟩

/-- The second walk gets past a silent instruction, whether it was erased or not. -/
theorem walk_silent {s : MachineInstr} (hs : Silent F s) {w : Hardened}
    (hk : AllKnown (Known F) w.sets) (G : MachineFunction) (b : MachineBasicBlock)
    (pp : Option MachineInstr) (ids : List Nat) (q l : List MachineInstr) :
    ∃ pp', hardenWalk O T G b pp (eraseAll ids q).getLast? (eraseAll ids (s :: l)) w =
      hardenWalk O T G b pp' (eraseAll ids (q ++ [s])).getLast? (eraseAll ids l) w := by
  rcases eraseAll_around ids q s l with ⟨h1, h2⟩ | ⟨h1, h2⟩
  · exact ⟨pp, by rw [h1, h2]⟩
  · refine ⟨(eraseAll ids q).getLast?, ?_⟩
    rw [h1, h2, hardenWalk, visitInstr_silent hk hs.unknown hs.call hs.ret hs.branch]

/-! ## What the filter asks about -/

/-- The filter asks for the markers of the access: its address is to be hardened, it computes no
condition, its timing does not vary, and there is something to harden. -/
structure AsksForMarkers (O : Options) (T : Target) (bb : MachineBasicBlock) (X : MachineInstr) :
    Prop where
  filter : O.EnableFilter = true
  planned : PlannedIn O T bb X .addr
  condition : ¬ ComputesCondition O bb X
  timing : mayVariant O X = false
  store : O.EnableStoreFilter = false → storeHardened O X = false
  hardens : storeHardened O X = true ∨ hardenOpRegs X ≠ []

/-- The accesses the filter asks about are marked in both blocks or in neither. -/
def MarkersSeenAlike (O : Options) (T : Target) (bb bb' : MachineBasicBlock) : Prop :=
  ∀ X, AsksForMarkers O T bb X → (Marked O bb' X ↔ Marked O bb X)

theorem PlannedIn.mem {X : MachineInstr} {way : Way} (h : PlannedIn O T bb X way) : X ∈ bb := by
  obtain ⟨p, q, rfl, -⟩ := h
  simp

/-- By the sets of the first walk, the filter asks about the accesses it does. -/
theorem filterAsks_iff (hF : WF F) (hbb : bb ∈ F) {X : MachineInstr} (hX : X ∈ bb) :
    FilterAsks O (collectBlock O T F bb).1 X ↔ AsksForMarkers O T bb X := by
  have hplan := (mem_collectBlock_iff (O := O) (T := T) hF hbb hX).1
  constructor
  · intro h
    have hp := hplan.mp h.queued
    obtain ⟨hother, hstore⟩ := planned_others hF hbb hp
    have hnot := not_or.mp fun h' => h.other (hother.mpr h')
    exact ⟨h.filter, hp, hnot.1, by simpa using hnot.2,
      fun he => by simpa using fun h' => h.store he (hstore.mpr h'), h.hardens.imp_left hstore.mp⟩
  · intro h
    obtain ⟨hother, hstore⟩ := planned_others hF hbb h.planned
    refine ⟨h.filter, hplan.mpr h.planned, fun h' => ?_, fun he h' => ?_,
      h.hardens.imp_left hstore.mpr⟩
    · rcases hother.mp h' with h' | h'
      · exact h.condition h'
      · rw [h.timing] at h'
        cases h'
    · have h'' := hstore.mp h'
      rw [h.store he] at h''
      cases h''

theorem FilterAsks.of_view {X : MachineInstr} {w v : Hardened} (h : FilterAsks O w.sets X)
    (hview : w.view X.id = v.view X.id) : FilterAsks O v.sets X := by
  simp only [Hardened.view, View.mk.injEq, decide_eq_decide] at hview
  obtain ⟨h1, h2, -, h3, -⟩ := hview
  exact ⟨h.filter, h1.mp h.queued, fun hc => h.other (h3.mpr hc),
    fun he hc => h.store he (h2.mpr hc), h.hardens.imp_left h2.mp⟩

section Blocks

variable (hF : WF F) (hF' : WF F') (hbb : bb ∈ F) (hbb' : bb' ∈ F')
  (hins : InsertsDebug F.flatten F'.flatten) (hblock : InsertsDebug bb bb')

include hF hF' hbb hbb' hblock in
/-- What the filter finds before an access it asks about. -/
theorem prefixed_same_iff {X : MachineInstr} (h : AsksForMarkers O T bb X) :
    isPrefixedByDummies (prevNode (walkedBlock O T F' bb') X) =
        isPrefixedByDummies (prevNode (walkedBlock O T F bb) X) ↔
      (Marked O bb' X ↔ Marked O bb X) := by
  have hX := h.planned.mem
  obtain ⟨p, q, heq, hns, hp⟩ := h.planned
  obtain ⟨p', q', heq', hns', -⟩ := (planned_same hF hF' hbb hbb' hblock hX).mpr h.planned
  have hO := (planned_iff.mp hp).1.1.1
  obtain ⟨x, hx, hid, hm, -⟩ := PlannedIn.known hF hbb h.planned
  obtain rfl : x = X :=
    List.inj_on_of_nodup_map hF.nodup hx (List.mem_flatten.mpr ⟨bb, hbb, hX⟩) hid
  rw [Bool.eq_iff_iff, prefixed_iff_marked hO hF hbb heq hm hns,
    prefixed_iff_marked hO hF' hbb' heq' hm hns']

/-! ## The simulation -/

include hF hF' hbb hbb' hins hblock in
/-- An instruction of the block, where the walks find the same markers and sink the same results. -/
theorem visit_same (hmarks : MarkersSeenAlike O T bb bb') (hsinks : SinksAlike O T F F' bb)
    {X : MachineInstr} (hX : X ∈ bb) (hm : X.isMarker = false) {q l q' l' : List MachineInstr}
    (heq : (collectBlock O T F bb).2 = q ++ X :: l)
    (heq' : (collectBlock O T F' bb').2 = q' ++ X :: l') {w w' : Hardened} (ha : Alike w w')
    (hview : w.view X.id = (startWalk O T F bb).view X.id)
    (hpost : ∀ i, i ∈ w.sets.HardenPostLoad ↔ i ∈ awaiting O T F bb q)
    (pp pp' : Option MachineInstr) :
    Alike (visitInstr O T F (walkedBlock O T F bb) (eraseAll (standAloneIds O T F bb) q).getLast?
        pp X w)
      (visitInstr O T F' (walkedBlock O T F' bb')
        (eraseAll (standAloneIds O T F' bb') q').getLast? pp' X w') := by
  have hsa := not_mem_standAlone (O := O) (T := T) hF hbb hX hm
  have hsa' := not_mem_standAlone (O := O) (T := T) hF' hbb' (hblock.subset hX) hm
  obtain ⟨p, r, hsplit⟩ := List.append_of_mem hX
  have hwait := awaiting_walked hF hbb heq hsplit
  -- the filter finds the same
  have hfound (hasks : FilterAsks O w.sets X) :
      isPrefixedByDummies (eraseAll (standAloneIds O T F' bb') q').getLast? =
        isPrefixedByDummies (eraseAll (standAloneIds O T F bb) q).getLast? := by
    have hasks := (filterAsks_iff hF hbb hX).mp (hasks.of_view hview)
    rw [← prevNode_walkedBlock hF hbb heq hsa, ← prevNode_walkedBlock hF' hbb' heq' hsa',
      prefixed_same_iff hF hF' hbb hbb' hblock hasks]
    exact hmarks X hasks
  -- the hardening of the result goes to the same place
  have htarget (hwaits : X.id ∈ w.sets.HardenPostLoad) (hto : ToResult O X.id w.sets) :
      resultTarget T F' (walkedBlock O T F' bb') w.sets.HardenPostLoad X =
        resultTarget T F (walkedBlock O T F bb) w.sets.HardenPostLoad X := by
    have hgets := (toResult_iff hF hbb hX).mp ((toResult_congr hview).mp hto)
    have hsink := (sinksAlikeAt_iff hF hF' hbb hins hblock).mp (hsinks p X r hsplit)
      (hwait ▸ (hpost X.id).mp hwaits) hgets
    rw [resultTarget_congr (hwait ▸ hpost) (fun _ hu => mem_walkedBlock hF hbb hu),
      resultTarget_congr (hwait ▸ hpost) fun _ hu => mem_walkedBlock hF' hbb' hu]
    exact hsink
  exact alike_visitInstr ha hfound htarget

include hF hF' hbb hbb' hins hblock in
/-- **The second walk ignores silent instructions.** -/
theorem walk_same (hmarks : MarkersSeenAlike O T bb bb') (hsinks : SinksAlike O T F F' bb)
    (q q' : List MachineInstr) {l l' : List MachineInstr}
    (h : Extends (freshId F) (freshId F') l l') (heq : (collectBlock O T F bb).2 = q ++ l)
    (heq' : (collectBlock O T F' bb').2 = q' ++ l') {w w' : Hardened} (ha : Alike w w')
    (hk : AllKnown (Known F) w.sets)
    (hview : ∀ y ∈ l, w.view y.id = (startWalk O T F bb).view y.id)
    (hpost : ∀ i, i ∈ w.sets.HardenPostLoad ↔ i ∈ awaiting O T F bb q)
    (pp pp' : Option MachineInstr) :
    Alike (hardenWalk O T F (walkedBlock O T F bb) pp
        (eraseAll (standAloneIds O T F bb) q).getLast? (eraseAll (standAloneIds O T F bb) l) w)
      (hardenWalk O T F' (walkedBlock O T F' bb') pp'
        (eraseAll (standAloneIds O T F' bb') q').getLast?
        (eraseAll (standAloneIds O T F' bb') l') w') := by
  have hpass {q : List MachineInstr} {s : MachineInstr} (hs : Silent F s) :
      awaiting O T F bb (q ++ [s]) = awaiting O T F bb q :=
    awaiting_of_unknown hF hbb q hs.unknown
  induction h generalizing q q' w w' pp pp' with
  | nil => exact ha
  | @keep X l l' _ ih =>
      by_cases hs : Silent F X
      · obtain ⟨pp₁, hwalk⟩ := walk_silent (O := O) (T := T) hs hk F (walkedBlock O T F bb) pp
          (standAloneIds O T F bb) q l
        obtain ⟨pp₁', hwalk'⟩ := walk_silent (O := O) (T := T) hs (hk.alike ha) F'
          (walkedBlock O T F' bb') pp' (standAloneIds O T F' bb') q' l'
        rw [hwalk, hwalk']
        exact ih (q ++ [X]) (q' ++ [X]) (by simp [heq]) (by simp [heq']) ha hk
          (fun y hy => hview y (by simp [hy])) (by rw [hpass hs]; exact hpost) _ _
      · have hmem : X ∈ (collectBlock O T F bb).2 := by simp [heq]
        have hX : X ∈ bb := by
          rcases collectBlock_mem hmem with hx | rfl
          · exact hx
          · exact absurd (silent_newLFENCE (List.Subset.refl _)) hs
        have hX' : X ∈ bb' := hblock.subset hX
        have hm : X.isMarker = false := by
          by_contra hm
          exact hs (silent_of_bare hins.subset hF' (List.mem_flatten.mpr ⟨bb', hbb', hX'⟩)
            (Or.inl (by simpa using hm)))
        have hsa := not_mem_standAlone (O := O) (T := T) hF hbb hX hm
        have hsa' := not_mem_standAlone (O := O) (T := T) hF' hbb' hX' hm
        have hnd := collectBlock_nodup (O := O) (T := T) hF hbb
        rw [heq, List.map_append, List.map_cons, List.nodup_append, List.nodup_cons] at hnd
        have hstep := visit_same hF hF' hbb hbb' hins hblock hmarks hsinks hX hm heq heq' ha
          (hview X (by simp)) hpost pp pp'
        rw [show eraseAll (standAloneIds O T F bb) (X :: l) =
            X :: eraseAll (standAloneIds O T F bb) l by simp [eraseAll, hsa],
          show eraseAll (standAloneIds O T F' bb') (X :: l') =
            X :: eraseAll (standAloneIds O T F' bb') l' by simp [eraseAll, hsa'], hardenWalk,
          hardenWalk]
        have hnext := ih (q ++ [X]) (q' ++ [X]) (by simp [heq]) (by simp [heq']) hstep
          (hk.visit hF.instr) (fun y hy => ?_)
          (mem_awaiting_step hF hbb hmem (hview X (by simp)) hpost _ _)
          (eraseAll (standAloneIds O T F bb) q).getLast?
          (eraseAll (standAloneIds O T F' bb') q').getLast?
        · simpa [eraseAll, hsa, hsa'] using hnext
        · have hne : X.id ≠ y.id := fun he => hnd.2.1.1 (he ▸ List.mem_map_of_mem hy)
          rw [view_visitInstr hne]
          exact hview y (by simp [hy])
  | @insert d l l' hd _ ih =>
      have hs : Silent F d := by
        rcases collectBlock_mem (x := d) (by rw [heq']; simp) with hx | rfl
        · exact silent_of_bare hins.subset hF' (List.mem_flatten.mpr ⟨bb', hbb', hx⟩) (Or.inr hd)
        · cases hd
      obtain ⟨pp₁', hwalk'⟩ := walk_silent (O := O) (T := T) hs (hk.alike ha) F'
        (walkedBlock O T F' bb') pp' (standAloneIds O T F' bb') q' l'
      rw [hwalk']
      exact ih q (q' ++ [d]) heq (by simp [heq']) ha hk hview hpost _ _
  | @fence l l' _ ih =>
      have hs := silent_newLFENCE (List.Subset.refl F.flatten)
      obtain ⟨pp₁, hwalk⟩ := walk_silent (O := O) (T := T) hs hk F (walkedBlock O T F bb) pp
        (standAloneIds O T F bb) q l
      obtain ⟨pp₁', hwalk'⟩ := walk_silent (O := O) (T := T) (silent_newLFENCE hins.subset)
        (hk.alike ha) F' (walkedBlock O T F' bb') pp' (standAloneIds O T F' bb') q' l'
      rw [hwalk, hwalk']
      exact ih (q ++ [_]) (q' ++ [_]) (by simp [heq]) (by simp [heq']) ha hk
        (fun y hy => hview y (by simp [hy])) (by rw [hpass hs]; exact hpost) _ _

/-- The states the second walks start from. -/
theorem alike_start (F F' : MachineFunction) (hblock : InsertsDebug bb bb')
    (hwf : ∀ x ∈ bb', x.WF) :
    Alike (startHardening O (collectBlock O T F bb).1)
      (startHardening O (collectBlock O T F' bb').1) := by
  have hsame := (collectBlock_same (O := O) (T := T) F F' hblock hwf).1
  generalize (collectBlock O T F bb).1 = c at hsame
  generalize (collectBlock O T F' bb').1 = c' at hsame
  refine ⟨⟨c'.DummyInstr, c'.StandAloneGEPDummyInstr, ?_⟩, ?_⟩
  · show c' = { c.forget with
      DummyInstr := c'.DummyInstr, StandAloneGEPDummyInstr := c'.StandAloneGEPDummyInstr }
    rw [← hsame]
    rfl
  · show hardenStandAlone O c' = hardenStandAlone O c
    unfold hardenStandAlone
    rw [forget_standAloneGEP hsame]

include hF hF' hbb hbb' hins hblock in
theorem hardenBlock_log_same (hmarks : MarkersSeenAlike O T bb bb')
    (hsinks : SinksAlike O T F F' bb) :
    (hardenBlock O T F' bb').log = (hardenBlock O T F bb).log :=
  (walk_same hF hF' hbb hbb' hins hblock hmarks hsinks [] []
    (collectBlock_same F F' hblock fun _ hx => block_wf hF' hbb' hx).2 rfl rfl
    (alike_start F F' hblock fun _ hx => block_wf hF' hbb' hx) (allKnown_collectBlock hF hbb)
    (fun _ _ => rfl) (fun _ => mem_postLoad_iff hF hbb) none none).log

end Blocks

/-! ## What the log says of one access -/

/-- The events of one instruction. -/
def eventsOf (log : List (Hardening × Nat)) (i : Nat) : List (Hardening × Nat) :=
  log.filter fun e => e.2 = i

/-- How a queued access is hardened. -/
def accessEvent (c : Collected) (X : MachineInstr) : Hardening × Nat :=
  (if X.id ∈ c.HardenStoreAddr then .store else .loadAddr, X.id)

/-- At an access the filter asks about: it is hardened when it is prefixed, and dropped
otherwise. -/
theorem events_visitInstr (hO : O.HardenLoads = true) {X : MachineInstr} {w : Hardened}
    (hasks : FilterAsks O w.sets X) (p pp : Option MachineInstr) :
    eventsOf (visitInstr O T F bb p pp X w).log X.id = eventsOf w.log X.id ++
      if isPrefixedByDummies p then [accessEvent w.sets X] else [] := by
  have hloads : visitLoads O T F bb p pp X w = ((visitLoadAddr O p pp X w).1, true) ∧
      eventsOf (visitLoadAddr O p pp X w).1.log X.id = eventsOf w.log X.id ++
        if isPrefixedByDummies p then [accessEvent w.sets X] else [] := by
    have hlog : (markAsProtected p pp (w.update (Collected.removeLoadAddr X.id))).log = w.log := by
      simp
    have hsets : (markAsProtected p pp (w.update (Collected.removeLoadAddr X.id))).sets =
        Collected.removeLoadAddr X.id w.sets := by simp
    unfold visitLoads visitLoadAddr
    rw [if_pos hasks.queued]
    by_cases hp : isPrefixedByDummies p = true
    · have hnot : ¬ Filtered O p X.id w.sets := by
        rintro ⟨-, -, -, hfil⟩
        rw [hfil] at hp
        cases hp
      rw [if_neg hnot]
      simp only [hp, if_true]
      generalize markAsProtected p pp (w.update (Collected.removeLoadAddr X.id)) = v at hlog hsets
      have hdone : doneWith O X.id v.sets = true :=
        doneWith_of_not_other (by rw [hsets]; exact hasks.other)
      have hstore : X.id ∈ v.sets.HardenStoreAddr ↔ X.id ∈ w.sets.HardenStoreAddr := by
        rw [hsets]; rfl
      unfold hardenAccess accessEvent
      simp only [hstore]
      by_cases hst : X.id ∈ w.sets.HardenStoreAddr
      · rw [if_pos hst, if_pos hst, orElse_true]
        exact ⟨rfl, by simp [eventsOf, Hardened.record, hlog]⟩
      · rw [if_neg hst, if_neg hst, if_neg (hasks.hardens.resolve_left hst), hdone, orElse_true]
        exact ⟨rfl, by simp [eventsOf, Hardened.record, hlog]⟩
    · rw [if_pos ⟨hasks.filter, hasks.other, hasks.store, by simpa using hp⟩, if_neg hp,
        orElse_true]
      exact ⟨rfl, by simp⟩
  unfold visitInstr
  rw [if_pos hO, hloads.1, orElse_true]
  exact hloads.2

section Events

variable (hF : WF F) (hbb : bb ∈ F) {X : MachineInstr}

include hF hbb in
/-- **The events of an access the filter asks about** tell whether it was prefixed. -/
theorem events_hardenBlock (hasks : AsksForMarkers O T bb X) :
    eventsOf (hardenBlock O T F bb).log X.id =
      eventsOf (startWalk O T F bb).log X.id ++
        if isPrefixedByDummies (prevNode (walkedBlock O T F bb) X) then
          [accessEvent (collectBlock O T F bb).1 X] else [] := by
  obtain ⟨p, r, heq, -, hp⟩ := id hasks.planned
  have hX := hasks.planned.mem
  obtain ⟨x, hx, hid, hm, -⟩ := PlannedIn.known hF hbb hasks.planned
  obtain rfl : x = X :=
    List.inj_on_of_nodup_map hF.nodup hx (List.mem_flatten.mpr ⟨bb, hbb, hX⟩) hid
  obtain ⟨pp, w, hseen, hlog⟩ := hardenBlock_at (O := O) (T := T) hF hbb heq hm
  have hview := hseen.view
  have hasks' : FilterAsks O w.sets x :=
    ((filterAsks_iff hF hbb hX).mpr hasks).of_view (w := startWalk O T F bb) hview.symm
  simp only [Hardened.view, View.mk.injEq, decide_eq_decide] at hview
  obtain ⟨-, hstore, -, -, hstart⟩ := hview
  have haccess : accessEvent w.sets x = accessEvent (collectBlock O T F bb).1 x := by
    unfold accessEvent
    simp only [show x.id ∈ w.sets.HardenStoreAddr ↔ _ from hstore]
    rfl
  refine hlog.trans ((events_visitInstr (planned_iff.mp hp).1.1.1 hasks' _ pp).trans ?_)
  rw [haccess, show eventsOf w.log x.id = _ from hstart]
  rfl

/-- The address case records nothing of a result. -/
theorem mem_log_visitLoadAddr {w : Hardened} {mi u : MachineInstr} {i : Nat}
    {p pp : Option MachineInstr} : (resultEvent mi u, i) ∈ (visitLoadAddr O p pp X w).1.log ↔
      (resultEvent mi u, i) ∈ w.log := by
  have hne : resultEvent mi u ≠ .loadAddr ∧ resultEvent mi u ≠ .store := by
    unfold resultEvent
    split_ifs <;> simp
  unfold visitLoadAddr hardenAccess
  split_ifs <;> simp [mem_log_record, hne]

include hF hbb in
/-- **The events of a result** tell where its hardening went. -/
theorem result_event_iff (hO : O.HardenLoads = true) {p r : List MachineInstr}
    (heq : bb = p ++ X :: r) (hm : X.isMarker = false) (v : MachineInstr) :
    (resultEvent X v, X.id) ∈ (hardenBlock O T F bb).log ↔
      GetsToResult O T bb X ∧ X.id ∈ awaiting O T F bb p ∧
        ∃ u, resultTarget T F bb (awaiting O T F bb p) X = some u ∧
          resultEvent X v = resultEvent X u := by
  have hX : X ∈ bb := by simp [heq]
  have hh := isLoad_resultEvent X v
  obtain ⟨pp, w, hseen, hlog⟩ := hardenBlock_at (O := O) (T := T) hF hbb heq hm
  have hview := hseen.view
  have hstart : (resultEvent X v, X.id) ∉ w.log := by
    simp only [Hardened.view, View.mk.injEq] at hview
    intro hmem
    have : (resultEvent X v, X.id) ∈ w.log.filter fun e => e.2 = X.id := by simp [hmem]
    rw [hview.2.2.2.2] at this
    exact not_mem_startWalk_log hh (List.mem_filter.mp this).1
  have hmem : (resultEvent X v, X.id) ∈ (hardenBlock O T F bb).log ↔ (resultEvent X v, X.id) ∈
      (visitInstr O T F (walkedBlock O T F bb) (prevNode (walkedBlock O T F bb) X) pp X w).log := by
    have hfilter {log : List (Hardening × Nat)} : (resultEvent X v, X.id) ∈ log ↔
        (resultEvent X v, X.id) ∈ log.filter fun e => e.2 = X.id := by simp
    rw [hfilter, hlog, Hardened.view, ← hfilter]
  rw [hmem, mem_log_visitInstr hO hh, mem_log_visitLoadAddr, or_iff_right hstart,
    toResult_congr hview,
    show ToResult O X.id (startWalk O T F bb).sets ↔ _ from toResult_iff hF hbb hX, hseen.postLoad,
    resultTarget_congr hseen.postLoad fun u hu => mem_walkedBlock hF hbb hu]

end Events

section Converse

variable (hF : WF F) (hF' : WF F') (hbb : bb ∈ F) (hbb' : bb' ∈ F')
  (hins : InsertsDebug F.flatten F'.flatten) (hblock : InsertsDebug bb bb')
  (hlog : (hardenBlock O T F' bb').log = (hardenBlock O T F bb).log)

include hF hF' hbb hbb' hblock hlog in
theorem markersSeenAlike_of_log : MarkersSeenAlike O T bb bb' := by
  intro X hasks
  have hX := hasks.planned.mem
  obtain ⟨⟨d, s, hs⟩, hstart⟩ := alike_start (O := O) (T := T) F F' hblock
    fun y hy => block_wf hF' hbb' hy
  have hs' : (collectBlock O T F' bb').1 = { (collectBlock O T F bb).1 with
    DummyInstr := d, StandAloneGEPDummyInstr := s } := hs
  have hasks' : AsksForMarkers O T bb' X := by
    rw [← filterAsks_iff hF' hbb' (hblock.subset hX), hs']
    have h := (filterAsks_iff hF hbb hX).mpr hasks
    exact ⟨h.filter, h.queued, h.other, h.store, h.hardens⟩
  have hevents := congrArg (fun log => eventsOf log X.id) hlog
  simp only [events_hardenBlock hF hbb hasks, events_hardenBlock hF' hbb' hasks', hstart,
    List.append_cancel_left_eq] at hevents
  refine (prefixed_same_iff hF hF' hbb hbb' hblock hasks).mp ?_
  split_ifs at hevents with h1 h2 h2
  · rw [h1, h2]
  · simp only [Bool.not_eq_true] at h1 h2
    rw [h1, h2]

/-- A debug instruction inserted before or behind an instruction does not part it from what is
before it. -/
theorem InsertsDebug.split {l l' p q : List MachineInstr} {X : MachineInstr}
    (h : InsertsDebug l l') (heq : l = p ++ X :: q) :
    ∃ p' q', l' = p' ++ X :: q' ∧ InsertsDebug p p' := by
  induction h generalizing p with
  | nil => simp at heq
  | keep mi h ih =>
      cases p with
      | nil =>
          obtain ⟨rfl, rfl⟩ := List.cons.inj heq
          exact ⟨[], _, rfl, .nil⟩
      | cons y p =>
          obtain ⟨rfl, htail⟩ := List.cons.inj heq
          obtain ⟨p', q', rfl, hp⟩ := ih htail
          exact ⟨mi :: p', q', rfl, .keep mi hp⟩
  | @insert d l l' hd _ ih =>
      obtain ⟨p', q', rfl, hp⟩ := ih heq
      exact ⟨d :: p', q', rfl, .insert hd hp⟩

include hF hF' hbb hbb' hins hblock hlog in
theorem sinksAlike_of_log : SinksAlike O T F F' bb := by
  intro p X r heq
  induction hlen : p.length using Nat.strong_induction_on generalizing p X r with
  | _ n ih =>
  subst hlen
  rw [sinksAlikeAt_iff hF hF' hbb hins hblock]
  intro hwaits hgets
  have hX : X ∈ bb := by simp [heq]
  have hXF : X ∈ F.flatten := List.mem_flatten.mpr ⟨bb, hbb, hX⟩
  obtain ⟨p', r', heq', hp⟩ := hblock.split heq
  -- what was awaiting before `X` is the same
  have hsame (i : Nat) : i ∈ awaiting O T F' bb' p' ↔ i ∈ awaiting O T F bb p := by
    have h := mem_awaiting_same (O := O) (T := T) hF hF' hbb hbb' hins hblock hp.reverse
      (by simp [heq]) (by simp [heq']) (fun p₀ Y m hsplit => ?_) i
    · simpa using h
    · rw [List.reverse_reverse] at hsplit
      exact ih p₀.length (by simp [hsplit]) p₀ Y (m ++ X :: r) (by simp [heq, hsplit]) rfl
  have hO : O.HardenLoads = true := by
    by_contra hO
    rw [awaiting_of_not_hardenLoads hO] at hwaits
    cases hwaits
  obtain ⟨x, hx, hid, hm, -⟩ := knownIn_awaiting hF hbb p _ hwaits
  obtain rfl : x = X := List.inj_on_of_nodup_map hF.nodup hx hXF hid
  have hevent (v : MachineInstr) :
      (∃ u, resultTarget T F' bb' (awaiting O T F bb p) x = some u ∧
        resultEvent x v = resultEvent x u) ↔
      ∃ u, resultTarget T F bb (awaiting O T F bb p) x = some u ∧
        resultEvent x v = resultEvent x u := by
    have h := result_event_iff (T := T) hF hbb hO heq hm v
    have h' := result_event_iff (T := T) hF' hbb' hO heq' hm v
    rw [hlog, h, getsToResult_same hF hF' hbb hbb' hblock hX, hsame,
      resultTarget_congr hsame fun _ _ _ => Iff.rfl] at h'
    simpa [hgets, hwaits] using h'.symm
  have hmem {G : MachineFunction} {b : MachineBasicBlock} (hG : G.flatten ⊆ F'.flatten)
      {u : MachineInstr} (hu : resultTarget T G b (awaiting O T F bb p) x = some u) :
      u ∈ F'.flatten := by
    rcases resultTarget_spec hu with rfl | ⟨hu, -⟩
    · exact hins.subset hXF
    · exact hG hu
  have hinj {u v : MachineInstr} (hu : u ∈ F'.flatten) (hv : v ∈ F'.flatten)
      (h : resultEvent x v = resultEvent x u) : u = v := by
    refine List.inj_on_of_nodup_map hF'.nodup hu hv ?_
    unfold resultEvent at h
    split_ifs at h with h1 h2 h2
    · rw [h1, h2]
    · exact (Hardening.sunk.inj h).symm
  cases htarget : resultTarget T F bb (awaiting O T F bb p) x with
  | none =>
      refine Option.eq_none_iff_forall_ne_some.mpr fun u hu => ?_
      obtain ⟨v, hv, -⟩ := (hevent u).mp ⟨u, hu, rfl⟩
      rw [htarget] at hv
      cases hv
  | some v =>
      obtain ⟨u, hu, h⟩ := (hevent v).mpr ⟨v, htarget, rfl⟩
      rw [hu, hinj (hmem (List.Subset.refl _) hu) (hmem hins.subset htarget) h]

end Converse

/-! ## The theorem -/

/-- Blocks at the same place. -/
theorem forall₂_of_mem_zip {α β : Type} {R : α → β → Prop} {as : List α} {bs : List β}
    (h : List.Forall₂ R as bs) {p : α × β} (hp : p ∈ as.zip bs) : R p.1 p.2 := by
  induction h with
  | nil => cases hp
  | cons hr _ ih =>
      rcases List.mem_cons.mp hp with rfl | hp
      · exact hr
      · exact ih hp

theorem map_eq_map_iff_zip {α β γ : Type} {R : α → β → Prop} {as : List α} {bs : List β}
    (h : List.Forall₂ R as bs) (f : α → γ) (g : β → γ) :
    bs.map g = as.map f ↔ ∀ p ∈ as.zip bs, g p.2 = f p.1 := by
  induction h with
  | nil => simp
  | cons _ _ ih => simp [ih]

/-- **Debug invariance.** Debug instructions are inserted in the blocks of a function. Then the same
instructions are hardened, in the same ways, exactly when the accesses the filter asks about are
marked alike, and no inserted instruction changes where the hardening of a result is sunk to. -/
theorem debug_invariant_iff (hF : WF F) (hF' : WF F') (hins : List.Forall₂ InsertsDebug F F') :
    (tracePredStateThroughBlocksAndHarden O T F').map BlockResult.log =
        (tracePredStateThroughBlocksAndHarden O T F).map BlockResult.log ↔
      ∀ p ∈ F.zip F', MarkersSeenAlike O T p.1 p.2 ∧ SinksAlike O T F F' p.1 := by
  unfold tracePredStateThroughBlocksAndHarden
  rw [List.map_map, List.map_map, map_eq_map_iff_zip hins]
  refine forall₂_congr fun p hp => ?_
  have hbb := (List.of_mem_zip hp).1
  have hbb' := (List.of_mem_zip hp).2
  have hblock := forall₂_of_mem_zip hins hp
  have hflat := InsertsDebug.flatten hins
  constructor
  · intro hlog
    exact ⟨markersSeenAlike_of_log hF hF' hbb hbb' hblock hlog,
      sinksAlike_of_log hF hF' hbb hbb' hflat hblock hlog⟩
  · rintro ⟨hmarks, hsinks⟩
    exact hardenBlock_log_same hF hF' hbb hbb' hflat hblock hmarks hsinks

/-- A debug instruction that reads nothing. -/
def dbgValue (id : Nat) : MachineInstr := { id := id, isDebugInstr := true }

theorem dbgValue_wf (id : Nat) : (dbgValue id).WF :=
  ⟨fun h => Bool.noConfusion h, fun _ => rfl, fun _ => rfl, fun _ => rfl, fun _ h => absurd h
    (by simp [dbgValue, MachineInstr.addrRegs, MachineInstr.baseReg, MachineInstr.indexReg])⟩

theorem markedBlock_wf : WF [markedBlock] := by
  refine .of_no_terminators (by decide) ?_ (by decide)
  simp only [markedBlock, List.flatten_cons, List.flatten_nil, List.append_nil, List.mem_cons,
    List.not_mem_nil, or_false, forall_eq_or_imp, forall_eq]
  exact ⟨dummyBefore_wf 0, dummyAfter_wf 1, loadVia_wf 2 1 0 false⟩

/-- A marked load, and a load whose result another instruction reads. -/
def readBlock : MachineBasicBlock :=
  [dummyBefore 0, dummyAfter 1, loadVia 2 1 0 false, loadVia 3 3 2 true,
    { id := 4, uses := [.virt 3] }]

/-- Debug instructions before the markers and behind the second load, whose result the last one
reads as well. -/
def readBlockDebug : MachineBasicBlock :=
  [dbgValue 5, dummyBefore 0, dummyAfter 1, loadVia 2 1 0 false, loadVia 3 3 2 true,
    { id := 6, isDebugInstr := true, uses := [.virt 3] }, { id := 4, uses := [.virt 3] }]

/-- A debug instruction between the markers and the load. -/
def debugBehindMarkers : MachineBasicBlock :=
  [dummyBefore 0, dummyAfter 1, dbgValue 3, loadVia 2 1 0 false]

/-- Before the markers a debug instruction changes nothing, nor does another use of a result that is
hardened where it is loaded. -/
theorem debug_invariant_before_markers :
    (tracePredStateThroughBlocksAndHarden filterOptions anyTarget [readBlockDebug]).map
        BlockResult.log =
      (tracePredStateThroughBlocksAndHarden filterOptions anyTarget [readBlock]).map
        BlockResult.log := by
  have hreader : MachineInstr.WF { id := 4, uses := [.virt 3] } := ⟨fun h => Bool.noConfusion h,
    fun h => Bool.noConfusion h, fun h => h.elim (fun h => nomatch h) (fun h => nomatch h),
    fun _ => rfl, fun _ h => absurd h (List.not_mem_nil)⟩
  have hdebug : MachineInstr.WF { id := 6, isDebugInstr := true, uses := [.virt 3] } :=
    ⟨fun h => Bool.noConfusion h, fun _ => rfl, fun _ => rfl, fun _ => rfl,
      fun _ h => absurd h (List.not_mem_nil)⟩
  have hwf : WF [readBlock] := by
    refine .of_no_terminators (by decide) ?_ (by decide)
    simp only [readBlock, List.flatten_cons, List.flatten_nil, List.append_nil, List.mem_cons,
      List.not_mem_nil, or_false, forall_eq_or_imp, forall_eq]
    exact ⟨dummyBefore_wf 0, dummyAfter_wf 1, loadVia_wf 2 1 0 false, loadVia_wf 3 3 2 true,
      hreader⟩
  have hwf' : WF [readBlockDebug] := by
    refine .of_no_terminators (by decide) ?_ (by decide)
    simp only [readBlockDebug, List.flatten_cons, List.flatten_nil, List.append_nil, List.mem_cons,
      List.not_mem_nil, or_false, forall_eq_or_imp, forall_eq]
    exact ⟨dbgValue_wf 5, dummyBefore_wf 0, dummyAfter_wf 1, loadVia_wf 2 1 0 false,
      loadVia_wf 3 3 2 true, hdebug, hreader⟩
  have hins : List.Forall₂ InsertsDebug [readBlock] [readBlockDebug] :=
    .cons (.insert rfl (.keep _ (.keep _ (.keep _ (.keep _ (.insert rfl (.keep _ .nil))))))) .nil
  have hfound : ∀ X ∈ readBlock,
      isPrefixedByDummies
          (prevNode (walkedBlock filterOptions anyTarget [readBlockDebug] readBlockDebug) X) =
        isPrefixedByDummies
          (prevNode (walkedBlock filterOptions anyTarget [readBlock] readBlock) X) := by
    decide
  refine (debug_invariant_iff hwf hwf' hins).mpr fun p hp => ?_
  obtain rfl : p = (readBlock, readBlockDebug) := by simpa using hp
  refine ⟨fun X hasks => ?_, fun p X q (heq : readBlock = p ++ X :: q) _ _ hload _ => ?_⟩
  · refine (prefixed_same_iff hwf hwf' (by simp) (by simp) ?_ hasks).mp (hfound X hasks.planned.mem)
    exact forall₂_of_mem_zip hins hp
  · have hX : X = loadVia 3 3 2 true := by
      have hmem : X ∈ readBlock := by simp [heq]
      simp only [readBlock, List.mem_cons, List.not_mem_nil, or_false] at hmem
      rcases hmem with rfl | rfl | rfl | rfl | rfl
      all_goals first | rfl | cases hload
    subst hX
    have hp : p = [dummyBefore 0, dummyAfter 1, loadVia 2 1 0 false] :=
      (append_cons_inj (not_mem_of_split (block_nodup hwf (by simp)) heq)
        (by decide) (heq.symm.trans rfl : _ = _ ++ loadVia 3 3 2 true :: _)).1
    -- The last instruction is hardened by no one, so the hardening stays at the load.
    have hwaits : 4 ∉ awaiting filterOptions anyTarget [readBlock] readBlock p := by
      have hbb : readBlock ∈ [readBlock] := by simp
      rw [hp, ← mem_awaiting_iff (O := filterOptions) (T := anyTarget) hwf hbb _
        [loadVia 3 3 2 true, { id := 4, uses := [.virt 3] }] rfl]
      decide
    have hread : ReadByInserted [readBlock] [readBlockDebug] (loadVia 3 3 2 true) :=
      ⟨.virt 3, rfl, { id := 6, isDebugInstr := true, uses := [.virt 3] }, by decide, by decide,
        by decide⟩
    refine ⟨fun _ => ?_, fun h => absurd hread h⟩
    rw [sinkPostLoadHardenedInst, show (loadVia 3 3 2 true).defs = [.virt 3] from rfl]
    simp only
    rw [sinkCheck_of_use (d := { id := 4, uses := [.virt 3] }) (by decide)
      (fun h => hwaits (List.mem_filter.mp h).1) rfl]

/-- Between the markers and the load it hides the markers, and the load is dropped. -/
theorem debug_changes_hardening :
    WF [markedBlock] ∧ WF [debugBehindMarkers] ∧
      List.Forall₂ InsertsDebug [markedBlock] [debugBehindMarkers] ∧
      (tracePredStateThroughBlocksAndHarden filterOptions anyTarget [markedBlock]).map
        BlockResult.log = [[(.loadAddr, 2)]] ∧
      (tracePredStateThroughBlocksAndHarden filterOptions anyTarget [debugBehindMarkers]).map
        BlockResult.log = [[]] := by
  refine ⟨markedBlock_wf, .of_no_terminators (by decide) ?_ (by decide), ?_, by decide, by decide⟩
  · simp only [debugBehindMarkers, List.flatten_cons, List.flatten_nil, List.append_nil,
      List.mem_cons, List.not_mem_nil, or_false, forall_eq_or_imp, forall_eq]
    exact ⟨dummyBefore_wf 0, dummyAfter_wf 1, dbgValue_wf 3, loadVia_wf 2 1 0 false⟩
  · exact .cons (.keep _ (.keep _ (.insert rfl (.keep _ .nil)))) .nil

end MSV.SLH
