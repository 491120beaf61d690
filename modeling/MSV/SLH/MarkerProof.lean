import Mathlib.Data.List.Nodup
import MSV.SLH.Harden

/-!
# Erasing the markers

**Theorem (`markers_erased_iff`).** With paired markers, the pass leaves no marker behind and
erases none twice, exactly when no `DUMMY_BEFORE` stands behind an instruction that stops the
first walk.

The first walk enters both markers of a pair in one of two sets when it passes the
`DUMMY_BEFORE`. What it passes ends at the first fence, so a pair behind it is in neither set; and
nothing behind it is queued, so the second walk does not protect it either.
-/

namespace MSV.SLH

variable {O : Options} {T : Target} {F : MachineFunction} {bb : MachineBasicBlock}

/-- The first walk stops here: at an LFENCE, or before an x87 instruction. -/
def Stops (O : Options) (mi : MachineInstr) : Prop := mi.opcode = .LFENCE ∨ stopsX87 O mi = true

instance (O : Options) (mi : MachineInstr) : Decidable (Stops O mi) :=
  inferInstanceAs (Decidable (_ ∨ _))

/-- Markers come in pairs: every `DUMMY_BEFORE` is followed by its own `DUMMY_AFTER` before any
other marker. -/
inductive Paired : List MachineInstr → Prop
  | nil : Paired []
  | plain {mi : MachineInstr} {rest : List MachineInstr} (h : mi.isMarker = false)
      (hrest : Paired rest) : Paired (mi :: rest)
  | pair {b a : MachineInstr} {mid rest : List MachineInstr} (hb : b.isBefore = true)
      (hmid : ∀ x ∈ mid, x.isMarker = false) (ha : a.isAfter = true) (hrest : Paired rest) :
      Paired (b :: mid ++ a :: rest)

/-! ## What the first walk does to the marker sets -/

section MarkerSets

variable (mi : MachineInstr) (c : Collected)

/-- The sets of markers, as one value. -/
def Collected.markers (c : Collected) : List Nat × List Nat :=
  (c.DummyInstr, c.StandAloneGEPDummyInstr)

@[simp] theorem propagateLoadDep_markers : (propagateLoadDep mi c).markers = c.markers := by
  unfold propagateLoadDep; split <;> rfl

theorem collectCondition_markers (x : Option MachineInstr) :
    (collectCondition x c).markers = c.markers := by
  cases x <;> rfl

theorem collectVTInstr_markers : (collectVTInstr O mi c).markers = c.markers := by
  unfold collectVTInstr; split <;> rfl

theorem collectStore_markers : (collectStore O mi c).markers = c.markers := by
  unfold collectStore; split <;> rfl

theorem collectAccess_markers : (collectAccess O T mi c).markers = c.markers := by
  unfold collectAccess collectFixedAddress
  split
  · rfl
  · split_ifs <;> rfl

@[simp] theorem collectInstr_markers : (collectInstr O T bb mi c).markers = c.markers := by
  unfold collectInstr
  split_ifs
  · rfl
  · rfl
  · exact collectCondition_markers ..
  · rw [collectAccess_markers, collectStore_markers, collectVTInstr_markers,
      collectCondition_markers]

/-- What passing one instruction adds to the sets of markers. -/
def addMarkers (rest : List MachineInstr) (m : List Nat × List Nat) : List Nat × List Nat :=
  if mi.isBefore then
    if (betweenMarkers rest).length > 0 then
      (m.1, insertInstr (m.2.insert mi.id) (nextAfter rest))
    else (insertInstr (m.1.insert mi.id) (nextAfter rest), m.2)
  else m

theorem collectMarker_markers (rest : List MachineInstr) :
    (collectMarker mi rest c).markers = addMarkers mi rest c.markers := by
  unfold collectMarker addMarkers
  split_ifs <;> rfl

end MarkerSets

/-- The first walk, as far as the sets of markers are concerned. -/
def markerWalk (O : Options) : List MachineInstr → List Nat × List Nat → List Nat × List Nat
  | [], m => m
  | mi :: rest, m =>
      if Stops O mi then addMarkers mi rest m else markerWalk O rest (addMarkers mi rest m)

theorem collect_markers (fresh : Nat) (l : List MachineInstr) (c : Collected) :
    (collect O T fresh bb l c).1.markers = markerWalk O l c.markers := by
  induction l generalizing c with
  | nil => rfl
  | cons mi rest ih =>
      simp only [collect, markerWalk]
      by_cases h1 : mi.opcode = .LFENCE
      · rw [if_pos h1, if_pos (show Stops O mi from Or.inl h1), propagateLoadDep_markers,
          collectMarker_markers]
      · rw [if_neg h1]
        by_cases h2 : stopsX87 O mi = true
        · rw [if_pos h2, if_pos (show Stops O mi from Or.inr h2), collectInstr_markers,
            propagateLoadDep_markers, collectMarker_markers]
        · rw [if_neg h2, if_neg (show ¬ Stops O mi from fun h => h.elim h1 h2)]
          simp only [ih, collectInstr_markers, propagateLoadDep_markers, collectMarker_markers]

/-! ## Paired markers -/

theorem not_isBefore_of_not_isMarker {mi : MachineInstr} (h : mi.isMarker = false) :
    mi.isBefore = false := by
  simp only [MachineInstr.isMarker, Bool.or_eq_false_iff] at h
  exact h.1

theorem not_isAfter_of_not_isMarker {mi : MachineInstr} (h : mi.isMarker = false) :
    mi.isAfter = false := by
  simp only [MachineInstr.isMarker, Bool.or_eq_false_iff] at h
  exact h.2

theorem not_isBefore_of_isAfter {mi : MachineInstr} (h : mi.isAfter = true) :
    mi.isBefore = false := by
  by_contra hb
  rw [Bool.not_eq_false] at hb
  rw [MachineInstr.not_isAfter_of_isBefore hb] at h
  exact absurd h (by decide)

theorem not_stops_of_isMarker {mi : MachineInstr} (hwf : mi.WF) (h : mi.isMarker = true) :
    ¬ Stops O mi := by
  rw [hwf.marker h]
  simp [Stops, stopsX87, mayVariant]

/-- Passing over a stretch without a `DUMMY_BEFORE`. -/
theorem markerWalk_append {mid l : List MachineInstr} (h : ∀ x ∈ mid, x.isBefore = false)
    (m : List Nat × List Nat) :
    markerWalk O (mid ++ l) m = if ∃ s ∈ mid, Stops O s then m else markerWalk O l m := by
  induction mid with
  | nil => simp
  | cons mi mid ih =>
      have hm : addMarkers mi (mid ++ l) m = m := by simp [addMarkers, h mi (by simp)]
      rw [List.cons_append, markerWalk, hm, ih fun x hx => h x (by simp [hx])]
      by_cases hs : Stops O mi <;> simp [hs]

/-- Without a `DUMMY_BEFORE`, paired markers are no markers at all. -/
theorem Paired.no_marker {l : List MachineInstr} (hp : Paired l)
    (h : ∀ x ∈ l, x.isBefore = false) : ∀ x ∈ l, x.isMarker = false := by
  induction hp with
  | nil => simp
  | plain hmi _ ih =>
      intro x hx
      rcases List.mem_cons.mp hx with rfl | hx
      · exact hmi
      · exact ih (fun y hy => h y (by simp [hy])) x hx
  | pair hb => simp [h _ (List.mem_cons_self ..)] at hb

/-- No `DUMMY_BEFORE` behind an instruction that stops the first walk. -/
def NoMarkerBehindStop (O : Options) (l : List MachineInstr) : Prop :=
  ∀ pre s post, l = pre ++ s :: post → Stops O s → ∀ x ∈ post, x.isBefore = false

theorem NoMarkerBehindStop.suffix {l l' : List MachineInstr} (h : NoMarkerBehindStop O (l' ++ l)) :
    NoMarkerBehindStop O l := by
  intro pre s post hl
  exact h (l' ++ pre) s post (by rw [hl, List.append_assoc])

/-- The sets of markers are duplicate free, disjoint, and have nothing of the list yet. -/
structure MarkersOK (l : List MachineInstr) (m : List Nat × List Nat) : Prop where
  nodup₁ : m.1.Nodup
  nodup₂ : m.2.Nodup
  disjoint : ∀ i ∈ m.1, i ∉ m.2
  fresh₁ : ∀ x ∈ l, x.id ∉ m.1
  fresh₂ : ∀ x ∈ l, x.id ∉ m.2

theorem betweenMarkers_append {mid rest : List MachineInstr} {a : MachineInstr}
    (hmid : ∀ x ∈ mid, x.isMarker = false) (ha : a.isAfter = true) :
    betweenMarkers (mid ++ a :: rest) = mid := by
  unfold betweenMarkers
  rw [List.takeWhile_append_of_pos fun x hx => by simp [not_isAfter_of_not_isMarker (hmid x hx)]]
  simp [ha]

theorem nextAfter_append {mid rest : List MachineInstr} {a : MachineInstr}
    (hmid : ∀ x ∈ mid, x.isMarker = false) (ha : a.isAfter = true) :
    nextAfter (mid ++ a :: rest) = some a := by
  unfold nextAfter
  rw [List.find?_append, List.find?_eq_none.mpr fun x hx => by
    simp [not_isAfter_of_not_isMarker (hmid x hx)]]
  simp [ha]

/-- Both markers of a pair go to one of the two sets. -/
theorem addMarkers_pair {b a : MachineInstr} {mid rest : List MachineInstr}
    (hb : b.isBefore = true) (hmid : ∀ x ∈ mid, x.isMarker = false) (ha : a.isAfter = true)
    (m : List Nat × List Nat) :
    addMarkers b (mid ++ a :: rest) m =
      if mid.length > 0 then (m.1, (m.2.insert b.id).insert a.id)
      else ((m.1.insert b.id).insert a.id, m.2) := by
  simp only [addMarkers, hb, betweenMarkers_append hmid ha, nextAfter_append hmid ha, insertInstr,
    if_true]

theorem addMarkers_mono (mi : MachineInstr) (rest : List MachineInstr) (m : List Nat × List Nat) :
    m.1 ⊆ (addMarkers mi rest m).1 ∧ m.2 ⊆ (addMarkers mi rest m).2 := by
  have hins : ∀ (l : List Nat) (x : Option MachineInstr), l ⊆ insertInstr l x := by
    intro l x i hi
    cases x <;> simp [insertInstr, hi]
  unfold addMarkers
  split_ifs
  · exact ⟨fun _ h => h, fun i h => hins _ _ (by simp [h])⟩
  · exact ⟨fun i h => hins _ _ (by simp [h]), fun _ h => h⟩
  · exact ⟨fun _ h => h, fun _ h => h⟩

theorem markerWalk_mono (l : List MachineInstr) (m : List Nat × List Nat) :
    m.1 ⊆ (markerWalk O l m).1 ∧ m.2 ⊆ (markerWalk O l m).2 := by
  induction l generalizing m with
  | nil => exact ⟨fun _ h => h, fun _ h => h⟩
  | cons mi rest ih =>
      have hadd := addMarkers_mono mi rest m
      rw [markerWalk]
      split_ifs
      · exact hadd
      · exact ⟨fun i h => (ih _).1 (hadd.1 h), fun i h => (ih _).2 (hadd.2 h)⟩

/-- A pair of distinct fresh markers keeps the sets in order. -/
theorem MarkersOK.pair {b a : MachineInstr} {mid rest : List MachineInstr}
    {m : List Nat × List Nat} (h : MarkersOK (b :: mid ++ a :: rest) m)
    (hnd : ((b :: mid ++ a :: rest).map MachineInstr.id).Nodup) :
    MarkersOK rest (if mid.length > 0 then (m.1, (m.2.insert b.id).insert a.id)
      else ((m.1.insert b.id).insert a.id, m.2)) := by
  have hfresh : ∀ x ∈ rest, x.id ≠ a.id ∧ x.id ≠ b.id := by
    intro x hx
    simp only [List.map_append, List.map_cons, List.cons_append, List.nodup_cons,
      List.nodup_append, List.mem_append, List.mem_cons, List.mem_map] at hnd
    constructor
    · intro he; exact hnd.2.2.1.1 ⟨x, hx, he⟩
    · intro he; exact hnd.1 (Or.inr (Or.inr ⟨x, hx, he⟩))
  have hb₁ := h.fresh₁ b (by simp)
  have hb₂ := h.fresh₂ b (by simp)
  have ha₁ := h.fresh₁ a (by simp)
  have ha₂ := h.fresh₂ a (by simp)
  have hr₁ : ∀ x ∈ rest, x.id ∉ m.1 := fun x hx => h.fresh₁ x (by simp [hx])
  have hr₂ : ∀ x ∈ rest, x.id ∉ m.2 := fun x hx => h.fresh₂ x (by simp [hx])
  split_ifs
  · refine ⟨h.nodup₁, (List.Nodup.insert (List.Nodup.insert h.nodup₂)), ?_, hr₁, ?_⟩
    · intro i hi hmem
      simp only [List.mem_insert_iff] at hmem
      rcases hmem with rfl | rfl | hmem
      · exact ha₁ hi
      · exact hb₁ hi
      · exact h.disjoint i hi hmem
    · intro x hx
      simp only [List.mem_insert_iff, not_or]
      exact ⟨(hfresh x hx).1, (hfresh x hx).2, hr₂ x hx⟩
  · refine ⟨(List.Nodup.insert (List.Nodup.insert h.nodup₁)), h.nodup₂, ?_, ?_, hr₂⟩
    · intro i hi hmem
      simp only [List.mem_insert_iff] at hi
      rcases hi with rfl | rfl | hi
      · exact ha₂ hmem
      · exact hb₂ hmem
      · exact h.disjoint i hi hmem
    · intro x hx
      simp only [List.mem_insert_iff, not_or]
      exact ⟨(hfresh x hx).1, (hfresh x hx).2, hr₁ x hx⟩

/-- The first walk over paired markers, none of them behind a stop: every marker ends in one of
the sets, and the sets stay disjoint. -/
theorem markerWalk_paired {l : List MachineInstr} (hp : Paired l) (hwf : ∀ x ∈ l, x.WF)
    (hstop : NoMarkerBehindStop O l) (hnd : (l.map MachineInstr.id).Nodup)
    {m : List Nat × List Nat} (hm : MarkersOK l m) :
    MarkersOK [] (markerWalk O l m) ∧ ∀ x ∈ l, x.isMarker = true →
      x.id ∈ (markerWalk O l m).1 ∨ x.id ∈ (markerWalk O l m).2 := by
  induction hp generalizing m with
  | nil => exact ⟨hm, by simp⟩
  | @plain mi rest hmi hrest ih =>
      have hadd : addMarkers mi rest m = m := by
        simp [addMarkers, not_isBefore_of_not_isMarker hmi]
      have hm' : MarkersOK rest m := ⟨hm.nodup₁, hm.nodup₂, hm.disjoint,
        fun x hx => hm.fresh₁ x (by simp [hx]), fun x hx => hm.fresh₂ x (by simp [hx])⟩
      have hnil : MarkersOK [] m := ⟨hm.nodup₁, hm.nodup₂, hm.disjoint, by simp, by simp⟩
      rw [markerWalk, hadd]
      by_cases hs : Stops O mi
      · rw [if_pos hs]
        refine ⟨hnil, fun x hx hmark => ?_⟩
        have hnone := hrest.no_marker (hstop [] mi rest rfl hs)
        rcases List.mem_cons.mp hx with rfl | hx
        · simp [hmi] at hmark
        · simp [hnone x hx] at hmark
      · rw [if_neg hs]
        have hsuffix : NoMarkerBehindStop O ([mi] ++ rest) := hstop
        obtain ⟨hok, hall⟩ := ih (fun x hx => hwf x (by simp [hx])) hsuffix.suffix
          (List.nodup_cons.mp hnd).2 hm'
        refine ⟨hok, fun x hx hmark => ?_⟩
        rcases List.mem_cons.mp hx with rfl | hx
        · simp [hmi] at hmark
        · exact hall x hx hmark
  | @pair b a mid rest hb hmid ha hrest ih =>
      have hbns : ¬ Stops O b :=
        not_stops_of_isMarker (hwf b (by simp)) (by simp [MachineInstr.isMarker, hb])
      have hans : ¬ Stops O a :=
        not_stops_of_isMarker (hwf a (by simp)) (by simp [MachineInstr.isMarker, ha])
      have hok := hm.pair hnd
      rw [List.cons_append, markerWalk, if_neg hbns, addMarkers_pair hb hmid ha,
        markerWalk_append fun x hx => not_isBefore_of_not_isMarker (hmid x hx)]
      generalize hm₁ : (if mid.length > 0 then (m.1, (m.2.insert b.id).insert a.id)
        else ((m.1.insert b.id).insert a.id, m.2)) = m₁ at hok ⊢
      -- Both markers of this pair are in one set, whatever follows.
      have hba : ∀ x ∈ [b, a], x.id ∈ m₁.1 ∨ x.id ∈ m₁.2 := by
        intro x hx
        rw [← hm₁]
        simp only [List.mem_cons, List.not_mem_nil, or_false] at hx
        rcases hx with rfl | rfl <;> split_ifs <;> simp
      by_cases hs : ∃ s ∈ mid, Stops O s
      · rw [if_pos hs]
        obtain ⟨s, hsmid, hs⟩ := hs
        obtain ⟨mid₁, mid₂, rfl⟩ := List.append_of_mem hsmid
        have hnone : ∀ x ∈ mid₂ ++ a :: rest, x.isBefore = false :=
          hstop (b :: mid₁) s (mid₂ ++ a :: rest) (by simp) hs
        have hrestnone := hrest.no_marker fun x hx => hnone x (by simp [hx])
        refine ⟨⟨hok.nodup₁, hok.nodup₂, hok.disjoint, by simp, by simp⟩, fun x hx hmark => ?_⟩
        simp only [List.mem_cons, List.mem_append] at hx
        rcases hx with rfl | hx | rfl | hx
        · exact hba x (by simp)
        · simp [hmid x (List.mem_append.mpr (by simpa using hx))] at hmark
        · exact hba x (by simp)
        · simp [hrestnone x hx] at hmark
      · rw [if_neg hs, markerWalk, if_neg hans]
        have hadd : addMarkers a rest m₁ = m₁ := by simp [addMarkers, not_isBefore_of_isAfter ha]
        rw [hadd]
        have hsuf : NoMarkerBehindStop O rest := by
          have : b :: mid ++ a :: rest = (b :: mid ++ [a]) ++ rest := by simp
          rw [this] at hstop
          exact hstop.suffix
        have hndrest : (rest.map MachineInstr.id).Nodup := by
          refine hnd.sublist (List.Sublist.map _ ?_)
          exact (List.sublist_cons_self a rest).trans (List.sublist_append_right (b :: mid) _)
        obtain ⟨hok', hall⟩ := ih (fun x hx => hwf x (by simp [hx])) hsuf hndrest hok
        have hmono := markerWalk_mono (O := O) rest m₁
        refine ⟨hok', fun x hx hmark => ?_⟩
        simp only [List.mem_cons, List.mem_append] at hx
        rcases hx with rfl | hx | rfl | hx
        · exact (hba x (by simp)).imp (fun h => hmono.1 h) fun h => hmono.2 h
        · simp [hmid x hx] at hmark
        · exact (hba x (by simp)).imp (fun h => hmono.1 h) fun h => hmono.2 h
        · exact hall x hx hmark

/-! ## What the second walk protects -/

/-- The instruction is in a set whose members get their markers protected. -/
def Queued (c : Collected) (i : Nat) : Prop :=
  i ∈ c.HardenLoadAddr ∨ i ∈ c.HardenStoreAddr ∨ i ∈ c.HardenCondition ∨ i ∈ c.HardenVTInstr ∨
    i ∈ c.HardenFixedAddressRBP ∨ i ∈ c.HardenFixedAddressRSP

/-- Nothing new is queued, and the protected markers grow only by the two nodes before a queued
instruction. -/
structure Protects (P : List Nat → Prop) (w w' : Hardened) : Prop where
  queued : ∀ i, Queued w'.sets i → Queued w.sets i
  kept : P w.DummyInstrHardenedBySLH → P w'.DummyInstrHardenedBySLH

section SecondWalk

variable {P : List Nat → Prop} {prev prevPrev : Option MachineInstr} {mi : MachineInstr}
  {w w' w'' : Hardened}

theorem Protects.rfl : Protects P w w := ⟨fun _ h => h, fun h => h⟩

theorem Protects.trans (h : Protects P w w') (h' : Protects P w' w'') : Protects P w w'' :=
  ⟨fun i hi => h.queued i (h'.queued i hi), fun hp => h'.kept (h.kept hp)⟩

theorem Protects.record (h : Protects P w w') (k : Hardening) :
    Protects P w (w'.record k mi) :=
  ⟨h.queued, h.kept⟩

/-- Entering the two nodes before a queued instruction keeps the property. -/
def Closed (P : List Nat → Prop) (prev prevPrev : Option MachineInstr) : Prop :=
  ∀ l, P l → P (insertInstr (insertInstr l prev) prevPrev)

theorem protects_mark (hP : Closed P prev prevPrev) (h : Protects P w w') :
    Protects P w (markAsProtected prev prevPrev w') := by
  unfold markAsProtected
  split_ifs
  · exact ⟨h.queued, fun hp => hP _ (h.kept hp)⟩
  · exact h

/-- Removing members from the sets queues nothing. -/
theorem protects_of_subset (hset : ∀ i, Queued w'.sets i → Queued w.sets i)
    (heq : w'.DummyInstrHardenedBySLH = w.DummyInstrHardenedBySLH) : Protects P w w' :=
  ⟨hset, fun h => heq ▸ h⟩

theorem protects_update {f : Collected → Collected}
    (hf : ∀ c i, Queued (f c) i → Queued c i) : Protects P w (w.update f) :=
  protects_of_subset (fun i hi => hf _ i hi) rfl

theorem queued_removeLoadAddr (j : Nat) (c : Collected) (i : Nat)
    (h : Queued (c.removeLoadAddr j) i) : Queued c i := by
  simp only [Queued, Collected.removeLoadAddr, List.mem_filter] at h ⊢; tauto

theorem queued_removeStoreAddr (j : Nat) (c : Collected) (i : Nat)
    (h : Queued (c.removeStoreAddr j) i) : Queued c i := by
  simp only [Queued, Collected.removeStoreAddr, List.mem_filter] at h ⊢; tauto

theorem queued_removeCondition (j : Nat) (c : Collected) (i : Nat)
    (h : Queued (c.removeCondition j) i) : Queued c i := by
  simp only [Queued, Collected.removeCondition, List.mem_filter] at h ⊢; tauto

theorem queued_removeVTInstr (j : Nat) (c : Collected) (i : Nat)
    (h : Queued (c.removeVTInstr j) i) : Queued c i := by
  simp only [Queued, Collected.removeVTInstr, List.mem_filter] at h ⊢; tauto

theorem queued_removeFixedAddress (j : Nat) (c : Collected) (i : Nat)
    (h : Queued (c.removeFixedAddress j) i) : Queued c i := by
  simp only [Queued, Collected.removeFixedAddress, List.mem_filter] at h ⊢
  split_ifs at h
  · tauto
  · simp only [List.mem_filter] at h; tauto

theorem queued_removePostLoad (j : Nat) (c : Collected) (i : Nat)
    (h : Queued (c.removePostLoad O j) i) : Queued c i := by
  simp only [Queued, Collected.removePostLoad, List.mem_filter] at h ⊢
  split_ifs at h
  · simp only [List.mem_filter] at h; tauto
  · tauto

theorem queued_insertPostLoad (j : Nat) (c : Collected) (i : Nat)
    (h : Queued (c.insertPostLoad j) i) : Queued c i := h

theorem queued_setHardenedRSP (c : Collected) (i : Nat) (h : Queued c.setHardenedRSP i) :
    Queued c i := h

theorem protects_orElse {r : Hardened × Bool} {next : Hardened → Hardened × Bool}
    (h : Protects P w r.1) (hnext : ∀ w', Protects P w w' → Protects P w' (next w').1) :
    Protects P w (orElse r next).1 := by
  unfold orElse
  split_ifs
  · exact h
  · exact h.trans (hnext r.1 h)

theorem visitLoadAddr_protects (hP : Queued w.sets mi.id → Closed P prev prevPrev) :
    Protects P w (visitLoadAddr O prev prevPrev mi w).1 := by
  have h0 : Protects P w (w.update (Collected.removeLoadAddr mi.id)) :=
    protects_update (queued_removeLoadAddr mi.id)
  unfold visitLoadAddr hardenAccess
  split_ifs with hmem
  · exact h0
  · exact ((protects_mark (hP (Or.inl hmem)) h0).trans
      (protects_update (queued_removeStoreAddr mi.id))).record _
  · exact protects_mark (hP (Or.inl hmem)) h0
  · exact (protects_mark (hP (Or.inl hmem)) h0).record _
  · exact .rfl

theorem visitPostLoad_protects : Protects P w (visitPostLoad O T F bb mi w).1 := by
  have h0 : Protects P w (w.update (Collected.removePostLoad O mi.id)) :=
    protects_update (queued_removePostLoad mi.id)
  unfold visitPostLoad finishPostLoad
  split_ifs
  · split
    · exact h0
    · split_ifs
      · exact h0.record _
      · exact (h0.trans (protects_update (queued_insertPostLoad _))).record _
  · exact .rfl

theorem visitFixedAddress_protects (hP : Queued w.sets mi.id → Closed P prev prevPrev) :
    Protects P w (visitFixedAddress prev prevPrev mi w) := by
  unfold visitFixedAddress
  split_ifs with hmem
  · exact (protects_mark (hP (by unfold Queued; tauto))
      (protects_update (queued_removeFixedAddress mi.id))).record _
  · exact .rfl

theorem visitCondition_protects (hP : Queued w.sets mi.id → Closed P prev prevPrev) :
    Protects P w (visitCondition prev prevPrev mi w).1 := by
  unfold visitCondition
  split_ifs with hmem
  · exact (protects_mark (hP (by unfold Queued; tauto))
      (protects_update (queued_removeCondition mi.id))).record _
  · exact .rfl

theorem visitVTInstr_protects (hP : Queued w.sets mi.id → Closed P prev prevPrev) :
    Protects P w (visitVTInstr prev prevPrev mi w).1 := by
  unfold visitVTInstr
  split_ifs with hmem
  · exact (protects_mark (hP (by unfold Queued; tauto))
      (protects_update (queued_removeVTInstr mi.id))).record _
  · exact .rfl

theorem visitStoreAddr_protects (hP : Queued w.sets mi.id → Closed P prev prevPrev) :
    Protects P w (visitStoreAddr T prev prevPrev mi w) := by
  unfold visitStoreAddr hardenPush
  split_ifs with hmem
  · exact (((protects_mark (hP (by unfold Queued; tauto))
      (protects_update (queued_removeStoreAddr mi.id))).record _).trans
        (protects_update queued_setHardenedRSP)).record _
  · exact (protects_mark (hP (by unfold Queued; tauto))
      (protects_update (queued_removeStoreAddr mi.id))).record _
  · exact .rfl

theorem visitControl_protects :
    Protects P w (visitInterprocedural O mi (visitIndirect O mi w)) ∧
      Protects P w (visitInterprocedural O mi w) := by
  unfold visitInterprocedural visitIndirect
  split_ifs <;> exact ⟨⟨fun _ h => h, fun h => h⟩, ⟨fun _ h => h, fun h => h⟩⟩

/-- One step of the second walk: new markers are protected only before a queued instruction. -/
theorem visitInstr_protects (hP : Queued w.sets mi.id → Closed P prev prevPrev) :
    Protects P w (visitInstr O T F bb prev prevPrev mi w) := by
  unfold visitInstr visitLoads
  split_ifs
  · refine protects_orElse ?_ fun _ _ => visitControl_protects.1
    -- Nothing is queued between the steps, so `hP` is there for each of them.
    refine protects_orElse (visitLoadAddr_protects hP) fun w₁ h₁ => ?_
    have hP₁ : Queued w₁.sets mi.id → Closed P prev prevPrev := fun hq => hP (h₁.queued _ hq)
    refine protects_orElse visitPostLoad_protects fun w₂ h₂ => ?_
    have hP₂ : Queued w₂.sets mi.id → Closed P prev prevPrev := fun hq => hP₁ (h₂.queued _ hq)
    have hfixed := visitFixedAddress_protects hP₂
    have hcond := visitCondition_protects fun hq => hP₂ (hfixed.queued _ hq)
    refine protects_orElse (hfixed.trans hcond) fun w₃ h₃ => ?_
    have hP₃ : Queued w₃.sets mi.id → Closed P prev prevPrev := fun hq => hP₂ (h₃.queued _ hq)
    refine protects_orElse (visitVTInstr_protects hP₃) fun w₄ h₄ => ?_
    exact visitStoreAddr_protects fun hq => hP₃ (h₄.queued _ hq)
  · exact visitControl_protects.2

/-- A whole second walk, over instructions of `S`. -/
theorem hardenWalk_protects {S : List MachineInstr} {l : List MachineInstr} (hl : l ⊆ S)
    (hprev : ∀ x ∈ prev, x ∈ S) (hprevPrev : ∀ x ∈ prevPrev, x ∈ S)
    (hP : ∀ mi ∈ l, Queued w.sets mi.id → ∀ q q' : Option MachineInstr,
      (∀ x ∈ q, x ∈ S) → (∀ x ∈ q', x ∈ S) → Closed P q q') :
    Protects P w (hardenWalk O T F bb prevPrev prev l w) := by
  induction l generalizing prev prevPrev w with
  | nil => exact .rfl
  | cons mi rest ih =>
      have hstep : Protects P w (visitInstr O T F bb prev prevPrev mi w) :=
        visitInstr_protects fun hq => hP mi (by simp) hq prev prevPrev hprev hprevPrev
      refine hstep.trans (ih (fun x hx => hl (by simp [hx])) ?_ hprev ?_)
      · intro x hx
        rw [Option.mem_some_iff] at hx
        exact hl (by simp [hx])
      · intro x hx hq
        exact hP x (by simp [hx]) (hstep.queued _ hq)

end SecondWalk

/-- What the second walk protects is duplicate free and part of the block. -/
theorem hardenWalk_protected (O : Options) (T : Target) (F : MachineFunction)
    (bb : MachineBasicBlock) (l : List MachineInstr) (w : Hardened)
    (hw : w.DummyInstrHardenedBySLH = []) :
    (hardenWalk O T F bb none none l w).DummyInstrHardenedBySLH.Nodup ∧
      ∀ i ∈ (hardenWalk O T F bb none none l w).DummyInstrHardenedBySLH,
        i ∈ l.map MachineInstr.id := by
  have h : Protects (fun L => L.Nodup ∧ ∀ i ∈ L, i ∈ l.map MachineInstr.id) w
      (hardenWalk O T F bb none none l w) := by
    refine hardenWalk_protects (S := l) (List.Subset.refl l) (by simp) (by simp) ?_
    intro _ _ _ q q' hq hq' L hL
    have hins : ∀ (q : Option MachineInstr) (L : List Nat), (∀ x ∈ q, x ∈ l) →
        (L.Nodup ∧ ∀ i ∈ L, i ∈ l.map MachineInstr.id) →
        (insertInstr L q).Nodup ∧ ∀ i ∈ insertInstr L q, i ∈ l.map MachineInstr.id := by
      intro q L hq hL
      cases q with
      | none => exact hL
      | some x =>
          refine ⟨List.Nodup.insert hL.1, fun i hi => ?_⟩
          rcases List.mem_insert_iff.mp hi with rfl | hi
          · exact List.mem_map_of_mem (hq x rfl)
          · exact hL.2 i hi
    exact hins q' _ hq' (hins q L hq hL)
  exact h.kept (by simp [hw])

/-! ## The part of a block the first walk visits -/

/-- The instructions up to the first one that stops the walk. -/
def visited (O : Options) : List MachineInstr → List MachineInstr
  | [] => []
  | mi :: rest => if Stops O mi then [mi] else mi :: visited O rest

theorem visited_prefix (l : List MachineInstr) : ∃ rest, l = visited O l ++ rest := by
  induction l with
  | nil => exact ⟨[], rfl⟩
  | cons mi l ih =>
      by_cases hs : Stops O mi
      · exact ⟨l, by simp [visited, hs]⟩
      · obtain ⟨rest, hrest⟩ := ih
        exact ⟨rest, by rw [visited, if_neg hs, List.cons_append, ← hrest]⟩

/-- What stands behind a stop is not visited. -/
theorem exists_unvisited {l pre post : List MachineInstr} {s x : MachineInstr}
    (hl : l = pre ++ s :: post) (hs : Stops O s) (hx : x ∈ post) :
    ∃ rest, l = visited O l ++ rest ∧ x ∈ rest := by
  induction pre generalizing l with
  | nil =>
      subst hl
      exact ⟨post, by simp [visited, hs], hx⟩
  | cons mi pre ih =>
      subst hl
      by_cases hmi : Stops O mi
      · exact ⟨pre ++ s :: post, by simp [visited, hmi], by simp [hx]⟩
      · obtain ⟨rest, hrest, hmem⟩ := ih rfl
        refine ⟨rest, ?_, hmem⟩
        rw [List.cons_append, visited, if_neg hmi, List.cons_append, ← hrest]

theorem collectMarker_queued (mi : MachineInstr) (rest : List MachineInstr) (c : Collected)
    (i : Nat) : Queued (propagateLoadDep mi (collectMarker mi rest c)) i ↔ Queued c i := by
  unfold propagateLoadDep collectMarker
  split_ifs <;> rfl

theorem collectVTInstr_queued {mi : MachineInstr} {c : Collected} {i : Nat}
    (h : Queued (collectVTInstr O mi c) i) : Queued c i ∨ i = mi.id := by
  unfold collectVTInstr at h
  split_ifs at h
  · simp only [Queued, List.mem_insert_iff] at h ⊢; tauto
  · exact Or.inl h

theorem collectStore_queued {mi : MachineInstr} {c : Collected} {i : Nat}
    (h : Queued (collectStore O mi c) i) : Queued c i ∨ i = mi.id := by
  unfold collectStore at h
  split_ifs at h
  · simp only [Queued, List.mem_insert_iff] at h ⊢; tauto
  · exact Or.inl h

theorem collectFixedAddress_queued {mi : MachineInstr} {m : MemRef} {c : Collected} {i : Nat}
    (h : Queued (collectFixedAddress O mi m c) i) : Queued c i ∨ i = mi.id := by
  have hset : ∀ {p : Prop} [Decidable p] {L : List Nat},
      i ∈ (if p then [mi.id] else L) → i ∈ L ∨ i = mi.id := by
    intro p _ L hi
    split_ifs at hi
    · exact Or.inr (List.mem_singleton.mp hi)
    · exact Or.inl hi
  unfold collectFixedAddress at h
  by_cases hO : O.HardenFixedAddress = true
  · rw [if_pos hO] at h
    rcases h with h | h | h | h | h | h
    · exact Or.inl (Or.inl h)
    · exact Or.inl (Or.inr (Or.inl (List.mem_filter.mp h).1))
    · exact Or.inl (by unfold Queued; tauto)
    · exact Or.inl (by unfold Queued; tauto)
    · exact (hset h).imp_left fun h => by unfold Queued; tauto
    · exact (hset h).imp_left fun h => by unfold Queued; tauto
  · rw [if_neg hO] at h
    exact Or.inl h

theorem collectAccess_queued {mi : MachineInstr} {c : Collected} {i : Nat}
    (h : Queued (collectAccess O T mi c) i) : Queued c i ∨ i = mi.id := by
  unfold collectAccess at h
  split at h
  · exact Or.inl h
  · split_ifs at h
    · exact collectFixedAddress_queued h
    · exact Or.inl h
    · exact Or.inl h
    · simp only [Queued, queueLoadAddr, List.mem_insert_iff] at h ⊢; tauto

/-- Unless it is a conditional branch, an instruction queues only itself. -/
theorem collectInstr_queued {mi : MachineInstr} (hbr : mi.isConditionalBranch = false)
    {c : Collected} {i : Nat} (h : Queued (collectInstr O T bb mi c) i) :
    Queued c i ∨ i = mi.id := by
  have hcond : mayBranch O bb mi c.HardenCondition = none := by simp [mayBranch, hbr]
  unfold collectInstr at h
  rw [hcond] at h
  split_ifs at h
  · exact Or.inl h
  · exact Or.inl h
  · exact Or.inl h
  · rcases collectAccess_queued h with h | h
    · rcases collectStore_queued h with h | h
      · exact collectVTInstr_queued h
      · exact Or.inr h
    · exact Or.inr h

theorem collect_queued {fresh : Nat} {l : List MachineInstr} {c : Collected} {i : Nat}
    (hbr : ∀ y ∈ visited O l, y.isConditionalBranch = false)
    (h : Queued (collect O T fresh bb l c).1 i) :
    Queued c i ∨ ∃ y ∈ visited O l, y.id = i := by
  induction l generalizing c with
  | nil => exact Or.inl h
  | cons mi rest ih =>
      simp only [collect] at h
      unfold visited at hbr ⊢
      by_cases h1 : mi.opcode = .LFENCE
      · rw [if_pos h1] at h
        exact Or.inl ((collectMarker_queued ..).mp h)
      · rw [if_neg h1] at h
        have hstep : ∀ {j}, Queued (collectInstr O T bb mi
            (propagateLoadDep mi (collectMarker mi rest c))) j → Queued c j ∨ j = mi.id := by
          intro j hj
          have hmi : mi.isConditionalBranch = false := by
            split_ifs at hbr <;> exact hbr mi (by simp)
          exact (collectInstr_queued hmi hj).imp_left (collectMarker_queued ..).mp
        by_cases h2 : stopsX87 O mi = true
        · rw [if_pos h2] at h
          rw [if_pos (show Stops O mi from Or.inr h2)]
          exact (hstep h).imp_right fun hi => ⟨mi, by simp, hi.symm⟩
        · rw [if_neg h2] at h
          have hns : ¬ Stops O mi := fun hs => hs.elim h1 h2
          rw [if_neg hns] at hbr ⊢
          rcases ih (fun y hy => hbr y (by simp [hy])) h with h | ⟨y, hy, hi⟩
          · exact (hstep h).imp_right fun hi => ⟨mi, by simp, hi.symm⟩
          · exact Or.inr ⟨y, by simp [hy], hi⟩

/-- A `DUMMY_BEFORE` is entered in a set only when it is visited. -/
theorem markerWalk_mem {l : List MachineInstr} {m : List Nat × List Nat} {i : Nat}
    (h : i ∈ (markerWalk O l m).1 ∨ i ∈ (markerWalk O l m).2) :
    (i ∈ m.1 ∨ i ∈ m.2) ∨ (∃ y ∈ visited O l, y.isBefore = true ∧ y.id = i) ∨
      ∃ y ∈ l, y.isAfter = true ∧ y.id = i := by
  induction l generalizing m with
  | nil => exact Or.inl h
  | cons mi rest ih =>
      have hstep : ∀ {j}, j ∈ (addMarkers mi rest m).1 ∨ j ∈ (addMarkers mi rest m).2 →
          (j ∈ m.1 ∨ j ∈ m.2) ∨ (mi.isBefore = true ∧ mi.id = j) ∨
            ∃ y ∈ mi :: rest, y.isAfter = true ∧ y.id = j := by
        intro j hj
        have hins : ∀ L : List Nat, j ∈ insertInstr L (nextAfter rest) →
            j ∈ L ∨ ∃ y ∈ mi :: rest, y.isAfter = true ∧ y.id = j := by
          intro L hL
          cases hn : nextAfter rest with
          | none => rw [hn] at hL; exact Or.inl hL
          | some a =>
              rw [hn, insertInstr, List.mem_insert_iff] at hL
              rcases hL with rfl | hL
              · exact Or.inr ⟨a, List.mem_cons_of_mem _ (List.mem_of_find?_eq_some hn),
                  List.find?_some hn, rfl⟩
              · exact Or.inl hL
        unfold addMarkers at hj
        split_ifs at hj
        · rcases hj with hj | hj
          · tauto
          · rcases hins _ hj with hj | hj
            · rw [List.mem_insert_iff] at hj; tauto
            · tauto
        · rcases hj with hj | hj
          · rcases hins _ hj with hj | hj
            · rw [List.mem_insert_iff] at hj; tauto
            · tauto
          · tauto
        · tauto
      rw [markerWalk] at h
      unfold visited
      split_ifs at h ⊢ with hs
      · rcases hstep h with h | h | h
        · exact Or.inl h
        · exact Or.inr (Or.inl ⟨mi, by simp, h⟩)
        · exact Or.inr (Or.inr h)
      · rcases ih h with h | ⟨y, hy, hi⟩ | ⟨y, hy, hi⟩
        · rcases hstep h with h | h | h
          · exact Or.inl h
          · exact Or.inr (Or.inl ⟨mi, by simp, h⟩)
          · exact Or.inr (Or.inr h)
        · exact Or.inr (Or.inl ⟨y, by simp [hy], hi⟩)
        · exact Or.inr (Or.inr ⟨y, by simp [hy], hi⟩)

/-- The first walk changes nothing but the LFENCE it may insert in the visited part. -/
theorem collect_instrs (T : Target) (bb : MachineBasicBlock) (fresh : Nat)
    {l rest : List MachineInstr} (c : Collected) (hl : l = visited O l ++ rest) :
    ∃ V, (collect O T fresh bb l c).2 = V ++ rest ∧
      ∀ y ∈ V, y ∈ visited O l ∨ y = newLFENCE fresh := by
  induction l generalizing c with
  | nil =>
      have hrest : rest = [] := by simpa [visited] using hl.symm
      subst hrest
      exact ⟨[], rfl, by simp⟩
  | cons mi l ih =>
      simp only [collect]
      by_cases h1 : mi.opcode = .LFENCE
      · have hs : Stops O mi := Or.inl h1
        rw [visited, if_pos hs] at hl ⊢
        rw [if_pos h1]
        have hrest : l = rest := by simpa using hl
        exact ⟨[mi], by simp [hrest], fun y hy => Or.inl hy⟩
      · rw [if_neg h1]
        by_cases h2 : stopsX87 O mi = true
        · have hs : Stops O mi := Or.inr h2
          rw [visited, if_pos hs] at hl ⊢
          rw [if_pos h2]
          have hrest : l = rest := by simpa using hl
          refine ⟨[newLFENCE fresh, mi], by simp [hrest], fun y hy => ?_⟩
          simp only [List.mem_cons, List.not_mem_nil, or_false] at hy ⊢
          exact hy.symm
        · have hns : ¬ Stops O mi := fun hs => hs.elim h1 h2
          rw [visited, if_neg hns] at hl ⊢
          rw [if_neg h2]
          have hl' : l = visited O l ++ rest := by simpa using hl
          obtain ⟨V, hV, hmem⟩ := ih
            (collectInstr O T bb mi (propagateLoadDep mi (collectMarker mi l c))) hl'
          refine ⟨mi :: V, by simp only [hV, List.cons_append], fun y hy => ?_⟩
          rcases List.mem_cons.mp hy with rfl | hy
          · exact Or.inl (by simp)
          · exact (hmem y hy).imp_left fun h => by simp [h]

/-- The second walk over two stretches; the second starts with the last instruction of the first
as its previous node. -/
theorem hardenWalk_append (bb : MachineBasicBlock) (prev prevPrev : Option MachineInstr)
    (l l' : List MachineInstr) (w : Hardened) :
    ∃ pp, hardenWalk O T F bb prevPrev prev (l ++ l') w =
      hardenWalk O T F bb pp (l.getLast?.or prev) l' (hardenWalk O T F bb prevPrev prev l w) := by
  induction l generalizing prev prevPrev w with
  | nil => exact ⟨prevPrev, rfl⟩
  | cons mi l ih =>
      obtain ⟨pp, h⟩ := ih (some mi) prev (visitInstr O T F bb prev prevPrev mi w)
      refine ⟨pp, ?_⟩
      rw [List.cons_append, hardenWalk, h, hardenWalk, List.getLast?_cons]
      cases l.getLast? <;> rfl

/-! ## The theorem -/

theorem id_lt_freshId {mi : MachineInstr} (h : mi ∈ F.flatten) : mi.id < freshId F := by
  have hle : ∀ {l : List Nat} {n : Nat}, n ∈ l → n ≤ l.foldr max 0 := by
    intro l n hn
    induction l with
    | nil => simp at hn
    | cons k l ih =>
        rw [List.foldr_cons]
        rcases List.mem_cons.mp hn with rfl | hn
        · exact Nat.le_max_left ..
        · exact Nat.le_trans (ih hn) (Nat.le_max_right ..)
  exact Nat.lt_succ_of_le (hle (List.mem_map_of_mem h))

theorem not_isMarker_newLFENCE (fresh : Nat) : (newLFENCE fresh).isMarker = false := rfl

theorem mem_eraseAll {ids : List Nat} {l : List MachineInstr} {mi : MachineInstr} :
    mi ∈ eraseAll ids l ↔ mi ∈ l ∧ mi.id ∉ ids := by
  simp [eraseAll]

/-- A block with paired markers, none of them behind a stop, loses every marker, once. -/
theorem hardenBlock_erases (hO : O.HardenLoads = true) (hwf : ∀ x ∈ bb, x.WF)
    (hnd : (bb.map MachineInstr.id).Nodup) (hp : Paired bb) (hstop : NoMarkerBehindStop O bb) :
    (∀ mi ∈ (hardenBlock O T F bb).instrs, mi.isMarker = false) ∧
      (hardenBlock O T F bb).erased.Nodup := by
  have hc : collectBlock O T F bb = collect O T (freshId F) bb bb {} := by
    rw [collectBlock, if_pos hO]
  have hsets : (collect O T (freshId F) bb bb {}).1.markers =
      markerWalk O bb ({} : Collected).markers := collect_markers ..
  obtain ⟨hok, hall⟩ := markerWalk_paired hp hwf hstop hnd (m := ({} : Collected).markers)
    ⟨List.nodup_nil, List.nodup_nil, by simp [Collected.markers], by simp [Collected.markers],
      by simp [Collected.markers]⟩
  rw [← hsets, ← hc] at hok hall
  have hin : ∀ mi ∈ (collectBlock O T F bb).2, mi.isMarker = true → mi ∈ bb := by
    obtain ⟨rest, hrest⟩ := visited_prefix (O := O) bb
    obtain ⟨V, hV, hmem⟩ := collect_instrs T bb (freshId F) {} hrest
    intro mi hmi hmark
    rw [hc, hV, List.mem_append] at hmi
    rw [hrest, List.mem_append]
    rcases hmi with hmi | hmi
    · rcases hmem mi hmi with h | rfl
      · exact Or.inl h
      · simp [not_isMarker_newLFENCE] at hmark
    · exact Or.inr hmi
  generalize hcb : collectBlock O T F bb = c at hok hall hin
  simp only [hardenBlock, hcb]
  generalize hwalked : eraseAll c.1.StandAloneGEPDummyInstr c.2 = walked
  obtain ⟨hHnd, hHmem⟩ := hardenWalk_protected O T F walked walked
    (startHardening O c.1) rfl
  generalize (hardenWalk O T F walked none none walked
    (startHardening O c.1)) = w at hHnd hHmem
  constructor
  · intro mi hmi
    simp only [mem_eraseAll, List.mem_filter] at hmi
    by_contra hmark
    rw [Bool.not_eq_false] at hmark
    rw [← hwalked, mem_eraseAll] at hmi
    rcases hall mi (hin mi hmi.1.1.1 hmark) hmark with h | h
    · exact hmi.2 ⟨h, by simpa using hmi.1.2⟩
    · exact hmi.1.1.2 h
  · have hdisj : ∀ i ∈ w.DummyInstrHardenedBySLH, i ∉ c.1.StandAloneGEPDummyInstr := by
      intro i hi hsa
      obtain ⟨y, hy, rfl⟩ := List.mem_map.mp (hHmem i hi)
      rw [← hwalked, mem_eraseAll] at hy
      exact hy.2 hsa
    rw [List.nodup_append, List.nodup_append]
    refine ⟨⟨hok.nodup₂, hHnd, ?_⟩, hok.nodup₁.filter _, ?_⟩
    · rintro i hi j hj rfl
      exact hdisj i hj hi
    · rintro i hi j hj rfl
      rw [List.mem_filter] at hj
      rcases List.mem_append.mp hi with hi | hi
      · exact hok.disjoint i hj.1 hi
      · simp [hi] at hj

/-- No conditional branch is visited before a marker, which would be a terminator. -/
theorem not_conditionalBranch_of_marker (hF : WF F) (hbb : bb ∈ F) {before rest : List MachineInstr}
    (heq : bb = before ++ rest) {x : MachineInstr} (hx : x ∈ rest) (hmark : x.isMarker = true)
    {y : MachineInstr} (hy : y ∈ before) : y.isConditionalBranch = false := by
  have hxF : x ∈ F.flatten :=
    List.mem_flatten.mpr ⟨bb, hbb, heq ▸ List.mem_append_right _ hx⟩
  by_contra hcb
  rw [Bool.not_eq_false] at hcb
  obtain ⟨p, q, hpq⟩ := List.append_of_mem hy
  rcases hF.terminators bb hbb p (q ++ rest) y (by rw [heq, hpq]; simp) hcb x
    (List.mem_append_right _ hx) with h | h | h
  · simp [(hF.terminator x hxF (Or.inl h)).1] at hmark
  · simp [(hF.terminator x hxF (Or.inr h)).1] at hmark
  · rw [(hF.instr x hxF).marker hmark] at h
    exact Bool.noConfusion h

/-- A walk over instructions that are not queued protects nothing. -/
theorem hardenWalk_of_not_queued {l : List MachineInstr} {w : Hardened} (walked : MachineBasicBlock)
    (prev prevPrev : Option MachineInstr) (hq : ∀ y ∈ l, ¬ Queued w.sets y.id) :
    (hardenWalk O T F walked prevPrev prev l w).DummyInstrHardenedBySLH =
      w.DummyInstrHardenedBySLH := by
  have hsame : Protects (fun L => L = w.DummyInstrHardenedBySLH) w
      (hardenWalk O T F walked prevPrev prev l w) := by
    refine hardenWalk_protects (S := prev.toList ++ (prevPrev.toList ++ l))
      (fun y hy => by simp [hy]) (fun y hy => ?_) (fun y hy => ?_) ?_
    · exact List.mem_append_left _ (Option.mem_toList.mpr hy)
    · exact List.mem_append_right _ (List.mem_append_left _ (Option.mem_toList.mpr hy))
    · exact fun y hy hqueued => absurd hqueued (hq y hy)
  exact hsame.kept rfl

/-- A `DUMMY_BEFORE` behind a stop survives. -/
theorem hardenBlock_keeps (hO : O.HardenLoads = true) (hF : WF F) (hbb : bb ∈ F)
    {pre post : List MachineInstr} {s x : MachineInstr} (heq : bb = pre ++ s :: post)
    (hs : Stops O s) (hx : x ∈ post) (hbefore : x.isBefore = true) :
    x ∈ (hardenBlock O T F bb).instrs := by
  obtain ⟨rest, hrest, hxrest⟩ := exists_unvisited heq hs hx
  have hsub : ∀ y ∈ bb, y ∈ F.flatten := fun y hy => List.mem_flatten.mpr ⟨bb, hbb, hy⟩
  have hxbb : x ∈ bb := by rw [hrest]; exact List.mem_append_right _ hxrest
  have hxmark : x.isMarker = true := by simp [MachineInstr.isMarker, hbefore]
  have hnd : (bb.map MachineInstr.id).Nodup :=
    hF.nodup.sublist (List.Sublist.map _ (List.sublist_flatten_of_mem hbb))
  -- Visited and unvisited instructions have different identities.
  have hapart : ∀ y ∈ visited O bb, ∀ z ∈ rest, y.id ≠ z.id := by
    rw [hrest, List.map_append, List.nodup_append] at hnd
    intro y hy z hz
    exact hnd.2.2 _ (List.mem_map_of_mem (hrest ▸ hy)) _ (List.mem_map_of_mem hz)
  have hbr : ∀ y ∈ visited O bb, y.isConditionalBranch = false :=
    fun y hy => not_conditionalBranch_of_marker hF hbb hrest hxrest hxmark hy
  obtain ⟨V, hV, hVmem⟩ := collect_instrs T bb (freshId F) {} hrest
  have hc : collectBlock O T F bb = collect O T (freshId F) bb bb {} := by
    rw [collectBlock, if_pos hO]
  have hVid : ∀ y ∈ V, ∀ z ∈ rest, y.id ≠ z.id := by
    intro y hy z hz
    rcases hVmem y hy with h | rfl
    · exact hapart y h z hz
    · have := id_lt_freshId (hsub z (by rw [hrest]; exact List.mem_append_right _ hz))
      exact fun h => absurd (h ▸ this) (Nat.lt_irrefl _)
  have hsets : ∀ i, i ∈ (collectBlock O T F bb).1.DummyInstr ∨
      i ∈ (collectBlock O T F bb).1.StandAloneGEPDummyInstr → i ≠ x.id := by
    rintro i hi rfl
    have hmarkers : (collectBlock O T F bb).1.markers =
        markerWalk O bb ({} : Collected).markers := by rw [hc]; exact collect_markers ..
    have hi' : x.id ∈ (markerWalk O bb ({} : Collected).markers).1 ∨
        x.id ∈ (markerWalk O bb ({} : Collected).markers).2 := by rw [← hmarkers]; exact hi
    rcases markerWalk_mem hi' with h | ⟨y, hy, -, h⟩ | ⟨y, hy, ha, h⟩
    · simp [Collected.markers] at h
    · exact hapart y hy x hxrest h
    · have hyx : y = x := List.inj_on_of_nodup_map hnd hy hxbb h
      rw [hyx, MachineInstr.not_isAfter_of_isBefore hbefore] at ha
      exact absurd ha (by decide)
  have hqueued : ∀ y ∈ rest, ¬ Queued (collectBlock O T F bb).1 y.id := by
    intro y hy hq
    rw [hc] at hq
    rcases collect_queued hbr hq with h | ⟨z, hz, h⟩
    · simp [Queued] at h
    · exact hapart z hz y hy h
  rw [← hc] at hV
  generalize hcb : collectBlock O T F bb = c at hV hsets hqueued
  simp only [hardenBlock, hcb]
  generalize hwalked : eraseAll c.1.StandAloneGEPDummyInstr c.2 = walked
  have hsplit : walked = eraseAll c.1.StandAloneGEPDummyInstr V ++
      eraseAll c.1.StandAloneGEPDummyInstr rest := by
    rw [← hwalked, hV, eraseAll, List.filter_append]; rfl
  -- What is protected stands in the visited part.
  have hprot : ∀ i ∈ (hardenWalk O T F walked none none walked
      (startHardening O c.1)).DummyInstrHardenedBySLH, i ≠ x.id := by
    obtain ⟨pp, happ⟩ := hardenWalk_append (O := O) (T := T) (F := F) walked none none
      (eraseAll c.1.StandAloneGEPDummyInstr V) (eraseAll c.1.StandAloneGEPDummyInstr rest)
      (startHardening O c.1)
    rw [← hsplit] at happ
    rw [happ]
    obtain ⟨-, hmem⟩ := hardenWalk_protected O T F walked
      (eraseAll c.1.StandAloneGEPDummyInstr V)
      (startHardening O c.1) rfl
    have hshrink : Protects (fun _ => True) (startHardening O c.1)
        (hardenWalk O T F walked none none (eraseAll c.1.StandAloneGEPDummyInstr V)
          (startHardening O c.1)) :=
      hardenWalk_protects (List.Subset.refl _) (by simp) (by simp)
        fun _ _ _ _ _ _ _ _ _ => trivial
    generalize hardenWalk O T F walked none none (eraseAll c.1.StandAloneGEPDummyInstr V)
      (startHardening O c.1) = w at hmem hshrink
    generalize ((eraseAll c.1.StandAloneGEPDummyInstr V).getLast?.or none) = p
    rw [hardenWalk_of_not_queued walked p pp fun y hy hq =>
      hqueued y (mem_eraseAll.mp hy).1 (hshrink.queued _ hq)]
    rintro i hi rfl
    obtain ⟨y, hy, hid⟩ := List.mem_map.mp (hmem _ hi)
    exact hVid y (mem_eraseAll.mp hy).1 x hxrest hid
  have hxsa : x.id ∉ c.1.StandAloneGEPDummyInstr := fun h => hsets _ (Or.inr h) rfl
  have hxd : x.id ∉ c.1.DummyInstr := fun h => hsets _ (Or.inl h) rfl
  rw [mem_eraseAll, mem_eraseAll]
  refine ⟨⟨?_, fun h => hprot _ h rfl⟩, fun h => hxd (List.mem_filter.mp h).1⟩
  rw [hsplit, List.mem_append, mem_eraseAll, mem_eraseAll]
  exact Or.inr ⟨hxrest, hxsa⟩

/-- **When the markers are erased.** With loads hardened and markers paired, no block keeps a
marker and none is erased twice, if and only if no `DUMMY_BEFORE` stands behind an instruction
that stops the first walk. -/
theorem markers_erased_iff (hO : O.HardenLoads = true) (hF : WF F) (hp : ∀ bb ∈ F, Paired bb) :
    (∀ r ∈ tracePredStateThroughBlocksAndHarden O T F,
        (∀ mi ∈ r.instrs, mi.isMarker = false) ∧ r.erased.Nodup) ↔
      ∀ bb ∈ F, NoMarkerBehindStop O bb := by
  constructor
  · intro h bb hbb pre s post heq hs x hx
    by_contra hb
    rw [Bool.not_eq_false] at hb
    have hkept := hardenBlock_keeps (T := T) hO hF hbb heq hs hx hb
    have := (h _ (List.mem_map_of_mem hbb)).1 x hkept
    simp [MachineInstr.isMarker, hb] at this
  · intro h r hr
    obtain ⟨bb, hbb, rfl⟩ := List.mem_map.mp hr
    exact hardenBlock_erases hO
      (fun x hx => hF.instr x (List.mem_flatten.mpr ⟨bb, hbb, hx⟩))
      (hF.nodup.sublist (List.Sublist.map _ (List.sublist_flatten_of_mem hbb)))
      (hp bb hbb) (h bb hbb)

/-! ## A pair before a fence, and one behind it -/

def anyTarget : Target where
  canHardenRegister := fun _ => true
  hardenStore := fun _ => true

theorem Paired.cons_pair (b a : Nat) {rest : List MachineInstr} (h : Paired rest) :
    Paired (dummyBefore b :: dummyAfter a :: rest) :=
  @Paired.pair (dummyBefore b) (dummyAfter a) [] rest rfl (by simp) rfl h

/-- A block of a pair of markers and a fence behind it. -/
theorem markers_erased_before_fence :
    WF [[dummyBefore 0, dummyAfter 1, newLFENCE 2]] ∧
      ∀ r ∈ tracePredStateThroughBlocksAndHarden {} anyTarget
        [[dummyBefore 0, dummyAfter 1, newLFENCE 2]],
        (∀ mi ∈ r.instrs, mi.isMarker = false) ∧ r.erased.Nodup := by
  have hwf : WF [[dummyBefore 0, dummyAfter 1, newLFENCE 2]] := by
    refine .of_no_terminators (by decide) ?_ (by decide)
    simp only [List.flatten_cons, List.flatten_nil, List.append_nil, List.mem_cons,
      List.not_mem_nil, or_false, forall_eq_or_imp, forall_eq]
    exact ⟨dummyBefore_wf 0, dummyAfter_wf 1,
      ⟨by decide, by decide, by decide, by decide, by decide⟩⟩
  refine ⟨hwf, (markers_erased_iff rfl hwf ?_).mpr ?_⟩
  · simp only [List.mem_singleton, forall_eq]
    exact .cons_pair 0 1 (.plain rfl .nil)
  · simp only [List.mem_singleton, forall_eq]
    intro pre s post heq hs x hx
    have hb : x ∈ [dummyAfter 1, newLFENCE 2] := by
      cases pre with
      | nil => simp at heq; rw [heq.2]; exact hx
      | cons _ pre => simp at heq; rw [heq.2]; simp [hx]
    exact (by decide : ∀ x ∈ [dummyAfter 1, newLFENCE 2], x.isBefore = false) x hb

/-- The markers behind a fence are left in the block. -/
theorem markers_left_behind_fence :
    WF [[newLFENCE 0, dummyBefore 1, dummyAfter 2]] ∧
      (∀ bb ∈ [[newLFENCE 0, dummyBefore 1, dummyAfter 2]], Paired bb) ∧
      ¬ ∀ r ∈ tracePredStateThroughBlocksAndHarden {} anyTarget
        [[newLFENCE 0, dummyBefore 1, dummyAfter 2]],
        (∀ mi ∈ r.instrs, mi.isMarker = false) ∧ r.erased.Nodup := by
  refine ⟨.of_no_terminators (by decide) ?_ (by decide), ?_, by decide⟩
  · simp only [List.flatten_cons, List.flatten_nil, List.append_nil, List.mem_cons,
      List.not_mem_nil, or_false, forall_eq_or_imp, forall_eq]
    exact ⟨⟨by decide, by decide, by decide, by decide, by decide⟩, dummyBefore_wf 1,
      dummyAfter_wf 2⟩
  · simp only [List.mem_singleton, forall_eq]
    exact .plain rfl (.cons_pair 1 2 .nil)

end MSV.SLH
