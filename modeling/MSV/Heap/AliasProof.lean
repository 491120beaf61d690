import MSV.Heap.Uriah

/-!
# When the unsafe heap pointers are closed under aliases

The loop over the unsafe pointers meets those that were unsafe from the start, and of the aliases
it adds those whose key is greater than the one it has come to. An alias with a smaller key is in
the set at the end, but its own aliases were never added.

**Theorem (`aliases_closed`).** For every order of the keys the sets are closed under aliases, and
they are the same for all orders, if and only if the aliases of the pointers that are unsafe from
the start, together with these, are closed already.
-/

namespace MSV

variable {M : Module} {env : AliasEnv} {st : AnalysisState} {key : Value → Nat} {v p : Value}

/-! ## The next pointer -/

/-- The key lies behind the cursor. -/
def Ahead (key : Value → Nat) (cursor : Option Nat) (v : Value) : Prop :=
  cursor.all (· < key v) = true

instance (key : Value → Nat) (cursor : Option Nat) (v : Value) : Decidable (Ahead key cursor v) :=
  inferInstanceAs (Decidable (_ = true))

theorem foldl_nextPointer {cursor : Option Nat} (l : List Value) : ∀ best : Option Value,
    match l.foldl (lesserPointer key cursor) best with
    | none => best = none ∧ ∀ v ∈ l, ¬ Ahead key cursor v
    | some p => (best = some p ∨ p ∈ l ∧ Ahead key cursor p) ∧
        (∀ v ∈ l, Ahead key cursor v → key p ≤ key v) ∧ ∀ b, best = some b → key p ≤ key b := by
  induction l with
  | nil =>
      intro best
      cases best with
      | none => simp
      | some b => simp
  | cons w l ih =>
      intro best
      rw [List.foldl_cons]
      by_cases hw : Ahead key cursor w
      · have hw' : cursor.all (· < key w) = true := hw
        cases best with
        | none =>
            have hstep : lesserPointer key cursor none w = some w := if_pos hw'
            have := ih (some w)
            rw [hstep]
            revert this
            split <;> grind
        | some b =>
            have hstep : lesserPointer key cursor (some b) w =
                if key w < key b then some w else some b := if_pos hw'
            rw [hstep]
            by_cases hlt : key w < key b
            · rw [if_pos hlt]
              have := ih (some w)
              revert this
              split <;> grind
            · rw [if_neg hlt]
              have := ih (some b)
              revert this
              split <;> grind
      · have hw' : ¬ cursor.all (· < key w) = true := hw
        have hstep : lesserPointer key cursor best w = best := if_neg hw'
        have := ih best
        rw [hstep]
        revert this
        split <;> grind

theorem nextPointer_none {cursor : Option Nat} {s : PointerSet}
    (h : nextPointer key cursor s = none) : ∀ v, s.has v → ¬ Ahead key cursor v := by
  intro v hv
  have := @foldl_nextPointer key cursor (s.entries.map (·.1)) none
  rw [nextPointer] at h
  rw [h] at this
  obtain ⟨e, he, rfl⟩ := FMap.mem_keys_iff_has.mpr hv
  exact this.2 e.1 (List.mem_map.mpr ⟨e, he, rfl⟩)

theorem nextPointer_some {cursor : Option Nat} {s : PointerSet}
    (h : nextPointer key cursor s = some p) :
    s.has p ∧ Ahead key cursor p ∧ ∀ v, s.has v → Ahead key cursor v → key p ≤ key v := by
  have := @foldl_nextPointer key cursor (s.entries.map (·.1)) none
  rw [nextPointer] at h
  rw [h] at this
  obtain ⟨hp | ⟨hp, hahead⟩, hmin, -⟩ := this
  · cases hp
  · obtain ⟨e, he, rfl⟩ := List.mem_map.mp hp
    refine ⟨FMap.mem_keys_iff_has.mp ⟨e, he, rfl⟩, hahead, fun v hv => ?_⟩
    obtain ⟨e', he', rfl⟩ := FMap.mem_keys_iff_has.mpr hv
    exact hmin e'.1 (List.mem_map.mpr ⟨e', he', rfl⟩)

/-! ## The sets by name -/

/-- The sets of `HeapSets`. -/
inductive HeapSetName where
  | heap | unique | aliases | all | seq | dyn | dynCast

def HeapSets.get (s : HeapSets) : HeapSetName → PointerSet
  | .heap => s.heapPointerSet
  | .unique => s.unsafeUniqueHeapPointerSet
  | .aliases => s.unsafeAliasHeapPointerSet
  | .all => s.unsafeHeapPointerSet
  | .seq => s.heapSeqPointerSet
  | .dyn => s.heapDynPointerSet
  | .dynCast => s.heapDynPtrSet

/-- Whether an alias with the entry `info` is put into the set. -/
def HeapSetName.takes (M : Module) (v : Value) (info : VariableInfo) : HeapSetName → Bool
  | .heap | .aliases | .all => true
  | .unique => info.classification.isUnsafe
  | .seq => info.classification = .seq
  | .dyn => info.classification = .dyn
  | .dynCast => info.classification = .dyn && isCast M v

/-- Whether a heap pointer with the entry `info` is in the set before the loop. -/
def HeapSetName.takesFirst (M : Module) (v : Value) (info : VariableInfo) : HeapSetName → Bool
  | .heap => true
  | .aliases => false
  | .all => info.classification.isUnsafe
  | n => n.takes M v info

/-- The aliases the loop goes through for a pointer. -/
def aliasesOf (M : Module) (env : AliasEnv) (p : Value) : List Inst :=
  match p with
  | .inst id =>
      match M.inst? id with
      | none => []
      | some i =>
          match env.aliasInNeighbors i with
          | none => []
          | some ns => aliasSet M env i ns
  | _ => []

theorem expandPointer_eq (s : HeapSets) :
    expandPointer M env st p s = (aliasesOf M env p).foldl (addAlias M st) s := by
  unfold expandPointer aliasesOf
  cases p with
  | inst id =>
      dsimp only
      cases M.inst? id with
      | none => rfl
      | some i =>
          dsimp only
          cases env.aliasInNeighbors i with
          | none => rfl
          | some ns => rfl
  | _ => rfl

/-- The alias the loop adds for `p`, with its entry. -/
def AddedAlias (M : Module) (env : AliasEnv) (st : AnalysisState) (p v : Value)
    (info : VariableInfo) : Prop :=
  (∃ j ∈ aliasesOf M env p, v = .inst j.id) ∧ st.GetPointerVariableInfo v = some info

theorem find_addAlias {s : HeapSets} {j : Inst} {n : HeapSetName} :
    ((addAlias M st s j).get n).find v =
      match st.GetPointerVariableInfo (.inst j.id) with
      | none => (s.get n).find v
      | some info => if v = .inst j.id ∧ n.takes M v info = true then some info
          else (s.get n).find v := by
  unfold addAlias
  dsimp only
  cases st.GetPointerVariableInfo (.inst j.id) with
  | none => rfl
  | some info =>
      by_cases hv : v = .inst j.id
      · subst hv
        cases hc : info.classification <;> cases hcast : isCast M (.inst j.id) <;> cases n <;>
          simp [HeapSets.get, HeapSetName.takes, VariableStates.isUnsafe, hc, hcast]
      · cases hc : info.classification <;> cases hcast : isCast M (.inst j.id) <;> cases n <;>
          simp [HeapSets.get, HeapSetName.takes, VariableStates.isUnsafe, hc, hv, FMap.find_set_ne]

/-- What the aliases of one pointer add to a set. -/
theorem has_expandPointer {s : HeapSets} {n : HeapSetName} :
    ((expandPointer M env st p s).get n).has v ↔ (s.get n).has v ∨
      ∃ info, AddedAlias M env st p v info ∧ n.takes M v info = true := by
  rw [expandPointer_eq]
  unfold AddedAlias
  induction aliasesOf M env p generalizing s with
  | nil => simp
  | cons j l ih =>
      rw [List.foldl_cons, ih, FMap.has_iff_find, find_addAlias]
      by_cases hv : v = .inst j.id
      · subst hv
        cases hget : st.GetPointerVariableInfo (.inst j.id) with
        | none => simp [FMap.has_iff_find]
        | some info => cases ht : n.takes M (.inst j.id) info <;> simp [FMap.has_iff_find, ht]
      · cases st.GetPointerVariableInfo (.inst j.id) <;> simp [FMap.has_iff_find, hv]

/-- Every entry is the one the state has. -/
def FromState (st : AnalysisState) (s : HeapSets) : Prop :=
  ∀ n v info, (s.get n).find v = some info → st.GetPointerVariableInfo v = some info

theorem FromState.expandPointer {s : HeapSets} (h : FromState st s) :
    FromState st (expandPointer M env st p s) := by
  rw [expandPointer_eq]
  induction aliasesOf M env p generalizing s with
  | nil => exact h
  | cons j l ih =>
      refine ih fun n v info hf => ?_
      rw [find_addAlias] at hf
      cases hget : st.GetPointerVariableInfo (.inst j.id) with
      | none =>
          rw [hget] at hf
          exact h n v info hf
      | some info' =>
          rw [hget] at hf
          dsimp only at hf
          split at hf
          · rename_i hv
            rw [hv.1, hget, hf]
          · exact h n v info hf

/-! ## Before the loop -/

variable {H : PointerSet}

theorem find_classifyHeapPointer {s : HeapSets} {w : Value} {info : VariableInfo}
    {n : HeapSetName} (hn : n ≠ .heap) :
    ((classifyHeapPointer M s w info).get n).find v =
      if v = w ∧ n.takesFirst M w info = true then some info else (s.get n).find v := by
  unfold classifyHeapPointer
  dsimp only
  by_cases hv : v = w
  · subst hv
    cases hc : info.classification <;> cases hcast : isCast M v <;> cases n <;>
      simp_all [HeapSets.get, HeapSetName.takes, HeapSetName.takesFirst, VariableStates.isUnsafe]
  · cases hc : info.classification <;> cases hcast : isCast M w <;> cases n <;>
      simp_all [HeapSets.get, HeapSetName.takes, HeapSetName.takesFirst, VariableStates.isUnsafe,
        FMap.find_set_ne]

theorem heap_classifyHeapPointer {s : HeapSets} {w : Value} {info : VariableInfo} :
    (classifyHeapPointer M s w info).heapPointerSet = s.heapPointerSet := by
  unfold classifyHeapPointer
  dsimp only
  split
  · split <;> rfl
  · rfl

theorem heap_identify : (identifyHeapObjectClassification M H).heapPointerSet = H := by
  unfold identifyHeapObjectClassification
  exact List.foldlRecOn (motive := fun s : HeapSets => s.heapPointerSet = H) _ _ rfl
    fun _ h _ _ => heap_classifyHeapPointer.trans h

theorem foldl_classifyHeapPointer {n : HeapSetName} (hn : n ≠ .heap)
    (l : List (Sigma fun _ : Value => VariableInfo)) : ∀ s : HeapSets,
    (((l.foldl (fun s e => classifyHeapPointer M s e.1 e.2) s).get n).has v ↔
      (s.get n).has v ∨ ∃ e ∈ l, v = e.1 ∧ n.takesFirst M e.1 e.2 = true) ∧
    ∀ info, ((l.foldl (fun s e => classifyHeapPointer M s e.1 e.2) s).get n).find v = some info →
      (s.get n).find v = some info ∨ ⟨v, info⟩ ∈ l := by
  induction l with
  | nil => intro s; simp
  | cons e l ih =>
      intro s
      obtain ⟨ih₁, ih₂⟩ := ih (classifyHeapPointer M s e.1 e.2)
      rw [List.foldl_cons]
      constructor
      · rw [ih₁, FMap.has_iff_find, find_classifyHeapPointer hn]
        by_cases h : v = e.1 ∧ n.takesFirst M e.1 e.2 = true
        · simp [h]
        · rw [if_neg h, FMap.has_iff_find, List.exists_mem_cons_iff]
          simp [h]
      · intro info hf
        obtain hf | hf := ih₂ info hf
        · rw [find_classifyHeapPointer hn] at hf
          split at hf
          · rename_i h
            refine Or.inr (List.mem_cons.mpr (Or.inl ?_))
            obtain ⟨w, info'⟩ := e
            obtain rfl := h.1
            have hinfo : info' = info := Option.some.inj hf
            rw [hinfo]
          · exact Or.inl hf
        · exact Or.inr (List.mem_cons_of_mem _ hf)

theorem has_identify {n : HeapSetName} :
    ((identifyHeapObjectClassification M H).get n).has v ↔
      ∃ info, H.find v = some info ∧ n.takesFirst M v info = true := by
  have hentry : ∀ info, ⟨v, info⟩ ∈ H.entries ↔ H.find v = some info :=
    fun info => AList.mem_lookup_iff.symm
  by_cases hn : n = .heap
  · subst hn
    show (identifyHeapObjectClassification M H).heapPointerSet.has v ↔ _
    rw [heap_identify, FMap.has_iff_find]
    simp [HeapSetName.takesFirst]
  · refine (foldl_classifyHeapPointer hn _ _).1.trans ?_
    constructor
    · intro h
      obtain h | ⟨⟨w, info⟩, he, rfl, ht⟩ := h
      · cases n <;> first | exact absurd rfl hn | exact absurd h (FMap.not_has_empty _)
      · exact ⟨info, (hentry info).mp he, ht⟩
    · intro h
      obtain ⟨info, hf, ht⟩ := h
      exact Or.inr ⟨⟨v, info⟩, (hentry info).mpr hf, rfl, ht⟩

theorem fromState_identify
    (hagree : ∀ v info, H.find v = some info → st.GetPointerVariableInfo v = some info) :
    FromState st (identifyHeapObjectClassification M H) := by
  intro n v info hf
  apply hagree
  by_cases hn : n = .heap
  · subst hn
    have hf' : (identifyHeapObjectClassification M H).heapPointerSet.find v = some info := hf
    rwa [heap_identify] at hf'
  · obtain hf | hf := (foldl_classifyHeapPointer hn _ _).2 info hf
    · cases n <;> first | exact absurd rfl hn | cases hf
    · exact AList.mem_lookup_iff.mpr hf

/-! ## The loop -/

/-- A heap pointer that is unsafe from the start. -/
def UnsafeFirst (H : PointerSet) (v : Value) : Prop :=
  ∃ info, H.find v = some info ∧ info.classification.isUnsafe = true

/-- The pointers a key is asked of. -/
def knownPointers (H : PointerSet) (st : AnalysisState) : List Value :=
  H.entries.map Sigma.fst ++ st.Variables.entries.map Sigma.fst

theorem mem_knownPointers : v ∈ knownPointers H st ↔ H.has v ∨ st.Variables.has v := by
  rw [knownPointers, List.mem_append, ← FMap.mem_keys_iff_has, ← FMap.mem_keys_iff_has]
  simp only [List.mem_map]

/-- The pointers `W` were visited, all of them up to the cursor. -/
structure LoopInv (M : Module) (env : AliasEnv) (st : AnalysisState) (key : Value → Nat)
    (H : PointerSet) (V W : Value → Prop) (e : HeapLoop) : Prop where
  has : ∀ n v, (e.sets.get n).has v ↔
    ((identifyHeapObjectClassification M H).get n).has v ∨
      ∃ p, W p ∧ ∃ info, AddedAlias M env st p v info ∧ n.takes M v info = true
  entries : FromState st e.sets
  passed : ∀ p, W p → ¬ Ahead key e.cursor p
  first : ∀ p, UnsafeFirst H p → ¬ Ahead key e.cursor p → W p
  within : ∀ p, W p → V p
  /-- An unsafe alias with a greater key is met later. -/
  later : ∀ p v info, W p → AddedAlias M env st p v info →
    info.classification.isUnsafe = true → key p < key v → ¬ Ahead key e.cursor v → W v

variable {V W : Value → Prop} {e e' : HeapLoop}

theorem ahead_trans {cursor : Option Nat} {w : Value} (hp : Ahead key cursor p)
    (hw : Ahead key (some (key p)) w) : Ahead key cursor w := by
  cases cursor with
  | none => rfl
  | some c =>
      simp only [Ahead, Option.all_some, decide_eq_true_eq] at hp hw ⊢
      omega

theorem not_ahead_self : ¬ Ahead key (some (key p)) p := by
  simp [Ahead]

theorem LoopInv.known (h : LoopInv M env st key H V W e)
    (hv : e.sets.unsafeUniqueHeapPointerSet.has v) : v ∈ knownPointers H st := by
  rw [mem_knownPointers]
  obtain hfirst | ⟨p, -, info, ⟨⟨j, -, rfl⟩, hget⟩, -⟩ := (h.has .unique v).mp hv
  · obtain ⟨info, hf, -⟩ := has_identify.mp hfirst
    exact Or.inl (FMap.has_of_find hf)
  · exact Or.inr (FMap.has_of_find hget)

/-- What the loop may visit: the first ones, and unsafe aliases with greater keys. -/
structure AscendingClosed (M : Module) (env : AliasEnv) (st : AnalysisState) (key : Value → Nat)
    (H : PointerSet) (V : Value → Prop) : Prop where
  first : ∀ p, UnsafeFirst H p → V p
  closed : ∀ p v info, V p → key p < key v → AddedAlias M env st p v info →
    info.classification.isUnsafe = true → V v

theorem loopInv_initial
    (hagree : ∀ v info, H.find v = some info → st.GetPointerVariableInfo v = some info) :
    LoopInv M env st key H V (fun _ => False) ⟨identifyHeapObjectClassification M H, none⟩ where
  has n v := by simp
  entries := fromState_identify hagree
  passed _ h := h.elim
  first p _ h := absurd rfl h
  within _ h := h.elim
  later _ _ _ h := h.elim

theorem LoopInv.step (hinj : Set.InjOn key {v | v ∈ knownPointers H st})
    (hV : AscendingClosed M env st key H V) (h : LoopInv M env st key H V W e)
    (hstep : e.step M env key st = some e') :
    ∃ p, Ahead key e.cursor p ∧ p ∈ knownPointers H st ∧ e'.cursor = some (key p) ∧
      LoopInv M env st key H V (fun q => W q ∨ q = p) e' := by
  unfold HeapLoop.step at hstep
  cases hnext : nextPointer key e.cursor e.sets.unsafeUniqueHeapPointerSet with
  | none => rw [hnext] at hstep; cases hstep
  | some p =>
      rw [hnext] at hstep
      obtain rfl := Option.some.inj hstep
      obtain ⟨hp, hahead, hmin⟩ := nextPointer_some hnext
      have hpassed : ∀ q, ¬ Ahead key e.cursor q → ¬ Ahead key (some (key p)) q :=
        fun q hq hq' => hq (ahead_trans hahead hq')
      -- what is in the set and passed by this step is the pointer visited
      have hvisited : ∀ q, e.sets.unsafeUniqueHeapPointerSet.has q → Ahead key e.cursor q →
          ¬ Ahead key (some (key p)) q → q = p := by
        intro q hq hq' hnot
        have hge : key q ≤ key p := by simpa [Ahead] using hnot
        exact hinj (h.known hq) (h.known hp) (le_antisymm hge (hmin q hq hq'))
      refine ⟨p, hahead, h.known hp, rfl, ?_, h.entries.expandPointer, ?_, ?_, ?_, ?_⟩
      · intro n v
        rw [has_expandPointer, h.has]
        constructor
        · intro hv
          obtain (hv | ⟨q, hq, hadd⟩) | hadd := hv
          · exact Or.inl hv
          · exact Or.inr ⟨q, Or.inl hq, hadd⟩
          · exact Or.inr ⟨p, Or.inr rfl, hadd⟩
        · intro hv
          obtain hv | ⟨q, hq | rfl, hadd⟩ := hv
          · exact Or.inl (Or.inl hv)
          · exact Or.inl (Or.inr ⟨q, hq, hadd⟩)
          · exact Or.inr hadd
      · intro q hq
        obtain hq | rfl := hq
        · exact hpassed q (h.passed q hq)
        · exact not_ahead_self
      · intro q hq hnot
        by_cases hq' : Ahead key e.cursor q
        · refine Or.inr (hvisited q ?_ hq' hnot)
          exact (h.has .unique q).mpr (Or.inl (has_identify.mpr hq))
        · exact Or.inl (h.first q hq hq')
      · intro q hq
        obtain hq | rfl := hq
        · exact h.within q hq
        · obtain hfirst | ⟨r, hr, info, hadd, htakes⟩ := (h.has .unique q).mp hp
          · exact hV.first q (has_identify.mp hfirst)
          · -- the pointer that added it was visited before
            refine hV.closed r q info (h.within r hr) ?_ hadd htakes
            have hnot := h.passed r hr
            cases hc : e.cursor with
            | none => rw [hc] at hnot; exact absurd rfl hnot
            | some c =>
                rw [hc] at hnot hahead
                simp only [Ahead, Option.all_some, decide_eq_true_eq] at hnot hahead
                omega
      · intro q v info hq hadd hunsafe hlt hnot
        obtain hq | rfl := hq
        · by_cases hv : Ahead key e.cursor v
          · refine Or.inr (hvisited v ?_ hv hnot)
            exact (h.has .unique v).mpr (Or.inr ⟨q, hq, info, hadd, hunsafe⟩)
          · exact Or.inl (h.later q v info hq hadd hunsafe hlt hv)
        · exact absurd (by simpa [Ahead] using hlt) hnot

/-- The keys behind the cursor, which every round makes fewer. -/
def keysAhead (key : Value → Nat) (H : PointerSet) (st : AnalysisState) (e : HeapLoop) : Nat :=
  ((knownPointers H st).toFinset.filter fun v => Ahead key e.cursor v).card

theorem keysAhead_lt (hahead : Ahead key e.cursor p) (hp : p ∈ knownPointers H st)
    (hcursor : e'.cursor = some (key p)) : keysAhead key H st e' < keysAhead key H st e := by
  apply Finset.card_lt_card
  rw [Finset.ssubset_iff_of_subset]
  · refine ⟨p, by simp [hahead, hp], ?_⟩
    rw [hcursor]
    simp [not_ahead_self]
  · intro v hv
    rw [Finset.mem_filter, hcursor] at hv
    exact Finset.mem_filter.mpr ⟨hv.1, ahead_trans hahead hv.2⟩

/-- The sets at the end: what a set of visited pointers, with all the first ones in it, adds. -/
theorem heap_result (hinj : Set.InjOn key {v | v ∈ knownPointers H st})
    (hagree : ∀ v info, H.find v = some info → st.GetPointerVariableInfo v = some info)
    (hV : AscendingClosed M env st key H V) :
    ∃ W : Value → Prop, (∀ p, UnsafeFirst H p → W p) ∧ (∀ p, W p → V p) ∧
      (∀ p v info, W p → AddedAlias M env st p v info → info.classification.isUnsafe = true →
        key p < key v → W v) ∧
      FromState st (identifyAndClassifyUnsafeHeapObjects M env key H st) ∧
      ∀ n v, ((identifyAndClassifyUnsafeHeapObjects M env key H st).get n).has v ↔
        (∃ info, H.find v = some info ∧ n.takesFirst M v info = true) ∨
          ∃ p, W p ∧ ∃ info, AddedAlias M env st p v info ∧ n.takes M v info = true := by
  have hstep : ∀ a b : HeapLoop, (∃ W, LoopInv M env st key H V W a) →
      a.step M env key st = some b →
      (∃ W, LoopInv M env st key H V W b) ∧ keysAhead key H st b < keysAhead key H st a := by
    intro a b ha hab
    obtain ⟨W, hW⟩ := ha
    obtain ⟨p, hahead, hp, hcursor, hW'⟩ := hW.step hinj hV hab
    exact ⟨⟨_, hW'⟩, keysAhead_lt hahead hp hcursor⟩
  have hinit : ∃ W, LoopInv M env st key H V W ⟨identifyHeapObjectClassification M H, none⟩ :=
    ⟨_, loopInv_initial hagree⟩
  have hsize : keysAhead key H st ⟨identifyHeapObjectClassification M H, none⟩ ≤
      H.size + st.Variables.size := by
    refine (Finset.card_filter_le _ _).trans ((List.toFinset_card_le _).trans ?_)
    simp [knownPointers, FMap.size]
  have hend := step_stepN_eq_none hstep _ _ hinit hsize
  obtain ⟨W, hW⟩ := (run_stepN (HeapLoop.step M env key st) (H.size + st.Variables.size)
    ⟨identifyHeapObjectClassification M H, none⟩).invariant hinit
      fun a b ha _ hab => (hstep a b ha hab).1
  -- nothing is left behind the cursor
  have hdone : ∀ v, ((stepN (HeapLoop.step M env key st) (H.size + st.Variables.size)
      ⟨identifyHeapObjectClassification M H, none⟩).sets.get .unique).has v →
      ¬ Ahead key (stepN (HeapLoop.step M env key st) (H.size + st.Variables.size)
        ⟨identifyHeapObjectClassification M H, none⟩).cursor v := by
    apply nextPointer_none
    unfold HeapLoop.step at hend
    split at hend
    · assumption
    · cases hend
  refine ⟨W, fun p hp => hW.first p hp (hdone p ?_), hW.within, ?_, hW.entries, fun n v => ?_⟩
  · exact (hW.has .unique p).mpr (Or.inl (has_identify.mpr hp))
  · intro p v info hp hadd hunsafe hlt
    refine hW.later p v info hp hadd hunsafe hlt (hdone v ?_)
    exact (hW.has .unique v).mpr (Or.inr ⟨p, hp, info, hadd, hunsafe⟩)
  · rw [← has_identify]
    exact hW.has n v

/-! ## Closure under aliases -/

/-- `j` aliases `i`: an in-neighbour in the graph, or an instruction of the same function with a
value node and the same root. -/
def MayAlias (M : Module) (env : AliasEnv) (i j : Inst) : Prop :=
  ∃ ns, env.aliasInNeighbors i = some ns ∧ (j ∈ ns ∨ j ∈ functionInsts M i ∧
    env.hasValueNode (.inst j.id) = true ∧ queryAliasing M (.inst i.id) (.inst j.id) = true)

/-- Every registered alias of a unique unsafe pointer is in the sets it belongs to. -/
def AliasClosed (M : Module) (env : AliasEnv) (st : AnalysisState) (s : HeapSets) : Prop :=
  ∀ i j info, M.inst? i.id = some i → s.unsafeUniqueHeapPointerSet.has (.inst i.id) →
    MayAlias M env i j → st.GetPointerVariableInfo (.inst j.id) = some info →
      s.unsafeHeapPointerSet.has (.inst j.id) ∧
      (info.classification = .seq → s.unsafeUniqueHeapPointerSet.has (.inst j.id) ∧
        s.heapSeqPointerSet.has (.inst j.id)) ∧
      (info.classification = .dyn → s.unsafeUniqueHeapPointerSet.has (.inst j.id) ∧
        s.heapDynPointerSet.has (.inst j.id))

/-- The sets have the same entries. -/
def SameSets (s s' : HeapSets) : Prop := ∀ n v, (s.get n).find v = (s'.get n).find v

/-- Unsafe from the start, or an unsafe alias of such a pointer. -/
def UnsafeSecond (M : Module) (env : AliasEnv) (st : AnalysisState) (H : PointerSet)
    (v : Value) : Prop :=
  UnsafeFirst H v ∨ ∃ p info, UnsafeFirst H p ∧ AddedAlias M env st p v info ∧
    info.classification.isUnsafe = true

/-- The first unsafe pointers and their aliases are closed: a second step finds nothing more. -/
structure OneStepClosed (M : Module) (env : AliasEnv) (st : AnalysisState) (H : PointerSet) :
    Prop where
  alias_of : ∀ i j info, M.inst? i.id = some i → UnsafeSecond M env st H (.inst i.id) →
    MayAlias M env i j → st.GetPointerVariableInfo (.inst j.id) = some info →
      UnsafeFirst H (.inst j.id) ∨ ∃ p, UnsafeFirst H p ∧ AddedAlias M env st p (.inst j.id) info
  added : ∀ p v info, UnsafeSecond M env st H p → AddedAlias M env st p v info →
    ∃ q, UnsafeFirst H q ∧ AddedAlias M env st q v info

/-- Keys that put one kind of pointers before the others. -/
theorem exists_key (L : List Value) (U : Value → Prop) :
    ∃ key : Value → Nat, Set.InjOn key {v | v ∈ L} ∧
      ∀ p v, p ∈ L → U p → ¬ U v → key p < key v := by
  classical
  refine ⟨fun v => if U v then L.idxOf v else L.length + L.idxOf v, ?_, ?_⟩
  · intro v hv w hw hvw
    have hv' : L.idxOf v < L.length := List.idxOf_lt_length_iff.mpr hv
    have hw' : L.idxOf w < L.length := List.idxOf_lt_length_iff.mpr hw
    have hidx : L.idxOf v = L.idxOf w := by
      dsimp only at hvw
      split_ifs at hvw <;> omega
    exact (List.idxOf_inj hv).mp hidx
  · intro p v hp hU hnot
    have hp' : L.idxOf p < L.length := List.idxOf_lt_length_iff.mpr hp
    dsimp only
    rw [if_pos hU, if_neg hnot]
    omega

theorem sameSets_of_has {s s' : HeapSets} (h : FromState st s) (h' : FromState st s')
    (hhas : ∀ n v, (s.get n).has v ↔ (s'.get n).has v) : SameSets s s' := by
  intro n v
  cases hf : (s.get n).find v with
  | none =>
      have : ¬ (s'.get n).has v := fun hs => by
        have := (hhas n v).mpr hs
        exact FMap.not_has_iff_find.mpr hf this
      exact (FMap.not_has_iff_find.mp this).symm
  | some info =>
      obtain ⟨info', hf'⟩ := FMap.has_iff_find.mp ((hhas n v).mp (FMap.has_of_find hf))
      have := (h n v info hf).symm.trans (h' n v info' hf')
      rw [hf', ← Option.some.inj this]

theorem unsafeFirst_known (h : UnsafeFirst H v) : v ∈ knownPointers H st := by
  obtain ⟨info, hf, -⟩ := h
  exact mem_knownPointers.mpr (Or.inl (FMap.has_of_find hf))

/-- With the condition, the sets are what the first pointers and their aliases make. -/
theorem has_result (hinj : Set.InjOn key {v | v ∈ knownPointers H st})
    (hagree : ∀ v info, H.find v = some info → st.GetPointerVariableInfo v = some info)
    (h : OneStepClosed M env st H) (n : HeapSetName) (v : Value) :
    ((identifyAndClassifyUnsafeHeapObjects M env key H st).get n).has v ↔
      (∃ info, H.find v = some info ∧ n.takesFirst M v info = true) ∨
        ∃ p info, UnsafeFirst H p ∧ AddedAlias M env st p v info ∧ n.takes M v info = true := by
  have hV : AscendingClosed M env st key H (UnsafeSecond M env st H) :=
    ⟨fun _ => Or.inl, fun p v info hp _ hadd hunsafe => by
      obtain ⟨q, hq, hadd'⟩ := h.added p v info hp hadd
      exact Or.inr ⟨q, info, hq, hadd', hunsafe⟩⟩
  obtain ⟨W, hfirst, hwithin, -, -, hhas⟩ := heap_result hinj hagree hV
  rw [hhas]
  constructor
  · intro hv
    obtain hv | ⟨p, hp, info, hadd, htakes⟩ := hv
    · exact Or.inl hv
    · obtain ⟨q, hq, hadd'⟩ := h.added p v info (hwithin p hp) hadd
      exact Or.inr ⟨q, info, hq, hadd', htakes⟩
  · intro hv
    obtain hv | ⟨p, info, hp, hadd, htakes⟩ := hv
    · exact Or.inl hv
    · exact Or.inr ⟨p, hfirst p hp, info, hadd, htakes⟩

theorem aliasClosed_of_oneStep (hinj : Set.InjOn key {v | v ∈ knownPointers H st})
    (hagree : ∀ v info, H.find v = some info → st.GetPointerVariableInfo v = some info)
    (h : OneStepClosed M env st H) :
    AliasClosed M env st (identifyAndClassifyUnsafeHeapObjects M env key H st) := by
  intro i j info hi hunique halias hget
  have hhas := has_result hinj hagree h
  have hsecond : UnsafeSecond M env st H (.inst i.id) := by
    obtain ⟨info', hf, ht⟩ | ⟨p, info', hp, hadd, ht⟩ := (hhas .unique _).mp hunique
    · exact Or.inl ⟨info', hf, ht⟩
    · exact Or.inr ⟨p, info', hp, hadd, ht⟩
  have htakes : ∀ n : HeapSetName, n.takes M (.inst j.id) info = true →
      (info.classification.isUnsafe = true → n.takesFirst M (.inst j.id) info = true) →
      ((identifyAndClassifyUnsafeHeapObjects M env key H st).get n).has (.inst j.id) := by
    intro n ht htf
    apply (hhas n _).mpr
    obtain ⟨info', hf, hunsafe⟩ | ⟨p, hp, hadd⟩ := h.alias_of i j info hi hsecond halias hget
    · obtain rfl := Option.some.inj ((hagree _ _ hf).symm.trans hget)
      exact Or.inl ⟨info', hf, htf hunsafe⟩
    · exact Or.inr ⟨p, info, hp, hadd, ht⟩
  refine ⟨htakes .all rfl id, fun hc => ⟨htakes .unique ?_ ?_, htakes .seq ?_ ?_⟩,
    fun hc => ⟨htakes .unique ?_ ?_, htakes .dyn ?_ ?_⟩⟩ <;>
    simp [HeapSetName.takes, HeapSetName.takesFirst, VariableStates.isUnsafe, hc]

/-- **Closure under aliases.** For the heap pointers of a state, every order of the keys gives sets
closed under aliases, and all orders the same, exactly if one step of aliases is closed. -/
theorem aliases_closed (M : Module) (env : AliasEnv) (st : AnalysisState) (H : PointerSet)
    (hagree : ∀ v info, H.find v = some info → st.GetPointerVariableInfo v = some info) :
    (∀ key : Value → Nat, Set.InjOn key {v | v ∈ knownPointers H st} →
      AliasClosed M env st (identifyAndClassifyUnsafeHeapObjects M env key H st) ∧
      ∀ key' : Value → Nat, Set.InjOn key' {v | v ∈ knownPointers H st} →
        SameSets (identifyAndClassifyUnsafeHeapObjects M env key H st)
          (identifyAndClassifyUnsafeHeapObjects M env key' H st)) ↔
      OneStepClosed M env st H := by
  constructor
  · intro h
    -- with the first pointers last, nothing else is visited
    obtain ⟨key, hinj, hkey⟩ := exists_key (knownPointers H st) fun v => ¬ UnsafeFirst H v
    have hV : AscendingClosed M env st key H (UnsafeFirst H) := by
      refine ⟨fun _ => id, fun p v info hp hlt hadd _ => ?_⟩
      by_contra hv
      have hknown : v ∈ knownPointers H st := by
        obtain ⟨⟨j, -, rfl⟩, hget⟩ := hadd
        exact mem_knownPointers.mpr (Or.inr (FMap.has_of_find hget))
      have := hkey v p hknown hv (not_not.mpr hp)
      omega
    obtain ⟨W, hfirst, hwithin, -, -, hhas⟩ := heap_result hinj hagree hV
    have hadded : ∀ n v, ((identifyAndClassifyUnsafeHeapObjects M env key H st).get n).has v ↔
        (∃ info, H.find v = some info ∧ n.takesFirst M v info = true) ∨
          ∃ p, UnsafeFirst H p ∧
            ∃ info, AddedAlias M env st p v info ∧ n.takes M v info = true := by
      intro n v
      rw [hhas]
      refine or_congr Iff.rfl (exists_congr fun p => and_congr_left fun _ => ?_)
      exact ⟨hwithin p, hfirst p⟩
    obtain ⟨hclosed, hsame⟩ := h key hinj
    refine ⟨fun i j info hi hsecond halias hget => ?_, fun p v info hp hadd => ?_⟩
    · have hunique : ((identifyAndClassifyUnsafeHeapObjects M env key H st).get .unique).has
          (.inst i.id) := by
        refine (hadded .unique _).mpr ?_
        obtain hs | ⟨p, info', hp, hadd, hunsafe⟩ := hsecond
        · exact Or.inl hs
        · exact Or.inr ⟨p, hp, info', hadd, hunsafe⟩
      obtain hf | ⟨p, hp, info', hadd, -⟩ :=
        (hadded .all _).mp (hclosed i j info hi hunique halias hget).1
      · exact Or.inl hf
      · obtain rfl := Option.some.inj (hadd.2.symm.trans hget)
        exact Or.inr ⟨p, hp, hadd⟩
    · obtain hp | ⟨q, info', hq, hqp, hunsafe⟩ := hp
      · exact ⟨p, hp, hadd⟩
      · by_cases hpf : UnsafeFirst H p
        · exact ⟨p, hpf, hadd⟩
        · -- with the first pointers first, their aliases are visited too
          obtain ⟨key', hinj', hkey'⟩ := exists_key (knownPointers H st) (UnsafeFirst H)
          obtain ⟨W', hfirst', -, hlater', -, hhas'⟩ :=
            heap_result (V := fun _ => True) hinj' hagree
              ⟨fun _ _ => trivial, fun _ _ _ _ _ _ _ => trivial⟩
          have hW' : W' p := hlater' q p info' (hfirst' q hq) hqp hunsafe
            (hkey' q p (unsafeFirst_known hq) hq hpf)
          have hv : ((identifyAndClassifyUnsafeHeapObjects M env key H st).get .aliases).has v := by
            have := (hhas' .aliases v).mpr (Or.inr ⟨p, hW', info, hadd, rfl⟩)
            rw [FMap.has_iff_find] at this ⊢
            rwa [hsame key' hinj' .aliases v]
          obtain ⟨_, _, hno⟩ | ⟨r, hr, info'', hadd'', -⟩ := (hadded .aliases v).mp hv
          · cases hno
          · obtain rfl := Option.some.inj (hadd''.2.symm.trans hadd.2)
            exact ⟨r, hr, hadd''⟩
  · intro h key hinj
    refine ⟨aliasClosed_of_oneStep hinj hagree h, fun key' hinj' => ?_⟩
    have htriv : ∀ k : Value → Nat, AscendingClosed M env st k H fun _ => True :=
      fun k => ⟨fun _ _ => trivial, fun _ _ _ _ _ _ _ => trivial⟩
    obtain ⟨-, -, -, -, hfrom, -⟩ := heap_result hinj hagree (htriv key)
    obtain ⟨-, -, -, -, hfrom', -⟩ := heap_result hinj' hagree (htriv key')
    refine sameSets_of_has hfrom hfrom' fun n v => ?_
    rw [has_result hinj hagree h, has_result hinj' hagree h]

/-- Four pointers of which each aliases the next. -/
def aliasChain : Module where
  structs := fun _ => []
  globals := []
  funcs := [⟨0, "malloc", [.int 64], []⟩,
    ⟨1, "main", List.replicate 3 (.ptr (.ptr (.int 8))), [⟨0, [
      ⟨0, .ptr (.int 8), .call (.direct 0) [sizeConst 8]⟩,
      ⟨1, .ptr (.int 8), .load (.arg 1 0)⟩,
      ⟨2, .ptr (.int 8), .load (.arg 1 1)⟩,
      ⟨3, .ptr (.int 8), .load (.arg 1 2)⟩,
      ⟨4, .void, .ret none⟩]⟩]⟩]

def aliasChainEnv : AliasEnv where
  aliasInNeighbors i :=
    if i.id < 4 then
      some (aliasChain.insts.filter fun j => j.id < 4 && (j.id == i.id + 1 || i.id == j.id + 1))
    else none
  hasValueNode _ := false

/-- Pointers that are all `Seq`. -/
def seqPointers (ids : List InstId) : PointerSet :=
  ids.foldr (fun i m => m.set (.inst i) { VariableInfo.registered with classification := .seq }) ∅

def aliasChainState : AnalysisState := ⟨1, seqPointers [0, 1, 2, 3]⟩

/-- Addresses: the third pointer before the others, or all in order. -/
def aliasChainKey (thirdFirst : Bool) : Value → Nat
  | .inst i => if thirdFirst && i == 2 then 0 else i + 1
  | _ => 9

theorem aliasChain_agrees {ids : List InstId} (h : ∀ i ∈ ids, i < 4) :
    ∀ v info, (seqPointers ids).find v = some info →
      aliasChainState.GetPointerVariableInfo v = some info := by
  induction ids with
  | nil => exact fun v info hf => nomatch hf
  | cons i ids ih =>
      intro v info hf
      rw [seqPointers, List.foldr_cons, FMap.find_set] at hf
      split at hf
      · rename_i hv
        obtain rfl := Option.some.inj hf
        have hi := h i List.mem_cons_self
        subst hv
        have hcases : i = 0 ∨ i = 1 ∨ i = 2 ∨ i = 3 := by grind
        obtain rfl | rfl | rfl | rfl := hcases <;> rfl
      · exact ih (fun j hj => h j (List.mem_cons_of_mem _ hj)) v info hf

/-- If the first three are unsafe from the start, the loop inserts the fourth, an alias of the
third, and finds nothing more behind it. -/
theorem aliases_closed_fourth_added :
    (seqPointers [0, 1, 2]).find (.inst 3) = none ∧
      ((identifyAndClassifyUnsafeHeapObjects aliasChain aliasChainEnv (aliasChainKey true)
        (seqPointers [0, 1, 2]) aliasChainState).get .unique).has (.inst 3) ∧
      AliasClosed aliasChain aliasChainEnv aliasChainState
        (identifyAndClassifyUnsafeHeapObjects aliasChain aliasChainEnv (aliasChainKey true)
          (seqPointers [0, 1, 2]) aliasChainState) := by
  have hfirst : ∀ n ∈ [0, 1, 2], UnsafeFirst (seqPointers [0, 1, 2]) (.inst n) := by
    intro n hn
    simp only [List.mem_cons, List.not_mem_nil, or_false] at hn
    obtain rfl | rfl | rfl := hn <;> exact ⟨_, rfl, rfl⟩
  -- each pointer is an alias of one of the first three
  have hadded : ∀ i info, aliasChainState.GetPointerVariableInfo (.inst i) = some info →
      ∃ q, UnsafeFirst (seqPointers [0, 1, 2]) q ∧
        AddedAlias aliasChain aliasChainEnv aliasChainState q (.inst i) info := by
    intro i info hget
    have hmem : Value.inst i ∈ [Value.inst 0, .inst 1, .inst 2, .inst 3] := by
      have hfind : aliasChainState.Variables.find (.inst i) = some info := hget
      obtain ⟨e, he, hv⟩ := FMap.mem_keys_iff_has.mpr (FMap.has_of_find hfind)
      rw [← hv]
      exact List.mem_map.mpr ⟨e, he, rfl⟩
    obtain ⟨n, hn, hv⟩ : ∃ n ∈ [0, 1, 2],
        ∃ j ∈ aliasesOf aliasChain aliasChainEnv (.inst n), Value.inst i = .inst j.id := by
      have hall : ∀ w ∈ [Value.inst 0, .inst 1, .inst 2, .inst 3], ∃ n ∈ [0, 1, 2],
          ∃ j ∈ aliasesOf aliasChain aliasChainEnv (.inst n), w = .inst j.id := by decide
      exact hall _ hmem
    exact ⟨.inst n, hfirst n hn, hv, hget⟩
  refine ⟨rfl, by decide +kernel, ((aliases_closed aliasChain aliasChainEnv aliasChainState
    (seqPointers [0, 1, 2]) (aliasChain_agrees (by decide))).mpr ⟨?_, ?_⟩
      (aliasChainKey true) ?_).1⟩
  · exact fun i j info _ _ _ hget => .inr (hadded _ info hget)
  · rintro p v info - ⟨⟨j, -, rfl⟩, hget⟩
    exact hadded _ info hget
  · have : ∀ v ∈ knownPointers (seqPointers [0, 1, 2]) aliasChainState,
        ∀ w ∈ knownPointers (seqPointers [0, 1, 2]) aliasChainState,
          aliasChainKey true v = aliasChainKey true w → v = w := by decide
    exact fun v hv w hw => this v hv w hw

/-- If only the first two are, the third is found by the second, behind which it lies, and the
fourth is not found; with the keys in order it is. -/
theorem alias_not_expanded :
    (∀ thirdFirst, Set.InjOn (aliasChainKey thirdFirst)
      {v | v ∈ knownPointers (seqPointers [0, 1]) aliasChainState}) ∧
    (∀ v info, (seqPointers [0, 1]).find v = some info →
      aliasChainState.GetPointerVariableInfo v = some info) ∧
    ¬ AliasClosed aliasChain aliasChainEnv aliasChainState
      (identifyAndClassifyUnsafeHeapObjects aliasChain aliasChainEnv (aliasChainKey true)
        (seqPointers [0, 1]) aliasChainState) ∧
    ¬ SameSets
      (identifyAndClassifyUnsafeHeapObjects aliasChain aliasChainEnv (aliasChainKey true)
        (seqPointers [0, 1]) aliasChainState)
      (identifyAndClassifyUnsafeHeapObjects aliasChain aliasChainEnv (aliasChainKey false)
        (seqPointers [0, 1]) aliasChainState) := by
  have hmissing : (identifyAndClassifyUnsafeHeapObjects aliasChain aliasChainEnv
      (aliasChainKey true) (seqPointers [0, 1]) aliasChainState).unsafeHeapPointerSet.find
        (.inst 3) = none := by decide +kernel
  refine ⟨fun thirdFirst => ?_, aliasChain_agrees (by decide), fun h => ?_, fun h => ?_⟩
  · have : ∀ v ∈ knownPointers (seqPointers [0, 1]) aliasChainState,
        ∀ w ∈ knownPointers (seqPointers [0, 1]) aliasChainState,
          aliasChainKey thirdFirst v = aliasChainKey thirdFirst w → v = w := by
      cases thirdFirst <;> decide
    exact fun v hv w hw => this v hv w hw
  · have halias : MayAlias aliasChain aliasChainEnv ⟨2, .ptr (.int 8), .load (.arg 1 1)⟩
        ⟨3, .ptr (.int 8), .load (.arg 1 2)⟩ := ⟨_, rfl, Or.inl (by decide)⟩
    have := (h _ _ _ (by decide) (by decide +kernel) halias rfl).1
    exact FMap.not_has_iff_find.mpr hmissing this
  · have hsame := h .all (.inst 3)
    have hfound : (identifyAndClassifyUnsafeHeapObjects aliasChain aliasChainEnv
        (aliasChainKey false) (seqPointers [0, 1]) aliasChainState).unsafeHeapPointerSet.has
          (.inst 3) := by decide +kernel
    exact FMap.not_has_iff_find.mpr (hsame.symm.trans hmissing) hfound

end MSV
