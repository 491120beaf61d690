import Mathlib.Data.List.Induction
import Mathlib.Data.List.TakeWhile
import MSV.SLH.BlockPlan

/-!
# The sets of the first walk

The first walk fills the sets with what the block asks for.

**Theorem (`mem_collectBlock_iff`).** An instruction of the block is queued for address hardening,
or for post-load hardening, exactly when it is planned so.

The invariant of the walk (`WalkInv`) says of each set what is in it behind a stretch of the block.
-/

namespace MSV.SLH

variable {O : Options} {T : Target} {F : MachineFunction} {bb : MachineBasicBlock}

/-! ## Dependence between registers -/

theorem mem_taintStep {R : List Reg} {mi : MachineInstr} {r : Reg} :
    r ∈ taintStep R mi ↔ r ∈ R ∨ (∃ u ∈ mi.uses, u ∈ R) ∧ r ∈ mi.defs := by
  unfold taintStep
  split_ifs with h
  · have h' : ∃ u ∈ mi.uses, u ∈ R := by simpa using h
    simp only [h', true_and, List.mem_append]
    tauto
  · have h' : ¬ ∃ u ∈ mi.uses, u ∈ R := by simpa using h
    simp only [h', false_and, or_false]

theorem taint_snoc (R : List Reg) (l : List MachineInstr) (mi : MachineInstr) :
    taint R (l ++ [mi]) = taintStep (taint R l) mi := by
  simp [taint]

/-! ## What is planned -/

/-- The access depends on an earlier one whose address is to be hardened. -/
def Dependent (O : Options) (T : Target) (bb : MachineBasicBlock) (p : List MachineInstr)
    (x : MachineInstr) : Prop :=
  ∃ q J m, p = q ++ J :: m ∧ Planned O T bb q J .addr ∧
    ∃ r ∈ x.addrRegs, r ∈ taint J.defs (m ++ [x])

/-- An address register of the access is hardened before. -/
def RegHardened (O : Options) (T : Target) (bb : MachineBasicBlock) (p : List MachineInstr)
    (r : Reg) : Prop :=
  ∃ q J m, p = q ++ J :: m ∧
    (Planned O T bb q J .addr ∧ r ∈ J.addrRegs ∨ Planned O T bb q J .result ∧ r ∈ J.defs)

theorem planned_iff {p : List MachineInstr} {x : MachineInstr} {way : Way} :
    Planned O T bb p x way ↔ (Considered O bb p x ∧ x.addrRegs ≠ [] ∧ ¬ Dependent O T bb p x) ∧
      (way = .result ↔ postLoadCompatible O T x [] = true ∧
        ∀ r ∈ x.addrRegs, ¬ RegHardened O T bb p r) := by
  have hdep : ¬ Dependent O T bb p x ↔ ∀ q J m, p = q ++ J :: m → Planned O T bb q J .addr →
      ∀ r ∈ x.addrRegs, r ∉ taint J.defs (m ++ [x]) := by
    simp only [Dependent, not_exists, not_and]
  have hregs : (∀ r ∈ x.addrRegs, ¬ RegHardened O T bb p r) ↔ ∀ q J m, p = q ++ J :: m →
      (Planned O T bb q J .addr → ∀ r ∈ x.addrRegs, r ∉ J.addrRegs) ∧
        (Planned O T bb q J .result → ∀ r ∈ x.addrRegs, r ∉ J.defs) := by
    constructor
    · exact fun h q J m hp => ⟨fun hJ r hr hr' => h r hr ⟨q, J, m, hp, .inl ⟨hJ, hr'⟩⟩,
        fun hJ r hr hr' => h r hr ⟨q, J, m, hp, .inr ⟨hJ, hr'⟩⟩⟩
    · rintro h r hr ⟨q, J, m, hp, ⟨hJ, hr'⟩ | ⟨hJ, hr'⟩⟩
      · exact (h q J m hp).1 hJ r hr hr'
      · exact (h q J m hp).2 hJ r hr hr'
  rw [Planned, hdep, hregs]
  tauto

/-- One way excludes the other. -/
theorem Planned.not_result {p : List MachineInstr} {x : MachineInstr}
    (h : Planned O T bb p x .addr) : ¬ Planned O T bb p x .result := by
  intro h'
  have h1 := (planned_iff.mp h).2.mpr ((planned_iff.mp h').2.mp rfl)
  cases h1

/-! ## One step of the first walk -/

/-- The whole body of the first walk. -/
def collectStep (O : Options) (T : Target) (bb : MachineBasicBlock) (mi : MachineInstr)
    (rest : List MachineInstr) (c : Collected) : Collected :=
  collectInstr O T bb mi (propagateLoadDep mi (collectMarker mi rest c))

/-- The sets the access logic reads and writes. -/
structure Accesses where
  post : List Nat
  addr : List Nat
  hardenedRegs : List Reg
  dep : List Reg

def Collected.accesses (c : Collected) : Accesses :=
  ⟨c.HardenPostLoad, c.HardenLoadAddr, c.HardenedAddrRegs, c.LoadDepRegs⟩

/-- The other sets. -/
structure Others where
  condition : List Nat
  variant : List Nat
  store : List Nat
  fixedRBP : List Nat
  fixedRSP : List Nat

def Collected.others (c : Collected) : Others :=
  ⟨c.HardenCondition, c.HardenVTInstr, c.HardenStoreAddr, c.HardenFixedAddressRBP,
    c.HardenFixedAddressRSP⟩

section Step

variable (mi : MachineInstr) (rest : List MachineInstr) (c : Collected)

theorem collectMarker_accesses : (collectMarker mi rest c).accesses = c.accesses := by
  unfold collectMarker; split_ifs <;> rfl

theorem propagateLoadDep_accesses : (propagateLoadDep mi c).accesses =
    { c.accesses with dep := taintStep c.LoadDepRegs mi } := by
  unfold propagateLoadDep taintStep; split_ifs <;> rfl

theorem propagate_others :
    (propagateLoadDep mi (collectMarker mi rest c)).others = c.others := by
  unfold propagateLoadDep collectMarker; split_ifs <;> rfl

theorem collectCondition_accesses (x : Option MachineInstr) :
    (collectCondition x c).accesses = c.accesses := by
  cases x <;> rfl

theorem collectVTInstr_accesses : (collectVTInstr O mi c).accesses = c.accesses := by
  unfold collectVTInstr; split_ifs <;> rfl

theorem collectStore_accesses : (collectStore O mi c).accesses = c.accesses := by
  unfold collectStore; split_ifs <;> rfl

theorem collectFixedAddress_accesses (m : MemRef) :
    (collectFixedAddress O mi m c).accesses = c.accesses := by
  unfold collectFixedAddress
  by_cases h : O.HardenFixedAddress = true
  · rw [if_pos h]; rfl
  · rw [if_neg h]

/-- The access logic leaves the instruction alone: it has no address registers, or one of them
depends on a queued load. -/
def LeftAlone (mi : MachineInstr) (dep : List Reg) : Prop :=
  mi.addrRegs = [] ∨ ∃ r ∈ mi.addrRegs, r ∈ dep

/-- A load queued for post-load hardening. -/
def Accesses.queuePost (mi : MachineInstr) (a : Accesses) : Accesses :=
  { a with post := a.post.insert mi.id, hardenedRegs := mi.defs ++ a.hardenedRegs }

/-- A load queued for address hardening. -/
def Accesses.queueAddr (mi : MachineInstr) (a : Accesses) : Accesses :=
  { a with
    addr := a.addr.insert mi.id
    hardenedRegs := mi.addrRegs ++ a.hardenedRegs
    dep := mi.defs ++ a.dep }

/-- An access is queued. -/
def Accesses.queue (O : Options) (T : Target) (mi : MachineInstr) (a : Accesses) : Accesses :=
  if postLoadCompatible O T mi a.hardenedRegs then a.queuePost mi else a.queueAddr mi

theorem mem_ne_none_of_addrRegs {mi : MachineInstr} (h : mi.addrRegs ≠ []) : mi.mem ≠ none :=
  fun h' => h (by simp [MachineInstr.addrRegs, MachineInstr.baseReg, MachineInstr.indexReg, h'])

theorem collectAccess_accesses :
    (LeftAlone mi c.LoadDepRegs ∧ (collectAccess O T mi c).accesses = c.accesses) ∨
      (¬ LeftAlone mi c.LoadDepRegs ∧
        (collectAccess O T mi c).accesses = c.accesses.queue O T mi) := by
  unfold collectAccess
  split
  · rename_i hm
    exact Or.inl ⟨Or.inl (by_contra fun h => mem_ne_none_of_addrRegs h hm), rfl⟩
  · rename_i m hm
    split_ifs with h1 h2 h3
    · exact Or.inl ⟨Or.inl (List.isEmpty_iff.mp h1), collectFixedAddress_accesses mi c m⟩
    · exact Or.inl ⟨Or.inr (by simpa using h2), rfl⟩
    all_goals
      have hnot : ¬ LeftAlone mi c.LoadDepRegs := by
        rw [LeftAlone, not_or]
        exact ⟨fun h => h1 (List.isEmpty_iff.mpr h), by simpa using h2⟩
    · exact Or.inr ⟨hnot, (if_pos h3).symm⟩
    · exact Or.inr ⟨hnot, (if_neg h3).symm⟩

/-- The access logic reaches the instruction. -/
def Reached (O : Options) (bb : MachineBasicBlock) (mi : MachineInstr) (c : Collected) : Prop :=
  skips O mi (mayBranch O bb mi c.HardenCondition) = false ∧ mi.opcode ≠ .MFENCE

variable {mi} in
theorem collectInstr_accesses (bb : MachineBasicBlock) (hns : ¬ Stops O mi) :
    ((¬ Reached O bb mi c ∨ LeftAlone mi c.LoadDepRegs) ∧
        (collectInstr O T bb mi c).accesses = c.accesses) ∨
      (Reached O bb mi c ∧ ¬ LeftAlone mi c.LoadDepRegs ∧
        (collectInstr O T bb mi c).accesses = c.accesses.queue O T mi) := by
  unfold collectInstr
  split_ifs with h1 h2 h3
  · exact Or.inl ⟨Or.inl fun h => by simp [h.1] at h1, rfl⟩
  · exact Or.inl ⟨Or.inl fun h => h.2 h2, rfl⟩
  · exact absurd (Or.inr h3) hns
  · have hreached : Reached O bb mi c := ⟨by simpa using h1, h2⟩
    have hsame : (collectStore O mi (collectVTInstr O mi
        (collectCondition (mayBranch O bb mi c.HardenCondition) c))).accesses = c.accesses := by
      rw [collectStore_accesses, collectVTInstr_accesses, collectCondition_accesses]
    have h := collectAccess_accesses (O := O) (T := T) mi (collectStore O mi (collectVTInstr O mi
      (collectCondition (mayBranch O bb mi c.HardenCondition) c)))
    rw [hsame, show (collectStore O mi (collectVTInstr O mi (collectCondition
      (mayBranch O bb mi c.HardenCondition) c))).LoadDepRegs = c.LoadDepRegs from
        congrArg Accesses.dep hsame] at h
    exact h.imp (fun h => ⟨Or.inr h.1, h.2⟩) fun h => ⟨hreached, h⟩

theorem propagate_accesses (mi : MachineInstr) (rest : List MachineInstr) (c : Collected) :
    (propagateLoadDep mi (collectMarker mi rest c)).accesses =
      { c.accesses with dep := taintStep c.LoadDepRegs mi } := by
  have h := collectMarker_accesses mi rest c
  have hdep : (collectMarker mi rest c).LoadDepRegs = c.LoadDepRegs := congrArg Accesses.dep h
  rw [propagateLoadDep_accesses, h, hdep]

variable {mi} in
/-- What one step of the first walk does to the queues. -/
theorem collectStep_accesses (bb : MachineBasicBlock) (hns : ¬ Stops O mi) :
    ((¬ Reached O bb mi c ∨ LeftAlone mi (taintStep c.LoadDepRegs mi)) ∧
        (collectStep O T bb mi rest c).accesses =
          { c.accesses with dep := taintStep c.LoadDepRegs mi }) ∨
      (Reached O bb mi c ∧ ¬ LeftAlone mi (taintStep c.LoadDepRegs mi) ∧
        (collectStep O T bb mi rest c).accesses =
          Accesses.queue O T mi { c.accesses with dep := taintStep c.LoadDepRegs mi }) := by
  have h := propagate_accesses mi rest c
  have hreached : Reached O bb mi (propagateLoadDep mi (collectMarker mi rest c)) ↔
      Reached O bb mi c := by
    rw [Reached, Reached, show (propagateLoadDep mi (collectMarker mi rest c)).HardenCondition =
      c.HardenCondition from congrArg Others.condition (propagate_others mi rest c)]
  have hcases := collectInstr_accesses (T := T)
    (propagateLoadDep mi (collectMarker mi rest c)) bb hns
  rwa [hreached, show (propagateLoadDep mi (collectMarker mi rest c)).LoadDepRegs =
    taintStep c.LoadDepRegs mi from congrArg Accesses.dep h, h] at hcases

/-! ### Conditions, variant timing and stores -/

theorem findCondition_eq (H : List Nat) (l : List MachineInstr) :
    findCondition H l = (findCondition [] l).filter fun x => decide (x.id ∉ H) := by
  induction l with
  | nil => rfl
  | cons x l ih =>
      unfold findCondition
      split_ifs with h1 h2 h3 h4
      all_goals simp_all [Option.filter]

theorem mayBranch_eq (bb : MachineBasicBlock) (H : List Nat) : mayBranch O bb mi H =
    if mi.isConditionalBranch then (branchCondition O bb).filter fun x => decide (x.id ∉ H)
    else none := by
  unfold mayBranch branchCondition
  rw [findCondition_eq]
  cases mi.isConditionalBranch <;> cases O.HardenOneBranchCondition <;>
    cases O.HardenAllBranchConditions <;> rfl

theorem collectAccess_others_of_addrRegs (h : mi.addrRegs ≠ []) :
    (collectAccess O T mi c).others = c.others := by
  unfold collectAccess
  split
  · rfl
  · have hne : mi.addrRegs.isEmpty = false := by simpa using h
    rw [if_neg (by simp [hne])]
    split_ifs <;> rfl

theorem collectAccess_condition :
    (collectAccess O T mi c).HardenCondition = c.HardenCondition ∧
      (collectAccess O T mi c).HardenVTInstr = c.HardenVTInstr := by
  unfold collectAccess collectFixedAddress
  split
  · exact ⟨rfl, rfl⟩
  · split_ifs <;> exact ⟨rfl, rfl⟩

theorem collectStore_condition :
    (collectStore O mi c).HardenCondition = c.HardenCondition ∧
      (collectStore O mi c).HardenVTInstr = c.HardenVTInstr := by
  unfold collectStore
  split_ifs <;> exact ⟨rfl, rfl⟩

theorem collectVTInstr_condition :
    (collectVTInstr O mi c).HardenCondition = c.HardenCondition := by
  unfold collectVTInstr
  split_ifs <;> rfl

theorem isNone_of_skips {x : Option MachineInstr} (h : skips O mi x = true) : x = none := by
  simp only [skips, Bool.and_eq_true, Option.isNone_iff_eq_none] at h
  exact h.1.1.2

variable {mi} in
theorem collectInstr_condition (bb : MachineBasicBlock) (hns : ¬ Stops O mi) :
    (collectInstr O T bb mi c).HardenCondition = if mi.opcode = .MFENCE then c.HardenCondition
      else (collectCondition (mayBranch O bb mi c.HardenCondition) c).HardenCondition := by
  unfold collectInstr
  by_cases h1 : skips O mi (mayBranch O bb mi c.HardenCondition) = true
  · rw [if_pos h1, isNone_of_skips mi h1]
    exact (ite_self _).symm
  · rw [if_neg h1]
    by_cases h2 : mi.opcode = .MFENCE
    · rw [if_pos h2, if_pos h2]
    · rw [if_neg h2, if_neg h2, if_neg fun h3 => hns (Or.inr h3), (collectAccess_condition ..).1,
        (collectStore_condition ..).1, collectVTInstr_condition]

theorem mem_collectCondition (x : Option MachineInstr) {i : Nat} :
    i ∈ (collectCondition x c).HardenCondition ↔
      i ∈ c.HardenCondition ∨ ∃ y, x = some y ∧ y.id = i := by
  cases x with
  | none => simp [collectCondition]
  | some y =>
      rw [show (collectCondition (some y) c).HardenCondition =
          c.HardenCondition.insert y.id from rfl,
        List.mem_insert_iff]
      simp only [Option.some.injEq, exists_eq_left']
      tauto

variable {mi} in
/-- What one step of the first walk does to the conditions. -/
theorem mem_condition_collectStep (bb : MachineBasicBlock) (hns : ¬ Stops O mi) {i : Nat} :
    i ∈ (collectStep O T bb mi rest c).HardenCondition ↔ i ∈ c.HardenCondition ∨
      (mi.isConditionalBranch = true ∧ mi.opcode ≠ .MFENCE) ∧
        ∃ x, branchCondition O bb = some x ∧ x.id = i := by
  have hcond : (propagateLoadDep mi (collectMarker mi rest c)).HardenCondition =
      c.HardenCondition := congrArg Others.condition (propagate_others mi rest c)
  rw [collectStep, collectInstr_condition _ _ hns, hcond, mayBranch_eq]
  by_cases hfence : mi.opcode = .MFENCE
  · simp [hfence]
  · rw [if_neg hfence, mem_collectCondition, hcond]
    cases mi.isConditionalBranch with
    | false => simp
    | true =>
        simp only [if_true, Option.filter_eq_some_iff, decide_eq_true_eq, true_and]
        constructor
        · rintro (h | ⟨y, ⟨hy, -⟩, rfl⟩)
          · exact .inl h
          · exact .inr ⟨hfence, y, hy, rfl⟩
        · rintro (h | ⟨-, y, hy, rfl⟩)
          · exact .inl h
          · by_cases hmem : y.id ∈ c.HardenCondition
            · exact .inl hmem
            · exact .inr ⟨y, ⟨hy, hmem⟩, rfl⟩

theorem mem_collectCondition_variant (x : Option MachineInstr) {i : Nat} :
    i ∈ (collectCondition x c).HardenVTInstr ∨ i ∈ (collectCondition x c).HardenCondition ↔
      i ∈ c.HardenVTInstr ∨ i ∈ (collectCondition x c).HardenCondition := by
  cases x with
  | none => rfl
  | some y =>
      simp only [collectCondition, List.mem_filter, List.mem_insert_iff, decide_eq_true_eq]
      tauto

variable {mi} in
/-- An instruction of variant timing is queued as one, unless it computes a condition. -/
theorem mem_variant_collectStep (bb : MachineBasicBlock) (hns : ¬ Stops O mi) {i : Nat} :
    i ∈ (collectStep O T bb mi rest c).HardenVTInstr ∨
        i ∈ (collectStep O T bb mi rest c).HardenCondition ↔
      (i ∈ c.HardenVTInstr ∨ (mayVariant O mi = true ∧ mi.opcode ≠ .MFENCE) ∧ mi.id = i) ∨
        i ∈ (collectStep O T bb mi rest c).HardenCondition := by
  have hvar : (propagateLoadDep mi (collectMarker mi rest c)).HardenVTInstr =
      c.HardenVTInstr := congrArg Others.variant (propagate_others mi rest c)
  unfold collectStep
  rw [← hvar]
  generalize propagateLoadDep mi (collectMarker mi rest c) = c
  unfold collectInstr
  by_cases h1 : skips O mi (mayBranch O bb mi c.HardenCondition) = true
  · rw [if_pos h1]
    have hnot : mayVariant O mi = false := by
      simp only [skips, Bool.and_eq_true, Bool.not_eq_true'] at h1
      exact h1.1.2
    simp [hnot]
  · rw [if_neg h1]
    by_cases h2 : mi.opcode = .MFENCE
    · simp [h2]
    · rw [if_neg h2, if_neg fun h3 => hns (Or.inr h3), (collectAccess_condition ..).1,
        (collectAccess_condition ..).2, (collectStore_condition ..).1,
        (collectStore_condition ..).2,
        collectVTInstr_condition]
      have hvt (c : Collected) : i ∈ (collectVTInstr O mi c).HardenVTInstr ↔
          i ∈ c.HardenVTInstr ∨ mayVariant O mi = true ∧ mi.id = i := by
        unfold collectVTInstr
        split_ifs with h
        · simp only [List.mem_insert_iff, h, true_and]
          tauto
        · simp [h]
      have hcond := mem_collectCondition_variant c (mayBranch O bb mi c.HardenCondition) (i := i)
      rw [hvt]
      tauto

/-- Stores and fixed addresses: what happens to other instructions. -/
theorem store_collectStep_of_ne (bb : MachineBasicBlock) {i : Nat} (hi : i ≠ mi.id) :
    i ∈ (collectStep O T bb mi rest c).HardenStoreAddr ↔ i ∈ c.HardenStoreAddr := by
  have hstore : (propagateLoadDep mi (collectMarker mi rest c)).HardenStoreAddr =
      c.HardenStoreAddr := congrArg Others.store (propagate_others mi rest c)
  unfold collectStep
  rw [← hstore]
  generalize propagateLoadDep mi (collectMarker mi rest c) = c
  have hcond (x : Option MachineInstr) : (collectCondition x c).HardenStoreAddr =
      c.HardenStoreAddr := by cases x <;> rfl
  have hvt (c : Collected) : (collectVTInstr O mi c).HardenStoreAddr = c.HardenStoreAddr := by
    unfold collectVTInstr
    split_ifs <;> rfl
  have hst (c : Collected) : i ∈ (collectStore O mi c).HardenStoreAddr ↔ i ∈ c.HardenStoreAddr := by
    unfold collectStore
    split_ifs <;> simp [hi]
  have hacc (c : Collected) : i ∈ (collectAccess O T mi c).HardenStoreAddr ↔
      i ∈ c.HardenStoreAddr := by
    unfold collectAccess collectFixedAddress
    split
    · rfl
    · split_ifs <;> simp [hi, queuePostLoad, queueLoadAddr]
  unfold collectInstr
  split_ifs
  · rfl
  · rfl
  · rw [hcond]
  · rw [hacc, hst, hvt, hcond]

variable {mi} in
/-- A store with address registers is queued as one. -/
theorem store_collectStep (bb : MachineBasicBlock) (hns : ¬ Stops O mi) (haddr : mi.addrRegs ≠ [])
    (hfence : mi.opcode ≠ .MFENCE) : mi.id ∈ (collectStep O T bb mi rest c).HardenStoreAddr ↔
      mi.id ∈ c.HardenStoreAddr ∨ storeHardened O mi = true := by
  have hstore : (propagateLoadDep mi (collectMarker mi rest c)).HardenStoreAddr =
      c.HardenStoreAddr := congrArg Others.store (propagate_others mi rest c)
  unfold collectStep
  rw [← hstore]
  generalize propagateLoadDep mi (collectMarker mi rest c) = c
  unfold collectInstr
  by_cases h1 : skips O mi (mayBranch O bb mi c.HardenCondition) = true
  · rw [if_pos h1]
    have hnot : storeHardened O mi = false := by
      simp only [skips, Bool.and_eq_true, Bool.not_eq_true'] at h1
      simp [storeHardened, h1.2]
    simp [hnot]
  · have hcond (x : Option MachineInstr) : (collectCondition x c).HardenStoreAddr =
        c.HardenStoreAddr := by cases x <;> rfl
    have hvt (c : Collected) : (collectVTInstr O mi c).HardenStoreAddr = c.HardenStoreAddr := by
      unfold collectVTInstr
      split_ifs <;> rfl
    have hst (c : Collected) : mi.id ∈ (collectStore O mi c).HardenStoreAddr ↔
        mi.id ∈ c.HardenStoreAddr ∨ storeHardened O mi = true := by
      unfold collectStore storeHardened
      split_ifs with h <;> simp [h]
    rw [if_neg h1, if_neg hfence, if_neg fun h3 => hns (Or.inr h3),
      show (collectAccess O T mi _).HardenStoreAddr = _ from
        congrArg Others.store (collectAccess_others_of_addrRegs mi _ haddr)]
    exact (hst _).trans (by rw [hvt, hcond])

theorem mem_of_ite {p : Prop} [Decidable p] {l : List Nat} {a i : Nat}
    (h : i ∈ if p then [a] else l) : i ∈ l ∨ a = i := by
  split_ifs at h
  · exact .inr (List.mem_singleton.mp h).symm
  · exact .inl h

/-- Only accesses without address registers have a fixed address. -/
theorem fixed_collectStep (bb : MachineBasicBlock) {i : Nat}
    (h : i ∈ (collectStep O T bb mi rest c).HardenFixedAddressRBP ∨
      i ∈ (collectStep O T bb mi rest c).HardenFixedAddressRSP) :
    (i ∈ c.HardenFixedAddressRBP ∨ i ∈ c.HardenFixedAddressRSP) ∨
      mi.addrRegs = [] ∧ mi.id = i := by
  have hsame := propagate_others mi rest c
  rw [← show (propagateLoadDep mi (collectMarker mi rest c)).HardenFixedAddressRBP =
      c.HardenFixedAddressRBP from congrArg Others.fixedRBP hsame,
    ← show (propagateLoadDep mi (collectMarker mi rest c)).HardenFixedAddressRSP =
      c.HardenFixedAddressRSP from congrArg Others.fixedRSP hsame]
  unfold collectStep at h
  generalize propagateLoadDep mi (collectMarker mi rest c) = c at h ⊢
  have hkeep (x : Option MachineInstr) :
      (collectStore O mi (collectVTInstr O mi (collectCondition x c))).HardenFixedAddressRBP =
          c.HardenFixedAddressRBP ∧
        (collectStore O mi (collectVTInstr O mi (collectCondition x c))).HardenFixedAddressRSP =
          c.HardenFixedAddressRSP := by
    unfold collectStore collectVTInstr
    cases x <;> split_ifs <;> exact ⟨rfl, rfl⟩
  have hacc (c : Collected) (h : i ∈ (collectAccess O T mi c).HardenFixedAddressRBP ∨
      i ∈ (collectAccess O T mi c).HardenFixedAddressRSP) :
      (i ∈ c.HardenFixedAddressRBP ∨ i ∈ c.HardenFixedAddressRSP) ∨
        mi.addrRegs = [] ∧ mi.id = i := by
    by_cases haddr : mi.addrRegs = []
    · unfold collectAccess collectFixedAddress at h
      split at h
      · exact .inl h
      · rw [if_pos (by simp [haddr])] at h
        by_cases hO : O.HardenFixedAddress = true
        · rw [if_pos hO] at h
          rcases h with h | h
          · exact (mem_of_ite h).imp .inl fun hid => ⟨haddr, hid⟩
          · exact (mem_of_ite h).imp .inr fun hid => ⟨haddr, hid⟩
        · rw [if_neg hO] at h
          exact .inl h
    · have hothers := collectAccess_others_of_addrRegs (O := O) (T := T) mi c haddr
      rw [show (collectAccess O T mi c).HardenFixedAddressRBP = _ from
          congrArg Others.fixedRBP hothers,
        show (collectAccess O T mi c).HardenFixedAddressRSP = _ from
          congrArg Others.fixedRSP hothers] at h
      exact .inl h
  unfold collectInstr at h
  split_ifs at h
  · exact .inl h
  · exact .inl h
  · left
    cases hx : mayBranch O bb mi c.HardenCondition <;> (rw [hx] at h; exact h)
  · rw [← (hkeep (mayBranch O bb mi c.HardenCondition)).1,
      ← (hkeep (mayBranch O bb mi c.HardenCondition)).2]
    exact hacc _ h

end Step

/-! ## The first walk as a whole -/

/-- The first walk over `p`, with `l` still to come. -/
def collectRun (O : Options) (T : Target) (bb : MachineBasicBlock) :
    List MachineInstr → List MachineInstr → Collected → Collected
  | [], _, c => c
  | mi :: p, l, c => collectRun O T bb p l (collectStep O T bb mi (p ++ l) c)

theorem collect_cons_of_not_stops {mi : MachineInstr} (h : ¬ Stops O mi) (fresh : Nat)
    (l : List MachineInstr) (c : Collected) :
    collect O T fresh bb (mi :: l) c =
      ((collect O T fresh bb l (collectStep O T bb mi l c)).1,
        mi :: (collect O T fresh bb l (collectStep O T bb mi l c)).2) := by
  have h1 : mi.opcode ≠ .LFENCE := fun h' => h (Or.inl h')
  have h2 : ¬ stopsX87 O mi = true := fun h' => h (Or.inr h')
  simp only [collect, collectStep, if_neg h1, if_neg h2]

theorem collect_append (bb : MachineBasicBlock) {p : List MachineInstr}
    (h : ∀ mi ∈ p, ¬ Stops O mi) (fresh : Nat) (l : List MachineInstr) (c : Collected) :
    (collect O T fresh bb (p ++ l) c).1 =
      (collect O T fresh bb l (collectRun O T bb p l c)).1 := by
  induction p generalizing c with
  | nil => rfl
  | cons mi p ih =>
      rw [List.cons_append, collect_cons_of_not_stops (h mi (by simp)), collectRun]
      exact ih (fun x hx => h x (by simp [hx])) _

theorem collectRun_snoc (p l : List MachineInstr) (mi : MachineInstr) (c : Collected) :
    collectRun O T bb (p ++ [mi]) l c =
      collectStep O T bb mi l (collectRun O T bb p (mi :: l) c) := by
  induction p generalizing c with
  | nil => rfl
  | cons x p ih =>
      rw [List.cons_append, collectRun, collectRun, ih]
      simp

theorem exists_split_snoc {p : List MachineInstr} {mi : MachineInstr}
    {Q : List MachineInstr → MachineInstr → List MachineInstr → Prop} :
    (∃ q J m, p ++ [mi] = q ++ J :: m ∧ Q q J m) ↔
      (∃ q J m, p = q ++ J :: m ∧ Q q J (m ++ [mi])) ∨ Q p mi [] := by
  constructor
  · rintro ⟨q, J, m, heq, hQ⟩
    rcases List.eq_nil_or_concat m with rfl | ⟨m', x, rfl⟩
    · have := List.append_inj' heq rfl
      simp only [List.cons.injEq, and_true] at this
      exact Or.inr (this.1 ▸ this.2 ▸ hQ)
    · have heq' : p ++ [mi] = (q ++ J :: m') ++ [x] := by simpa using heq
      have := List.append_inj' heq' rfl
      simp only [List.cons.injEq, and_true] at this
      exact Or.inl ⟨q, J, m', this.1, by rw [this.2]; simpa using hQ⟩
  · rintro (⟨q, J, m, rfl, hQ⟩ | hQ)
    · exact ⟨q, J, m ++ [mi], by simp, hQ⟩
    · exact ⟨p, mi, [], by simp, hQ⟩

/-- What the sets hold behind `p`. -/
structure WalkInv (O : Options) (T : Target) (bb : MachineBasicBlock) (p : List MachineInstr)
    (c : Collected) : Prop where
  addr : ∀ i, i ∈ c.HardenLoadAddr ↔
    ∃ q J m, p = q ++ J :: m ∧ Planned O T bb q J .addr ∧ J.id = i
  result : ∀ i, i ∈ c.HardenPostLoad ↔
    ∃ q J m, p = q ++ J :: m ∧ Planned O T bb q J .result ∧ J.id = i
  regs : ∀ r, r ∈ c.HardenedAddrRegs ↔ RegHardened O T bb p r
  dep : ∀ r, r ∈ c.LoadDepRegs ↔
    ∃ q J m, p = q ++ J :: m ∧ Planned O T bb q J .addr ∧ r ∈ taint J.defs m
  condition : ∀ i, i ∈ c.HardenCondition ↔
    (∃ b ∈ p, b.isConditionalBranch = true ∧ b.opcode ≠ .MFENCE) ∧
      ∃ x, branchCondition O bb = some x ∧ x.id = i
  variant : ∀ i, i ∈ c.HardenVTInstr ∨ i ∈ c.HardenCondition ↔
    (∃ x ∈ p, (mayVariant O x = true ∧ x.opcode ≠ .MFENCE) ∧ x.id = i) ∨ i ∈ c.HardenCondition
  fixed : ∀ i, i ∈ c.HardenFixedAddressRBP ∨ i ∈ c.HardenFixedAddressRSP →
    ∃ x ∈ p, x.addrRegs = [] ∧ x.id = i
  store : ∀ x ∈ p, x.addrRegs ≠ [] → (x.id ∈ c.HardenStoreAddr ↔ storeHardened O x = true)
  store_mem : ∀ i ∈ c.HardenStoreAddr, ∃ x ∈ p, x.id = i

section Planned

variable {p : List MachineInstr} {c : Collected} {mi : MachineInstr} (h : WalkInv O T bb p c)

include h in
/-- Taking one more instruction into account, the dependences spread through it. -/
theorem WalkInv.dep_snoc (r : Reg) : r ∈ taintStep c.LoadDepRegs mi ↔
    ∃ q J m, p = q ++ J :: m ∧ Planned O T bb q J .addr ∧ r ∈ taint J.defs (m ++ [mi]) := by
  constructor
  · intro ht
    rcases mem_taintStep.mp ht with ht | ⟨⟨u, hu, ht⟩, hdef⟩
    · obtain ⟨q, J, m, hp, hJ, ht⟩ := (h.dep r).mp ht
      exact ⟨q, J, m, hp, hJ, by rw [taint_snoc, mem_taintStep]; exact .inl ht⟩
    · obtain ⟨q, J, m, hp, hJ, ht⟩ := (h.dep u).mp ht
      exact ⟨q, J, m, hp, hJ, by rw [taint_snoc, mem_taintStep]; exact .inr ⟨⟨u, hu, ht⟩, hdef⟩⟩
  · rintro ⟨q, J, m, hp, hJ, ht⟩
    rw [taint_snoc, mem_taintStep] at ht
    refine mem_taintStep.mpr (ht.imp (fun ht => (h.dep r).mpr ⟨q, J, m, hp, hJ, ht⟩) ?_)
    rintro ⟨⟨u, hu, ht⟩, hdef⟩
    exact ⟨⟨u, hu, (h.dep u).mpr ⟨q, J, m, hp, hJ, ht⟩⟩, hdef⟩

include h in
theorem WalkInv.dependent_iff :
    (∃ r ∈ mi.addrRegs, r ∈ taintStep c.LoadDepRegs mi) ↔ Dependent O T bb p mi := by
  simp only [h.dep_snoc, Dependent]
  constructor
  · rintro ⟨r, hr, q, J, m, hp, hJ, ht⟩
    exact ⟨q, J, m, hp, hJ, r, hr, ht⟩
  · rintro ⟨q, J, m, hp, hJ, r, hr, ht⟩
    exact ⟨r, hr, q, J, m, hp, hJ, ht⟩

include h in
variable (mi) in
theorem WalkInv.compatible_iff : postLoadCompatible O T mi c.HardenedAddrRegs = true ↔
    postLoadCompatible O T mi [] = true ∧ ∀ r ∈ mi.addrRegs, ¬ RegHardened O T bb p r := by
  have hany : mi.addrRegs.any (· ∈ c.HardenedAddrRegs) = false ↔
      ∀ r ∈ mi.addrRegs, ¬ RegHardened O T bb p r := by
    simp [h.regs]
  rw [← hany]
  unfold postLoadCompatible
  simp

include h in
variable (mi) in
theorem WalkInv.branch_iff : (mayBranch O bb mi c.HardenCondition).isSome = true ↔
    (branchCondition O bb).isSome = true ∧ FirstBranch p mi := by
  rw [mayBranch_eq]
  unfold FirstBranch
  cases hcond : branchCondition O bb with
  | none => simp
  | some y =>
      have hmem : y.id ∈ c.HardenCondition ↔
          ∃ b ∈ p, b.isConditionalBranch = true ∧ b.opcode ≠ .MFENCE := by
        simp [h.condition, hcond]
      cases mi.isConditionalBranch with
      | false => simp
      | true =>
          have hfilter :
              ((some y).filter fun x => decide (x.id ∉ c.HardenCondition)).isSome = true ↔
              y.id ∉ c.HardenCondition := by
            by_cases hy : y.id ∈ c.HardenCondition <;> simp [Option.filter, hy]
          rw [if_pos rfl, hfilter, hmem]
          simp only [not_exists, not_and, ne_eq, Option.isSome_some, true_and, not_not]
          refine forall₂_congr fun b _ => ?_
          cases b.isConditionalBranch <;> simp

include h in
theorem WalkInv.reached_iff (hO : O.HardenLoads = true) (hwf : mi.WF) (haddr : mi.addrRegs ≠ []) :
    Reached O bb mi c ↔ Considered O bb p mi := by
  have hfence : mi.opcode ≠ .MFENCE :=
    fun h' => mem_ne_none_of_addrRegs haddr (hwf.fence (.inl h'))
  have hbranch := h.branch_iff mi
  unfold Reached Considered skips
  simp only [hfence, hO, ne_eq, not_false_eq_true, and_true, true_and]
  rw [← hbranch]
  cases mi.mayLoad <;> cases mayVariant O mi <;> cases mayBranch O bb mi c.HardenCondition <;> simp

include h in
/-- What is queued in a step is what is planned. -/
theorem WalkInv.planned (hO : O.HardenLoads = true) (hwf : mi.WF) (hns : ¬ Stops O mi)
    (rest : List MachineInstr) :
    (Planned O T bb p mi .addr ∧ (collectStep O T bb mi rest c).accesses =
        Accesses.queueAddr mi { c.accesses with dep := taintStep c.LoadDepRegs mi }) ∨
      (Planned O T bb p mi .result ∧ (collectStep O T bb mi rest c).accesses =
        Accesses.queuePost mi { c.accesses with dep := taintStep c.LoadDepRegs mi }) ∨
      ((∀ way, ¬ Planned O T bb p mi way) ∧ (collectStep O T bb mi rest c).accesses =
        { c.accesses with dep := taintStep c.LoadDepRegs mi }) := by
  simp only [planned_iff (p := p)]
  rcases collectStep_accesses (T := T) rest c bb hns with ⟨hwhy, hacc⟩ | ⟨hreached, hleft, hacc⟩
  · refine .inr (.inr ⟨fun way hp => ?_, hacc⟩)
    obtain ⟨⟨hcons, haddr, hdep⟩, -⟩ := hp
    rcases hwhy with hwhy | hwhy | hwhy
    · exact hwhy ((h.reached_iff hO hwf haddr).mpr hcons)
    · exact haddr hwhy
    · exact hdep (h.dependent_iff.mp hwhy)
  · rw [LeftAlone, not_or, h.dependent_iff] at hleft
    have hbase := (h.reached_iff hO hwf hleft.1).mp hreached
    have hcomp := h.compatible_iff mi
    rw [hacc, Accesses.queue]
    by_cases hpost : postLoadCompatible O T mi c.HardenedAddrRegs = true
    · exact .inr (.inl ⟨⟨⟨hbase, hleft⟩, by simpa using hcomp.mp hpost⟩, if_pos hpost⟩)
    · refine .inl ⟨⟨⟨hbase, hleft⟩, ?_⟩, if_neg hpost⟩
      rw [← hcomp]
      simp [hpost]

include h in
/-- What becomes of the sets of accesses. -/
theorem WalkInv.planned_mem (hO : O.HardenLoads = true) (hwf : mi.WF) (hns : ¬ Stops O mi)
    (rest : List MachineInstr) :
    (∀ i, i ∈ (collectStep O T bb mi rest c).HardenLoadAddr ↔
        i ∈ c.HardenLoadAddr ∨ Planned O T bb p mi .addr ∧ mi.id = i) ∧
      (∀ i, i ∈ (collectStep O T bb mi rest c).HardenPostLoad ↔
        i ∈ c.HardenPostLoad ∨ Planned O T bb p mi .result ∧ mi.id = i) ∧
      (∀ r, r ∈ (collectStep O T bb mi rest c).HardenedAddrRegs ↔ r ∈ c.HardenedAddrRegs ∨
        (Planned O T bb p mi .addr ∧ r ∈ mi.addrRegs ∨ Planned O T bb p mi .result ∧ r ∈ mi.defs)) ∧
      ∀ r, r ∈ (collectStep O T bb mi rest c).LoadDepRegs ↔
        r ∈ taintStep c.LoadDepRegs mi ∨ Planned O T bb p mi .addr ∧ r ∈ mi.defs := by
  have hcases := h.planned hO hwf hns rest
  generalize collectStep O T bb mi rest c = c' at hcases
  rcases hcases with ⟨hp, hacc⟩ | ⟨hp, hacc⟩ | ⟨hnone, hacc⟩
  all_goals
    rw [show c'.HardenLoadAddr = _ from congrArg Accesses.addr hacc,
      show c'.HardenPostLoad = _ from congrArg Accesses.post hacc,
      show c'.HardenedAddrRegs = _ from congrArg Accesses.hardenedRegs hacc,
      show c'.LoadDepRegs = _ from congrArg Accesses.dep hacc]
  · simp only [Accesses.queueAddr, Collected.accesses, List.mem_insert_iff, List.mem_append, hp,
      hp.not_result, true_and, false_and, or_false]
    exact ⟨fun i => by tauto, fun i => trivial, fun r => by tauto, fun r => by tauto⟩
  · have hnot : ¬ Planned O T bb p mi .addr := fun h => h.not_result hp
    simp only [Accesses.queuePost, Collected.accesses, List.mem_insert_iff, List.mem_append, hp,
      hnot, true_and, false_and, or_false, false_or]
    exact ⟨fun i => trivial, fun i => by tauto, fun r => by tauto, fun r => trivial⟩
  · simp [hnone, Collected.accesses]

include h in
theorem WalkInv.step (hO : O.HardenLoads = true) (hwf : mi.WF) (hns : ¬ Stops O mi)
    (hfresh : ∀ y ∈ p, y.id ≠ mi.id) (rest : List MachineInstr) :
    WalkInv O T bb (p ++ [mi]) (collectStep O T bb mi rest c) := by
  obtain ⟨haddr, hresult, hregs, hdep⟩ := h.planned_mem hO hwf hns rest
  have hcond (i : Nat) := mem_condition_collectStep (T := T) rest c bb hns (i := i)
  constructor
  case addr => exact fun i => by rw [haddr, h.addr, exists_split_snoc]
  case result => exact fun i => by rw [hresult, h.result, exists_split_snoc]
  case regs => exact fun r => by rw [hregs, h.regs, RegHardened, RegHardened, exists_split_snoc]
  case dep => exact fun r => by rw [hdep, h.dep_snoc, exists_split_snoc]; rfl
  case condition =>
    intro i
    rw [hcond, h.condition]
    simp only [List.mem_append, List.mem_singleton, or_and_right, exists_or, exists_eq_left]
  case variant =>
    intro i
    rw [mem_variant_collectStep rest c bb hns, hcond, or_or_or_comm, h.variant, or_or_or_comm]
    simp only [List.mem_append, List.mem_singleton, or_and_right, exists_or, exists_eq_left]
  case fixed =>
    intro i hi
    rcases fixed_collectStep mi rest c bb hi with hi | ⟨hmi, rfl⟩
    · obtain ⟨x, hx, hxi⟩ := h.fixed i hi
      exact ⟨x, by simp [hx], hxi⟩
    · exact ⟨mi, by simp, hmi, rfl⟩
  case store =>
    intro x hx hx'
    rcases List.mem_append.mp hx with hx | hx
    · rw [store_collectStep_of_ne mi rest c bb (hfresh x hx)]
      exact h.store x hx hx'
    · obtain rfl := List.mem_singleton.mp hx
      have hfence : x.opcode ≠ .MFENCE :=
        fun h' => mem_ne_none_of_addrRegs hx' (hwf.fence (.inl h'))
      have hnew : x.id ∉ c.HardenStoreAddr := fun hmem => by
        obtain ⟨y, hy, hid⟩ := h.store_mem _ hmem
        exact hfresh y hy hid
      rw [store_collectStep rest c bb hns hx' hfence]
      simp [hnew]
  case store_mem =>
    intro i hi
    by_cases hid : i = mi.id
    · exact ⟨mi, by simp, hid.symm⟩
    · obtain ⟨x, hx, hxi⟩ := h.store_mem i ((store_collectStep_of_ne mi rest c bb hid).mp hi)
      exact ⟨x, by simp [hx], hxi⟩

end Planned

theorem walkInv_collectRun (hO : O.HardenLoads = true) (bb : MachineBasicBlock)
    {p : List MachineInstr} (l : List MachineInstr) (hwf : ∀ x ∈ p, x.WF)
    (hns : ∀ x ∈ p, ¬ Stops O x) (hnd : (p.map MachineInstr.id).Nodup) :
    WalkInv O T bb p (collectRun O T bb p l {}) := by
  induction p using List.reverseRecOn generalizing l with
  | nil =>
      constructor <;> simp [collectRun, RegHardened]
  | append_singleton p mi ih =>
      rw [collectRun_snoc]
      rw [List.map_append, List.nodup_append] at hnd
      refine (ih (mi :: l) (fun x hx => hwf x (by simp [hx])) (fun x hx => hns x (by simp [hx]))
        hnd.1).step hO (hwf mi (by simp)) (hns mi (by simp)) (fun y hy he => ?_) l
      exact hnd.2.2 _ (List.mem_map_of_mem hy) _ (by simp) he

/-! ## The sets of a block -/

/-- The sets of two states agree, those of registers and markers apart. -/
structure SameSets (c c' : Collected) : Prop where
  addr : c.HardenLoadAddr = c'.HardenLoadAddr
  result : c.HardenPostLoad = c'.HardenPostLoad
  others : c.others = c'.others

/-- Where it stops the first walk queues nothing. -/
theorem collect_stop {mi : MachineInstr} (hs : Stops O mi)
    (hbranch : mi.opcode ≠ .LFENCE → mi.isConditionalBranch = false) (fresh : Nat)
    (l : List MachineInstr) (c : Collected) :
    SameSets (collect O T fresh bb (mi :: l) c).1 c := by
  have hacc := propagate_accesses mi l c
  have hoth := propagate_others mi l c
  have hprop : SameSets (propagateLoadDep mi (collectMarker mi l c)) c :=
    ⟨congrArg Accesses.addr hacc, congrArg Accesses.post hacc, hoth⟩
  by_cases hl : mi.opcode = .LFENCE
  · simp only [collect, if_pos hl]
    exact hprop
  · have hx : stopsX87 O mi = true := hs.resolve_left hl
    have hcond (c : Collected) : mayBranch O bb mi c.HardenCondition = none := by
      simp [mayBranch, hbranch hl]
    simp only [collect, if_neg hl, if_pos hx, collectInstr, hcond, collectCondition]
    split_ifs <;> exact hprop

/-- The stretch of a block before the first fence. -/
def unfenced (O : Options) (bb : MachineBasicBlock) : List MachineInstr :=
  bb.takeWhile fun y => !decide (Stops O y)

theorem unfenced_not_stops {y : MachineInstr} (h : y ∈ unfenced O bb) : ¬ Stops O y := by
  simpa using List.mem_takeWhile_imp h

theorem prefix_unfenced {p : List MachineInstr} (h : p <+: bb) (hns : Unfenced O p) :
    p <+: unfenced O bb := by
  obtain ⟨q, rfl⟩ := h
  rw [unfenced, List.takeWhile_append_of_pos fun y hy => by simpa using hns y hy]
  exact List.prefix_append ..

section Block

variable (hO : O.HardenLoads = true) (hF : WF F) (hbb : bb ∈ F)

include hF hbb in
theorem block_nodup : (bb.map MachineInstr.id).Nodup :=
  hF.nodup.sublist (List.Sublist.map _ (List.sublist_flatten_of_mem hbb))

include hF hbb in
theorem block_wf {mi : MachineInstr} (h : mi ∈ bb) : mi.WF :=
  hF.instr mi (List.mem_flatten.mpr ⟨bb, hbb, h⟩)

include hO in
theorem collectBlock_eq : collectBlock O T F bb = collect O T (freshId F) bb bb {} := by
  rw [collectBlock, if_pos hO]

include hO hF hbb in
/-- The sets of a block are those of the stretch before the first fence. -/
theorem collectBlock_sets : ∃ c, WalkInv O T bb (unfenced O bb) c ∧
    SameSets (collectBlock O T F bb).1 c := by
  have hsub : (unfenced O bb).Sublist bb := List.takeWhile_sublist _
  refine ⟨collectRun O T bb (unfenced O bb) (bb.dropWhile fun y => !decide (Stops O y)) {},
    walkInv_collectRun hO bb _ (fun x hx => block_wf hF hbb (hsub.subset hx))
      (fun x hx => unfenced_not_stops hx)
      ((block_nodup hF hbb).sublist (hsub.map _)), ?_⟩
  have happ := collect_append (T := T) bb (p := unfenced O bb)
    (fun x hx => unfenced_not_stops hx) (freshId F)
    (bb.dropWhile fun y => !decide (Stops O y)) {}
  rw [unfenced, List.takeWhile_append_dropWhile] at happ
  rw [collectBlock_eq hO, happ]
  cases hrest : bb.dropWhile fun y => !decide (Stops O y) with
  | nil => exact ⟨rfl, rfl, rfl⟩
  | cons s l =>
      have hs : Stops O s := by
        have := List.head?_dropWhile_not (fun y => !decide (Stops O y)) bb
        simpa [hrest] using this
      have hmem : s ∈ F.flatten := List.mem_flatten.mpr
        ⟨bb, hbb, (List.dropWhile_sublist _).subset (by rw [hrest]; simp)⟩
      refine collect_stop hs (fun hl => ?_) _ _ _
      by_contra hbr
      have hterm := hF.terminator s hmem (.inl (hF.branch s hmem (by simpa using hbr)))
      have hx : stopsX87 O s = true := hs.resolve_left hl
      simp [stopsX87, hterm.2.2] at hx

include hF hbb in
/-- Planned accesses of the block, said of their identities. -/
theorem plannedIn_iff {X : MachineInstr} (hX : X ∈ bb) {way : Way} :
    PlannedIn O T bb X way ↔
      ∃ q J m, unfenced O bb = q ++ J :: m ∧ Planned O T bb q J way ∧ J.id = X.id := by
  have hpre : unfenced O bb <+: bb := List.takeWhile_prefix _
  constructor
  · rintro ⟨p, q, heq, hns, hp⟩
    have hstart : p ++ [X] <+: bb := ⟨q, by simp [heq]⟩
    obtain ⟨m, hm⟩ := prefix_unfenced hstart hns
    exact ⟨p, X, m, by simpa using hm.symm, hp, rfl⟩
  · rintro ⟨q, J, m, heq, hp, hid⟩
    obtain ⟨rest, hrest⟩ := hpre
    have hsplit : bb = q ++ J :: (m ++ rest) := by rw [← hrest, heq]; simp
    obtain rfl : J = X := List.inj_on_of_nodup_map (block_nodup hF hbb) (by simp [hsplit]) hX hid
    have hsub : q ++ [J] ⊆ unfenced O bb := by rw [heq]; simp
    exact ⟨q, m ++ rest, hsplit, fun y hy => unfenced_not_stops (hsub hy), hp⟩

theorem not_planned_of_not_hardenLoads (hO : ¬ O.HardenLoads = true) {X : MachineInstr}
    {way : Way} : ¬ PlannedIn O T bb X way := by
  rintro ⟨p, q, -, -, hp⟩
  exact hO (planned_iff.mp hp).1.1.1

theorem collectBlock_of_not_hardenLoads (hO : ¬ O.HardenLoads = true) :
    (collectBlock O T F bb).1 = {} := by
  rw [collectBlock, if_neg hO]

include hF hbb in
/-- **The first walk queues what is planned.** -/
theorem mem_collectBlock_iff {X : MachineInstr} (hX : X ∈ bb) :
    (X.id ∈ (collectBlock O T F bb).1.HardenLoadAddr ↔ PlannedIn O T bb X .addr) ∧
      (X.id ∈ (collectBlock O T F bb).1.HardenPostLoad ↔ PlannedIn O T bb X .result) := by
  by_cases hO : O.HardenLoads = true
  · obtain ⟨c, hinv, hsame⟩ := collectBlock_sets (T := T) hO hF hbb
    rw [hsame.addr, hsame.result, hinv.addr, hinv.result, plannedIn_iff hF hbb hX,
      plannedIn_iff hF hbb hX]
    exact ⟨Iff.rfl, Iff.rfl⟩
  · rw [collectBlock_of_not_hardenLoads hO]
    simp [not_planned_of_not_hardenLoads hO]

theorem findCondition_spec {H : List Nat} {l : List MachineInstr} {x : MachineInstr}
    (h : findCondition H l = some x) : x ∈ l ∧ x.implicitEFLAGS = true := by
  induction l with
  | nil => cases h
  | cons mi l ih =>
      unfold findCondition at h
      split_ifs at h with h1 h2 h3
      · exact ⟨List.mem_cons_of_mem _ (ih h).1, (ih h).2⟩
      · obtain rfl := Option.some.inj h
        simp only [Bool.or_eq_true, Bool.not_eq_true', not_or, Bool.not_eq_false] at h1
        exact ⟨List.mem_cons_self, h1.1.2⟩

theorem branchCondition_mem {x : MachineInstr} (h : branchCondition O bb = some x) : x ∈ bb := by
  unfold branchCondition at h
  split_ifs at h
  exact List.mem_reverse.mp (findCondition_spec h).1

include hF hbb in
theorem mem_condition_iff {X : MachineInstr} (hX : X ∈ bb) :
    X.id ∈ (collectBlock O T F bb).1.HardenCondition ↔ ComputesCondition O bb X := by
  by_cases hO : O.HardenLoads = true
  · obtain ⟨c, hinv, hsame⟩ := collectBlock_sets (T := T) hO hF hbb
    rw [show (collectBlock O T F bb).1.HardenCondition = _ from
      congrArg Others.condition hsame.others, show c.others.condition = c.HardenCondition from rfl,
      hinv.condition]
    constructor
    · rintro ⟨⟨b, hb, hbr, hfence⟩, x, hx, hid⟩
      obtain rfl : x = X := List.inj_on_of_nodup_map (block_nodup hF hbb)
        (branchCondition_mem hx) hX hid
      obtain ⟨p, m, heq⟩ := List.append_of_mem hb
      obtain ⟨rest, hrest⟩ : unfenced O bb <+: bb := List.takeWhile_prefix _
      refine ⟨hO, hx, p, b, m ++ rest, by rw [← hrest, heq]; simp, fun y hy => ?_, hbr, hfence⟩
      exact unfenced_not_stops (by
        rw [heq]
        rcases List.mem_append.mp hy with hy | hy <;> simp_all)
    · rintro ⟨-, hx, p, b, q, heq, hns, hbr, hfence⟩
      have hstart : p ++ [b] <+: bb := ⟨q, by simp [heq]⟩
      exact ⟨⟨b, (prefix_unfenced hstart hns).subset (by simp), hbr, hfence⟩, X, hx, rfl⟩
  · rw [collectBlock_of_not_hardenLoads hO]
    simp [ComputesCondition, hO]

include hF hbb in
/-- What a planned access is also queued for. -/
theorem planned_others {X : MachineInstr} {way : Way} (hp : PlannedIn O T bb X way) :
    (inOtherHardenList (collectBlock O T F bb).1 X.id ↔
        ComputesCondition O bb X ∨ mayVariant O X = true) ∧
      (X.id ∈ (collectBlock O T F bb).1.HardenStoreAddr ↔ storeHardened O X = true) := by
  obtain ⟨p, q, heq, hns, hplan⟩ := id hp
  have hX : X ∈ bb := by simp [heq]
  have hO := (planned_iff.mp hplan).1.1.1
  have haddr := (planned_iff.mp hplan).1.2.1
  have hnd := block_nodup hF hbb
  have hstart : p ++ [X] <+: bb := ⟨q, by simp [heq]⟩
  have hmem : X ∈ unfenced O bb := (prefix_unfenced hstart hns).subset (by simp)
  have hsub : unfenced O bb ⊆ bb := (List.takeWhile_sublist _).subset
  have hfence : X.opcode ≠ .MFENCE := fun h' =>
    mem_ne_none_of_addrRegs haddr ((block_wf hF hbb hX).fence (.inl h'))
  obtain ⟨c, hinv, hsame⟩ := collectBlock_sets (T := T) hO hF hbb
  have hcond := mem_condition_iff (O := O) (T := T) hF hbb hX
  have hfixed : ¬ (X.id ∈ c.HardenFixedAddressRBP ∨ X.id ∈ c.HardenFixedAddressRSP) := by
    intro h
    obtain ⟨y, hy, hno, hid⟩ := hinv.fixed _ h
    obtain rfl := List.inj_on_of_nodup_map hnd (hsub hy) hX hid
    exact haddr hno
  have hvariant := hinv.variant X.id
  have hself : (∃ x ∈ unfenced O bb, (mayVariant O x = true ∧ x.opcode ≠ .MFENCE) ∧ x.id = X.id) ↔
      mayVariant O X = true := by
    constructor
    · rintro ⟨x, hx, ⟨hv, -⟩, hid⟩
      rwa [← List.inj_on_of_nodup_map hnd (hsub hx) hX hid]
    · exact fun hv => ⟨X, hmem, ⟨hv, hfence⟩, rfl⟩
  rw [hself] at hvariant
  constructor
  · rw [← hcond, inOtherHardenList]
    rw [show (collectBlock O T F bb).1.HardenCondition = c.HardenCondition from
        congrArg Others.condition hsame.others,
      show (collectBlock O T F bb).1.HardenFixedAddressRBP = c.HardenFixedAddressRBP from
        congrArg Others.fixedRBP hsame.others,
      show (collectBlock O T F bb).1.HardenFixedAddressRSP = c.HardenFixedAddressRSP from
        congrArg Others.fixedRSP hsame.others,
      show (collectBlock O T F bb).1.HardenVTInstr = c.HardenVTInstr from
        congrArg Others.variant hsame.others]
    constructor
    · rintro (h | h | h | h)
      · exact .inl h
      · exact absurd (.inl h) hfixed
      · exact absurd (.inr h) hfixed
      · exact (hvariant.mp (.inl h)).symm
    · rintro (h | h)
      · exact .inl h
      · exact (hvariant.mpr (.inl h)).symm.imp_right fun h => .inr (.inr h)
  · rw [show (collectBlock O T F bb).1.HardenStoreAddr = c.HardenStoreAddr from
      congrArg Others.store hsame.others]
    exact hinv.store X hmem haddr

end Block

end MSV.SLH
