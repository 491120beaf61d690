import MSV.Range.TransferProof
import MSV.Range.MemoryProof

/-!
# Allocation sizes along chains

A chain carries the pointer a `malloc` returned through bitcasts and through the memory of allocas,
with other instructions in between that leave the pointer alone. The size enters the state with the
first store: `handleStore` sees the call through the casts before it. From the first load on the
size is in the state, and a bitcast loses it: its first case writes the size, and then the cast case
writes infinity under the same key.

**Theorem (`alloc_size_tracked_iff`).** At the end of a chain with a load the range is `[0, n - 1]`
if and only if no bitcast comes after a load.

What holds along a chain is `ChainInv`; its parts are what the pointer's definition says (`CastsOf`)
and what the state says.
-/

namespace MSV

/-! ## Definitions -/

/-- Where the pointer is: a value, or what is stored in an alloca. -/
inductive Held where
  | pointer (v : Value)
  | cell (a : Value)

/-- A link of a chain. -/
inductive Link where
  | bitcast
  | store
  | load
deriving DecidableEq

/-- The constant range of `n` available bytes. -/
def sizeRange (n : Nat) : RangeValue := makeRange (APInt.ofNat 64 0) (APInt.ofNat 64 (n - 1))

/-- The instruction calls `malloc` with the constant `n`. -/
def IsMallocOf (M : Module) (i : Inst) (n : Nat) : Prop :=
  ∃ callee f c args, i.kind.asCallBase = some (callee, .constInt c :: args) ∧
    callee.getCalledFunction.bind M.func? = some f ∧ f.name = "malloc" ∧ c.toNat = n

/-- The instruction redefines the value, or stores to the alloca or allocates it again. -/
def Disturbs (M : Module) (i : Inst) : Held → Prop
  | .pointer v => v = .inst i.id
  | .cell a => a = .inst i.id ∨ ∃ val ptr, i.kind = .store val ptr ∧ M.stripPointerCasts ptr = a

/-- The instructions `tr` carry the pointer to `malloc(n)`, over these links, to where it is
held. -/
inductive AllocChain (M : Module) (n : Nat) : List Inst → List Link → Held → Prop
  | malloc {i : Inst} : i ∈ M.insts → IsMallocOf M i n → i.ty.isPointerTy = true →
      AllocChain M n [i] [] (.pointer (.inst i.id))
  | bitcast {tr : List Inst} {links : List Link} {v : Value} {i : Inst} :
      AllocChain M n tr links (.pointer v) → i ∈ M.insts → i.kind = .cast .bitcast v →
      i.ty.isPointerTy = true →
      AllocChain M n (tr ++ [i]) (links ++ [.bitcast]) (.pointer (.inst i.id))
  | store {tr : List Inst} {links : List Link} {v a : Value} {i : Inst} {ty : Ty} {sz : Value} :
      AllocChain M n tr links (.pointer v) → i ∈ M.insts → i.kind = .store v a →
      M.kindOf a = some (.alloca ty sz) →
      AllocChain M n (tr ++ [i]) (links ++ [.store]) (.cell a)
  | load {tr : List Inst} {links : List Link} {a : Value} {i : Inst} :
      AllocChain M n tr links (.cell a) → i ∈ M.insts → i.kind = .load a →
      i.ty.isPointerTy = true →
      AllocChain M n (tr ++ [i]) (links ++ [.load]) (.pointer (.inst i.id))
  | other {tr : List Inst} {links : List Link} {held : Held} {i : Inst} :
      AllocChain M n tr links held → i ∈ M.insts → ¬ Disturbs M i held →
      AllocChain M n (tr ++ [i]) links held

/-- The transfers of the instructions, in order. -/
def transferAll (M : Module) (DL : DataLayout) (tr : List Inst) (s : RangeState) : RangeState :=
  tr.foldl (fun s i => transfer M DL (.inst i.id) s) s

/-- No bitcast comes after a load. -/
def NoCastAfterLoad (links : List Link) : Prop :=
  ∀ l₁ l₂, links = l₁ ++ .load :: l₂ → .bitcast ∉ l₂

section

variable {M : Module} {DL : DataLayout} {n k : Nat} {i : Inst} {m v a : Value} {s : RangeState}
  {links : List Link}

/-! ## Links -/

theorem noCastAfterLoad_append {l : Link} (hl : l ≠ .bitcast) :
    NoCastAfterLoad (links ++ [l]) ↔ NoCastAfterLoad links := by
  constructor
  · intro h l₁ l₂ heq hmem
    exact h l₁ (l₂ ++ [l]) (by simp [heq]) (List.mem_append_left _ hmem)
  · intro h l₁ l₂ heq hmem
    rcases List.eq_nil_or_concat l₂ with rfl | ⟨l₃, l', rfl⟩
    · cases hmem
    · rw [List.concat_eq_append, ← List.cons_append, ← List.append_assoc] at heq
      obtain ⟨rfl, hlast⟩ := List.append_inj' heq rfl
      obtain rfl := (List.cons.inj hlast).1
      rw [List.concat_eq_append, List.mem_append, List.mem_singleton] at hmem
      exact h l₁ l₃ rfl (hmem.resolve_right (Ne.symm hl))

theorem noCastAfterLoad_of_not_mem (h : .load ∉ links) : NoCastAfterLoad links := by
  rintro l₁ l₂ rfl
  exact absurd (by simp) h

theorem noCastAfterLoad_append_bitcast :
    NoCastAfterLoad (links ++ [.bitcast]) ↔ .load ∉ links := by
  constructor
  · intro h hmem
    obtain ⟨l₁, l₂, rfl⟩ := List.append_of_mem hmem
    exact h l₁ (l₂ ++ [.bitcast]) (by simp) (by simp)
  · intro h
    exact noCastAfterLoad_of_not_mem (by simp [h])

/-- The range of the pointer once it has been stored. -/
def RangeAfter (n : Nat) (links : List Link) (r : RangeValue) : Prop :=
  NoCastAfterLoad links ∧ r = sizeRange n ∨ ¬ NoCastAfterLoad links ∧ r = .infinity

/-! ## Casts of a pointer -/

/-- `k` bitcasts lead from `m` to `v`. -/
inductive CastsOf (M : Module) (m : Value) : Nat → Value → Prop
  | base : CastsOf M m 0 m
  | cast {k : Nat} {v : Value} {i : Inst} : CastsOf M m k v → i ∈ M.insts →
      M.kindOf (.inst i.id) = some (.cast .bitcast v) → (M.typeOf v).isPointerTy = true →
      CastsOf M m (k + 1) (.inst i.id)

/-- `stripPointerCasts` stops at the value. -/
def StripStop (M : Module) (m : Value) : Prop :=
  (∀ op a, M.kindOf m ≠ some (.cast op a)) ∧ ∀ src base indices, M.kindOf m ≠
    some (.gep src base indices)

theorem StripStop.strip (h : StripStop M m) (fuel : Nat) : M.stripFuel fuel m = m :=
  stripFuel_self h.1 (fun src base indices hk => absurd hk (h.2 src base indices)) fuel

theorem stripFuel_bitcast (hk : M.kindOf v = some (.cast .bitcast a))
    (ht : (M.typeOf a).isPointerTy = true) (fuel : Nat) :
    M.stripFuel (fuel + 1) v = M.stripFuel fuel a := by
  rw [Module.stripFuel, hk]
  exact if_pos ht

/-- With little fuel some of the casts are left. -/
theorem CastsOf.stripFuel (h : CastsOf M m k v) (hm : StripStop M m) (fuel : Nat) :
    ∃ k', CastsOf M m k' (M.stripFuel fuel v) := by
  induction h generalizing fuel with
  | base => exact ⟨0, by rw [hm.strip]; exact .base⟩
  | cast h hi hk ht ih =>
      cases fuel with
      | zero => exact ⟨_, .cast h hi hk ht⟩
      | succ fuel =>
          rw [stripFuel_bitcast hk ht]
          exact ih fuel

/-- With enough none is. -/
theorem CastsOf.stripFuel_eq (h : CastsOf M m k v) (hm : StripStop M m) {fuel : Nat}
    (hfuel : k ≤ fuel) : M.stripFuel fuel v = m := by
  induction h generalizing fuel with
  | base => exact hm.strip fuel
  | cast _ _ hk ht ih =>
      obtain ⟨fuel, rfl⟩ := Nat.exists_eq_add_of_le' (Nat.one_le_of_lt hfuel)
      rw [stripFuel_bitcast hk ht]
      exact ih (by omega)

theorem CastsOf.kind (h : CastsOf M m k v) :
    v = m ∨ ∃ a, M.kindOf v = some (.cast .bitcast a) := by
  cases h with
  | base => exact Or.inl rfl
  | cast _ _ hk _ => exact Or.inr ⟨_, hk⟩

/-- A value is so many casts away from `m`, and no other number. -/
theorem CastsOf.unique (hm : StripStop M m) {j : Nat} (h : CastsOf M m j v) :
    ∀ {k : Nat}, CastsOf M m k v → j = k := by
  induction h with
  | base =>
      intro k h'
      cases h' with
      | base => rfl
      | cast _ _ hk _ => exact absurd hk (hm.1 _ _)
  | @cast j v i h hi hk ht ih =>
      intro k h'
      generalize hv : Value.inst i.id = w at h'
      cases h' with
      | base => exact absurd (hv ▸ hk) (hm.1 _ _)
      | @cast k v' i' h' _ hk' _ =>
          rw [← hv, hk] at hk'
          obtain rfl : v = v' := by simpa using hk'
          rw [ih h']

/-- There are no more casts than instructions besides `m`. -/
theorem CastsOf.lt_length (h : CastsOf M (.inst i.id) k v) (hi : i ∈ M.insts)
    (hm : StripStop M (.inst i.id)) : k < M.insts.length := by
  -- every number of casts up to `k` is met on the way, at another instruction
  have hway : ∀ {k v}, CastsOf M (.inst i.id) k v → ∀ j ≤ k, ∃ x ∈ M.insts,
      CastsOf M (.inst i.id) j (.inst x.id) := by
    intro k v h
    induction h with
    | base =>
        intro j hj
        obtain rfl : j = 0 := by omega
        exact ⟨i, hi, .base⟩
    | @cast k v x h hx hk ht ih =>
        intro j hj
        rcases Nat.lt_or_ge k j with hlt | hge
        · obtain rfl : j = k + 1 := by omega
          exact ⟨x, hx, .cast h hx hk ht⟩
        · exact ih j hge
  have : Nonempty Inst := ⟨i⟩
  choose! x hx hcasts using hway h
  have hinj : ((List.range (k + 1)).map x).Nodup := by
    refine List.Nodup.map_on (fun j hj j' hj' heq => ?_) List.nodup_range
    rw [List.mem_range] at hj hj'
    have hj'' := hcasts j' (by omega)
    rw [← heq] at hj''
    exact (hcasts j (by omega)).unique hm hj''
  have hsub : (List.range (k + 1)).map x ⊆ M.insts := by
    intro y hy
    obtain ⟨j, hj, rfl⟩ := List.mem_map.mp hy
    exact hx j (by rw [List.mem_range] at hj; omega)
  have hlen := (List.subperm_of_subset hinj hsub).length_le
  rw [List.length_map, List.length_range] at hlen
  exact hlen

/-! ## Where the pointer comes from -/

theorem typeOf_inst (hM : M.WF) (hi : i ∈ M.insts) : M.typeOf (.inst i.id) = i.ty := by
  rw [Module.typeOf, hM.inst?_eq hi, Option.map_some, Option.getD_some]

/-- A cast of what a `malloc(n)` returned. -/
def FromMalloc (M : Module) (n : Nat) (v : Value) : Prop :=
  ∃ i ∈ M.insts, IsMallocOf M i n ∧ ∃ k, CastsOf M (.inst i.id) k v

/-- A cast of a loaded pointer. -/
def FromLoad (M : Module) (v : Value) : Prop :=
  ∃ i ∈ M.insts, (∃ ptr, i.kind = .load ptr) ∧ ∃ k, CastsOf M (.inst i.id) k v

theorem stripStop_malloc (hM : M.WF) (hi : i ∈ M.insts) (h : IsMallocOf M i n) :
    StripStop M (.inst i.id) := by
  obtain ⟨callee, f, c, args, hcall, -⟩ := h
  constructor
  · intro op a hk
    rw [hM.kindOf_eq hi] at hk
    rw [Option.some.inj hk] at hcall
    cases hcall
  · intro src base indices hk
    rw [hM.kindOf_eq hi] at hk
    rw [Option.some.inj hk] at hcall
    cases hcall

theorem stripStop_load (hM : M.WF) (hi : i ∈ M.insts) {ptr : Value} (h : i.kind = .load ptr) :
    StripStop M (.inst i.id) := by
  unfold StripStop
  rw [hM.kindOf_eq hi, h]
  simp

/-- Casts of a value that is no alloca are not stored through. -/
theorem CastsOf.not_local (h : CastsOf M m k v) (hm : StripStop M m)
    (hno : ∀ ty sz, M.kindOf m ≠ some (.alloca ty sz)) : isLocalAllocaPointer M v = false := by
  obtain ⟨k', hstrip⟩ := h.stripFuel hm M.insts.length
  have hkind := hstrip.kind
  unfold isLocalAllocaPointer Module.stripPointerCasts
  split
  · rename_i ty sz hk
    obtain heq | ⟨a, hcast⟩ := hkind
    · exact absurd (heq ▸ hk) (hno ty sz)
    · cases hk.symm.trans hcast
  · rfl

theorem FromMalloc.not_local (hM : M.WF) (h : FromMalloc M n v) :
    isLocalAllocaPointer M v = false := by
  obtain ⟨i, hi, hmalloc, k, hcasts⟩ := h
  refine hcasts.not_local (stripStop_malloc hM hi hmalloc) fun ty sz hk => ?_
  obtain ⟨callee, f, c, args, hcall, -⟩ := hmalloc
  rw [hM.kindOf_eq hi] at hk
  rw [Option.some.inj hk] at hcall
  cases hcall

theorem FromLoad.not_local (hM : M.WF) (h : FromLoad M v) : isLocalAllocaPointer M v = false := by
  obtain ⟨i, hi, ⟨ptr, hload⟩, k, hcasts⟩ := h
  refine hcasts.not_local (stripStop_load hM hi hload) fun ty sz hk => ?_
  rw [hM.kindOf_eq hi, hload] at hk
  cases hk

/-- The call is found through the casts. -/
theorem FromMalloc.isKnownMallocCall (hM : M.WF) (h : FromMalloc M n v) :
    isKnownMallocCall M v = some n := by
  obtain ⟨i, hi, hmalloc, k, hcasts⟩ := h
  have hstop := stripStop_malloc hM hi hmalloc
  have hstrip : M.stripPointerCasts v = .inst i.id :=
    hcasts.stripFuel_eq hstop (hcasts.lt_length hi hstop).le
  obtain ⟨callee, f, c, args, hcall, hf, hname, rfl⟩ := hmalloc
  unfold MSV.isKnownMallocCall
  rw [hstrip, hM.kindOf_eq hi, Option.bind_some, hcall]
  dsimp only
  rw [hf]
  exact if_pos hname

theorem FromLoad.isKnownMallocCall (hM : M.WF) (h : FromLoad M v) :
    isKnownMallocCall M v = none := by
  obtain ⟨i, hi, ⟨ptr, hload⟩, k, hcasts⟩ := h
  obtain ⟨k', hstrip⟩ := hcasts.stripFuel (stripStop_load hM hi hload) M.insts.length
  have hnone : (M.kindOf (M.stripPointerCasts v)).bind InstKind.asCallBase = none := by
    obtain heq | ⟨a, hcast⟩ := hstrip.kind
    · rw [Module.stripPointerCasts, heq, hM.kindOf_eq hi, hload]
      rfl
    · rw [Module.stripPointerCasts, hcast]
      rfl
  rw [MSV.isKnownMallocCall, hnone]

/-! ## What the links do to the state -/

/-- A size read from a 64-bit end and written again. -/
theorem allocSizeOf_again (x : Nat) :
    APInt.ofNat 64 (u64 (allocSizeOf (APInt.ofNat 64 x) + 2 ^ 64 - 1)) = APInt.ofNat 64 x := by
  have hsext : ((APInt.ofNat 64 x).sextOrTrunc 64).toNat = x % 2 ^ 64 := by
    unfold APInt.sextOrTrunc APInt.toNat APInt.ofNat
    simp
  have hnat : u64 (allocSizeOf (APInt.ofNat 64 x) + 2 ^ 64 - 1) = x % 2 ^ 64 := by
    unfold allocSizeOf u64
    rw [hsext]
    omega
  have hbits : BitVec.ofNat 64 (x % 2 ^ 64) = BitVec.ofNat 64 x := by
    apply BitVec.eq_of_toNat_eq
    rw [BitVec.toNat_ofNat, BitVec.toNat_ofNat, Nat.mod_mod]
  rw [hnat, APInt.ofNat, APInt.ofNat, hbits]

theorem exists_ptr (ht : (M.typeOf v).isPointerTy = true) : ∃ t, M.typeOf v = .ptr t := by
  cases h : M.typeOf v with
  | ptr t => exact ⟨t, rfl⟩
  | _ => rw [h] at ht; cases ht

theorem isLocalAllocaPointer_alloca {ty : Ty} {sz : Value}
    (ha : M.kindOf a = some (.alloca ty sz)) : isLocalAllocaPointer M a = true := by
  have hstop : StripStop M a := by
    unfold StripStop
    rw [ha]
    simp
  unfold isLocalAllocaPointer
  rw [Module.stripPointerCasts, hstop.strip, ha]

theorem get_of_ne_const {v : Value} (hv : ∀ c, v ≠ .constInt c) (s : RangeState) :
    getRangeFor v s = (s.get v, s.touch v) := by
  cases v with
  | constInt c => exact absurd rfl (hv c)
  | _ => rfl

/-- The first store records the size of the call. -/
theorem handleStore_fromMalloc (hM : M.WF) (hn : 1 ≤ n) (h : FromMalloc M n v)
    (ht : (M.typeOf v).isPointerTy = true) (ha : isLocalAllocaPointer M a = true)
    (s : RangeState) : (handleStore M v a s).find a = some (sizeRange n) := by
  obtain ⟨t, ht⟩ := exists_ptr ht
  obtain ⟨m, rfl⟩ := Nat.exists_eq_add_of_le' hn
  unfold handleStore
  rw [if_pos ha, h.isKnownMallocCall hM, ht]
  exact FMap.find_set_self ..

/-- A later one passes the range on. -/
theorem handleStore_fromLoad (hM : M.WF) (h : FromLoad M v)
    (ht : (M.typeOf v).isPointerTy = true) (ha : isLocalAllocaPointer M a = true) {r : RangeValue}
    (hr : RangeAfter n links r) (hs : s.find v = some r) :
    (handleStore M v a s).find a = some r := by
  obtain ⟨t, ht⟩ := exists_ptr ht
  have hconst : ∀ c, v ≠ .constInt c := by
    rintro c rfl
    cases ht
  have hva : v ≠ a := by
    rintro rfl
    rw [h.not_local hM] at ha
    cases ha
  have hfind : ((s.touch v).set a r).find v = some r := by
    rw [FMap.find_set_ne _ _ hva, FMap.find_touch, if_pos rfl, FMap.get_of_find hs]
  unfold handleStore
  rw [if_pos ha, get_of_ne_const hconst, FMap.get_of_find hs, h.isKnownMallocCall hM, ht]
  dsimp only
  rw [hfind]
  obtain ⟨-, rfl⟩ | ⟨-, rfl⟩ := hr
  · show FMap.find (FMap.set _ a _) a = _
    rw [FMap.find_set_self, allocSizeOf_again]
    rfl
  · exact FMap.find_set_self ..

/-- A load from an alloca reads what is recorded for it. -/
theorem handleLoad_alloca (ha : isLocalAllocaPointer M a = true) {r : RangeValue}
    (hs : s.find a = some r) (self : Value) : (handleLoad M self a s).find self = some r := by
  unfold handleLoad
  rw [if_pos ha, hs]
  exact FMap.find_set_self ..

/-- A bitcast of a pointer with a range has infinity in the end, whatever was written first. -/
theorem transfer_bitcast (hk : M.kindOf v = some (.cast .bitcast a))
    (ht : (M.typeOf v).isPointerTy = true) (hva : a ≠ v) (hconst : ∀ c, a ≠ .constInt c)
    {r : RangeValue} (hr : RangeAfter n links r) (hs : s.find a = some r) :
    (transfer M DL v s).find v = some .infinity := by
  obtain ⟨t, ht⟩ := exists_ptr ht
  have hcast : ∀ s' : RangeState, s'.find a = some r →
      (evaluateCast .bitcast a (.ptr t) s').1 = .infinity := by
    intro s' hs'
    unfold evaluateCast
    rw [get_of_ne_const hconst, FMap.get_of_find hs']
    obtain ⟨-, rfl⟩ | ⟨-, rfl⟩ := hr
    · dsimp only [sizeRange, makeRange]
      rw [foldCast_pointer]
      rfl
    · rfl
  unfold transfer
  rw [hk, ht]
  dsimp only
  rw [FMap.find_set_self]
  congr 1
  apply hcast
  rw [if_pos rfl]
  split
  · rw [FMap.find_set_ne _ _ hva, hs]
  · exact hs

/-! ## Along a chain -/

/-- What holds where the pointer is, after the links. -/
def ChainInv (M : Module) (n : Nat) (links : List Link) (s : RangeState) : Held → Prop
  | .pointer v => (M.typeOf v).isPointerTy = true ∧
      (.load ∉ links ∧ FromMalloc M n v ∨
        .load ∈ links ∧ FromLoad M v ∧ ∃ r, RangeAfter n links r ∧ s.find v = some r)
  | .cell a => isLocalAllocaPointer M a = true ∧ M.stripPointerCasts a = a ∧
      ∃ r, RangeAfter n links r ∧ s.find a = some r

theorem RangeAfter.append {r : RangeValue} (h : RangeAfter n links r) {l : Link}
    (hl : l ≠ .bitcast) : RangeAfter n (links ++ [l]) r := by
  unfold RangeAfter at h ⊢
  rwa [noCastAfterLoad_append hl]

theorem transferAll_append (tr : List Inst) (i : Inst) (s : RangeState) :
    transferAll M DL (tr ++ [i]) s = transfer M DL (.inst i.id) (transferAll M DL tr s) := by
  rw [transferAll, List.foldl_append]
  rfl

/-- An instruction that does not disturb a pointer does not write its key. -/
theorem not_written_pointer (hlocal : isLocalAllocaPointer M v = false)
    (hno : ¬ Disturbs M i (.pointer v)) : ¬ Written M (.inst i.id) v := by
  unfold Written
  split
  · rintro ⟨hptr, rfl⟩
    rw [hlocal] at hptr
    cases hptr
  · exact hno

theorem not_written_cell (hM : M.WF) (hi : i ∈ M.insts) (hstrip : M.stripPointerCasts a = a)
    (hno : ¬ Disturbs M i (.cell a)) : ¬ Written M (.inst i.id) a := by
  unfold Written
  split
  · rename_i val ptr hk
    rintro ⟨-, rfl⟩
    rw [hM.kindOf_eq hi] at hk
    exact hno (Or.inr ⟨val, _, Option.some.inj hk, hstrip⟩)
  · exact fun h => hno (Or.inl h)

theorem chainInv_of_other (hM : M.WF) (hi : i ∈ M.insts) {held : Held}
    (hno : ¬ Disturbs M i held) (h : ChainInv M n links s held) :
    ChainInv M n links (transfer M DL (.inst i.id) s) held := by
  cases held with
  | pointer v =>
      obtain ⟨ht, hfresh | ⟨hmem, hload, r, hr, hs⟩⟩ := h
      · exact ⟨ht, Or.inl hfresh⟩
      · refine ⟨ht, Or.inr ⟨hmem, hload, r, hr, ?_⟩⟩
        exact ((transfer_writes M DL _ s).frame v r hs).resolve_right
          (not_written_pointer (hload.not_local hM) hno)
  | cell a =>
      obtain ⟨hlocal, hstrip, r, hr, hs⟩ := h
      refine ⟨hlocal, hstrip, r, hr, ?_⟩
      exact ((transfer_writes M DL _ s).frame a r hs).resolve_right
        (not_written_cell hM hi hstrip hno)

theorem chainInv_of_bitcast (hM : M.WF) (hi : i ∈ M.insts) (hk : i.kind = .cast .bitcast v)
    (hty : i.ty.isPointerTy = true) (h : ChainInv M n links s (.pointer v)) :
    ChainInv M n (links ++ [.bitcast]) (transfer M DL (.inst i.id) s)
      (.pointer (.inst i.id)) := by
  have hkind : M.kindOf (.inst i.id) = some (.cast .bitcast v) := by rw [hM.kindOf_eq hi, hk]
  have htself : (M.typeOf (.inst i.id)).isPointerTy = true := by rw [typeOf_inst hM hi, hty]
  obtain ⟨ht, ⟨hmem, x, hx, hmalloc, k, hcasts⟩ | ⟨hmem, hload, r, hr, hs⟩⟩ := h
  · refine ⟨htself, Or.inl ⟨by simpa using hmem, x, hx, hmalloc, k + 1, ?_⟩⟩
    exact .cast hcasts hi hkind ht
  · obtain ⟨x, hx, hxk, k, hcasts⟩ := hload
    refine ⟨htself, Or.inr ⟨by simp [hmem], ⟨x, hx, hxk, k + 1, .cast hcasts hi hkind ht⟩,
      .infinity, ?_, ?_⟩⟩
    · exact Or.inr ⟨fun hno => noCastAfterLoad_append_bitcast.mp hno hmem, rfl⟩
    · obtain ⟨ptr, hptr⟩ := hxk
      -- the operand is another number of casts away from the load
      have hne : v ≠ .inst i.id := by
        intro heq
        have hsame := (CastsOf.cast hcasts hi hkind ht).unique (stripStop_load hM hx hptr)
          (heq ▸ hcasts)
        omega
      have hconst : ∀ c, v ≠ .constInt c := by
        rintro c rfl
        cases ht
      exact transfer_bitcast hkind htself hne hconst hr hs

theorem chainInv_of_store (hM : M.WF) (hn : 1 ≤ n) (hi : i ∈ M.insts) (hk : i.kind = .store v a)
    {ty : Ty} {sz : Value} (ha : M.kindOf a = some (.alloca ty sz))
    (h : ChainInv M n links s (.pointer v)) :
    ChainInv M n (links ++ [.store]) (transfer M DL (.inst i.id) s) (.cell a) := by
  have hlocal := isLocalAllocaPointer_alloca ha
  have hstop : StripStop M a := by
    unfold StripStop
    rw [ha]
    simp
  have htransfer : transfer M DL (.inst i.id) s = handleStore M v a s := by
    unfold transfer
    rw [hM.kindOf_eq hi, hk]
  rw [htransfer]
  obtain ⟨ht, ⟨hmem, hmalloc⟩ | ⟨hmem, hload, r, hr, hs⟩⟩ := h
  · refine ⟨hlocal, hstop.strip _, sizeRange n, Or.inl ⟨?_, rfl⟩, ?_⟩
    · exact noCastAfterLoad_of_not_mem (by simpa using hmem)
    · exact handleStore_fromMalloc hM hn hmalloc ht hlocal s
  · exact ⟨hlocal, hstop.strip _, r, hr.append (by decide),
      handleStore_fromLoad hM hload ht hlocal hr hs⟩

theorem chainInv_of_load (hM : M.WF) (hi : i ∈ M.insts) (hk : i.kind = .load a)
    (hty : i.ty.isPointerTy = true) (h : ChainInv M n links s (.cell a)) :
    ChainInv M n (links ++ [.load]) (transfer M DL (.inst i.id) s) (.pointer (.inst i.id)) := by
  obtain ⟨hlocal, -, r, hr, hs⟩ := h
  refine ⟨by rw [typeOf_inst hM hi, hty], Or.inr ⟨by simp, ⟨i, hi, ⟨a, hk⟩, 0, .base⟩, r,
    hr.append (by decide), ?_⟩⟩
  unfold transfer
  rw [hM.kindOf_eq hi, hk]
  exact handleLoad_alloca hlocal hs _

/-- **The invariant of a chain.** -/
theorem chainInv (hM : M.WF) (hn : 1 ≤ n) {tr : List Inst} {held : Held}
    (h : AllocChain M n tr links held) (s : RangeState) :
    ChainInv M n links (transferAll M DL tr s) held := by
  induction h with
  | @malloc i hi hmalloc hty =>
      exact ⟨by rw [typeOf_inst hM hi, hty], Or.inl ⟨by simp, i, hi, hmalloc, 0, .base⟩⟩
  | bitcast _ hi hk hty ih =>
      rw [transferAll_append]
      exact chainInv_of_bitcast hM hi hk hty ih
  | store _ hi hk ha ih =>
      rw [transferAll_append]
      exact chainInv_of_store hM hn hi hk ha ih
  | load _ hi hk hty ih =>
      rw [transferAll_append]
      exact chainInv_of_load hM hi hk hty ih
  | other _ hi hno ih =>
      rw [transferAll_append]
      exact chainInv_of_other hM hi hno ih

/-- **The size is tracked** along a chain with a load exactly if no bitcast comes after a load. -/
theorem alloc_size_tracked_iff (hM : M.WF) (DL : DataLayout) (hn : 1 ≤ n) {tr : List Inst}
    (h : AllocChain M n tr links (.pointer v)) (hload : .load ∈ links) (s : RangeState) :
    (transferAll M DL tr s).find v = some (sizeRange n) ↔ NoCastAfterLoad links := by
  have hinv : ChainInv M n links (transferAll M DL tr s) (.pointer v) := chainInv hM hn h s
  obtain ⟨-, ⟨hnot, -⟩ | ⟨-, -, r, hr, hs⟩⟩ := hinv
  · exact absurd hload hnot
  · rw [hs, Option.some.injEq]
    obtain ⟨hno, rfl⟩ | ⟨hno, rfl⟩ := hr
    · exact iff_of_true rfl hno
    · refine iff_of_false (fun hr => ?_) hno
      cases hr

end

/-! ## A cast before the store and a cast after the load -/

def mallocCall : Inst := ⟨1, .ptr (.int 8), .call (.direct 0) [.constInt (.ofNat 64 16)]⟩

/-- A slot for a pointer to `elem`, the call, and the links. -/
def chainModule (elem : Ty) (links : List Inst) : Module where
  structs := fun _ => []
  globals := []
  funcs := [⟨0, "malloc", [.int 64], []⟩, ⟨1, "main", [], [⟨0,
    ⟨0, .ptr (.ptr elem), .alloca (.ptr elem) (.constInt (.ofNat 32 1))⟩ :: mallocCall ::
      links ++ [⟨5, .void, .ret none⟩]⟩]⟩]

/-- `int *p = (int *)malloc(16), *q = p`, through the slot of `p`. -/
def castThenLoad : List Inst := [
  ⟨2, .ptr (.int 32), .cast .bitcast (.inst 1)⟩,
  ⟨3, .void, .store (.inst 2) (.inst 0)⟩,
  ⟨4, .ptr (.int 32), .load (.inst 0)⟩]

/-- `char *p = malloc(16); int *q = (int *)p`, through the slot of `p`. -/
def loadThenCast : List Inst := [
  ⟨2, .void, .store (.inst 1) (.inst 0)⟩,
  ⟨3, .ptr (.int 8), .load (.inst 0)⟩,
  ⟨4, .ptr (.int 32), .cast .bitcast (.inst 3)⟩]

theorem isMallocOf_mallocCall (elem : Ty) (links : List Inst) :
    IsMallocOf (chainModule elem links) mallocCall 16 :=
  ⟨.direct 0, ⟨0, "malloc", [.int 64], []⟩, .ofNat 64 16, [], rfl, rfl, rfl, rfl⟩

theorem castThenLoad_wf : (chainModule (.int 32) castThenLoad).WF where
  funcs_nodup := by decide
  blocks_nodup := by decide
  insts_nodup := by decide
  terminated := Module.terminated_of_last (by decide)
  targets := by decide
  operands := Module.operands_of_stores_unused (by decide)

/-- What is cast before it is stored keeps its size. -/
theorem size_of_castThenLoad :
    (transferAll (chainModule (.int 32) castThenLoad) ⟨fun _ => 8, fun _ => 8, fun _ _ => 0⟩
      (mallocCall :: castThenLoad) ∅).find (.inst 4) = some (sizeRange 16) := by
  have hchain : AllocChain (chainModule (.int 32) castThenLoad) 16 (mallocCall :: castThenLoad)
      [.bitcast, .store, .load] (.pointer (.inst 4)) :=
    .load (i := ⟨4, .ptr (.int 32), .load (.inst 0)⟩)
      (.store (i := ⟨3, .void, .store (.inst 2) (.inst 0)⟩)
        (.bitcast (i := ⟨2, .ptr (.int 32), .cast .bitcast (.inst 1)⟩)
          (.malloc (by decide) (isMallocOf_mallocCall _ _) rfl) (by decide) rfl rfl)
        (by decide) rfl rfl)
      (by decide) rfl rfl
  have hno : NoCastAfterLoad ([.bitcast, .store] ++ [.load]) :=
    (noCastAfterLoad_append (by decide)).mpr (noCastAfterLoad_of_not_mem (by decide))
  exact (alloc_size_tracked_iff castThenLoad_wf _ (by decide) hchain (by decide) ∅).mpr hno

/-- What is loaded before it is cast does not: the cast case writes last. -/
theorem size_of_loadThenCast :
    AllocChain (chainModule (.int 8) loadThenCast) 16 (mallocCall :: loadThenCast)
        [.store, .load, .bitcast] (.pointer (.inst 4)) ∧
      (transferAll (chainModule (.int 8) loadThenCast) ⟨fun _ => 8, fun _ => 8, fun _ _ => 0⟩
        (mallocCall :: loadThenCast) ∅).find (.inst 4) = some .infinity ∧
      RangeValue.infinity ≠ sizeRange 16 := by
  refine ⟨?_, by decide +kernel, by decide⟩
  exact .bitcast (i := ⟨4, .ptr (.int 32), .cast .bitcast (.inst 3)⟩)
    (.load (i := ⟨3, .ptr (.int 8), .load (.inst 0)⟩)
      (.store (i := ⟨2, .void, .store (.inst 1) (.inst 0)⟩)
        (.malloc (by decide) (isMallocOf_mallocCall _ _) rfl) (by decide) rfl rfl)
      (by decide) rfl rfl)
    (by decide) rfl rfl

end MSV
