import MSV.SafeStack.Frames

/-!
# Frames on the unsafe stack: correctness

**Theorem (`reaches_packed`).** In every run that has room on the stack, the objects that are alive
lie between the unsafe stack pointer and the place where the stack started, do not overlap, whichever
functions they belong to, and are aligned as asked. So what is put below the pointer next overwrites
none of them.

**Theorem (`ret_restores`).** A call of an instrumented function that returns leaves the pointer and
the frames of its callers as they were, whatever was called, thrown and caught in between.
-/

namespace MSV.SafeStack

open Region

/-! ## Arithmetic -/

theorem toNat_gepBelow (x : BitVec 64) {n : Nat} (hn : n ≤ 2 ^ 31) (hx : n ≤ x.toNat) :
    (gepBelow x n).toNat = x.toNat - n := by
  have hneg : (-(BitVec.ofNat 32 n)).signExtend 64 = -(BitVec.ofNat 64 n) := by
    apply BitVec.eq_of_toInt_eq
    have hsmall : (-(BitVec.ofNat 32 n)).toInt = -(n : Int) := by
      rw [BitVec.toInt_neg, BitVec.toInt_ofNat', ← Int.zero_sub, Int.sub_bmod_bmod]
      exact (Int.bmod_eq_of_le (by omega) (by omega)).trans (by omega)
    have hlarge : (-(BitVec.ofNat 64 n)).toInt = -(n : Int) := by
      rw [BitVec.toInt_neg, BitVec.toInt_ofNat', ← Int.zero_sub, Int.sub_bmod_bmod]
      exact (Int.bmod_eq_of_le (by omega) (by omega)).trans (by omega)
    rw [BitVec.toInt_signExtend_of_le (by decide), hsmall, hlarge]
  have hlt := x.isLt
  rw [gepBelow, hneg, ← sub_eq_add_neg, BitVec.toNat_sub_of_le, BitVec.toNat_ofNat,
    Nat.mod_eq_of_lt (by omega)]
  rw [BitVec.le_def, BitVec.toNat_ofNat, Nat.mod_eq_of_lt (by omega)]
  exact hx

theorem le_alignTo (n k : Nat) : n ≤ alignTo n k := by
  have hpos := Nat.two_pow_pos k
  have hdiv := Nat.div_add_mod' (n + 2 ^ k - 1) (2 ^ k)
  have hmod := Nat.mod_lt (n + 2 ^ k - 1) hpos
  unfold alignTo
  omega

theorem dvd_alignTo (n k : Nat) : 2 ^ k ∣ alignTo n k := Nat.dvd_mul_left _ _

/-! ## The objects of a frame -/

/-- There was room for the frame. -/
def Room (fn : Fn) (b : BitVec 64) : Prop :=
  fn.objects ≠ [] → fn.FrameSize ≤ 2 ^ 31 ∧ fn.FrameSize ≤ (fn.base b).toNat

variable {fn : Fn} {b : BitVec 64}

theorem base_le (fn : Fn) (b : BitVec 64) : (fn.base b).toNat ≤ b.toNat := by
  unfold Fn.base
  split_ifs
  · exact alignDown_le _ fn.layout.frameAlignLog.isLt
  · exact le_rfl

theorem dvd_base (hb : 2 ^ StackAlignLog ∣ b.toNat) :
    2 ^ fn.layout.frameAlignLog.val ∣ (fn.base b).toNat := by
  unfold Fn.base
  split_ifs with hlarge
  · exact dvd_alignDown _ fn.layout.frameAlignLog.isLt
  · have hmin := fn.layout.stackAlign
    have heq : fn.layout.frameAlignLog.val = StackAlignLog := by
      simp only [StackAlignLog] at hlarge ⊢
      omega
    rwa [heq]

theorem toNat_staticTop (hroom : Room fn b) (hobjs : fn.objects ≠ []) :
    (fn.StaticTop b).toNat = (fn.base b).toNat - fn.FrameSize := by
  obtain ⟨hsize, hle⟩ := hroom hobjs
  rw [Fn.StaticTop, if_neg (by simpa using hobjs), toNat_gepBelow _ hsize hle]

theorem staticTop_le (hroom : Room fn b) : (fn.StaticTop b).toNat ≤ b.toNat := by
  by_cases hobjs : fn.objects = []
  · simp [Fn.StaticTop, hobjs]
  · rw [toNat_staticTop hroom hobjs]
    exact (Nat.sub_le _ _).trans (base_le fn b)

theorem dvd_staticTop (hroom : Room fn b) (hb : 2 ^ StackAlignLog ∣ b.toNat) :
    2 ^ StackAlignLog ∣ (fn.StaticTop b).toNat := by
  by_cases hobjs : fn.objects = []
  · simpa [Fn.StaticTop, hobjs] using hb
  · rw [toNat_staticTop hroom hobjs]
    exact Nat.dvd_sub ((Nat.pow_dvd_pow 2 fn.layout.stackAlign).trans (dvd_base hb))
      (dvd_alignTo _ _)

theorem getElem?_objects {k : Nat} {o : StackObject} (h : fn.objects[k]? = some o) :
    (fn.moved.objects fn.ClColoring)[k]? = some o := by
  unfold Fn.objects at h
  split_ifs at h with hinst
  · exact h
  · simp at h

theorem objects_ne_nil {k : Nat} {o : StackObject} (h : fn.objects[k]? = some o) :
    fn.objects ≠ [] := fun hnil => by simp [hnil] at h

/-- Where an object of the frame is. -/
theorem toNat_object (hroom : Room fn b) {k : Nat} {o : StackObject}
    (h : fn.objects[k]? = some o) :
    (gepBelow (fn.base b) (fn.layout.getObjectOffset k)).toNat + fn.layout.getObjectOffset k =
      (fn.base b).toNat ∧ fn.layout.getObjectOffset k ≤ fn.FrameSize := by
  obtain ⟨hsize, hle⟩ := hroom (objects_ne_nil h)
  have hoff := (fn.layout.bounds k o (getElem?_objects h)).2
  have hframe : fn.layout.getObjectOffset k ≤ fn.FrameSize := hoff.trans (le_alignTo _ _)
  rw [toNat_gepBelow _ (hframe.trans hsize) (hframe.trans hle)]
  omega

theorem mem_statics {point : Nat} {p : Placed} (h : p ∈ fn.statics b point) :
    ∃ k o, fn.objects[k]? = some o ∧ o.alive point = true ∧
      p = ⟨gepBelow (fn.base b) (fn.layout.getObjectOffset k), o.size, o.alignLog⟩ := by
  obtain ⟨⟨o, k⟩, hmem, rfl⟩ := List.mem_map.mp h
  obtain ⟨hk, halive⟩ := List.mem_filter.mp hmem
  exact ⟨k, o, List.mem_zipIdx_iff_getElem?.mp hk, halive, rfl⟩

/-- **The objects of a frame that are alive at a point do not overlap.** -/
theorem packed_statics (hroom : Room fn b) (point : Nat) :
    Packed (fn.StaticTop b).toNat b.toNat ((fn.statics b point).map Placed.region) := by
  refine ⟨fun r hr => ?_, ?_⟩
  · obtain ⟨p, hp, rfl⟩ := List.mem_map.mp hr
    obtain ⟨k, o, hk, -, rfl⟩ := mem_statics hp
    obtain ⟨haddr, hframe⟩ := toNat_object hroom hk
    have hsize := (fn.layout.bounds k o (getElem?_objects hk)).1
    have hbase := base_le fn b
    rw [toNat_staticTop hroom (objects_ne_nil hk)]
    simp only [Placed.region, Region.hi]
    omega
  · rw [Fn.statics, List.map_map, List.pairwise_map, List.pairwise_filter]
    refine List.pairwise_iff_getElem.mpr fun j k hj hk hjk halive halive' => ?_
    simp only [List.getElem_zipIdx, Nat.zero_add] at halive halive' ⊢
    rw [List.length_zipIdx] at hj hk
    have hoj := List.getElem?_eq_getElem hj
    have hok := List.getElem?_eq_getElem hk
    have hdisj := fn.layout.disjoint j k _ _ hjk (getElem?_objects hoj) (getElem?_objects hok)
      ⟨point, halive, halive'⟩
    have haddr := (toNat_object hroom hoj).1
    have haddr' := (toNat_object hroom hok).1
    simp only [Function.comp_apply, Placed.region, Region.Disjoint, Region.hi]
    omega

theorem aligned_statics (hroom : Room fn b) (hb : 2 ^ StackAlignLog ∣ b.toNat) {point : Nat}
    {p : Placed} (h : p ∈ fn.statics b point) : 2 ^ p.alignLog.val ∣ p.addr.toNat := by
  obtain ⟨k, o, hk, -, rfl⟩ := mem_statics h
  obtain ⟨haddr, -⟩ := toNat_object hroom hk
  obtain ⟨hoff, hle⟩ := fn.layout.aligned k o (getElem?_objects hk)
  have hbase : 2 ^ o.alignLog.val ∣ (fn.base b).toNat :=
    (Nat.pow_dvd_pow 2 hle).trans (dvd_base hb)
  exact (Nat.dvd_add_left hoff).mp (haddr ▸ hbase)

/-! ## Frames -/

/-- A frame whose objects are all from `lo` on. -/
structure FrameOk (lo : Nat) (F : Frame) : Prop where
  room : Room F.fn F.BasePointer
  aligned : 2 ^ StackAlignLog ∣ F.BasePointer.toNat
  below : lo ≤ (F.fn.StaticTop F.BasePointer).toNat
  packed : Packed lo (F.fn.StaticTop F.BasePointer).toNat (F.dynamics.map Placed.region)
  alignedDynamics : ∀ p ∈ F.dynamics, 2 ^ p.alignLog.val ∣ p.addr.toNat
  saved : ∀ v ∈ F.saved,
    v.toNat ≤ (F.fn.StaticTop F.BasePointer).toNat ∧ 2 ^ StackAlignLog ∣ v.toNat
  top : ∀ d, F.DynamicTop = some d →
    d.toNat ≤ (F.fn.StaticTop F.BasePointer).toNat ∧ 2 ^ StackAlignLog ∣ d.toNat ∧
      ∀ p ∈ F.dynamics, d.toNat ≤ p.addr.toNat
  hasTop : F.fn.hasStackRestorePoints = true → F.fn.hasDynamicAllocas = true →
    F.DynamicTop ≠ none
  noDynamics : F.fn.hasDynamicAllocas = false → F.dynamics = []

variable {lo lo' : Nat} {F : Frame}

/-- The bound may move to what is still below everything. -/
theorem FrameOk.at (h : FrameOk lo F) (hbelow : lo' ≤ (F.fn.StaticTop F.BasePointer).toNat)
    (hdyn : ∀ p ∈ F.dynamics, lo' ≤ p.addr.toNat) : FrameOk lo' F :=
  { h with
    below := hbelow
    packed := ⟨fun r hr => by
      obtain ⟨p, hp, rfl⟩ := List.mem_map.mp hr
      exact ⟨hdyn p hp, (h.packed.bounds _ hr).2⟩, h.packed.disjoint⟩ }

theorem FrameOk.le_addr (h : FrameOk lo F) {p : Placed} (hp : p ∈ F.dynamics) :
    lo ≤ p.addr.toNat := (h.packed.bounds _ (List.mem_map_of_mem hp)).1

theorem FrameOk.mono (h : FrameOk lo F) (hle : lo' ≤ lo) : FrameOk lo' F :=
  h.at (hle.trans h.below) fun _ hp => hle.trans (h.le_addr hp)

theorem FrameOk.le_base (h : FrameOk lo F) : lo ≤ F.BasePointer.toNat :=
  h.below.trans (staticTop_le h.room)

/-- The objects of the frame that are alive. -/
theorem FrameOk.packed_placed (h : FrameOk lo F) :
    Packed lo F.BasePointer.toNat (F.placed.map Placed.region) := by
  rw [Frame.placed, List.map_append]
  exact h.packed.append (packed_statics h.room F.point) h.below (staticTop_le h.room)

theorem FrameOk.aligned_placed (h : FrameOk lo F) :
    ∀ p ∈ F.placed, 2 ^ p.alignLog.val ∣ p.addr.toNat := by
  intro p hp
  obtain hp | hp := List.mem_append.mp hp
  · exact h.alignedDynamics p hp
  · exact aligned_statics h.room h.aligned hp

/-- The frames of the functions that are running. Each has its objects below the pointer it
started with. -/
def FramesOk (hi : Nat) : Nat → List Frame → Prop
  | lo, [] => lo ≤ hi
  | lo, F :: rest => FrameOk lo F ∧ FramesOk hi F.BasePointer.toNat rest

variable {hi : Nat} {Fs : List Frame}

theorem FramesOk.mono (h : FramesOk hi lo Fs) (hle : lo' ≤ lo) : FramesOk hi lo' Fs := by
  cases Fs with
  | nil => exact hle.trans h
  | cons F rest => exact ⟨h.1.mono hle, h.2⟩

theorem FramesOk.le (h : FramesOk hi lo Fs) : lo ≤ hi := by
  induction Fs generalizing lo with
  | nil => exact h
  | cons F rest ih => exact h.1.le_base.trans (ih h.2)

/-- Functions are left. -/
theorem FramesOk.drop (h : FramesOk hi lo Fs) (n : Nat) : FramesOk hi lo (Fs.drop n) := by
  induction n generalizing lo Fs with
  | zero => exact h
  | succ n ih =>
    cases Fs with
    | nil => exact h
    | cons F rest => exact ih (h.2.mono h.1.le_base)

theorem FramesOk.packed (h : FramesOk hi lo Fs) :
    Packed lo hi ((Fs.flatMap Frame.placed).map Placed.region) := by
  induction Fs generalizing lo with
  | nil => exact packed_nil
  | cons F rest ih =>
    rw [List.flatMap_cons, List.map_append]
    exact h.1.packed_placed.append (ih h.2) h.1.le_base h.2.le

theorem FramesOk.aligned (h : FramesOk hi lo Fs) :
    ∀ p ∈ Fs.flatMap Frame.placed, 2 ^ p.alignLog.val ∣ p.addr.toNat := by
  induction Fs generalizing lo with
  | nil => exact fun p hp => nomatch hp
  | cons F rest ih =>
    intro p hp
    obtain hp | hp := List.mem_append.mp hp
    · exact h.1.aligned_placed p hp
    · exact ih h.2 p hp

/-! ## Steps -/

/-- What a step of the innermost function does. -/
theorem frame_step_cases {usp usp' : BitVec 64} {F F' : Frame} {e : StackEvent}
    (h : F.step usp e = some (usp', F')) :
    (usp' = usp ∧ ∃ point, F' = { F with point := point }) ∨
      (∃ ArraySize TySize alignLog, e = .alloca ArraySize TySize alignLog ∧
        F.fn.hasDynamicAllocas = true ∧ usp' = dynamicTop usp ArraySize TySize alignLog ∧
          F' = { F with
            DynamicTop := F.DynamicTop.map fun _ => usp'
            dynamics := ⟨usp', ArraySize.toNat * TySize.toNat, alignLog⟩ :: F.dynamics }) ∨
      (F.fn.hasDynamicAllocas = true ∧ usp' = usp ∧ F' = { F with saved := usp :: F.saved }) ∨
      ∃ k, F.saved[k]? = some usp' ∧
        F' = { F with
          saved := F.saved.drop k
          dynamics := F.dynamics.filter fun p => usp'.toNat ≤ p.addr.toNat } := by
  cases e with
  | goto point =>
    obtain ⟨rfl, rfl⟩ := Prod.mk.inj (Option.some.inj h)
    exact .inl ⟨rfl, point, rfl⟩
  | alloca ArraySize TySize alignLog =>
    simp only [Frame.step] at h
    split_ifs at h with hdyn
    obtain ⟨rfl, rfl⟩ := Prod.mk.inj (Option.some.inj h)
    exact .inr (.inl ⟨_, _, _, rfl, hdyn, rfl, rfl⟩)
  | stacksave =>
    simp only [Frame.step] at h
    split_ifs at h with hdyn
    · obtain ⟨rfl, rfl⟩ := Prod.mk.inj (Option.some.inj h)
      exact .inr (.inr (.inl ⟨hdyn, rfl, rfl⟩))
    · obtain ⟨rfl, rfl⟩ := Prod.mk.inj (Option.some.inj h)
      exact .inl ⟨rfl, F.point, rfl⟩
  | stackrestore k =>
    simp only [Frame.step] at h
    split_ifs at h with hdyn
    · obtain ⟨v, hv, heq⟩ := Option.map_eq_some_iff.mp h
      obtain ⟨rfl, rfl⟩ := Prod.mk.inj heq
      exact .inr (.inr (.inr ⟨k, hv, rfl⟩))
    · obtain ⟨rfl, rfl⟩ := Prod.mk.inj (Option.some.inj h)
      exact .inl ⟨rfl, F.point, rfl⟩
  | _ => cases h

/-- The top that makes room for a dynamic object. -/
theorem dynamicTop_bounds {usp ArraySize TySize : BitVec 64} (alignLog : Fin 64)
    (hroom : ArraySize.toNat * TySize.toNat ≤ usp.toNat) :
    (dynamicTop usp ArraySize TySize alignLog).toNat + ArraySize.toNat * TySize.toNat ≤
        usp.toNat ∧
      2 ^ StackAlignLog ∣ (dynamicTop usp ArraySize TySize alignLog).toNat ∧
      2 ^ alignLog.val ∣ (dynamicTop usp ArraySize TySize alignLog).toNat := by
  have hmax : max alignLog.val StackAlignLog < 64 := max_lt alignLog.isLt (by decide)
  have hdvd := dvd_alignDown (usp - ArraySize * TySize) hmax
  have hle := alignDown_le (usp - ArraySize * TySize) hmax
  have hmul : (ArraySize * TySize).toNat = ArraySize.toNat * TySize.toNat := by
    rw [BitVec.toNat_mul, Nat.mod_eq_of_lt (hroom.trans_lt usp.isLt)]
  have hsub : (usp - ArraySize * TySize).toNat = usp.toNat - ArraySize.toNat * TySize.toNat := by
    rw [BitVec.toNat_sub_of_le (by rwa [BitVec.le_def, hmul]), hmul]
  refine ⟨?_, (Nat.pow_dvd_pow 2 (le_max_right _ _)).trans hdvd,
    (Nat.pow_dvd_pow 2 (le_max_left _ _)).trans hdvd⟩
  rw [hsub] at hle
  unfold dynamicTop
  omega

/-- Nothing of the frame is where the new object goes. -/
theorem FrameOk.alloca {usp ArraySize TySize NewTop : BitVec 64} {alignLog : Fin 64}
    (h : FrameOk usp.toNat F) (hdyn : F.fn.hasDynamicAllocas = true)
    (hroom : ArraySize.toNat * TySize.toNat ≤ usp.toNat)
    (htop : NewTop = dynamicTop usp ArraySize TySize alignLog) :
    FrameOk NewTop.toNat
      { F with
        DynamicTop := F.DynamicTop.map fun _ => NewTop
        dynamics := ⟨NewTop, ArraySize.toNat * TySize.toNat, alignLog⟩ :: F.dynamics } := by
  obtain ⟨hend, hstack, hobj⟩ := dynamicTop_bounds alignLog hroom
  rw [← htop] at hend hstack hobj
  have hle : NewTop.toNat ≤ usp.toNat := (Nat.le_add_right _ _).trans hend
  have hnew := h.mono hle
  exact
    { room := h.room
      aligned := h.aligned
      below := hnew.below
      packed := h.packed.cons (r := Placed.region ⟨NewTop, _, alignLog⟩) le_rfl hend h.below
      alignedDynamics := List.forall_mem_cons.mpr ⟨hobj, h.alignedDynamics⟩
      saved := h.saved
      top := by
        intro d hd
        obtain ⟨_, -, rfl⟩ := Option.map_eq_some_iff.mp hd
        exact ⟨hnew.below, hstack, List.forall_mem_cons.mpr ⟨le_rfl, fun p hp => hnew.le_addr hp⟩⟩
      hasTop := fun hpoints _ hnone => h.hasTop hpoints hdyn (Option.map_eq_none_iff.mp hnone)
      noDynamics := fun hno => absurd hdyn (by simp [show F.fn.hasDynamicAllocas = false from hno]) }

theorem FrameOk.stackrestore {v : BitVec 64} (h : FrameOk lo F) (hv : v ∈ F.saved) (k : Nat) :
    FrameOk v.toNat
      { F with
        saved := F.saved.drop k
        dynamics := F.dynamics.filter fun p => v.toNat ≤ p.addr.toNat } where
  room := h.room
  aligned := h.aligned
  below := (h.saved v hv).1
  packed := by
    have hfilter := h.packed.filter v.toNat
    rwa [List.filter_map] at hfilter
  alignedDynamics p hp := h.alignedDynamics p (List.mem_of_mem_filter hp)
  saved w hw := h.saved w (List.mem_of_mem_drop hw)
  top d hd := by
    obtain ⟨hbelow, hstack, hall⟩ := h.top d hd
    exact ⟨hbelow, hstack, fun p hp => hall p (List.mem_of_mem_filter hp)⟩
  hasTop := h.hasTop
  noDynamics hno := by simp [h.noDynamics hno]

/-- **A step of the innermost function keeps its frame in order.** -/
theorem FrameOk.step {usp usp' : BitVec 64} {F' : Frame} {e : StackEvent}
    (h : FrameOk usp.toNat F) (halign : 2 ^ StackAlignLog ∣ usp.toNat)
    (hfits : ∀ ArraySize TySize alignLog, e = .alloca ArraySize TySize alignLog →
      ArraySize.toNat * TySize.toNat ≤ usp.toNat)
    (hstep : F.step usp e = some (usp', F')) :
    FrameOk usp'.toNat F' ∧ 2 ^ StackAlignLog ∣ usp'.toNat := by
  obtain ⟨rfl, point, rfl⟩ | ⟨_, _, _, rfl, hdyn, htop, rfl⟩ | ⟨-, rfl, rfl⟩ | ⟨k, hk, rfl⟩ :=
    frame_step_cases hstep
  · exact ⟨{ h with }, halign⟩
  · have hroom := hfits _ _ _ rfl
    exact ⟨h.alloca hdyn hroom htop, htop ▸ (dynamicTop_bounds _ hroom).2.1⟩
  · refine ⟨{ h with saved := ?_ }, halign⟩
    exact List.forall_mem_cons.mpr ⟨⟨h.below, halign⟩, h.saved⟩
  · have hmem := List.mem_of_getElem? hk
    exact ⟨h.stackrestore hmem k, (h.saved _ hmem).2⟩

theorem base_of_frame_step {usp usp' : BitVec 64} {F' : Frame} {e : StackEvent}
    (hstep : F.step usp e = some (usp', F')) : F'.BasePointer = F.BasePointer ∧ F'.fn = F.fn := by
  obtain ⟨-, point, rfl⟩ | ⟨_, _, _, -, -, -, rfl⟩ | ⟨-, -, rfl⟩ | ⟨k, -, rfl⟩ :=
    frame_step_cases hstep <;> exact ⟨rfl, rfl⟩

/-- A function is entered. -/
theorem frameOk_enter {fn : Fn} {usp : BitVec 64} (hroom : Room fn usp)
    (halign : 2 ^ StackAlignLog ∣ usp.toNat) :
    FrameOk (fn.StaticTop usp).toNat (enter fn usp) where
  room := hroom
  aligned := halign
  below := le_rfl
  packed := packed_nil
  alignedDynamics p hp := nomatch hp
  saved v hv := nomatch hv
  top d hd := by
    simp only [enter, Option.ite_none_right_eq_some, Option.some.injEq] at hd
    obtain ⟨-, rfl⟩ := hd
    exact ⟨le_rfl, dvd_staticTop hroom halign, fun p hp => nomatch hp⟩
  hasTop hpoints hdyn := by
    simp only [enter] at hpoints hdyn ⊢
    simp [hpoints, hdyn]
  noDynamics _ := rfl

/-- **The frame a landing finds is in order.** -/
theorem FrameOk.landed {usp : BitVec 64} (h : FrameOk usp.toNat F)
    (halign : 2 ^ StackAlignLog ∣ usp.toNat) (atRestorePoint : Bool) :
    FrameOk (F.landed usp atRestorePoint).toNat F ∧
      2 ^ StackAlignLog ∣ (F.landed usp atRestorePoint).toNat := by
  unfold Frame.landed
  split_ifs with hpoint
  · cases htop : F.DynamicTop with
    | some d =>
      obtain ⟨hbelow, hstack, hall⟩ := h.top d htop
      exact ⟨h.at hbelow hall, hstack⟩
    | none =>
      have hnone : F.dynamics = [] := by
        refine h.noDynamics (Bool.eq_false_iff.mpr fun hdyn => ?_)
        exact h.hasTop (Bool.and_eq_true_iff.mp hpoint).2 hdyn htop
      exact ⟨h.at le_rfl fun p hp => by simp [hnone] at hp, dvd_staticTop h.room h.aligned⟩
  · exact ⟨h, halign⟩

/-! ## Runs -/

/-- The pointer is aligned, and the frames are in order above it. -/
structure MachineOk (hi : Nat) (s : Machine) : Prop where
  aligned : 2 ^ StackAlignLog ∣ s.usp.toNat
  frames : FramesOk hi s.usp.toNat s.frames

/-- What a step does. -/
theorem step_cases {s t : Machine} {e : StackEvent} (h : step s e = some t) :
    (∃ fn, e = .enter fn ∧ t = ⟨fn.StaticTop s.usp, enter fn s.usp :: s.frames⟩) ∨
      (∃ F rest, e = .ret ∧ s.frames = F :: rest ∧
        t = ⟨if F.fn.instrumented then F.BasePointer else s.usp, rest⟩) ∨
      (∃ left atRestorePoint F rest, e = .land left atRestorePoint ∧
        s.frames.drop left = F :: rest ∧ t = ⟨F.landed s.usp atRestorePoint, F :: rest⟩) ∨
      ∃ F rest usp' F', s.frames = F :: rest ∧ F.step s.usp e = some (usp', F') ∧
        t = ⟨usp', F' :: rest⟩ := by
  obtain ⟨usp, frames⟩ := s
  cases e with
  | enter fn => exact .inl ⟨fn, rfl, (Option.some.inj h).symm⟩
  | ret =>
    cases frames with
    | nil => cases h
    | cons F rest => exact .inr (.inl ⟨F, rest, rfl, rfl, (Option.some.inj h).symm⟩)
  | land left atRestorePoint =>
    simp only [step] at h
    cases hdrop : frames.drop left with
    | nil => simp [hdrop] at h
    | cons F rest =>
      rw [hdrop] at h
      exact .inr (.inr (.inl ⟨left, _, F, rest, rfl, hdrop, (Option.some.inj h).symm⟩))
  | _ =>
    cases frames with
    | nil => cases h
    | cons F rest =>
      simp only [step, Option.map_eq_some_iff] at h
      obtain ⟨⟨usp', F'⟩, hF, rfl⟩ := h
      exact .inr (.inr (.inr ⟨F, rest, usp', F', rfl, hF, rfl⟩))

/-- **Every step that has room keeps the frames in order.** -/
theorem MachineOk.step {s t : Machine} {e : StackEvent} (h : MachineOk hi s) (hfits : Fits s e)
    (hstep : step s e = some t) : MachineOk hi t := by
  obtain ⟨halign, hframes⟩ := h
  obtain ⟨fn, rfl, rfl⟩ | ⟨F, rest, -, hs, rfl⟩ | ⟨left, at', F, rest, -, hs, rfl⟩ |
    ⟨F, rest, usp', F', hs, hF, rfl⟩ := step_cases hstep
  · exact ⟨dvd_staticTop hfits halign, frameOk_enter hfits halign, hframes⟩
  · rw [hs] at hframes
    split_ifs
    · exact ⟨hframes.1.aligned, hframes.2⟩
    · exact ⟨halign, hframes.2.mono hframes.1.le_base⟩
  · have hdrop := hframes.drop left
    rw [hs] at hdrop
    obtain ⟨hland, halign'⟩ := hdrop.1.landed halign at'
    exact ⟨halign', hland, hdrop.2⟩
  · rw [hs] at hframes
    obtain ⟨hok, halign'⟩ := hframes.1.step halign (fun _ _ _ he => by subst he; exact hfits) hF
    exact ⟨halign', hok, (base_of_frame_step hF).1 ▸ hframes.2⟩

/-- **The objects that are alive do not overlap, and lie above the pointer.** -/
theorem reaches_packed {s₀ s : Machine} (hstart : s₀.frames = [])
    (halign : 2 ^ StackAlignLog ∣ s₀.usp.toNat) (h : Reaches s₀ s) :
    Packed s.usp.toNat s₀.usp.toNat (s.placed.map Placed.region) ∧
      (∀ p ∈ s.placed, 2 ^ p.alignLog.val ∣ p.addr.toNat) ∧ 2 ^ StackAlignLog ∣ s.usp.toNat := by
  have hok : MachineOk s₀.usp.toNat s := by
    induction h with
    | refl => exact ⟨halign, by rw [hstart]; exact le_refl s₀.usp.toNat⟩
    | step _ hfits hstep ih => exact ih.step hfits hstep
  exact ⟨hok.frames.packed, hok.frames.aligned, hok.aligned⟩

/-- A function with an object of 24 bytes and a dynamic one, and with a landing pad. -/
def landingFn : Fn where
  hasSafeStackAttr := true
  moved :=
    { StackGuardSlot := none
      ByValArguments := []
      StaticAllocas := [⟨24, 3, fun _ => true⟩]
      hasDynamicAllocas := true
      hasStackRestorePoints := true }
  layout :=
    { getObjectOffset := fun _ => 24
      getFrameSize := 24
      frameAlignLog := 4
      stackAlign := by decide
      bounds := by
        intro k o h
        cases k with
        | zero =>
          obtain rfl := Option.some.inj h
          decide
        | succ k => cases h
      aligned := by
        intro k o h
        cases k with
        | zero =>
          obtain rfl := Option.some.inj h
          decide
        | succ k => cases h
      disjoint := by
        intro j k o o' hjk ho ho'
        cases k with
        | zero => omega
        | succ k => cases ho' }

/-- The function calls itself, and lands behind the call. -/
def landed : Machine where
  usp := 0xfc0
  frames := [{ enter landingFn 0x1000 with
    DynamicTop := some 0xfc0
    dynamics := [⟨0xfc0, 24, 3⟩] }]

theorem reaches_landed : Reaches ⟨0x1000, []⟩ landed := by
  have hroom : ∀ b : BitVec 64, 32 ≤ b.toNat → Room landingFn b := by
    intro b hb _
    rw [show landingFn.FrameSize = 32 by decide, show landingFn.base b = b from rfl]
    exact ⟨by decide, hb⟩
  exact .step (e := .land 1 true) (.step (e := .enter landingFn)
    (.step (e := .alloca 3 8 3) (.step (e := .enter landingFn) .refl (hroom _ (by decide)) rfl)
      (by decide : 3 * 8 ≤ 0xfe0) rfl) (hroom _ (by decide)) rfl) trivial rfl

theorem landed_packed : Packed 0xfc0 0x1000 [⟨0xfc0, 24⟩, ⟨0xfe8, 24⟩] :=
  (reaches_packed rfl (by decide) reaches_landed).1

/-! ## Returns -/

/-- Steps that leave so many frames standing. -/
inductive Above (depth : Nat) : Machine → Machine → Prop
  | refl (s : Machine) : Above depth s s
  | step {s t u : Machine} {e : StackEvent} : Above depth s t → step t e = some u →
      depth ≤ u.frames.length → Above depth s u

/-- The frames at the bottom stay, and so does where the frame above them started. -/
def Based (fn : Fn) (s t : Machine) : Prop :=
  ∃ inner F, t.frames = inner ++ F :: s.frames ∧ F.BasePointer = s.usp ∧ F.fn = fn

theorem Based.step {fn : Fn} {s t u : Machine} {e : StackEvent} (h : Based fn s t)
    (hstep : step t e = some u) (hdepth : s.frames.length + 1 ≤ u.frames.length) :
    Based fn s u := by
  obtain ⟨inner, F, ht, hbase, hfn⟩ := h
  obtain ⟨fn', -, rfl⟩ | ⟨G, rest, -, hs, rfl⟩ | ⟨left, at', G, rest, -, hs, rfl⟩ |
    ⟨G, rest, usp', G', hs, hG, rfl⟩ := step_cases hstep
  · exact ⟨enter fn' t.usp :: inner, F, by simp [ht], hbase, hfn⟩
  · cases inner with
    | nil =>
      obtain ⟨-, rfl⟩ := List.cons.inj (hs.symm.trans ht)
      exact absurd hdepth (by simp)
    | cons I inner =>
      obtain ⟨-, rfl⟩ := List.cons.inj (hs.symm.trans ht)
      exact ⟨inner, F, rfl, hbase, hfn⟩
  · have hleft : left ≤ inner.length := by
      by_contra hmore
      have hlen := congrArg List.length hs
      rw [ht] at hlen
      simp only [List.length_drop, List.length_append, List.length_cons] at hlen hdepth
      omega
    refine ⟨inner.drop left, F, ?_, hbase, hfn⟩
    rw [← hs, ht, List.drop_append_of_le_length hleft]
  · obtain ⟨hbase', hfn'⟩ := base_of_frame_step hG
    cases inner with
    | nil =>
      obtain ⟨rfl, rfl⟩ := List.cons.inj (hs.symm.trans ht)
      exact ⟨[], G', rfl, hbase'.trans hbase, hfn'.trans hfn⟩
    | cons I inner =>
      obtain ⟨-, rfl⟩ := List.cons.inj (hs.symm.trans ht)
      exact ⟨G' :: inner, F, rfl, hbase, hfn⟩

theorem based_of_above {s s₁ t : Machine} {fn : Fn} (hcall : step s (.enter fn) = some s₁)
    (hrun : Above (s.frames.length + 1) s₁ t) : Based fn s t := by
  induction hrun with
  | refl =>
    obtain rfl := Option.some.inj hcall
    exact ⟨[], enter fn s.usp, rfl, rfl, rfl⟩
  | step _ hstep hle ih => exact ih.step hstep hle

/-- **A call that returns leaves the pointer and the callers' frames as they were.** -/
theorem ret_restores {s s₁ t u : Machine} {fn : Fn} (hinst : fn.instrumented = true)
    (hcall : step s (.enter fn) = some s₁) (hrun : Above (s.frames.length + 1) s₁ t)
    (hret : step t .ret = some u) (hdepth : u.frames.length = s.frames.length) : u = s := by
  obtain ⟨inner, F, ht, hbase, hfn⟩ := based_of_above hcall hrun
  have hframes : t.frames = F :: s.frames := by
    obtain ⟨fn', he, -⟩ | ⟨G, rest, -, hs, rfl⟩ | ⟨_, _, _, _, he, -⟩ | ⟨G, rest, _, _, -, hG, -⟩ :=
      step_cases hret
    · cases he
    · have hlen := congrArg List.length (hs.symm.trans ht)
      simp only [List.length_append, List.length_cons] at hlen hdepth
      rw [ht, List.length_eq_zero_iff.mp (by omega : inner.length = 0), List.nil_append]
    · cases he
    · cases hG
  simp only [step, hframes, hfn, hinst, if_true, hbase] at hret
  exact (Option.some.inj hret).symm

/-- A call that makes room for an object, and returns. -/
theorem landed_restored : (⟨0xfc0, landed.frames⟩ : Machine) = landed :=
  have hcall : step landed (.enter landingFn) =
      some ⟨0xfa0, enter landingFn 0xfc0 :: landed.frames⟩ := rfl
  have hrun : Above 2 ⟨0xfa0, enter landingFn 0xfc0 :: landed.frames⟩
      ⟨0xf60, { enter landingFn 0xfc0 with
        DynamicTop := some 0xf60
        dynamics := [⟨0xf60, 64, 3⟩] } :: landed.frames⟩ :=
    .step (e := .alloca 8 8 3) (.refl _) rfl (by decide)
  ret_restores rfl hcall hrun rfl rfl

end MSV.SafeStack
