import MSV.Lib.Loop
import MSV.SLH.IndirectBranch
import MSV.SLH.PredStateProof

/-!
# The comparisons behind indirect branches

The address that a block is compared with is the one in the register of the indirect branch it was
entered by, and its own if it was entered directly.
-/

namespace MSV.SLH

open Loop

variable {F : MachineCFG} {jumpOp : Nat → JumpOp}

/-! ## The loops of the pass -/

/-- A block that the first loop does not stop at. -/
def Collectible (F : MachineCFG) (jumpOp : Nat → JumpOp) (b : Nat) : Prop :=
  match (F.mbb b).terms.getLast?, jumpOp b with
  | some (.indirect _), .FARJMP => True
  | some (.indirect _), .JMP64r _ => (F.mbb b).terms.length ≤ 1
  | some (.indirect _), _ => False
  | _, _ => True

/-- What the first loop adds for a block. -/
def addJump (F : MachineCFG) (jumpOp : Nat → JumpOp) (T : IndirectTrace) (b : Nat) : IndirectTrace :=
  match jumpReg? F jumpOp b with
  | some r =>
      { T with
        IndirectTerminatedMBBs := T.IndirectTerminatedMBBs ++ [b]
        IndirectTargetMBBs := T.IndirectTargetMBBs ++ (F.mbb b).succs
        TargetAddrSSA := Function.update T.TargetAddrSSA b (some (.reg r)) }
  | none => T

variable (F jumpOp) in
theorem collect_checks : Checks (collectIndirect F jumpOp) (Collectible F jumpOp)
    (addJump F jumpOp) (fun _ => True) where
  ok_iff := by
    intro T _ b T'
    unfold collectIndirect Collectible addJump jumpReg?
    cases (F.mbb b).terms.getLast? with
    | none => simp [eq_comm]
    | some t =>
      cases t with
      | indirect ts =>
        cases jumpOp b with
        | JMP64r r =>
          by_cases hlen : 1 < (F.mbb b).terms.length
          · simp [hlen]
          · simp [hlen, Nat.not_lt.mp hlen, eq_comm]
        | _ => simp [eq_comm]
      | _ => simp [eq_comm]
  keeps := fun _ _ _ => trivial

/-- What the loop over the predecessors adds. -/
def addDirect (t : Nat) (T : IndirectTrace) (Pred : Nat) : IndirectTrace :=
  if Pred ∈ T.IndirectTerminatedMBBs then T
  else { T with TargetAddrSSA := Function.update T.TargetAddrSSA Pred (some (.block t)) }

/-- A block that may enter `t`. -/
def MayEnter (F : MachineCFG) (jumps : List Nat) (t p : Nat) : Prop :=
  p ∈ jumps ∨ entersOnly F t p = true

theorem entry_checks (t : Nat) (jumps : List Nat) : Checks (addEntry F t) (MayEnter F jumps t)
    (addDirect t) (fun T => T.IndirectTerminatedMBBs = jumps) where
  ok_iff := by
    rintro T rfl p T'
    unfold addEntry addDirect MayEnter
    by_cases hp : p ∈ T.IndirectTerminatedMBBs
    · rw [if_pos hp, if_pos hp]
      exact ⟨fun h => ⟨.inl hp, (Except.ok.inj h).symm⟩, fun h => congrArg Except.ok h.2.symm⟩
    · rw [if_neg hp, if_neg hp]
      by_cases honly : entersOnly F t p = true
      · rw [if_pos honly]
        exact ⟨fun h => ⟨.inr honly, (Except.ok.inj h).symm⟩, fun h => congrArg Except.ok h.2.symm⟩
      · rw [if_neg honly]
        exact ⟨(fun h => by cases h), fun h => absurd h.1 (not_or.mpr ⟨hp, honly⟩)⟩
  keeps := by
    rintro T rfl p
    unfold addDirect
    split <;> rfl

/-- What the loop over the targets adds. -/
def addTarget (F : MachineCFG) (T : IndirectTrace) (t : Nat) : IndirectTrace :=
  if t ∈ T.IndirectTargetMBBs then
    { (F.predecessors t).foldl (addDirect t) T with
      checked := ((F.predecessors t).foldl (addDirect t) T).checked ++ [t] }
  else T

/-- The loop over the predecessors only adds addresses. -/
theorem addDirect_foldl (t : Nat) (l : List Nat) (T : IndirectTrace) :
    let T' := l.foldl (addDirect t) T
    T'.IndirectTerminatedMBBs = T.IndirectTerminatedMBBs ∧
      T'.IndirectTargetMBBs = T.IndirectTargetMBBs ∧ T'.checked = T.checked ∧
      ∀ p, T'.TargetAddrSSA p = if p ∈ l ∧ p ∉ T.IndirectTerminatedMBBs then some (.block t)
        else T.TargetAddrSSA p := by
  induction l generalizing T with
  | nil => simp
  | cons q l ih =>
    obtain ⟨h1, h2, h3, h4⟩ := ih (addDirect t T q)
    by_cases hq : q ∈ T.IndirectTerminatedMBBs
    · have hstep : addDirect t T q = T := if_pos hq
      rw [hstep] at h1 h2 h3 h4
      rw [List.foldl_cons, hstep]
      refine ⟨h1, h2, h3, fun p => ?_⟩
      rw [h4]
      by_cases hpq : p = q
      · simp [hpq, hq]
      · simp [hpq]
    · have hstep : addDirect t T q =
          { T with TargetAddrSSA := Function.update T.TargetAddrSSA q (some (.block t)) } := if_neg hq
      rw [hstep] at h1 h2 h3 h4
      rw [List.foldl_cons, hstep]
      refine ⟨h1, h2, h3, fun p => ?_⟩
      rw [h4]
      by_cases hpq : p = q
      · simp [hpq, hq]
      · simp [hpq]

theorem target_checks (jumps targets : List Nat) : Checks (checkTarget F)
    (fun t => t ∈ targets → ∀ p ∈ F.predecessors t, MayEnter F jumps t p) (addTarget F)
    (fun T => T.IndirectTerminatedMBBs = jumps ∧ T.IndirectTargetMBBs = targets) where
  ok_iff := by
    rintro T ⟨rfl, rfl⟩ t T'
    unfold checkTarget addTarget
    by_cases ht : t ∈ T.IndirectTargetMBBs
    · have hloop := fun T₁ => (entry_checks (F := F) t T.IndirectTerminatedMBBs).foldlM_ok_iff
        (F.predecessors t) (s := T) rfl T₁
      simp only [ht, if_true, forall_const]
      constructor
      · intro heq
        cases hf : (F.predecessors t).foldlM (addEntry F t) T with
        | error msg =>
          rw [hf] at heq
          cases heq
        | ok T₁ =>
          obtain ⟨hp, rfl⟩ := (hloop T₁).mp hf
          rw [hf] at heq
          exact ⟨hp, (Except.ok.inj heq).symm⟩
      · rintro ⟨hp, rfl⟩
        rw [(hloop _).mpr ⟨hp, rfl⟩]
        rfl
    · simp [ht, eq_comm]
  keeps := by
    rintro T ⟨rfl, rfl⟩ t
    unfold addTarget
    obtain ⟨h1, h2, -, -⟩ := addDirect_foldl t (F.predecessors t) T
    split
    · exact ⟨h1, h2⟩
    · exact ⟨rfl, rfl⟩

/-! ## What the pass has done -/

/-- A block ends in an indirect branch. -/
def jumpsIn (F : MachineCFG) (jumpOp : Nat → JumpOp) : List Nat :=
  F.layout.filter fun b => (jumpReg? F jumpOp b).isSome

theorem addJump_foldl (l : List Nat) (T : IndirectTrace) :
    let T' := l.foldl (addJump F jumpOp) T
    let jumps := l.filter fun b => (jumpReg? F jumpOp b).isSome
    T'.IndirectTerminatedMBBs = T.IndirectTerminatedMBBs ++ jumps ∧
      T'.IndirectTargetMBBs = T.IndirectTargetMBBs ++ jumps.flatMap (fun b => (F.mbb b).succs) ∧
      T'.checked = T.checked ∧
      ∀ b, T'.TargetAddrSSA b = if b ∈ l ∧ (jumpReg? F jumpOp b).isSome then
        (jumpReg? F jumpOp b).map .reg else T.TargetAddrSSA b := by
  induction l generalizing T with
  | nil => simp
  | cons q l ih =>
    obtain ⟨h1, h2, h3, h4⟩ := ih (addJump F jumpOp T q)
    rw [List.foldl_cons, List.filter_cons]
    cases hq : jumpReg? F jumpOp q with
    | none =>
      have hstep : addJump F jumpOp T q = T := by rw [addJump, hq]
      rw [hstep] at h1 h2 h3 h4 ⊢
      refine ⟨h1, h2, h3, fun b => ?_⟩
      rw [h4]
      by_cases hbq : b = q
      · simp [hbq, hq]
      · simp [hbq]
    | some r =>
      have hstep : addJump F jumpOp T q =
          { T with
            IndirectTerminatedMBBs := T.IndirectTerminatedMBBs ++ [q]
            IndirectTargetMBBs := T.IndirectTargetMBBs ++ (F.mbb q).succs
            TargetAddrSSA := Function.update T.TargetAddrSSA q (some (.reg r)) } := by
        rw [addJump, hq]
      rw [hstep] at h1 h2 h3 h4 ⊢
      refine ⟨by simp [h1], by simp [h2], h3, fun b => ?_⟩
      rw [h4]
      by_cases hbq : b = q
      · simp [hbq, hq]
      · simp [hbq]

/-- The blocks that indirect branches may lead to. -/
def targetsIn (F : MachineCFG) (jumpOp : Nat → JumpOp) : List Nat :=
  (jumpsIn F jumpOp).flatMap fun b => (F.mbb b).succs

/-- What the first loop collects. -/
def collected (F : MachineCFG) (jumpOp : Nat → JumpOp) : IndirectTrace :=
  F.layout.foldl (addJump F jumpOp) {}

variable (F jumpOp) in
theorem collected_fields : (collected F jumpOp).IndirectTerminatedMBBs = jumpsIn F jumpOp ∧
    (collected F jumpOp).IndirectTargetMBBs = targetsIn F jumpOp ∧
    (collected F jumpOp).checked = [] ∧
    ∀ b, (collected F jumpOp).TargetAddrSSA b = if b ∈ F.layout ∧ (jumpReg? F jumpOp b).isSome then
      (jumpReg? F jumpOp b).map .reg else none :=
  addJump_foldl F.layout {}

/-- No other block is entered from the blocks that enter a target directly. -/
def EntriesAllowed (F : MachineCFG) (jumpOp : Nat → JumpOp) : Prop :=
  ∀ t ∈ F.layout, t ∈ targetsIn F jumpOp → ∀ p ∈ F.predecessors t, MayEnter F (jumpsIn F jumpOp) t p

theorem addTarget_of_nil {T : IndirectTrace} (h : T.IndirectTargetMBBs = []) (l : List Nat) :
    l.foldl (addTarget F) T = T := by
  induction l with
  | nil => rfl
  | cons t l ih =>
    have hstep : addTarget F T t = T := if_neg (by simp [h])
    rw [List.foldl_cons, hstep, ih]

theorem trace_eq_ok_iff (T : IndirectTrace) :
    tracePredStateThroughIndirectBranches F jumpOp = .ok T ↔
      ((∀ b ∈ F.layout, Collectible F jumpOp b) ∧ EntriesAllowed F jumpOp) ∧
        T = F.layout.foldl (addTarget F) (collected F jumpOp) := by
  obtain ⟨hjumps, htargets, -, -⟩ := collected_fields F jumpOp
  have hfirst := fun T₁ => (collect_checks F jumpOp).foldlM_ok_iff F.layout
    (s := {}) trivial T₁
  have hsecond := (target_checks (F := F) (jumpsIn F jumpOp) (targetsIn F jumpOp)).foldlM_ok_iff
    F.layout (s := collected F jumpOp) ⟨hjumps, htargets⟩ T
  unfold tracePredStateThroughIndirectBranches
  by_cases hall : ∀ b ∈ F.layout, Collectible F jumpOp b
  · rw [(hfirst _).mpr ⟨hall, rfl⟩]
    show (if (collected F jumpOp).IndirectTargetMBBs.isEmpty then Except.ok (collected F jumpOp)
      else F.layout.foldlM (checkTarget F) (collected F jumpOp)) = .ok T ↔ _
    by_cases hempty : (collected F jumpOp).IndirectTargetMBBs.isEmpty = true
    · have hnil := List.isEmpty_iff.mp hempty
      rw [if_pos hempty, addTarget_of_nil hnil]
      have hvacuous : EntriesAllowed F jumpOp := fun t _ ht => by
        rw [← htargets, hnil] at ht
        exact absurd ht List.not_mem_nil
      exact ⟨fun h => ⟨⟨hall, hvacuous⟩, (Except.ok.inj h).symm⟩, fun h => congrArg Except.ok h.2.symm⟩
    · rw [if_neg hempty, hsecond]
      exact ⟨fun h => ⟨⟨hall, h.1⟩, h.2⟩, fun h => ⟨h.1.2, h.2⟩⟩
  · constructor
    · intro heq
      cases hf : F.layout.foldlM (collectIndirect F jumpOp) {} with
      | error msg =>
        rw [hf] at heq
        cases heq
      | ok T₁ => exact absurd ((hfirst T₁).mp hf).1 hall
    · rintro ⟨⟨h, -⟩, -⟩
      exact absurd h hall

/-- The function is accepted exactly if every indirect branch is one of 64 bits through a register
and the only terminator of its block, and every other block that enters one of its targets enters
no other block but EH pads. -/
theorem trace_isOk_iff : (∃ T, tracePredStateThroughIndirectBranches F jumpOp = .ok T) ↔
    (∀ b ∈ F.layout, Collectible F jumpOp b) ∧ EntriesAllowed F jumpOp := by
  simp only [trace_eq_ok_iff, exists_and_left, exists_eq, and_true]

/-- What is asserted of the targets. -/
def TargetsFit (F : MachineCFG) (jumpOp : Nat → JumpOp) : Prop :=
  ∀ t ∈ targetsIn F jumpOp, (F.mbb t).isEHPad = false ∧ (F.mbb t).liveInEFLAGS = false

/-- Where the addresses come from, once the pass has been run. -/
structure Checked (F : MachineCFG) (jumpOp : Nat → JumpOp) (T : IndirectTrace) : Prop where
  checked : ∀ t, t ∈ T.checked ↔ t ∈ F.layout ∧ t ∈ targetsIn F jumpOp
  jump : ∀ b ∈ F.layout, ∀ r, jumpReg? F jumpOp b = some r → T.TargetAddrSSA b = some (.reg r)
  entry : ∀ t ∈ T.checked, ∀ p ∈ F.layout, t ∈ (F.mbb p).succs → jumpReg? F jumpOp p = none →
    T.TargetAddrSSA p = some (.block t)

theorem mem_jumpsIn {b : Nat} :
    b ∈ jumpsIn F jumpOp ↔ b ∈ F.layout ∧ (jumpReg? F jumpOp b).isSome = true := List.mem_filter

/-- The loop over the targets, where each block enters one of them at most. -/
theorem addTarget_foldl {T : IndirectTrace} (hT : T.IndirectTerminatedMBBs = jumpsIn F jumpOp)
    (hunique : ∀ p ∈ F.layout, p ∉ jumpsIn F jumpOp → ∀ t ∈ T.IndirectTargetMBBs,
      ∀ t' ∈ T.IndirectTargetMBBs, t ∈ (F.mbb p).succs → t' ∈ (F.mbb p).succs → t = t')
    (l : List Nat) :
    let T' := l.foldl (addTarget F) T
    T'.checked = T.checked ++ l.filter (· ∈ T.IndirectTargetMBBs) ∧
      (∀ p ∈ jumpsIn F jumpOp, T'.TargetAddrSSA p = T.TargetAddrSSA p) ∧
      ∀ p ∈ F.layout, p ∉ jumpsIn F jumpOp → ∀ t ∈ T.IndirectTargetMBBs, t ∈ (F.mbb p).succs →
        (t ∈ l ∨ T.TargetAddrSSA p = some (.block t)) → T'.TargetAddrSSA p = some (.block t) := by
  induction l generalizing T with
  | nil => exact ⟨by simp, fun _ _ => rfl, fun p _ _ t _ _ h => by simpa using h⟩
  | cons q l ih =>
    rw [List.foldl_cons]
    by_cases hq : q ∈ T.IndirectTargetMBBs
    · obtain ⟨d1, d2, d3, d4⟩ := addDirect_foldl q (F.predecessors q) T
      have hstep : addTarget F T q = { (F.predecessors q).foldl (addDirect q) T with
          checked := ((F.predecessors q).foldl (addDirect q) T).checked ++ [q] } := if_pos hq
      have e1 : (addTarget F T q).IndirectTerminatedMBBs = jumpsIn F jumpOp := by
        rw [hstep]
        exact d1.trans hT
      have e2 : (addTarget F T q).IndirectTargetMBBs = T.IndirectTargetMBBs := by
        rw [hstep]
        exact d2
      have e3 : (addTarget F T q).checked = T.checked ++ [q] := by rw [hstep, d3]
      have e4 (p : Nat) : (addTarget F T q).TargetAddrSSA p =
          if p ∈ F.predecessors q ∧ p ∉ T.IndirectTerminatedMBBs then some (.block q)
          else T.TargetAddrSSA p := by
        rw [hstep]
        exact d4 p
      obtain ⟨h1, h2, h3⟩ := ih e1 (e2 ▸ hunique)
      refine ⟨?_, fun p hp => ?_, fun p hp hjump t ht htp h => ?_⟩
      · simp [h1, e2, e3, hq]
      · rw [h2 p hp, e4, if_neg (fun h => h.2 (hT ▸ hp))]
      · refine h3 p hp hjump t (e2 ▸ ht) htp ?_
        rw [e4]
        by_cases hpq : p ∈ F.predecessors q
        · -- The block enters one target at most, so this is it.
          have hqp : q ∈ (F.mbb p).succs := by
            simpa [MachineCFG.predecessors, hp] using hpq
          obtain rfl := hunique p hp hjump t ht q hq htp hqp
          exact .inr (if_pos ⟨hpq, hT ▸ hjump⟩)
        · rw [if_neg (fun h => hpq h.1)]
          obtain hmem | h := h
          · obtain rfl | hmem := List.mem_cons.mp hmem
            · exact absurd (by simp [MachineCFG.predecessors, hp, htp]) hpq
            · exact .inl hmem
          · exact .inr h
    · have hstep : addTarget F T q = T := if_neg hq
      obtain ⟨h1, h2, h3⟩ := ih hT hunique
      rw [hstep]
      refine ⟨by simp [h1, hq], h2, fun p hp hjump t ht htp h => h3 p hp hjump t ht htp ?_⟩
      obtain hmem | h := h
      · obtain rfl | hmem := List.mem_cons.mp hmem
        · exact absurd ht hq
        · exact .inl hmem
      · exact .inr h

theorem checked_of_trace {T : IndirectTrace} (hfit : TargetsFit F jumpOp)
    (hsuccs : ∀ b ∈ F.layout, ∀ t ∈ (F.mbb b).succs, t ∈ F.layout)
    (h : tracePredStateThroughIndirectBranches F jumpOp = .ok T) : Checked F jumpOp T := by
  obtain ⟨⟨-, hentries⟩, rfl⟩ := (trace_eq_ok_iff T).mp h
  obtain ⟨hjumps, htargets, hchecked, hSSA⟩ := collected_fields F jumpOp
  have hlayout {t : Nat} (ht : t ∈ targetsIn F jumpOp) : t ∈ F.layout := by
    obtain ⟨b, hb, htb⟩ := List.mem_flatMap.mp ht
    exact hsuccs b (mem_jumpsIn.mp hb).1 t htb
  -- A block that enters a target directly enters nothing else but EH pads, which are no targets.
  have hunique : ∀ p ∈ F.layout, p ∉ jumpsIn F jumpOp → ∀ t ∈ targetsIn F jumpOp,
      ∀ t' ∈ targetsIn F jumpOp, t ∈ (F.mbb p).succs → t' ∈ (F.mbb p).succs → t = t' := by
    intro p hp hjump t ht t' ht' htp htp'
    have hpred : p ∈ F.predecessors t := by simp [MachineCFG.predecessors, hp, htp]
    have honly := (hentries t (hlayout ht) ht p hpred).resolve_left hjump
    have hpad := List.all_eq_true.mp honly t' htp'
    rw [(hfit t' ht').1, Bool.false_or, beq_iff_eq] at hpad
    exact hpad.symm
  rw [← htargets] at hunique
  obtain ⟨h1, h2, h3⟩ := addTarget_foldl hjumps hunique F.layout
  rw [htargets] at h1 h3
  have hmem (t : Nat) : t ∈ (F.layout.foldl (addTarget F) (collected F jumpOp)).checked ↔
      t ∈ F.layout ∧ t ∈ targetsIn F jumpOp := by
    simp [h1, hchecked]
  refine ⟨hmem, fun b hb r hr => ?_, fun t ht p hp htp hjump => ?_⟩
  · rw [h2 b (mem_jumpsIn.mpr ⟨hb, by simp [hr]⟩), hSSA, if_pos ⟨hb, by simp [hr]⟩, hr]
    rfl
  · obtain ⟨hl, htarget⟩ := (hmem t).mp ht
    have hnot : p ∉ jumpsIn F jumpOp := fun h => by simpa [hjump] using (mem_jumpsIn.mp h).2
    exact h3 p hp hnot t htarget htp (.inl hl)

/-! ## Runs -/

/-- Where the flags are not live into a block, its instructions do without them, and where they pass
through it they are dead. -/
structure DeadFlags (F : MachineCFG) (body : Body (BitVec 64)) : Prop where
  checks : ∀ b, (F.mbb b).liveInEFLAGS = false → (F.mbb b).checks = []
  exec : ∀ c c' : Config (BitVec 64), c.block = c'.block → c.env = c'.env →
    (F.mbb c.block).liveInEFLAGS = false → (c.exec F body).env = (c'.exec F body).env ∧
      ((c.exec F body).flags = (c'.exec F body).flags ∨
        ∀ t ∈ (F.mbb c.block).succs, (F.mbb t).liveInEFLAGS = false)

/-- Two runs are at the same point, where the flags need only agree if they are live, and the first
one knows that the second one has gone astray. -/
structure Agree (F : MachineCFG) (c c' : Config (BitVec 64)) (astray : Bool) : Prop where
  block : c.block = c'.block
  env : c.env = c'.env
  flags : (F.mbb c.block).liveInEFLAGS = true → c.flags = c'.flags
  state : c.state = if astray then PoisonVal else c'.state

/-- What the comparisons rely on: exits lead to successors, and the flags are live where it is said
so. -/
structure Comparable (F : MachineCFG) (body : Body (BitVec 64)) : Prop where
  succs_mem : ∀ b ∈ F.layout, ∀ t ∈ (F.mbb b).succs, t ∈ F.layout
  target_succ : ∀ b ∈ F.layout, ∀ e t, F.target b e = some t → t ∈ (F.mbb b).succs
  deadFlags : DeadFlags F body

variable {addr : Nat → BitVec 64} {body : Body (BitVec 64)} {T : IndirectTrace}
  {c c' : Config (BitVec 64)} {astray : Bool}

theorem runChecks_poisoned (f : Flags) (l : List CondCode) : runChecks f l PoisonVal = PoisonVal := by
  rw [runChecks_eq, ite_self]

/-- What the instructions of a block do in both runs. -/
theorem Agree.exec (h : Agree F c c' astray) (hF : DeadFlags F body) :
    (c.exec F body).env = (c'.exec F body).env ∧
      ((c.exec F body).flags = (c'.exec F body).flags ∨
        ∀ t ∈ (F.mbb c.block).succs, (F.mbb t).liveInEFLAGS = false) := by
  cases hlive : (F.mbb c.block).liveInEFLAGS with
  | false => exact hF.exec c c' h.block h.env hlive
  | true =>
    have hflags := h.flags hlive
    unfold Config.exec
    rw [h.block, h.env, hflags]
    split
    · exact ⟨h.env, .inl hflags⟩
    · exact ⟨rfl, .inl rfl⟩

/-- Into a block, without the comparison. -/
theorem Agree.enter (h : Agree F c c' astray) (hF : DeadFlags F body) {t : Nat}
    (ht : t ∈ (F.mbb c.block).succs) :
    Agree F ((c.exec F body).enter (F.edge c.block t)) ((c'.exec F body).enter (F.edge c'.block t))
      astray := by
  obtain ⟨henv, hflags⟩ := h.exec hF
  have hexec (d : Config (BitVec 64)) : (d.exec F body).state = d.state := by
    unfold Config.exec
    split <;> rfl
  refine ⟨rfl, ?_, fun hlive => ?_, ?_⟩
  · simp only [Config.enter, MachineCFG.edge, henv, h.block]
  · have hlive : (F.mbb t).liveInEFLAGS = true := hlive
    exact hflags.resolve_right fun hdead => by simp [hdead t ht] at hlive
  · have hchecks (s : BitVec 64) : runChecks (c.exec F body).flags (F.mbb t).checks s =
        runChecks (c'.exec F body).flags (F.mbb t).checks s := by
      obtain hflags | hdead := hflags
      · rw [hflags]
      · rw [hF.checks t (hdead t ht)]
        rfl
    show runChecks _ (F.mbb t).checks (c.exec F body).state =
      if astray then PoisonVal else runChecks _ (F.mbb t).checks (c'.exec F body).state
    rw [hexec, hexec, h.state, hchecks]
    cases astray with
    | false => rfl
    | true => exact runChecks_poisoned _ _

theorem holds_cmpFlags (a b : BitVec 64) :
    CondCode.COND_NE.holds (cmpFlags a b) = (a != b) := rfl

/-- The comparison at the start of a block where the flags are dead. -/
theorem Agree.compare (h : Agree F c c' astray) (hlive : (F.mbb c.block).liveInEFLAGS = false)
    (a b : BitVec 64) :
    Agree F { c with
      flags := cmpFlags a b
      state := if CondCode.COND_NE.holds (cmpFlags a b) then PoisonVal else c.state }
      c' (astray || a != b) where
  block := h.block
  env := h.env
  flags := fun htrue => absurd (hlive.symm.trans htrue) Bool.false_ne_true
  state := by
    rw [holds_cmpFlags]
    cases a != b <;> simp [h.state]

variable (addr) in
/-- A step in both runs. -/
theorem Agree.step (h : Agree F c c' astray) (hF : Comparable F body) (hfit : TargetsFit F jumpOp)
    (hT : Checked F jumpOp T) (hc : c.block ∈ F.layout) (e : Exit) :
    (stepChecked F addr body T c e = none ∧ F.step body c' e = none) ∨
      ∃ d d', stepChecked F addr body T c e = some d ∧ F.step body c' e = some d' ∧
        d.block ∈ F.layout ∧ Agree F d d' (astray || misdirected F addr body jumpOp c' e) := by
  unfold stepChecked MachineCFG.step misdirected
  rw [← h.block]
  cases htarget : F.target c.block e with
  | none => exact .inl ⟨rfl, rfl⟩
  | some t =>
    have hsucc := hF.target_succ c.block hc e t htarget
    have hmem := hF.succs_mem c.block hc t hsucc
    have henter := h.enter hF.deadFlags hsucc
    rw [← h.block] at henter
    obtain ⟨henv, -⟩ := h.exec hF.deadFlags
    refine .inr ⟨_, _, rfl, rfl, ?_, ?_⟩
    · simp only
      split <;> exact hmem
    · by_cases hchecked : t ∈ T.checked
      · have htargets := ((hT.checked t).mp hchecked).2
        have hcompare := henter.compare (hfit t htargets).2
        simp only [if_pos hchecked]
        cases hjump : jumpReg? F jumpOp c.block with
        | none =>
          -- The block computes the address of the target itself.
          have hright := hcompare (addr t) (addr t)
          rw [bne_self_eq_false] at hright
          rw [hT.entry t hchecked c.block hc hsucc hjump]
          exact hright
        | some r =>
          have hindirect := hcompare ((c.exec F body).env r) (addr t)
          rw [henv] at hindirect
          rw [hT.jump c.block hc r hjump, henv]
          exact hindirect
      · have hjump : jumpReg? F jumpOp c.block = none := by
          by_contra hjump
          have hjumps : c.block ∈ jumpsIn F jumpOp :=
            mem_jumpsIn.mpr ⟨hc, Option.isSome_iff_ne_none.mpr hjump⟩
          exact hchecked ((hT.checked t).mpr ⟨hmem, List.mem_flatMap.mpr ⟨_, hjumps, hsucc⟩⟩)
        simp only [if_neg hchecked, hjump, Bool.or_false]
        exact henter

variable (addr) in
theorem Agree.run (h : Agree F c c' astray) (hF : Comparable F body) (hfit : TargetsFit F jumpOp)
    (hT : Checked F jumpOp T) (hc : c.block ∈ F.layout) (es : List Exit) :
    (runChecked F addr body T c es = none ∧ runUnchecked F body c' es = none) ∨
      ∃ d d', runChecked F addr body T c es = some d ∧ runUnchecked F body c' es = some d' ∧
        Agree F d d' (astray || misdirectedIn F addr body jumpOp c' es) := by
  induction es generalizing c c' astray with
  | nil => exact .inr ⟨c, c', rfl, rfl, by simpa [misdirectedIn] using h⟩
  | cons e es ih =>
    obtain ⟨hstep, hstep'⟩ | ⟨d, d', hstep, hstep', hd, hagree⟩ := h.step addr hF hfit hT hc e
    · refine .inl ⟨?_, ?_⟩
      · rw [runChecked, List.foldlM_cons, hstep]
        rfl
      · rw [runUnchecked, List.foldlM_cons, hstep']
        rfl
    · rw [runChecked, List.foldlM_cons, hstep, runUnchecked, List.foldlM_cons, hstep',
        misdirectedIn, hstep', ← Bool.or_assoc]
      exact ih hagree hd

/-- What a run is known by where the flags are dead. -/
def Config.view (c : Config (BitVec 64)) : Nat × (Reg → BitVec 64) × BitVec 64 :=
  (c.block, c.env, c.state)

/-- With the comparisons a run goes where it went without, with the same registers. The predicate
state is poisoned if an indirect branch has led to a block that is not at the address it was given,
and the one without the comparisons if not. -/
theorem checked_run (hF : Comparable F body) (hfit : TargetsFit F jumpOp)
    (h : tracePredStateThroughIndirectBranches F jumpOp = .ok T) (hc : c.block ∈ F.layout)
    (es : List Exit) :
    (runChecked F addr body T c es).map Config.view = (runUnchecked F body c es).map fun d =>
      { d with state := if misdirectedIn F addr body jumpOp c es then PoisonVal
        else d.state }.view := by
  have hT := checked_of_trace hfit hF.succs_mem h
  have hself : Agree F c c false := ⟨rfl, rfl, fun _ => rfl, rfl⟩
  obtain ⟨hrun, hrun'⟩ | ⟨d, d', hrun, hrun', hagree⟩ := hself.run addr hF hfit hT hc es
  · rw [hrun, hrun']
    rfl
  · rw [hrun, hrun', Option.map_some, Option.map_some, Config.view, Config.view, hagree.block,
      hagree.env, hagree.state, Bool.false_or]

/-! ### A jump table with a fall through -/

/-- A jump to one of two blocks, the first of which goes on to the second. -/
def jumpTable : MachineCFG where
  layout := [0, 1, 2]
  mbb := fun b => match b with
    | 0 => { terms := [.indirect [1, 2]], succs := [1, 2] }
    | 1 => { terms := [.jmp 2], succs := [2] }
    | _ => { terms := [.other] }
  fresh := 3

def throughRegister (_ : Nat) : JumpOp := .JMP64r (.virt 5)

def blockAddr (b : Nat) : BitVec 64 := 0x401000#64 + BitVec.ofNat 64 b

theorem jumpTable_live (b : Nat) : (jumpTable.mbb b).liveInEFLAGS = false ∧
    (jumpTable.mbb b).checks = [] ∧ (jumpTable.mbb b).isEHPad = false ∧
    (jumpTable.mbb b).phis = [] ∧ (jumpTable.mbb b).inserted = false := by
  simp only [jumpTable]
  split <;> exact ⟨rfl, rfl, rfl, rfl, rfl⟩

theorem jumpTable_comparable : Comparable jumpTable fun _ s => s where
  succs_mem := by decide
  target_succ := by
    intro b hb e t ht
    simp only [jumpTable, List.mem_cons, List.not_mem_nil, or_false] at hb
    obtain rfl | rfl | rfl := hb <;> cases e with
    | cond i => cases i <;> simp_all [MachineCFG.target, jumpTable, conds, Terminator.isJcc]
    | uncond => simp_all [MachineCFG.target, jumpTable, barrier, Terminator.isJcc]
    | indirect x =>
      simp [MachineCFG.target, jumpTable, barrier, Terminator.isJcc] at ht <;>
        simp [jumpTable, ← ht.2, ht.1]
    | unwind x => simp [MachineCFG.target, (jumpTable_live x).2.2.1] at ht
  deadFlags :=
    { checks := fun b _ => (jumpTable_live b).2.1
      exec := fun c c' _ henv _ => by
        simp only [Config.exec, (jumpTable_live _).2.2.2.2, Bool.false_eq_true, if_false]
        exact ⟨henv, .inr fun t _ => (jumpTable_live t).1⟩ }

/-- The jump should have gone to the first block. -/
theorem jumpTable_misdirected : ∃ T,
    tracePredStateThroughIndirectBranches jumpTable throughRegister = .ok T ∧
      ((runChecked jumpTable blockAddr (fun _ s => s) T
        ⟨0, fun _ => blockAddr 1, ⟨false, false, false, false, false⟩, 0⟩ [.indirect 2]).map
          Config.view).map (fun v => (v.1, v.2.2)) = some (2, PoisonVal) := by
  refine ⟨_, rfl, ?_⟩
  have hfit : TargetsFit jumpTable throughRegister := fun t _ =>
    ⟨(jumpTable_live t).2.2.1, (jumpTable_live t).1⟩
  rw [checked_run jumpTable_comparable hfit rfl (by decide)]
  rfl

end MSV.SLH
