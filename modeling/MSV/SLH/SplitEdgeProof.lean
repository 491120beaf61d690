import Mathlib.Data.List.Nodup
import MSV.SLH.PredState

/-!
# Conditional moves on one edge

`buildCheckingBlockForSuccAndConds` puts conditional moves on an edge of the control flow, in the
target or in a block of its own. An exit of a block is described by its arrival: the block it leads
to past an inserted one, the moves of the PHIs there, and the conditional moves on the way.

**Theorem (`edgeTraced`).** In a consistent function the conditional moves come in front of those
of the arrival over this edge, and no other arrival changes.
-/

namespace MSV.SLH

/-! ## Terminators -/

namespace Terminator

@[simp] theorem isJcc_setMBB (n : Nat) (t : Terminator) : (t.setMBB n).isJcc = t.isJcc := by
  cases t <;> rfl

@[simp] theorem cond?_setMBB (n : Nat) (t : Terminator) : (t.setMBB n).cond? = t.cond? := by
  cases t <;> rfl

end Terminator

@[simp] theorem conds_nil : conds [] = [] := rfl

@[simp] theorem conds_jcc (c : CondCode) (t : Nat) (terms : List Terminator) :
    conds (.jcc c t :: terms) = .jcc c t :: conds terms := rfl

@[simp] theorem conds_jmp (t : Nat) (terms : List Terminator) :
    conds (.jmp t :: terms) = [] := rfl

@[simp] theorem conds_other (terms : List Terminator) : conds (.other :: terms) = [] := rfl

@[simp] theorem barrier_nil : barrier [] = none := rfl

@[simp] theorem barrier_jcc (c : CondCode) (t : Nat) (terms : List Terminator) :
    barrier (.jcc c t :: terms) = barrier terms := rfl

@[simp] theorem barrier_jmp (t : Nat) (terms : List Terminator) :
    barrier (.jmp t :: terms) = some (.jmp t) := rfl

@[simp] theorem barrier_other (terms : List Terminator) :
    barrier (.other :: terms) = some .other := rfl

theorem conds_modify (n : Nat) (terms : List Terminator) (i : Nat) :
    conds (terms.modify i (.setMBB n)) = (conds terms).modify i (.setMBB n) := by
  induction terms generalizing i with
  | nil => simp [conds]
  | cons t terms ih =>
    have ih (i : Nat) : (terms.modify i (Terminator.setMBB n)).takeWhile Terminator.isJcc =
        (terms.takeWhile Terminator.isJcc).modify i (Terminator.setMBB n) := ih i
    cases i with
    | zero => cases h : t.isJcc <;> simp [conds, h]
    | succ i => cases h : t.isJcc <;> simp [conds, h, ih]

theorem barrier_modify (n : Nat) (terms : List Terminator) (i : Nat) :
    barrier (terms.modify i (.setMBB n)) =
      if i = (conds terms).length then (barrier terms).map (.setMBB n) else barrier terms := by
  induction terms generalizing i with
  | nil => cases i <;> simp
  | cons t terms ih =>
    have ih (i : Nat) : ((terms.modify i (Terminator.setMBB n)).dropWhile Terminator.isJcc).head? =
        if i = (terms.takeWhile Terminator.isJcc).length then
          ((terms.dropWhile Terminator.isJcc).head?).map (Terminator.setMBB n)
        else (terms.dropWhile Terminator.isJcc).head? := ih i
    cases i with
    | zero => cases h : t.isJcc <;> simp [conds, barrier, h]
    | succ i => cases h : t.isJcc <;> simp [conds, barrier, h, ih]

theorem conds_append_jmp (terms : List Terminator) (t : Nat) :
    conds (terms ++ [.jmp t]) = conds terms := by
  induction terms with
  | nil => simp [conds, Terminator.isJcc]
  | cons x terms ih =>
    have ih : (terms ++ [Terminator.jmp t]).takeWhile Terminator.isJcc =
        terms.takeWhile Terminator.isJcc := ih
    cases h : x.isJcc <;> simp [conds, h, ih]

theorem barrier_append_jmp (terms : List Terminator) (t : Nat) (h : barrier terms = none) :
    barrier (terms ++ [.jmp t]) = some (.jmp t) := by
  induction terms with
  | nil => simp [barrier, Terminator.isJcc]
  | cons x terms ih =>
    cases hx : x.isJcc with
    | false => simp [barrier, hx] at h
    | true => simpa [barrier, hx] using ih (by simpa [barrier, hx] using h)

/-- Where the barrier is. -/
def uncondPos (terms : List Terminator) : Option Nat :=
  (barrier terms).map fun _ => (conds terms).length

/-! ## The layout -/

namespace MachineCFG

theorem nextIn_cons (x : Nat) (l : List Nat) (c : Nat) :
    nextIn (x :: l) c = if x = c then l.head? else nextIn l c := by
  cases l <;> simp [nextIn]

theorem mem_insertAfter {b n x : Nat} {l : List Nat} (hb : b ∈ l) :
    x ∈ insertAfter b n l ↔ x = n ∨ x ∈ l := by
  induction l with
  | nil => simp at hb
  | cons y l ih =>
    by_cases hy : y = b
    · simp only [insertAfter, hy, if_true, List.mem_cons]
      tauto
    · simp only [insertAfter, hy, if_false, List.mem_cons,
        ih (by simpa [Ne.symm hy] using hb)]
      tauto

theorem insertAfter_of_notMem {b n : Nat} {l : List Nat} (hb : b ∉ l) :
    insertAfter b n l = l := by
  induction l with
  | nil => rfl
  | cons y l ih =>
    obtain ⟨hy, hl⟩ := not_or.mp (fun h => hb (List.mem_cons.mpr h))
    simp [insertAfter, Ne.symm hy, ih hl]

theorem nodup_insertAfter {b n : Nat} {l : List Nat} (h : l.Nodup) (hn : n ∉ l) :
    (insertAfter b n l).Nodup := by
  induction l with
  | nil => simp [insertAfter]
  | cons y l ih =>
    obtain ⟨hy, hl⟩ := List.nodup_cons.mp h
    obtain ⟨hny, hnl⟩ := not_or.mp (fun h' => hn (List.mem_cons.mpr h'))
    by_cases hyb : y = b
    · simp only [insertAfter, hyb, if_true, List.nodup_cons, List.mem_cons, not_or]
      exact ⟨⟨fun h' => hny (by rw [← h', hyb]), by rwa [← hyb]⟩, hnl, hl⟩
    · simp only [insertAfter, hyb, if_false, List.nodup_cons]
      refine ⟨fun hmem => ?_, ih hl hnl⟩
      by_cases hb : b ∈ l
      · obtain rfl | hmem := (mem_insertAfter hb).mp hmem
        · exact hny rfl
        · exact hy hmem
      · exact hy (insertAfter_of_notMem hb ▸ hmem)

/-- The new block comes between `b` and what followed it, and no other block is moved. -/
theorem nextIn_insertAfter {b n : Nat} {l : List Nat} (hb : b ∈ l) (hl : l.Nodup) (hn : n ∉ l)
    (c : Nat) :
    nextIn (insertAfter b n l) c =
      if c = b then some n else if c = n then nextIn l b else nextIn l c := by
  induction l with
  | nil => simp at hb
  | cons y l ih =>
    obtain ⟨hy, hl⟩ := List.nodup_cons.mp hl
    obtain ⟨hny, hnl⟩ := not_or.mp (fun h' => hn (List.mem_cons.mpr h'))
    by_cases hyb : y = b
    · subst hyb
      simp only [insertAfter, if_true, nextIn_cons, List.head?_cons]
      by_cases hyc : y = c
      · simp [hyc]
      · by_cases hnc : n = c
        · simp [hyc, hnc, Ne.symm hyc]
        · simp [hyc, hnc, Ne.symm hyc, Ne.symm hnc]
    · have hb : b ∈ l := by simpa [Ne.symm hyb] using hb
      have hhead : (insertAfter b n l).head? = l.head? := by
        cases l with
        | nil => rfl
        | cons z l => by_cases hz : z = b <;> simp [insertAfter, hz]
      simp only [insertAfter, hyb, if_false, nextIn_cons, hhead, ih hb hl hnl]
      by_cases hyc : y = c
      · subst hyc
        simp [hyb, Ne.symm hny]
      · by_cases hcb : c = b
        · simp [hcb, hyb]
        · simp [hyc, hcb]

end MachineCFG

/-! ## The conditions of a block -/

theorem walkTerminators_append (l l' : List (Terminator × Nat)) (info : BlockCondInfo)
    (h : ∀ t ∈ l, t.1 ≠ .other) :
    walkTerminators (l ++ l') info = walkTerminators l' (walkTerminators l info) := by
  induction l generalizing info with
  | nil => rfl
  | cons t l ih =>
    have ih info := ih info fun t' ht' => h t' (List.mem_cons_of_mem _ ht')
    obtain ⟨_ | _ | _ | _, i⟩ := t
    case other => exact absurd rfl (h _ List.mem_cons_self)
    all_goals simp [walkTerminators, ih]

theorem walkTerminators_other (l l' : List (Terminator × Nat)) (i : Nat) (info : BlockCondInfo) :
    (walkTerminators (l ++ (.other, i) :: l') info).CondBrs = [] := by
  induction l generalizing info with
  | nil => rfl
  | cons t l ih =>
    obtain ⟨_ | _ | _ | _, j⟩ := t <;> simp [walkTerminators, ih]

/-- The walk ends with the conditional branches in front of the first other one. -/
theorem walkTerminators_zipIdx (terms : List Terminator) (k b : Nat) (h : .other ∉ terms) :
    walkTerminators (terms.zipIdx k).reverse { MBB := b } =
      { MBB := b
        CondBrs := (List.range' k (conds terms).length).reverse
        UncondBr := (uncondPos terms).map (k + ·) } := by
  induction terms generalizing k with
  | nil => simp [walkTerminators, conds, uncondPos, barrier]
  | cons t terms ih =>
    obtain ⟨ht, hterms⟩ := not_or.mp (fun h' => h (List.mem_cons.mpr h'))
    have hmem : ∀ x ∈ (terms.zipIdx (k + 1)).reverse, x.1 ≠ .other := by
      intro x hx heq
      exact hterms (heq ▸ List.fst_mem_of_mem_zipIdx (List.mem_reverse.mp hx))
    rw [List.zipIdx_cons, List.reverse_cons, walkTerminators_append _ _ _ hmem, ih _ hterms]
    cases t with
    | other => exact absurd rfl ht
    | jcc c x =>
      simp only [walkTerminators, conds, uncondPos, barrier, List.takeWhile_cons,
        List.dropWhile_cons, Terminator.isJcc, if_true, List.length_cons, List.range'_succ,
        List.reverse_cons, Option.map_map, BlockCondInfo.mk.injEq, true_and]
      congr 1
      funext _
      simp only [Function.comp]
      omega
    | jmp x => simp [walkTerminators, conds, uncondPos, barrier, Terminator.isJcc]
    | indirect ts => simp [walkTerminators, conds, uncondPos, barrier, Terminator.isJcc]

theorem blockCondInfo_of_other {F : MachineCFG} {b : Nat} (h : .other ∈ (F.mbb b).terms) :
    (blockCondInfo F b).CondBrs = [] := by
  obtain ⟨l, l', hl⟩ := List.append_of_mem h
  rw [blockCondInfo, hl, List.zipIdx_append, List.zipIdx_cons, List.reverse_append,
    List.reverse_cons, List.append_assoc]
  exact walkTerminators_other _ _ _ _

theorem blockCondInfo_eq {F : MachineCFG} {b : Nat} (h : .other ∉ (F.mbb b).terms) :
    blockCondInfo F b =
      { MBB := b
        CondBrs := (List.range (conds (F.mbb b).terms).length).reverse
        UncondBr := uncondPos (F.mbb b).terms } := by
  rw [blockCondInfo, walkTerminators_zipIdx _ _ _ h, List.range_eq_range']
  simp

/-! ## PHIs of a split edge -/

namespace PHI

variable (b n : Nat) (last : Bool) (phi : PHI)

@[simp] theorem splitPred_dst : (phi.splitPred b n last).dst = phi.dst := by
  unfold splitPred
  split
  · rfl
  · split <;> rfl

theorem lookup_replaceF (ops : List (Reg × Nat)) (c : Nat)
    (hn : ∀ op ∈ ops, op.2 ≠ n) (hc : c ≠ b) :
    ((ops.replaceF fun op => if op.2 = b then some (op.1, n) else none).find?
        fun op => op.2 == c).map Prod.fst =
      if c = n then (ops.find? fun op => op.2 == b).map Prod.fst
      else (ops.find? fun op => op.2 == c).map Prod.fst := by
  induction ops with
  | nil => simp
  | cons op ops ih =>
    have ih := ih fun o ho => hn o (List.mem_cons_of_mem _ ho)
    have hop : op.2 ≠ n := hn op List.mem_cons_self
    by_cases hb : op.2 = b
    · by_cases hcn : c = n
      · simp [List.replaceF, hb, hcn]
      · have hb' : op.2 ≠ c := fun h => hc (h.symm.trans hb)
        simp [List.replaceF, hb, hcn, Ne.symm hcn, Ne.symm hc]
    · by_cases hcn : c = n
      · subst hcn
        simpa [List.replaceF, hb, hop] using ih
      · by_cases hoc : op.2 = c
        · have hb' : c ≠ b := hc
          simp [List.replaceF, hoc, hcn, hc]
        · simpa [List.replaceF, hb, hoc, hcn] using ih

variable (hn : ∀ op ∈ phi.ops, op.2 ≠ n)

include hn in
/-- The new block brings what `b` brought. -/
theorem lookup_splitPred_new (hb : n ≠ b) : (phi.splitPred b n last).lookup n = phi.lookup b := by
  unfold splitPred lookup
  split
  case h_1 h =>
    have : phi.ops.find? (fun op => op.2 == n) = none := by simpa using fun a b' hab => hn _ hab
    rw [this, h]
  case h_2 op h =>
    by_cases hl : last = true
    · simp only [hl, if_true]
      rw [lookup_replaceF b n phi.ops n hn hb, if_pos rfl, h]
    · have hnone : phi.ops.find? (fun op => op.2 == n) = none := by
        simpa using fun a b' hab => hn _ hab
      simp [hl, List.find?_append, hnone, h]

include hn in
theorem lookup_splitPred_other {c : Nat} (hcb : c ≠ b) (hcn : c ≠ n) :
    (phi.splitPred b n last).lookup c = phi.lookup c := by
  unfold splitPred lookup
  split
  · rfl
  · by_cases hl : last = true
    · simp only [hl, if_true]
      rw [lookup_replaceF b n phi.ops c hn hcb, if_neg hcn]
    · simp [hl, List.find?_append, Ne.symm hcn]

/-- With another edge from `b` left, `b` keeps its entry. -/
theorem lookup_splitPred_self : (phi.splitPred b n false).lookup b = phi.lookup b := by
  unfold splitPred lookup
  split
  · rfl
  · case h_2 op h => simp [List.find?_append, h]

theorem mem_splitPred {op : Reg × Nat} (h : op ∈ (phi.splitPred b n last).ops) :
    op ∈ phi.ops ∨ op.2 = n := by
  unfold splitPred at h
  split at h
  · exact .inl h
  · split at h
    · simp only at h
      generalize phi.ops = ops at h ⊢
      induction ops with
      | nil => simp at h
      | cons o ops ih =>
        by_cases ho : o.2 = b
        · simp only [List.replaceF, ho, if_true, List.mem_cons] at h
          obtain rfl | h := h
          · exact .inr rfl
          · exact .inl (List.mem_cons_of_mem _ h)
        · simp only [List.replaceF, ho, if_false, List.mem_cons] at h
          obtain rfl | h := h
          · exact .inl List.mem_cons_self
          · exact (ih h).imp (List.mem_cons_of_mem _) id
    · obtain h | h := List.mem_append.mp h
      · exact .inl h
      · exact .inr (by simp [List.mem_singleton.mp h])

end PHI

/-! ## The blocks after a split -/

section Split

variable (F : MachineCFG) (b s : Nat) (SuccCount : Int) (Br UncondBr : Option Nat)

/-- The jump that takes the place of the fallthrough of `b`. -/
def fallthroughJump (F : MachineCFG) (b : Nat) (Br UncondBr : Option Nat) : Option Terminator :=
  match Br, UncondBr with
  | some _, none =>
      (MachineCFG.nextIn (MachineCFG.insertAfter b F.fresh F.layout) F.fresh).map .jmp
  | _, _ => none

theorem splitEdge_layout : (splitEdge F b s SuccCount Br UncondBr).1.layout =
    MachineCFG.insertAfter b F.fresh F.layout := rfl

theorem splitEdge_fresh :
    (splitEdge F b s SuccCount Br UncondBr).1.fresh = F.fresh + 1 := rfl

theorem splitEdge_uncondBr : (splitEdge F b s SuccCount Br UncondBr).2.2 =
    if (fallthroughJump F b Br UncondBr).isSome then some (F.mbb b).terms.length
    else UncondBr := rfl

variable {F b s} (hb : b ≠ F.fresh) (hs : s ≠ F.fresh)

include hb hs

theorem splitEdge_new :
    (splitEdge F b s SuccCount Br UncondBr).1.mbb F.fresh =
      { terms := match Br with
          | some _ =>
              if MachineCFG.nextIn (MachineCFG.insertAfter b F.fresh F.layout) F.fresh = some s
              then [] else [.jmp s]
          | none => []
        succs := [s]
        liveInEFLAGS := (F.mbb s).liveInEFLAGS
        inserted := true } := by
  cases Br <;> simp [splitEdge, MachineCFG.modify, Ne.symm hb, Ne.symm hs]

variable {c : Nat} (hc : c ≠ F.fresh)

include hc

theorem splitEdge_old :
    (splitEdge F b s SuccCount Br UncondBr).1.mbb c =
      { F.mbb c with
        terms :=
          if c = b then
            (match Br with
              | some i => (F.mbb b).terms.modify i (.setMBB F.fresh)
              | none => (F.mbb b).terms) ++ (fallthroughJump F b Br UncondBr).toList
          else (F.mbb c).terms
        succs :=
          if c = b then
            if SuccCount = 1 then (F.mbb b).succs.replace s F.fresh
            else (F.mbb b).succs ++ [F.fresh]
          else (F.mbb c).succs
        phis :=
          if c = s then (F.mbb s).phis.map (PHI.splitPred b F.fresh (SuccCount == 1))
          else (F.mbb c).phis } := by
  by_cases hcs : c = s <;> by_cases hcb : c = b <;> cases Br <;> cases UncondBr <;>
    simp_all [splitEdge, MachineCFG.modify, Function.update_apply, fallthroughJump]

end Split

/-! ## Consistent functions -/

/-- Conditional moves in front of those of an arrival. -/
def Arrival.check (Conds : List CondCode) (a : Arrival) : Arrival :=
  { a with checks := Conds ++ a.checks }

namespace MachineCFG

/-- Where an exit of `b` leads, past the inserted block on it if there is one. -/
def arrive (F : MachineCFG) (b : Nat) (e : Exit) : Option Arrival :=
  (F.target b e).bind fun t =>
    if (F.mbb t).inserted then
      (F.target t .uncond).map fun y =>
        { F.edge t y with checks := (F.mbb t).checks ++ (F.mbb y).checks }
    else some (F.edge b t)

/-- What holds of the function between the edges. -/
structure Consistent (F : MachineCFG) : Prop where
  nodup : F.layout.Nodup
  lt_fresh : ∀ b ∈ F.layout, b < F.fresh
  succs_mem : ∀ b ∈ F.layout, ∀ t ∈ (F.mbb b).succs, t ∈ F.layout
  target_succ : ∀ b ∈ F.layout, ∀ e t, F.target b e = some t → t ∈ (F.mbb b).succs
  not_pad : ∀ b ∈ F.layout, ∀ e t, (∀ x, e ≠ .unwind x) → (∀ x, e ≠ .indirect x) →
    F.target b e = some t → (F.mbb t).isEHPad = false
  phi_lt : ∀ b ∈ F.layout, ∀ phi ∈ (F.mbb b).phis, ∀ op ∈ phi.ops, op.2 < F.fresh
  new : ∀ n ∈ F.layout, (F.mbb n).inserted = true →
    (F.mbb n).phis = [] ∧ (F.mbb n).isEHPad = false ∧
      ∃ s, (F.mbb n).succs = [s] ∧ F.target n .uncond = some s ∧ (F.mbb s).inserted = false

theorem Consistent.ne_fresh {F : MachineCFG} (h : F.Consistent) {b : Nat} (hb : b ∈ F.layout) :
    b ≠ F.fresh := (h.lt_fresh b hb).ne

/-- The edge on which the conditional moves are put: `b` is left through `e` for `s`. -/
structure Traces (F : MachineCFG) (b s : Nat) (e : Exit) (SuccCount : Int)
    (Br UncondBr : Option Nat) : Prop where
  mem : b ∈ F.layout
  old : (F.mbb b).inserted = false
  target : F.target b e = some s
  old_target : (F.mbb s).inserted = false
  uncond : UncondBr = uncondPos (F.mbb b).terms
  branch : (∃ i, e = .cond i ∧ Br = some i) ∨ (e = .uncond ∧ Br = UncondBr)
  falls : barrier (F.mbb b).terms = none → (F.target b .uncond).isSome
  only : SuccCount = 1 → ∀ e', F.target b e' = some s → e' = e

variable {F : MachineCFG} {b s : Nat} {e : Exit} {SuccCount : Int} {Br UncondBr : Option Nat}

theorem Traces.direct (h : F.Traces b s e SuccCount Br UncondBr) :
    (∀ x, e ≠ .unwind x) ∧ ∀ x, e ≠ .indirect x := by
  obtain ⟨i, rfl, -⟩ | ⟨rfl, -⟩ := h.branch <;> simp

/-! ## The exits after a split -/

section Replace

variable {α : Type} [DecidableEq α] {s n t : α} {l : List α}

theorem replace_cons_ne {x : α} (h : s ≠ x) : (x :: l).replace s n = x :: l.replace s n := by
  simp [List.replace_cons, beq_false_of_ne h]

theorem mem_replace (h : t ∈ l.replace s n) : t = n ∨ t ∈ l := by
  induction l with
  | nil => simp at h
  | cons x l ih =>
    by_cases hx : s = x
    · simp only [hx, List.replace_cons_self, List.mem_cons] at h
      exact h.imp id (List.mem_cons_of_mem _)
    · rw [replace_cons_ne hx, List.mem_cons] at h
      obtain rfl | h := h
      · simp
      · exact (ih h).imp id (List.mem_cons_of_mem _)

theorem mem_replace_of_ne (ht : t ≠ s) (h : t ∈ l) : t ∈ l.replace s n := by
  induction l with
  | nil => simp at h
  | cons x l ih =>
    by_cases hx : s = x
    · subst hx
      simpa using Or.inr ((List.mem_cons.mp h).resolve_left ht)
    · rw [replace_cons_ne hx]
      obtain rfl | h := List.mem_cons.mp h
      · simp
      · exact List.mem_cons_of_mem _ (ih h)

theorem mem_replace_new (h : s ∈ l) : n ∈ l.replace s n := by
  induction l with
  | nil => simp at h
  | cons x l ih =>
    by_cases hx : s = x
    · subst hx; simp
    · rw [replace_cons_ne hx]
      exact List.mem_cons_of_mem _ (ih (by simpa [hx] using h))

end Replace

theorem Consistent.target_mem (hF : F.Consistent) {c t : Nat} {e' : Exit} (hc : c ∈ F.layout)
    (h : F.target c e' = some t) : t ∈ F.layout :=
  hF.succs_mem c hc t (hF.target_succ c hc e' t h)

theorem target_uncond_none (h : barrier (F.mbb b).terms = none) :
    F.target b .uncond = (F.layoutSucc b).filter fun t => t ∈ (F.mbb b).succs := by
  rw [target, h]

/-- The conditional branches after the split of an exit. -/
def retargetConds (n : Nat) (l : List Terminator) : Exit → List Terminator
  | .cond i => l.modify i (.setMBB n)
  | _ => l

/-- The barrier after the split of an exit; `u` is where the block fell through to. -/
def retargetBarrier (n : Nat) (x : Option Terminator) (u : Option Nat) :
    Exit → Option Terminator
  | .cond _ => x.or (u.map .jmp)
  | _ => x.map (.setMBB n)

section Split

variable (hF : F.Consistent) (h : F.Traces b s e SuccCount Br UncondBr)

include h

/-- With a barrier, or from the last exit, there is no new jump. -/
theorem fallthroughJump_none (hb : e = .uncond ∨ barrier (F.mbb b).terms ≠ none) :
    fallthroughJump F b Br UncondBr = none := by
  have hU := h.uncond
  obtain ⟨i, rfl, rfl⟩ | ⟨rfl, rfl⟩ := h.branch
  · cases hbar : barrier (F.mbb b).terms with
    | none => simp [hbar] at hb
    | some x => simp [uncondPos, hbar] at hU; simp [fallthroughJump, hU]
  · cases Br <;> rfl

include hF

theorem layoutSucc_split (c : Nat) :
    (splitEdge F b s SuccCount Br UncondBr).1.layoutSucc c =
      if c = b then some F.fresh
      else if c = F.fresh then F.layoutSucc b else F.layoutSucc c := by
  rw [layoutSucc, splitEdge_layout]
  exact nextIn_insertAfter h.mem hF.nodup (fun hn => hF.ne_fresh hn rfl) c

/-- Without one the new jump goes where `b` fell through to. -/
theorem fallthroughJump_some {i : Nat} (he : e = .cond i)
    (hb : barrier (F.mbb b).terms = none) :
    ∃ u, F.target b .uncond = some u ∧ fallthroughJump F b Br UncondBr = some (.jmp u) := by
  have hU := h.uncond
  obtain ⟨u, hu⟩ := Option.isSome_iff_exists.mp (h.falls hb)
  obtain ⟨j, -, rfl⟩ | ⟨rfl, -⟩ := h.branch
  · refine ⟨u, hu, ?_⟩
    have hnext := nextIn_insertAfter h.mem hF.nodup (fun hn => hF.ne_fresh hn rfl) F.fresh
    rw [if_neg (Ne.symm (hF.ne_fresh h.mem)), if_pos rfl] at hnext
    rw [target_uncond_none hb, Option.filter_eq_some_iff] at hu
    simp [fallthroughJump, hU, uncondPos, hb, hnext, ← hu.1, layoutSucc]
  · simp at he

/-- What the branches of `b` are after the split. -/
theorem conds_split :
    conds ((splitEdge F b s SuccCount Br UncondBr).1.mbb b).terms =
      retargetConds F.fresh (conds (F.mbb b).terms) e := by
  have hb := hF.ne_fresh h.mem
  have hs := hF.ne_fresh (hF.target_mem h.mem h.target)
  rw [splitEdge_old _ _ _ hb hs hb]
  simp only [if_true]
  have hU := h.uncond
  obtain ⟨i, rfl, rfl⟩ | ⟨rfl, rfl⟩ := h.branch
  · cases hbar : barrier (F.mbb b).terms with
    | none =>
      obtain ⟨u, -, hj⟩ := fallthroughJump_some hF h rfl hbar
      simp [hj, conds_append_jmp, conds_modify, retargetConds]
    | some x =>
      simp [fallthroughJump_none h (.inr (by simp [hbar])), conds_modify, retargetConds]
  · rw [fallthroughJump_none h (.inl rfl)]
    subst hU
    cases hbar : barrier (F.mbb b).terms with
    | none => simp [uncondPos, hbar, retargetConds]
    | some x =>
      simp only [uncondPos, hbar, Option.map_some, Option.toList_none, List.append_nil,
        conds_modify, retargetConds]
      exact List.modify_eq_self (le_refl _)

theorem barrier_split :
    barrier ((splitEdge F b s SuccCount Br UncondBr).1.mbb b).terms =
      retargetBarrier F.fresh (barrier (F.mbb b).terms) (F.target b .uncond) e := by
  have hb := hF.ne_fresh h.mem
  have hs := hF.ne_fresh (hF.target_mem h.mem h.target)
  rw [splitEdge_old _ _ _ hb hs hb]
  simp only [if_true]
  have hU := h.uncond
  obtain ⟨i, rfl, rfl⟩ | ⟨rfl, rfl⟩ := h.branch
  · have hi : i ≠ (conds (F.mbb b).terms).length := by
      rintro rfl
      simpa [target] using h.target
    cases hbar : barrier (F.mbb b).terms with
    | none =>
      obtain ⟨u, hu, hj⟩ := fallthroughJump_some hF h rfl hbar
      rw [hj, Option.toList_some, barrier_append_jmp, hu]
      · rfl
      · rw [barrier_modify, if_neg hi, hbar]
    | some x =>
      rw [fallthroughJump_none h (.inr (by simp [hbar]))]
      simp [barrier_modify, hi, hbar, retargetBarrier]
  · rw [fallthroughJump_none h (.inl rfl)]
    subst hU
    cases hbar : barrier (F.mbb b).terms with
    | none => simp [uncondPos, hbar, retargetBarrier]
    | some x => simp [uncondPos, hbar, barrier_modify, retargetBarrier]

/-- The successors of `b`, other than the one whose edge is split. -/
theorem succs_split {t : Nat} (ht : t ≠ s) (hn : t ≠ F.fresh) :
    t ∈ ((splitEdge F b s SuccCount Br UncondBr).1.mbb b).succs ↔ t ∈ (F.mbb b).succs := by
  have hb := hF.ne_fresh h.mem
  have hs := hF.ne_fresh (hF.target_mem h.mem h.target)
  rw [splitEdge_old _ _ _ hb hs hb]
  simp only [if_true]
  split
  · exact ⟨fun h' => (mem_replace h').resolve_left hn, mem_replace_of_ne ht⟩
  · simp [hn]

theorem isEHPad_split (t : Nat) :
    ((splitEdge F b s SuccCount Br UncondBr).1.mbb t).isEHPad =
      if t = F.fresh then false else (F.mbb t).isEHPad := by
  have hb := hF.ne_fresh h.mem
  have hs := hF.ne_fresh (hF.target_mem h.mem h.target)
  by_cases ht : t = F.fresh
  · rw [ht, splitEdge_new _ _ _ hb hs, if_pos rfl]
  · rw [splitEdge_old _ _ _ hb hs ht, if_neg ht]

theorem succs_fresh : F.fresh ∈ ((splitEdge F b s SuccCount Br UncondBr).1.mbb b).succs := by
  have hb := hF.ne_fresh h.mem
  have hs := hF.ne_fresh (hF.target_mem h.mem h.target)
  rw [splitEdge_old _ _ _ hb hs hb]
  simp only [if_true]
  split
  · exact mem_replace_new (hF.target_succ b h.mem e s h.target)
  · simp

/-- Only the one exit of `b` is changed. -/
theorem target_split (e' : Exit) :
    (splitEdge F b s SuccCount Br UncondBr).1.target b e' =
      if e' = e then some F.fresh else F.target b e' := by
  have hconds := conds_split hF h
  have hbar := barrier_split hF h
  have hpad : (F.mbb s).isEHPad = false :=
    hF.not_pad b h.mem e s h.direct.1 h.direct.2 h.target
  cases e' with
  | cond j =>
    obtain ⟨i, rfl, -⟩ | ⟨rfl, -⟩ := h.branch
    · have htarget := h.target
      by_cases hij : j = i
      · subst hij
        simp only [target, hconds, retargetConds, List.getElem?_modify_eq, if_true] at htarget ⊢
        obtain ⟨x, hx, hmbb⟩ := Option.bind_eq_some_iff.mp htarget
        rw [hx]
        cases x <;> simp_all [Terminator.getMBB, Terminator.setMBB]
      · simp only [target, hconds, retargetConds, Exit.cond.injEq, hij, if_false,
          List.getElem?_modify_ne _ _ (Ne.symm hij)]
    · simp [target, hconds, retargetConds]
  | uncond =>
    simp only [target, hbar, layoutSucc_split hF h b, if_true]
    obtain ⟨i, rfl, -⟩ | ⟨rfl, -⟩ := h.branch
    · simp only [reduceCtorEq, if_false]
      cases hb : barrier (F.mbb b).terms with
      | none =>
        obtain ⟨u, hu⟩ := Option.isSome_iff_exists.mp (h.falls hb)
        simp [hu, retargetBarrier, ← target_uncond_none hb]
      | some x => cases x <;> simp [retargetBarrier]
    · have htarget := h.target
      cases hb : barrier (F.mbb b).terms with
      | none => simp [succs_fresh hF h, retargetBarrier]
      | some x =>
        simp only [target, hb] at htarget
        cases x <;> simp_all [Terminator.setMBB, retargetBarrier]
  | indirect t =>
    have hne : Exit.indirect t ≠ e := fun h' => h.direct.2 t h'.symm
    simp only [target, hbar, if_neg hne]
    obtain ⟨i, rfl, -⟩ | ⟨rfl, -⟩ := h.branch
    · cases hb : barrier (F.mbb b).terms with
      | none => cases F.target b .uncond <;> simp [retargetBarrier]
      | some x => simp [retargetBarrier]
    · have htarget := h.target
      cases hb : barrier (F.mbb b).terms with
      | none => simp [retargetBarrier]
      | some x =>
        simp only [target, hb] at htarget
        cases x <;> simp_all [Terminator.setMBB, retargetBarrier]
  | unwind t =>
    have hne : Exit.unwind t ≠ e := fun h' => h.direct.1 t h'.symm
    rw [if_neg hne, target, target, isEHPad_split hF h]
    by_cases ht : t = F.fresh
    · have hnot : F.fresh ∉ (F.mbb b).succs :=
        fun hm => hF.ne_fresh (hF.succs_mem b h.mem _ hm) rfl
      simp [ht, hnot]
    · by_cases hts : t = s
      · simp [hts, hpad]
      · simp [ht, succs_split hF h hts ht]

/-- The exits of the other blocks stay. -/
theorem target_split_other {c : Nat} (hc : c ∈ F.layout) (hcb : c ≠ b) (e' : Exit) :
    (splitEdge F b s SuccCount Br UncondBr).1.target c e' = F.target c e' := by
  have hb := hF.ne_fresh h.mem
  have hs := hF.ne_fresh (hF.target_mem h.mem h.target)
  have hold := splitEdge_old (c := c) SuccCount Br UncondBr hb hs (hF.ne_fresh hc)
  simp only [if_neg hcb] at hold
  have hlayout := layoutSucc_split hF h c
  rw [if_neg hcb, if_neg (hF.ne_fresh hc)] at hlayout
  cases e' with
  | cond j => simp [target, hold]
  | uncond => simp [target, hold, hlayout]
  | indirect t => simp [target, hold]
  | unwind t =>
    rw [target, target, isEHPad_split hF h, hold]
    by_cases ht : t = F.fresh
    · have hnot : F.fresh ∉ (F.mbb c).succs :=
        fun hm => hF.ne_fresh (hF.succs_mem c hc _ hm) rfl
      simp [ht, hnot]
    · simp [ht]

/-- The new block leads to the old target. -/
theorem target_split_new :
    (splitEdge F b s SuccCount Br UncondBr).1.target F.fresh .uncond = some s := by
  have hb := hF.ne_fresh h.mem
  have hs := hF.ne_fresh (hF.target_mem h.mem h.target)
  have hlayout := layoutSucc_split hF h F.fresh
  rw [if_neg (Ne.symm hb), if_pos rfl] at hlayout
  have hnext : MachineCFG.nextIn (MachineCFG.insertAfter b F.fresh F.layout) F.fresh =
      F.layoutSucc b := hlayout
  rw [target, splitEdge_new _ _ _ hb hs]
  simp only [hlayout, hnext]
  cases Br with
  | some j =>
    by_cases hsucc : F.layoutSucc b = some s
    · simp [barrier, hsucc]
    · simp [barrier, Terminator.isJcc, hsucc]
  | none =>
    have hbar : barrier (F.mbb b).terms = none := by
      obtain ⟨i, -, hi⟩ | ⟨-, hU⟩ := h.branch
      · simp at hi
      · simpa [uncondPos, ← hU] using h.uncond
    have htarget := h.target
    obtain ⟨i, -, hi⟩ | ⟨rfl, -⟩ := h.branch
    · simp at hi
    · rw [target_uncond_none hbar, Option.filter_eq_some_iff] at htarget
      simp [barrier, htarget.1]

theorem target_split_new_eq {e' : Exit} {t : Nat}
    (ht : (splitEdge F b s SuccCount Br UncondBr).1.target F.fresh e' = some t) : t = s := by
  have hb := hF.ne_fresh h.mem
  have hs := hF.ne_fresh (hF.target_mem h.mem h.target)
  have hterms : conds ((splitEdge F b s SuccCount Br UncondBr).1.mbb F.fresh).terms = [] ∧
      ∀ ts, barrier ((splitEdge F b s SuccCount Br UncondBr).1.mbb F.fresh).terms ≠
        some (.indirect ts) := by
    rw [splitEdge_new _ _ _ hb hs]
    cases Br with
    | none => simp [conds, barrier]
    | some j =>
      simp only
      split <;> simp [conds, barrier, Terminator.isJcc]
  cases e' with
  | cond j => simp [target, hterms.1] at ht
  | uncond => exact (Option.some.inj (ht.symm.trans (target_split_new hF h)))
  | indirect x =>
    rw [target] at ht
    split at ht
    · case h_1 ts hts => exact absurd hts (hterms.2 ts)
    · simp at ht
  | unwind x =>
    rw [target, splitEdge_new _ _ _ hb hs] at ht
    simp only [List.mem_singleton] at ht
    split_ifs at ht with hx
    exact (Option.some.inj ht).symm.trans hx.1

/-- `splitEdge` keeps the function consistent. -/
theorem consistent_split : (splitEdge F b s SuccCount Br UncondBr).1.Consistent := by
  have hb := hF.ne_fresh h.mem
  have hsmem := hF.target_mem h.mem h.target
  have hs := hF.ne_fresh hsmem
  have hfresh : F.fresh ∉ F.layout := fun hn => hF.ne_fresh hn rfl
  have hmem (c : Nat) : c ∈ (splitEdge F b s SuccCount Br UncondBr).1.layout ↔
      c = F.fresh ∨ c ∈ F.layout := by
    rw [splitEdge_layout]
    exact mem_insertAfter h.mem
  have hnew := splitEdge_new SuccCount Br UncondBr hb hs
  have hold {c : Nat} (hc : c ∈ F.layout) :=
    splitEdge_old SuccCount Br UncondBr hb hs (hF.ne_fresh hc)
  have htarget {c t : Nat} {e' : Exit} (hc : c ∈ F.layout)
      (ht : (splitEdge F b s SuccCount Br UncondBr).1.target c e' = some t) :
      (c = b ∧ e' = e ∧ t = F.fresh) ∨ ((c = b → e' ≠ e) ∧ F.target c e' = some t) := by
    by_cases hcb : c = b
    · subst hcb
      rw [target_split hF h] at ht
      split_ifs at ht with he
      · exact .inl ⟨rfl, he, (Option.some.inj ht).symm⟩
      · exact .inr ⟨fun _ => he, ht⟩
    · rw [target_split_other hF h hc hcb] at ht
      exact .inr ⟨fun h' => absurd h' hcb, ht⟩
  refine ⟨?_, ?_, ?_, ?_, ?_, ?_, ?_⟩
  · rw [splitEdge_layout]
    exact nodup_insertAfter hF.nodup hfresh
  · intro c hc
    rw [splitEdge_fresh]
    obtain rfl | hc := (hmem c).mp hc
    · omega
    · have := hF.lt_fresh c hc
      omega
  · intro c hc t ht
    rw [hmem]
    obtain rfl | hc := (hmem c).mp hc
    · rw [hnew] at ht
      simp only [List.mem_singleton] at ht
      exact .inr (ht ▸ hsmem)
    · by_cases hcb : c = b
      · by_cases htf : t = F.fresh
        · exact .inl htf
        · by_cases hts : t = s
          · exact .inr (hts ▸ hsmem)
          · exact .inr (hF.succs_mem b h.mem t ((succs_split hF h hts htf).mp (hcb ▸ ht)))
      · rw [hold hc] at ht
        simp only [hcb, if_false] at ht
        exact .inr (hF.succs_mem c hc t ht)
  · intro c hc e' t ht
    obtain rfl | hcF := (hmem c).mp hc
    · rw [target_split_new_eq hF h ht, hnew]
      simp
    · obtain ⟨rfl, -, rfl⟩ | ⟨hne, htF⟩ := htarget hcF ht
      · exact succs_fresh hF h
      · have hsucc := hF.target_succ c hcF e' t htF
        by_cases hcb : c = b
        · subst hcb
          by_cases hts : t = s
          · subst hts
            rw [hold hcF]
            simp only [if_true]
            rw [if_neg fun hk => hne rfl (h.only hk e' htF)]
            exact List.mem_append_left _ hsucc
          · exact (succs_split hF h hts (hF.ne_fresh (hF.succs_mem c hcF t hsucc))).mpr hsucc
        · rw [hold hcF]
          simpa [hcb] using hsucc
  · intro c hc e' t hu hi ht
    rw [isEHPad_split hF h]
    split_ifs with htf
    · rfl
    · obtain rfl | hc := (hmem c).mp hc
      · rw [target_split_new_eq hF h ht]
        exact hF.not_pad b h.mem e s h.direct.1 h.direct.2 h.target
      · obtain ⟨-, -, rfl⟩ | ⟨-, ht⟩ := htarget hc ht
        · exact absurd rfl htf
        · exact hF.not_pad c hc e' t hu hi ht
  · intro c hc phi hphi op hop
    rw [splitEdge_fresh]
    obtain rfl | hc := (hmem c).mp hc
    · simp [hnew] at hphi
    · rw [hold hc] at hphi
      by_cases hcs : c = s
      · simp only [hcs, if_true, List.mem_map] at hphi
        obtain ⟨phi₀, hphi₀, rfl⟩ := hphi
        obtain hop | hop := phi₀.mem_splitPred _ _ _ hop
        · have := hF.phi_lt s hsmem phi₀ hphi₀ op hop
          omega
        · omega
      · simp only [hcs, if_false] at hphi
        have := hF.phi_lt c hc phi hphi op hop
        omega
  · intro m hm hins
    obtain rfl | hm := (hmem m).mp hm
    · rw [hnew]
      refine ⟨rfl, rfl, s, rfl, target_split_new hF h, ?_⟩
      rw [hold hsmem]
      exact h.old_target
    · rw [hold hm] at hins ⊢
      have hmb : m ≠ b := fun hmb => by simp [hmb, h.old] at hins
      have hms : m ≠ s := fun hms => by simp [hms, h.old_target] at hins
      obtain ⟨hphis, hpad, s', hsuccs, ht, hs'⟩ := hF.new m hm hins
      simp only [hmb, hms, if_false]
      refine ⟨hphis, hpad, s', hsuccs, ?_, ?_⟩
      · rw [target_split_other hF h hm hmb, ht]
      · rw [hold (hF.target_mem hm ht)]
        exact hs'

/-- The edges into the blocks that were there, seen from the blocks that were there. -/
theorem edge_split {c t : Nat} (hc : c ∈ F.layout) (ht : t ∈ F.layout)
    (hcs : c = b → t = s → SuccCount ≠ 1) :
    (splitEdge F b s SuccCount Br UncondBr).1.edge c t = F.edge c t := by
  have hb := hF.ne_fresh h.mem
  have hs := hF.ne_fresh (hF.target_mem h.mem h.target)
  have hold := splitEdge_old SuccCount Br UncondBr hb hs (hF.ne_fresh ht)
  simp only [edge, hold, Arrival.mk.injEq, true_and, and_true]
  by_cases hts : t = s
  · subst hts
    simp only [if_true, List.map_map]
    refine List.map_congr_left fun phi hphi => ?_
    have hn : ∀ op ∈ phi.ops, op.2 ≠ F.fresh := fun op hop =>
      (hF.phi_lt t ht phi hphi op hop).ne
    simp only [Function.comp, PHI.splitPred_dst, Prod.mk.injEq, true_and]
    by_cases hcb : c = b
    · subst hcb
      rw [beq_false_of_ne (hcs rfl rfl)]
      exact PHI.lookup_splitPred_self _ _ phi
    · exact PHI.lookup_splitPred_other _ _ _ phi hn hcb (hF.ne_fresh hc)
  · simp [hts]

/-- The new block brings what `b` brought. -/
theorem edge_split_new :
    (splitEdge F b s SuccCount Br UncondBr).1.edge F.fresh s = F.edge b s := by
  have hb := hF.ne_fresh h.mem
  have hsmem := hF.target_mem h.mem h.target
  have hs := hF.ne_fresh hsmem
  have hold := splitEdge_old SuccCount Br UncondBr hb hs hs
  simp only [edge, hold, Arrival.mk.injEq, true_and, and_true, if_true, List.map_map]
  refine List.map_congr_left fun phi hphi => ?_
  have hn : ∀ op ∈ phi.ops, op.2 ≠ F.fresh := fun op hop =>
    (hF.phi_lt s hsmem phi hphi op hop).ne
  simp only [Function.comp, PHI.splitPred_dst, Prod.mk.injEq, true_and]
  exact PHI.lookup_splitPred_new _ _ _ phi hn (Ne.symm hb)

/-- A split changes no arrival. -/
theorem arrive_split {c : Nat} (hc : c ∈ F.layout) (e' : Exit) :
    (splitEdge F b s SuccCount Br UncondBr).1.arrive c e' = F.arrive c e' := by
  have hb := hF.ne_fresh h.mem
  have hsmem := hF.target_mem h.mem h.target
  have hs := hF.ne_fresh hsmem
  have hnew := splitEdge_new SuccCount Br UncondBr hb hs
  by_cases hedge : c = b ∧ e' = e
  · obtain ⟨rfl, rfl⟩ := hedge
    have hold := splitEdge_old SuccCount Br UncondBr hb hs hs
    rw [arrive, arrive, target_split hF h, if_pos rfl, h.target]
    simp only [Option.bind_some, hnew, if_true, target_split_new hF h, Option.map_some,
      edge_split_new hF h, h.old_target, Bool.false_eq_true, if_false, List.nil_append, hold]
    rfl
  · have htarget : (splitEdge F b s SuccCount Br UncondBr).1.target c e' = F.target c e' := by
      by_cases hcb : c = b
      · subst hcb
        rw [target_split hF h, if_neg fun he => hedge ⟨rfl, he⟩]
      · exact target_split_other hF h hc hcb e'
    rw [arrive, arrive, htarget]
    cases ht : F.target c e' with
    | none => rfl
    | some t =>
      have htmem := hF.target_mem hc ht
      have hold := splitEdge_old SuccCount Br UncondBr hb hs (hF.ne_fresh htmem)
      simp only [Option.bind_some, hold]
      by_cases hins : (F.mbb t).inserted = true
      · have htb : t ≠ b := fun h' => by simp [h', h.old] at hins
        obtain ⟨-, -, y, -, hy, -⟩ := hF.new t htmem hins
        have hymem := hF.target_mem htmem hy
        have holdy := splitEdge_old SuccCount Br UncondBr hb hs (hF.ne_fresh hymem)
        rw [if_pos hins, if_pos hins, target_split_other hF h htmem htb, hy, Option.map_some,
          Option.map_some, edge_split hF h htmem hymem fun h' => absurd h' htb, holdy]
      · rw [if_neg hins, if_neg hins, edge_split hF h hc htmem]
        rintro rfl rfl hk
        exact hedge ⟨rfl, h.only hk e' ht⟩

end Split

/-! ## Checks on the only way into a block -/

section Checks

variable {x : Nat} (hF : F.Consistent) (hb : b ∈ F.layout) (hold : (F.mbb b).inserted = false)
  (ht : F.target b e = some x)
  (honly : ∀ c ∈ F.layout, ∀ e', F.target c e' = some x → c = b ∧ e' = e)
  (Conds : List CondCode)

/-- The function with conditional moves at the start of `x`. -/
def addChecks (F : MachineCFG) (x : Nat) (Conds : List CondCode) : MachineCFG :=
  F.modify x fun m => { m with checks := Conds ++ m.checks, liveInEFLAGS := true }

theorem addChecks_mbb (c : Nat) :
    (F.addChecks x Conds).mbb c =
      if c = x then
        { F.mbb c with checks := Conds ++ (F.mbb c).checks, liveInEFLAGS := true }
      else F.mbb c := by
  by_cases hc : c = x
  · subst hc; simp [addChecks, modify]
  · simp [addChecks, modify, hc]

theorem addChecks_target (c : Nat) (e' : Exit) :
    (F.addChecks x Conds).target c e' = F.target c e' := by
  have hterms : ((F.addChecks x Conds).mbb c).terms = (F.mbb c).terms := by
    rw [addChecks_mbb]; split <;> rfl
  have hsuccs : ((F.addChecks x Conds).mbb c).succs = (F.mbb c).succs := by
    rw [addChecks_mbb]; split <;> rfl
  have hpad (t : Nat) : ((F.addChecks x Conds).mbb t).isEHPad = (F.mbb t).isEHPad := by
    rw [addChecks_mbb]; split <;> rfl
  have hlayout : (F.addChecks x Conds).layoutSucc c = F.layoutSucc c := rfl
  cases e' <;> simp [target, hterms, hsuccs, hpad, hlayout]

include hF in
theorem consistent_addChecks : (F.addChecks x Conds).Consistent := by
  have hmbb (c : Nat) : ((F.addChecks x Conds).mbb c).succs = (F.mbb c).succs ∧
      ((F.addChecks x Conds).mbb c).isEHPad = (F.mbb c).isEHPad ∧
      ((F.addChecks x Conds).mbb c).phis = (F.mbb c).phis ∧
      ((F.addChecks x Conds).mbb c).inserted = (F.mbb c).inserted := by
    rw [addChecks_mbb]; split <;> simp
  refine ⟨hF.nodup, hF.lt_fresh, ?_, ?_, ?_, ?_, ?_⟩
  · intro c hc t
    rw [(hmbb c).1]
    exact hF.succs_mem c hc t
  · intro c hc e' t
    rw [(hmbb c).1, addChecks_target]
    exact hF.target_succ c hc e' t
  · intro c hc e' t
    rw [(hmbb t).2.1, addChecks_target]
    exact hF.not_pad c hc e' t
  · intro c hc
    rw [(hmbb c).2.2.1]
    exact hF.phi_lt c hc
  · intro c hc
    simp only [(hmbb c).1, (hmbb c).2.1, (hmbb c).2.2.1, fun c => (hmbb c).2.2.2,
      addChecks_target]
    exact hF.new c hc

include hF hb hold ht honly

/-- Only the arrivals over this edge pass the new checks. -/
theorem arrive_addChecks {c : Nat} (hc : c ∈ F.layout) (e' : Exit) :
    (F.addChecks x Conds).arrive c e' =
      if c = b ∧ e' = e then (F.arrive c e').map (Arrival.check Conds) else F.arrive c e' := by
  have hins (t : Nat) : ((F.addChecks x Conds).mbb t).inserted = (F.mbb t).inserted := by
    rw [addChecks_mbb]; split <;> rfl
  have hedge (c' t : Nat) : (F.addChecks x Conds).edge c' t =
      if t = x then (F.edge c' t).check Conds else F.edge c' t := by
    rw [edge, addChecks_mbb]
    split <;> rfl
  rw [arrive, arrive, addChecks_target]
  cases htc : F.target c e' with
  | none => simp
  | some t =>
    have htmem := hF.target_mem hc htc
    simp only [Option.bind_some, hins, addChecks_target]
    by_cases hnew : (F.mbb t).inserted = true
    · obtain ⟨-, -, y, -, hy, -⟩ := hF.new t htmem hnew
      -- An inserted block does not lead to `x`, for `b` is not inserted.
      have hyx : y ≠ x := by
        rintro rfl
        rw [(honly t htmem _ hy).1, hold] at hnew
        exact Bool.false_ne_true hnew
      simp only [hnew, if_true, hy, Option.map_some, hedge, addChecks_mbb, hyx, if_false]
      by_cases htx : t = x
      · subst htx
        rw [if_pos (honly c hc e' htc)]
        simp [Arrival.check]
      · have hne : ¬(c = b ∧ e' = e) := by
          rintro ⟨rfl, rfl⟩
          exact htx (Option.some.inj (htc.symm.trans ht))
        simp [htx, hne]
    · simp only [hnew, hedge]
      by_cases htx : t = x
      · subst htx
        rw [if_pos rfl, if_pos (honly c hc e' htc)]
        rfl
      · have hne : ¬(c = b ∧ e' = e) := by
          rintro ⟨rfl, rfl⟩
          exact htx (Option.some.inj (htc.symm.trans ht))
        simp [htx, hne]

end Checks

/-! ## One edge -/

theorem length_conds_of_barrier {terms : List Terminator} (h : barrier terms = none) :
    (conds terms).length = terms.length := by
  have hdrop : terms.dropWhile Terminator.isJcc = [] := List.head?_eq_none_iff.mp h
  have happ := congrArg List.length (List.takeWhile_append_dropWhile
    (p := Terminator.isJcc) (l := terms))
  rw [hdrop, List.append_nil] at happ
  exact happ

/-- What `buildCheckingBlockForSuccAndConds` does to the function. -/
structure EdgeTraced (F G : MachineCFG) (b s : Nat) (e : Exit) (SuccCount : Int)
    (Conds : List CondCode) (UncondBr' : Option Nat) : Prop where
  consistent : G.Consistent
  mem : ∀ c ∈ F.layout, c ∈ G.layout
  inserted : ∀ c ∈ F.layout, (G.mbb c).inserted = (F.mbb c).inserted
  new : ∀ c ∈ G.layout, c ∉ F.layout → (G.mbb c).inserted = true
  arrive : ∀ c ∈ F.layout, ∀ e', G.arrive c e' =
    if c = b ∧ e' = e then (F.arrive c e').map (Arrival.check Conds) else F.arrive c e'
  terms : ∀ c ∈ F.layout, c ≠ b → (G.mbb c).terms = (F.mbb c).terms
  target : ∀ c ∈ F.layout, ∀ e', ¬(c = b ∧ e' = e) → G.target c e' = F.target c e'
  edge : ∀ t, G.target b e = some t → (t = s ∧ SuccCount = 1) ∨ t ∉ F.layout
  conds : (conds (G.mbb b).terms).map Terminator.cond? =
    (conds (F.mbb b).terms).map Terminator.cond?
  uncond : UncondBr' = uncondPos (G.mbb b).terms
  falls : barrier (G.mbb b).terms = none → (G.target b .uncond).isSome

section Edge

variable (hF : F.Consistent) (h : F.Traces b s e SuccCount Br UncondBr) (Conds : List CondCode)

include hF h

theorem cond?_split :
    (conds ((splitEdge F b s SuccCount Br UncondBr).1.mbb b).terms).map Terminator.cond? =
      (conds (F.mbb b).terms).map Terminator.cond? := by
  rw [conds_split hF h]
  obtain ⟨i, rfl, -⟩ | ⟨rfl, -⟩ := h.branch
  · apply List.ext_getElem?
    intro j
    simp only [retargetConds, List.getElem?_map, List.getElem?_modify]
    cases (conds (F.mbb b).terms)[j]? with
    | none => rfl
    | some t => by_cases hij : i = j <;> simp [hij]
  · rfl

theorem uncond_split : (splitEdge F b s SuccCount Br UncondBr).2.2 =
    uncondPos ((splitEdge F b s SuccCount Br UncondBr).1.mbb b).terms := by
  have hlen := congrArg List.length (cond?_split hF h)
  simp only [List.length_map] at hlen
  rw [splitEdge_uncondBr, uncondPos, hlen, barrier_split hF h]
  have hU := h.uncond
  obtain ⟨i, rfl, rfl⟩ | ⟨rfl, rfl⟩ := h.branch
  · cases hbar : barrier (F.mbb b).terms with
    | none =>
      obtain ⟨u, hu, hj⟩ := fallthroughJump_some hF h rfl hbar
      simp [hj, retargetBarrier, hu, length_conds_of_barrier hbar]
    | some x =>
      rw [fallthroughJump_none h (.inr (by simp [hbar])), hU]
      simp [uncondPos, hbar, retargetBarrier]
  · rw [fallthroughJump_none h (.inl rfl), hU]
    cases hbar : barrier (F.mbb b).terms <;> simp [uncondPos, hbar, retargetBarrier]

theorem falls_split
    (hnone : barrier ((splitEdge F b s SuccCount Br UncondBr).1.mbb b).terms = none) :
    ((splitEdge F b s SuccCount Br UncondBr).1.target b .uncond).isSome := by
  rw [target_split hF h]
  split_ifs with he
  · rfl
  · rw [barrier_split hF h] at hnone
    obtain ⟨i, rfl, -⟩ | ⟨rfl, -⟩ := h.branch
    · exact h.falls (Option.or_eq_none_iff.mp hnone).1
    · exact absurd rfl he

/-- The moves go to the start of the target, which has no other way in. -/
theorem edgeTraced_same (hk : SuccCount = 1) (hpred : (F.predecessors s).length = 1) :
    EdgeTraced F (F.addChecks s Conds) b s e SuccCount Conds UncondBr := by
  have hpreds {c : Nat} (hc : c ∈ F.layout) (hs : s ∈ (F.mbb c).succs) : c = b := by
    obtain ⟨p, hp⟩ := List.length_eq_one_iff.mp hpred
    have hmem {c : Nat} (hc : c ∈ F.layout) (hs : s ∈ (F.mbb c).succs) : c = p := by
      have : c ∈ F.predecessors s := List.mem_filter.mpr ⟨hc, by simpa using hs⟩
      simpa [hp] using this
    rw [hmem hc hs, hmem h.mem (hF.target_succ b h.mem e s h.target)]
  have honly (c : Nat) (hc : c ∈ F.layout) (e' : Exit) (ht : F.target c e' = some s) :
      c = b ∧ e' = e := by
    obtain rfl := hpreds hc (hF.target_succ c hc e' s ht)
    exact ⟨rfl, h.only hk e' ht⟩
  have hterms (c : Nat) : ((F.addChecks s Conds).mbb c).terms = (F.mbb c).terms := by
    rw [addChecks_mbb]; split <;> rfl
  exact {
    consistent := consistent_addChecks hF Conds
    mem := fun c hc => hc
    inserted := fun c _ => by rw [addChecks_mbb]; split <;> rfl
    new := fun c hc hn => absurd hc hn
    arrive := fun c hc e' => arrive_addChecks hF h.mem h.old h.target honly Conds hc e'
    terms := fun c _ _ => hterms c
    target := fun c _ e' _ => addChecks_target Conds c e'
    edge := fun t ht => .inl ⟨by
      rw [addChecks_target, h.target] at ht
      exact (Option.some.inj ht).symm, hk⟩
    conds := by rw [hterms]
    uncond := by rw [hterms]; exact h.uncond
    falls := by rw [hterms, addChecks_target]; exact h.falls }

/-- The moves go to a block of their own. -/
theorem edgeTraced_split :
    EdgeTraced F ((splitEdge F b s SuccCount Br UncondBr).1.addChecks F.fresh Conds) b s e
      SuccCount Conds (splitEdge F b s SuccCount Br UncondBr).2.2 := by
  have hb := hF.ne_fresh h.mem
  have hs := hF.ne_fresh (hF.target_mem h.mem h.target)
  have hG := consistent_split hF h
  have hmem (c : Nat) : c ∈ (splitEdge F b s SuccCount Br UncondBr).1.layout ↔
      c = F.fresh ∨ c ∈ F.layout := by
    rw [splitEdge_layout]
    exact mem_insertAfter h.mem
  have hold {c : Nat} (hc : c ∈ F.layout) :=
    splitEdge_old SuccCount Br UncondBr hb hs (hF.ne_fresh hc)
  have htarget {c : Nat} (hc : c ∈ F.layout) {e' : Exit} (hne : ¬(c = b ∧ e' = e)) :
      (splitEdge F b s SuccCount Br UncondBr).1.target c e' = F.target c e' := by
    by_cases hcb : c = b
    · subst hcb
      rw [target_split hF h, if_neg fun he => hne ⟨rfl, he⟩]
    · exact target_split_other hF h hc hcb e'
  have honly (c : Nat) (hc : c ∈ (splitEdge F b s SuccCount Br UncondBr).1.layout) (e' : Exit)
      (ht : (splitEdge F b s SuccCount Br UncondBr).1.target c e' = some F.fresh) :
      c = b ∧ e' = e := by
    obtain rfl | hcF := (hmem c).mp hc
    · exact absurd (target_split_new_eq hF h ht).symm hs
    · by_contra hne
      rw [htarget hcF hne] at ht
      exact hF.ne_fresh (hF.target_mem hcF ht) rfl
  have hterms (c : Nat) :
      (((splitEdge F b s SuccCount Br UncondBr).1.addChecks F.fresh Conds).mbb c).terms =
        ((splitEdge F b s SuccCount Br UncondBr).1.mbb c).terms := by
    rw [addChecks_mbb]; split <;> rfl
  have hins (c : Nat) :
      (((splitEdge F b s SuccCount Br UncondBr).1.addChecks F.fresh Conds).mbb c).inserted =
        ((splitEdge F b s SuccCount Br UncondBr).1.mbb c).inserted := by
    rw [addChecks_mbb]; split <;> rfl
  have hedge : (splitEdge F b s SuccCount Br UncondBr).1.target b e = some F.fresh := by
    rw [target_split hF h, if_pos rfl]
  exact {
    consistent := consistent_addChecks hG Conds
    mem := fun c hc => (hmem c).mpr (.inr hc)
    inserted := fun c hc => by rw [hins, hold hc]
    new := fun c hc hn => by
      obtain rfl := ((hmem c).mp hc).resolve_right hn
      rw [hins, splitEdge_new _ _ _ hb hs]
    arrive := fun c hc e' => by
      rw [arrive_addChecks hG ((hmem b).mpr (.inr h.mem)) (by rw [hold h.mem]; exact h.old)
        hedge honly Conds ((hmem c).mpr (.inr hc)), arrive_split hF h hc]
    terms := fun c hc hcb => by rw [hterms, hold hc]; simp [hcb]
    target := fun c hc e' hne => by rw [addChecks_target, htarget hc hne]
    edge := fun t ht => by
      rw [addChecks_target, hedge] at ht
      obtain rfl := Option.some.inj ht
      exact .inr fun hn => hF.ne_fresh hn rfl
    conds := by rw [hterms]; exact cond?_split hF h
    uncond := by rw [hterms]; exact uncond_split hF h
    falls := by rw [hterms, addChecks_target]; exact falls_split hF h }

/-- `BuildCheckingBlockForSuccAndConds` puts the conditional moves on one edge. -/
theorem edgeTraced : EdgeTraced F
    (buildCheckingBlockForSuccAndConds F b s SuccCount Br UncondBr Conds).1 b s e SuccCount Conds
    (buildCheckingBlockForSuccAndConds F b s SuccCount Br UncondBr Conds).2 := by
  by_cases hsame : SuccCount = 1 ∧ (F.predecessors s).length = 1
  · rw [buildCheckingBlockForSuccAndConds, if_pos hsame]
    exact edgeTraced_same hF h Conds hsame.1 hsame.2
  · rw [buildCheckingBlockForSuccAndConds, if_neg hsame]
    exact edgeTraced_split hF h Conds

end Edge

end MachineCFG

end MSV.SLH
