import MSV.Range.EndsProof
import MSV.Range.PathConditionProof

/-!
# Ranges with their ends, in a run

A constant range should have two ends of one width, the lower one first in signed order, and ranges
that are compared for a value should have the same widths. Every place that makes a range picks a
width of its own, so this depends on the program.

**The condition** (`StepEnds`). Give every value a width. Before an instruction, the transfers it
makes are all right (`TransferOK`). Before a block is taken, the branch into it compares numbers of
the width of the compared value, its range is in order, and it overlaps what is known
(`GuardEnds`).

**Theorem (`ends_run`).** In a run whose steps all meet the condition, the constant ranges recorded
for a value have both ends at its width and in order, in every state; so a comparison never mixes
widths, and `operator|` never gets to an end.

A mask with more than one bit never meets the condition: its lower end is a default `APInt`, one bit
wide. Nor does an unsigned lower bound without the top bit, whose upper end is read as `-1`.
-/

namespace MSV

open Engine

/-! ## The range of a branch -/

/-- The ends of the range of a bound are in order. The greatest unsigned number is read as `-1`; the
least number is `0`, except for a negative constant in signed order. -/
def Bound.InOrder (b : Bound) (p : Pred) (c : APInt) : Prop :=
  match b with
  | .exactly | .anything => True
  | .above | .aboveStrict => p.isUnsigned = true → (b.edge c).toInt < 0
  | .below | .belowStrict => p.isUnsigned = true ∨ 0 ≤ c.toInt → 0 ≤ (b.edge c).toInt

section

variable {w n : Nat} (p : Pred) (k : BitVec (w + 1))

theorem least_le_iff (e : BitVec (w + 1)) :
    (if p.isUnsigned || !(APInt.mk (w + 1) k).isNegative then APInt.getMinValue (w + 1)
      else APInt.getSignedMinValue (w + 1)).toInt ≤ e.toInt ↔
      (p.isUnsigned = true ∨ 0 ≤ k.toInt → 0 ≤ e.toInt) := by
  have hneg : (APInt.mk (w + 1) k).isNegative = false ↔ 0 ≤ k.toInt := APInt.isNegative_eq_false
  rw [← hneg]
  by_cases hzero : (p.isUnsigned || !(APInt.mk (w + 1) k).isNegative) = true
  · have hcases : p.isUnsigned = true ∨ (APInt.mk (w + 1) k).isNegative = false := by
      simpa using hzero
    rw [if_pos hzero]
    show (0#(w + 1)).toInt ≤ e.toInt ↔ _
    rw [BitVec.toInt_zero]
    exact ⟨fun h _ => h, fun h => h hcases⟩
  · have hcases : ¬ (p.isUnsigned = true ∨ (APInt.mk (w + 1) k).isNegative = false) := by
      simpa using hzero
    rw [if_neg hzero]
    refine iff_of_true ?_ fun h => absurd h hcases
    show (BitVec.intMin (w + 1)).toInt ≤ e.toInt
    rw [BitVec.toInt_intMin_of_pos w.succ_pos]
    exact BitVec.le_toInt e

theorem le_greatest_iff (e : BitVec (w + 1)) :
    e.toInt ≤ (if p.isUnsigned then APInt.getMaxValue (w + 1)
      else APInt.getSignedMaxValue (w + 1)).toInt ↔ (p.isUnsigned = true → e.toInt < 0) := by
  cases p.isUnsigned with
  | true =>
      show e.toInt ≤ (BitVec.allOnes (w + 1)).toInt ↔ _
      rw [show (BitVec.allOnes (w + 1)).toInt = -1 by simp]
      exact ⟨fun h _ => by omega, fun h => by have := h rfl; omega⟩
  | false =>
      refine iff_of_true ?_ fun h => by cases h
      show e.toInt ≤ (BitVec.intMax (w + 1)).toInt
      have hlt := BitVec.toInt_lt (x := e)
      rw [BitVec.toInt_intMax]
      omega

/-- **When the range of a branch has its ends.** -/
theorem hasEnds_branch_iff (t v : Bool) :
    (RangeValue.getRangeForConditionalBranch p (some (w + 1)) ⟨w + 1, k⟩ t v).HasEnds n ↔
      (branchBound p t v ≠ .anything → w + 1 = n) ∧ (branchBound p t v).InOrder p ⟨w + 1, k⟩ := by
  rw [getRangeForConditionalBranch_eq]
  have hlow : ∀ {lo : APInt}, lo.width = w + 1 → ∀ {e : BitVec (w + 1)} {q : Prop},
      (lo.toInt ≤ e.toInt ↔ q) → ((RangeValue.constant lo ⟨w + 1, e⟩).HasEnds n ↔ w + 1 = n ∧ q) :=
    fun hlo e q hq => RangeValue.hasEnds_constant.trans
      ⟨fun h => ⟨h.2.1, hq.mp h.2.2⟩, fun h => ⟨hlo.trans h.1, h.1, hq.mpr h.2⟩⟩
  have hhigh : ∀ {hi : APInt}, hi.width = w + 1 → ∀ {e : BitVec (w + 1)} {q : Prop},
      (e.toInt ≤ hi.toInt ↔ q) → ((RangeValue.constant ⟨w + 1, e⟩ hi).HasEnds n ↔ w + 1 = n ∧ q) :=
    fun hhi e q hq => RangeValue.hasEnds_constant.trans
      ⟨fun h => ⟨h.1, hq.mp h.2.2⟩, fun h => ⟨h.1, hhi.trans h.1, hq.mpr h.2⟩⟩
  have hleast : (if p.isUnsigned || !(APInt.mk (w + 1) k).isNegative then
      APInt.getMinValue (w + 1) else APInt.getSignedMinValue (w + 1)).width = w + 1 := by
    split_ifs <;> rfl
  have hgreatest : (if p.isUnsigned then APInt.getMaxValue (w + 1)
      else APInt.getSignedMaxValue (w + 1)).width = w + 1 := by
    split_ifs <;> rfl
  have hbound : ∀ {b : Bound} {q : Prop}, b ≠ .anything →
      (w + 1 = n ∧ q ↔ (b ≠ .anything → w + 1 = n) ∧ q) := fun hb =>
    and_congr_left' ⟨fun h _ => h, fun h => h hb⟩
  cases branchBound p t v with
  | exactly => exact (hlow rfl (iff_of_true le_rfl trivial)).trans (hbound (by decide))
  | anything =>
      exact iff_of_true (RangeValue.hasEnds_of_not_constant rfl) ⟨fun h => absurd rfl h, trivial⟩
  | above => exact (hhigh hgreatest (le_greatest_iff p k)).trans (hbound (by decide))
  | aboveStrict => exact (hhigh hgreatest (le_greatest_iff p _)).trans (hbound (by decide))
  | below => exact (hlow hleast (least_le_iff p k k)).trans (hbound (by decide))
  | belowStrict => exact (hlow hleast (least_le_iff p k _)).trans (hbound (by decide))

end

/-! ## The entry state of a block -/

/-- The constant a key has when a block is entered, before the branch is looked at. -/
def KnownAs (old summary : RangeState) (exits : List RangeState) (k : Value) (l r : APInt) : Prop :=
  ¬ summary.has k ∧
    (old.find k = some (.constant l r) ∧ (∀ s ∈ exits, ¬ s.has k) ∨
      ¬ old.has k ∧ ∃ s, exits = [s] ∧ s.find k = some (.constant l r))

/-- The condition on the branch into a block: it compares numbers of one width, that of the value;
its range is in order; and it overlaps what is known. -/
structure GuardEnds (M : Module) (W : Value → Nat) (old summary : RangeState)
    (exits : List RangeState) (g : Guard) : Prop where
  pos : 0 < g.known.width
  typed : M.typeOf g.variableOp = .int g.known.width
  width : g.bound ≠ .anything → ∀ k, k = g.variableOp ∨ loadedFrom M g.variableOp = some k →
    W k = g.known.width
  order : g.bound.InOrder g.pred g.known
  overlap : ∀ k, k = g.variableOp ∨ loadedFrom M g.variableOp = some k →
    ∀ l r l' r', KnownAs old summary exits k l r → g.range = .constant l' r' →
      l.toInt ≤ r'.toInt ∧ l'.toInt ≤ r.toInt

section

variable {M : Module} {DL : DataLayout} {usePC : Bool} {W : Value → Nat} {f : Function}
  {bb : BlockId} {old summary : RangeState} {exits : List RangeState} {k : Value}

theorem GuardEnds.range {g : Guard} (h : GuardEnds M W old summary exits g)
    (hk : k = g.variableOp ∨ loadedFrom M g.variableOp = some k) : g.range.HasEnds (W k) := by
  obtain ⟨hpos, -, hwidth, horder, -⟩ := h
  obtain ⟨p, ⟨w, c⟩, v, t, first⟩ := g
  obtain ⟨w, rfl⟩ : ∃ n, w = n + 1 := ⟨w - 1, by simp only at hpos; omega⟩
  exact (hasEnds_branch_iff p c t first).mpr ⟨fun hb => (hwidth hb k hk).symm, horder⟩

theorem constrainValuesByCondition_of_none (h : guardAt M f bb = none) :
    constrainValuesByCondition M (rangePolicy M DL) f bb = ∅ := by
  unfold guardAt at h
  unfold constrainValuesByCondition
  split
  · rename_i heq
    rw [heq] at h
    dsimp only at h
    split
    · rename_i hkind
      rw [hkind] at h
      dsimp only at h ⊢
      rw [Option.map_eq_none_iff] at h
      unfold comparedOperands at h
      rw [h]
    · rfl
  · rfl

/-- What the guard of a block says is the range of the branch into it. -/
theorem exists_of_find_guardOf {c : RangeValue} (h : (guardOf M DL usePC f bb).find k = some c) :
    usePC = true ∧ ∃ g, guardAt M f bb = some g ∧
      (M.typeOf g.variableOp = .int g.known.width →
        c = g.range ∧ (k = g.variableOp ∨ loadedFrom M g.variableOp = some k)) := by
  unfold guardOf at h
  split_ifs at h with huse
  · refine ⟨huse, ?_⟩
    cases hg : guardAt M f bb with
    | none =>
        rw [constrainValuesByCondition_of_none hg] at h
        cases h
    | some g =>
        refine ⟨g, rfl, fun hty => ?_⟩
        rw [find_constrainValuesByCondition hg hty] at h
        split_ifs at h with hk
        exact ⟨(Option.some.inj h).symm, hk⟩
  · cases h

/-- A constant of the merged state is a known one. -/
theorem mergedState_known (hsum : ∀ k x, summary.find k = some x → x = .unknown) {l r : APInt}
    (h : (mergedState M DL old summary exits).find k = some (.constant l r)) :
    KnownAs old summary exits k l r := by
  constructor
  · intro hhas
    obtain ⟨y, hy⟩ := FMap.has_iff_find.mp hhas
    unfold mergedState at h
    rw [find_mergeInState, hy, hsum k y hy] at h
    dsimp only at h
    split at h <;> cases h
  · rcases mergedState_const hsum h (by simp) with ⟨hold, hnone⟩ | ⟨hold, hexit⟩
    · refine Or.inl ⟨hold, fun s hs hhas => ?_⟩
      exact FMap.not_has_iff_find.mpr hnone (has_mergePredecessors_iff.mpr ⟨s, hs, hhas⟩)
    · exact Or.inr ⟨FMap.not_has_iff_find.mpr hold, mergePredecessors_constant hexit⟩

/-- Ranges that overlap have an intersection with its ends. -/
theorem RangeValue.HasEnds.inter {w : Nat} {a b : RangeValue} (ha : a.HasEnds w) (hb : b.HasEnds w)
    (h : ∀ l r l' r', a = .constant l r → b = .constant l' r' →
      l.toInt ≤ r'.toInt ∧ l'.toInt ≤ r.toInt) : (a.inter b).HasEnds w := by
  cases a with
  | unknown => rwa [RangeValue.unknown_inter]
  | infinity => cases b <;> first | exact hb | exact RangeValue.hasEnds_of_not_constant rfl
  | constant l r =>
      cases b with
      | constant l' r' =>
          obtain ⟨hl, hr, hle⟩ := ha l r rfl
          obtain ⟨hl', hr', hle'⟩ := hb l' r' rfl
          obtain ⟨h1, h2⟩ := h l r l' r' rfl rfl
          -- whichever ends are chosen
          unfold RangeValue.inter
          rw [RangeValue.hasEnds_constant]
          split_ifs
          · exact ⟨hl', hr', hle'⟩
          · exact ⟨hl', hr, h2⟩
          · exact ⟨hl, hr', h1⟩
          · exact ⟨hl, hr, hle⟩
      | _ => exact ha

/-- **The entry state of a block has its ends.** -/
theorem stateEnds_entryState {r : DataflowResult RangeValue}
    (hsum : ∀ k x, (r.get (.func f.id)).find k = some x → x = .unknown)
    (hold : StateEnds W (r.get (.block bb)))
    (hexits : ∀ s ∈ (f.predecessors bb).map (exitState r), StateEnds W s)
    (hguard : usePC = true → ∀ g, guardAt M f bb = some g → GuardEnds M W (r.get (.block bb))
      (r.get (.func f.id)) ((f.predecessors bb).map (exitState r)) g) :
    StateEnds W (entryState M (rangePolicy M DL) usePC f bb r) := by
  have hmerged : StateEnds W (mergedState M DL (r.get (.block bb)) (r.get (.func f.id))
      ((f.predecessors bb).map (exitState r))) := by
    rintro k _ hk a b rfl
    rcases (mergedState_known hsum hk).2 with ⟨h, -⟩ | ⟨-, s, hs, h⟩
    · exact hold k _ h a b rfl
    · exact hexits s (hs ▸ List.mem_singleton_self s) k _ h a b rfl
  intro k R hk
  rw [find_entryState] at hk
  cases hg : (guardOf M DL usePC f bb).find k with
  | none =>
      rw [hg] at hk
      exact hmerged k R hk
  | some c =>
      rw [hg] at hk
      obtain ⟨huse, g, hat, hc⟩ := exists_of_find_guardOf hg
      have hends := hguard huse g hat
      obtain ⟨rfl, hkey⟩ := hc hends.typed
      have hrange := hends.range hkey
      obtain rfl := Option.some.inj hk
      cases hm : (mergedState M DL (r.get (.block bb)) (r.get (.func f.id))
          ((f.predecessors bb).map (exitState r))).find k with
      | none => exact hrange
      | some o =>
          refine (hmerged k o hm).inter hrange fun l r' l' r'' ho hg' => ?_
          subst ho
          exact hends.overlap k hkey l r' l' r'' (mergedState_known hsum hm) hg'

end

/-! ## The effect of an instruction -/

section

variable (M : Module) (DL : DataLayout) (W : Value → Nat)

/-- The condition on values that are transferred one after the other where they have no range. -/
def MissingEnds : List Value → RangeState → Prop
  | [], _ => True
  | v :: vs, s =>
      (¬ s.has v → TransferOK M DL W v s) ∧
        MissingEnds vs (if s.has v then s else transfer M DL v s)

/-- The condition on an instruction: the arguments a call passes, the incoming values of a phi, or
the instruction itself. -/
def InstEnds (i : Inst) (s : RangeState) : Prop :=
  match calledDefinition M i with
  | some (callee, args) => MissingEnds M DL W (args.take callee.params.length) s
  | none =>
      match i.kind with
      | .phi incoming => MissingEnds M DL W incoming s
      | _ => TransferOK M DL W (.inst i.id) s

end

section

variable {M : Module} {DL : DataLayout} {W : Value → Nat} {s : RangeState}

theorem StateEnds.transfer (h : StateEnds W s) {v : Value} (hok : TransferOK M DL W v s) :
    StateEnds W (transfer M DL v s) := by
  refine (transfer_keeps_ends_iff h fun op a hk => ?_).mpr hok
  unfold TransferOK at hok
  rw [hk] at hok
  exact hok.1

theorem StateEnds.missing (h : StateEnds W s) {v : Value}
    (hok : ¬ s.has v → TransferOK M DL W v s) :
    StateEnds W (if s.has v then s else MSV.transfer M DL v s) := by
  split_ifs with hv
  · exact h
  · exact h.transfer (hok hv)

theorem StateEnds.passArguments (h : StateEnds W s) {vs : List Value}
    (hok : MissingEnds M DL W vs s) (f : FuncId) (n : Nat) (summary : RangeState) (upd : Bool) :
    StateEnds W (passArguments (rangePolicy M DL) f vs n s summary upd).1 := by
  induction vs generalizing s n summary upd with
  | nil => exact h
  | cons v vs ih => exact ih (h.missing hok.1) hok.2 _ _ _

/-- A phi is given the meet of its incoming values, which is unknown. -/
theorem StateEnds.phi (h : StateEnds W s) {vs : List Value}
    (hok : MissingEnds M DL W vs s) (i : Inst) :
    StateEnds W ((meetOverPHI (rangePolicy M DL) vs s).2.set (.inst i.id)
      (meetOverPHI (rangePolicy M DL) vs s).1) := by
  have hfold : ∀ (vs : List Value) (acc : RangeValue × RangeState), acc.1 = .unknown →
      StateEnds W acc.2 → MissingEnds M DL W vs acc.2 →
      ∀ res, res = vs.foldl (fun (acc : RangeValue × RangeState) v =>
        let s := if acc.2.has v then acc.2 else (rangePolicy M DL).transfer v acc.2
        ((rangePolicy M DL).meet [acc.1, s.get v], s)) acc →
      res.1 = .unknown ∧ StateEnds W res.2 := by
    intro vs
    induction vs with
    | nil =>
        rintro acc hval hs - _ rfl
        exact ⟨hval, hs⟩
    | cons v vs ih =>
        rintro acc - hs hok _ rfl
        exact ih _ (rangePolicy_meet _) (hs.missing hok.1) hok.2 _ rfl
  obtain ⟨hval, hs⟩ := hfold vs (default, s) rfl h hok (meetOverPHI (rangePolicy M DL) vs s) rfl
  rw [hs.set_iff, hval]
  exact RangeValue.hasEnds_of_not_constant rfl

theorem StateEnds.applyTransfer (h : StateEnds W s) {i : Inst} (hc : calledDefinition M i = none)
    (hok : InstEnds M DL W i s) : StateEnds W (applyTransfer (rangePolicy M DL) i s) := by
  unfold InstEnds at hok
  rw [hc] at hok
  dsimp only at hok
  unfold MSV.applyTransfer
  cases hk : i.kind with
  | phi incoming =>
      rw [hk] at hok
      exact h.phi hok i
  | _ =>
      rw [hk] at hok
      exact h.transfer hok

end

/-! ## Steps -/

/-- The condition on a step: the branch into the block that is taken, and the instruction that is
processed. -/
structure StepEnds (M : Module) (DL : DataLayout) (usePC : Bool) (W : Value → Nat)
    (e : Engine RangeValue) : Prop where
  guard : ∀ fr rest bb work, e.stack = fr :: rest → fr.run = none →
    fr.work.take = some (bb, work) → usePC = true → ∀ g, guardAt M fr.func bb = some g →
      GuardEnds M W ((touched e fr bb).get (.block bb)) ((touched e fr bb).get (.func fr.func.id))
        ((fr.func.predecessors bb).map (exitState (touched e fr bb))) g
  inst : ∀ fr rest run i todo, e.stack = fr :: rest → fr.run = some run → run.todo = i :: todo →
    InstEnds M DL W i run.state

/-- The states of a block that is being processed have their ends. -/
def FrameEnds (W : Value → Nat) (fr : Frame RangeValue) : Prop :=
  ∀ run, fr.run = some run → StateEnds W run.state ∧ StateEnds W run.oldExit

/-- The results have their ends, and the summaries hold unknown values only. -/
structure ResultsEnds (W : Value → Nat) (e : Engine RangeValue) : Prop where
  summaries : AllUnknown e
  states : ∀ cf k, k ≠ .func cf.2 → StateEnds W ((e.results cf).get k)

/-- All states of the analysis have their ends. -/
structure AllEnds (W : Value → Nat) (e : Engine RangeValue) : Prop where
  results : ResultsEnds W e
  frames : ∀ fr ∈ e.stack, FrameEnds W fr

section

variable {M : Module} {DL : DataLayout} {usePC : Bool} {W : Value → Nat}
  {rpot : FuncId → List BlockId} {e e' : Engine RangeValue} {fr : Frame RangeValue}
  {rest : List (Frame RangeValue)} {run : BlockRun RangeValue} {i : Inst} {todo : List Inst}
  {s : RangeState}

theorem ResultsEnds.get (h : ResultsEnds W e) (cf : Context × FuncId) (k : Value) :
    StateEnds W ((e.results cf).get k) := by
  by_cases hk : k = .func cf.2
  · subst hk
    intro k R hR
    obtain rfl := h.summaries cf k R hR
    exact RangeValue.hasEnds_of_not_constant rfl
  · exact h.states cf k hk

/-- Only the summaries change. -/
theorem ResultsEnds.of_writes {l : List Place} (h : ResultsEnds W e) (hu : AllUnknown e')
    (hw : Writes l e e') (hl : ∀ p ∈ l, p.2 = .func p.1.2) : ResultsEnds W e' where
  summaries := hu
  states := by
    intro cf k hk
    rw [hw.get fun hmem => hk (hl _ hmem)]
    exact h.states cf k hk

theorem frameEnds_idle (h : fr.run = none) : FrameEnds W fr := fun run hrun => by
  cases h.symm.trans hrun

theorem AllEnds.enter (h : AllEnds W e) (f : Function) (c : Context) :
    AllEnds W (e.enter rpot f c) where
  results := by
    refine ⟨h.results.summaries.enter rpot f c, fun cf k hk => ?_⟩
    rw [get_enter]
    exact h.results.states cf k hk
  frames := List.forall_mem_cons.mpr ⟨frameEnds_idle rfl, h.frames⟩

/-- A call is given an unknown value. -/
theorem Engine.AllUnknown.call_state (h : AllUnknown e) (hs : StateEnds W s) (callee : FuncId) :
    StateEnds W (s.set (.inst i.id)
      (((e.results (some i.id, callee)).get (.func callee)).get (.func callee))) := by
  have hresult : ((e.results (some i.id, callee)).get (.func callee)).get (.func callee) =
      .unknown := h.get (some i.id, callee) (.func callee)
  rw [hs.set_iff, hresult]
  exact RangeValue.hasEnds_of_not_constant rfl

/-- What is recorded of a state is part of it. -/
theorem StateEnds.record (hs : StateEnds W s) {r : DataflowResult RangeValue}
    (hr : StateEnds W (r.get (.inst i.id))) :
    StateEnds W ((recordState i todo s r).get (.inst i.id)) := by
  cases todo with
  | nil =>
      show StateEnds W ((r.set _ _).get _)
      rwa [FMap.get_set_self]
  | cons next todo =>
      show StateEnds W ((r.set _ _).get _)
      rw [FMap.get_set_self]
      refine List.foldlRecOn _ _ hr fun t ht v _ => ?_
      split
      · rename_i a hv
        exact (ht.set_iff v a).mpr (hs v a hv)
      · exact ht

theorem ResultsEnds.advance (h : ResultsEnds W e) (hs : StateEnds W s) :
    ResultsEnds W (e.advance fr rest run i todo s) where
  summaries := summaries_advance h.summaries run i todo s
  states := by
    intro cf k hk
    by_cases hplace : (cf, k) = ((fr.context, fr.func.id), .inst i.id)
    · obtain ⟨rfl, rfl⟩ := Prod.mk.inj hplace
      show StateEnds W (((Engine.setResults e _ _).results _).get _)
      rw [results_setResults_self]
      exact hs.record (h.get _ _)
    · rw [(writes_advance e fr rest run i todo s).get (by simpa using hplace)]
      exact h.states cf k hk

theorem ResultsEnds.callDone (h : ResultsEnds W e) (hs : StateEnds W s) (callee : FuncId) :
    ResultsEnds W (e.callDone fr rest run i todo callee s) where
  summaries := summaries_callDone h.summaries run i todo callee s
  states := by
    intro cf k hk
    by_cases hplace : (cf, k) = ((fr.context, fr.func.id), .inst i.id)
    · obtain ⟨rfl, rfl⟩ := Prod.mk.inj hplace
      show StateEnds W (((Engine.setResults { e.setResults (some i.id, callee) _ with
        callers := _ } _ _).results _).get _)
      rw [results_setResults_self]
      refine (h.summaries.call_state hs callee).record ?_
      show StateEnds W (((e.setResults (some i.id, callee) _).results _).get _)
      rw [(writes_set e (some i.id, callee) (.func callee) _).get (by simp)]
      exact h.get _ _
    · rw [(writes_callDone e fr rest run i todo callee s).get ?_]
      · exact h.states cf k hk
      · rw [List.mem_cons, List.mem_singleton, not_or]
        refine ⟨fun heq => ?_, hplace⟩
        obtain ⟨rfl, rfl⟩ := Prod.mk.inj heq
        exact hk rfl

theorem ResultsEnds.set_results (h : ResultsEnds W e) {cf : Context × FuncId}
    {r : DataflowResult RangeValue} (hr : ∀ k, StateEnds W (r.get k)) (cf' : Context × FuncId)
    (k : Value) : StateEnds W (((e.setResults cf r).results cf').get k) := by
  rw [results_setResults]
  split_ifs
  · exact hr k
  · exact h.get cf' k

/-- The entry state of the block that is taken. -/
theorem AllEnds.entryState (h : AllEnds W e) (hok : StepEnds M DL usePC W e)
    (hs : e.stack = fr :: rest) (hr : fr.run = none) {bb : BlockId} {work : WorkList BlockId}
    (hw : fr.work.take = some (bb, work)) :
    (∀ k, StateEnds W ((touched e fr bb).get k)) ∧
      (∀ b, StateEnds W (exitState (touched e fr bb) b)) ∧
      StateEnds W (entryState M (rangePolicy M DL) usePC fr.func bb (touched e fr bb)) := by
  have htouched : ∀ k, StateEnds W ((touched e fr bb).get k) := by
    intro k
    rw [get_touched]
    exact h.results.get _ _
  have hexit : ∀ b, StateEnds W (exitState (touched e fr bb) b) := by
    intro b
    unfold exitState
    split
    · exact htouched _
    · exact fun _ _ h => by cases h
  refine ⟨htouched, hexit, stateEnds_entryState ?_ (htouched _) (fun s hmem => ?_)
    (hok.guard fr rest bb work hs hr hw)⟩
  · rw [get_touched]
    exact h.results.summaries (fr.context, fr.func.id)
  · obtain ⟨p, -, rfl⟩ := List.mem_map.mp hmem
    exact hexit p

theorem AllEnds.takeBlock (h : AllEnds W e) (hok : StepEnds M DL usePC W e)
    (hs : e.stack = fr :: rest) (hr : fr.run = none) {bb : BlockId} {work : WorkList BlockId}
    (hw : fr.work.take = some (bb, work)) :
    AllEnds W (e.takeBlock M (rangePolicy M DL) usePC fr rest bb work) := by
  obtain ⟨htouched, hexit, hentry⟩ := h.entryState hok hs hr hw
  have hrest : ∀ fr ∈ rest, FrameEnds W fr := fun fr' hmem =>
    h.frames fr' (hs ▸ List.mem_cons_of_mem _ hmem)
  have hidle : FrameEnds W { fr with work := work } := frameEnds_idle hr
  have hsum := summaries_takeBlock M DL usePC h.results.summaries fr rest bb work
  rcases takeBlock_cases M (rangePolicy M DL) usePC e fr rest bb work with
    ⟨-, heq⟩ | ⟨b, -, -, -, heq⟩ | ⟨b, -, -, heq⟩
  · rw [heq] at hsum ⊢
    exact ⟨⟨hsum, h.results.states⟩, List.forall_mem_cons.mpr ⟨hidle, hrest⟩⟩
  · rw [heq] at hsum ⊢
    exact ⟨⟨hsum, fun cf k _ => h.results.set_results htouched cf k⟩,
      List.forall_mem_cons.mpr ⟨hidle, hrest⟩⟩
  · rw [heq] at hsum ⊢
    refine ⟨⟨hsum, fun cf k _ => h.results.set_results (fun k => ?_) cf k⟩,
      List.forall_mem_cons.mpr ⟨?_, hrest⟩⟩
    · rw [FMap.get_set]
      split_ifs
      · exact hentry
      · exact htouched k
    · rintro _ ⟨⟩
      exact ⟨hentry, hexit b⟩

/-- The frame that goes on keeps the exit state of its block. -/
theorem FrameEnds.resume (h : FrameEnds W fr) (hr : fr.run = some run) (hs : StateEnds W s) :
    FrameEnds W { fr with run := some { run with state := s, todo := todo } } := by
  rintro _ ⟨⟩
  exact ⟨hs, (h run hr).2⟩

theorem AllEnds.stepInst (h : AllEnds W e) (hok : StepEnds M DL usePC W e)
    (hs : e.stack = fr :: rest) (hr : fr.run = some run) (ht : run.todo = i :: todo) :
    AllEnds W (e.stepInst M (rangePolicy M DL) rpot fr rest run i todo) := by
  obtain ⟨hfr, hrest⟩ := List.forall_mem_cons.mp (hs ▸ h.frames)
  have hstate := (hfr run hr).1
  have hinst := hok.inst fr rest run i todo hs hr ht
  -- a call transfers its missing arguments
  have hpassed : ∀ {callee : Function} {args : List Value},
      calledDefinition M i = some (callee, args) →
      StateEnds W (passedTo (rangePolicy M DL) e run i callee args).1 ∧
        ResultsEnds W (passed (rangePolicy M DL) e run i callee args) := by
    intro callee args hc
    unfold InstEnds at hinst
    rw [hc] at hinst
    refine ⟨hstate.passArguments hinst _ _ _ _, h.results.of_writes
      (summaries_passed M DL h.results.summaries run i callee args)
      (writes_passed (rangePolicy M DL) e run i callee args) fun p hp => ?_⟩
    obtain rfl := List.mem_singleton.mp hp
    rfl
  rcases stepInst_cases M (rangePolicy M DL) rpot e fr rest run i todo with
    ⟨hc, heq⟩ | ⟨callee, args, hc, -, -, heq⟩ | ⟨callee, args, hc, -, heq⟩
  · have hnext := hstate.applyTransfer hc hinst
    rw [heq]
    exact ⟨h.results.advance hnext, List.forall_mem_cons.mpr ⟨hfr.resume hr hnext, hrest⟩⟩
  · obtain ⟨hnext, hresults⟩ := hpassed hc
    rw [heq]
    have hcalling : AllEnds W { passed (rangePolicy M DL) e run i callee args with
        stack := { fr with
          run := some { run with
            state := (passedTo (rangePolicy M DL) e run i callee args).1 } } :: rest } :=
      ⟨⟨hresults.summaries, hresults.states⟩,
        List.forall_mem_cons.mpr ⟨hfr.resume hr hnext, hrest⟩⟩
    exact hcalling.enter callee (some i.id)
  · obtain ⟨hnext, hresults⟩ := hpassed hc
    rw [heq]
    refine ⟨hresults.callDone hnext callee.id, List.forall_mem_cons.mpr ⟨?_, hrest⟩⟩
    exact hfr.resume hr (hresults.summaries.call_state hnext callee.id)

theorem AllEnds.endBlock (h : AllEnds W e) (hs : e.stack = fr :: rest) :
    AllEnds W (e.endBlock (rangePolicy M DL) fr rest run) := by
  obtain ⟨-, hrest⟩ := List.forall_mem_cons.mp (hs ▸ h.frames)
  have hwrite : Writes [((fr.context, fr.func.id), .func fr.func.id)] e
      (afterBlock (rangePolicy M DL) fr run e) := writes_afterBlock run
  rw [endBlock_eq]
  split_ifs
  · exact ⟨⟨h.results.summaries, h.results.states⟩,
      List.forall_mem_cons.mpr ⟨frameEnds_idle rfl, hrest⟩⟩
  · have hresults := h.results.of_writes (summaries_afterBlock h.results.summaries run) hwrite
      fun p hp => by
        obtain rfl := List.mem_singleton.mp hp
        rfl
    exact ⟨⟨hresults.summaries, hresults.states⟩,
      List.forall_mem_cons.mpr ⟨frameEnds_idle rfl, hrest⟩⟩

/-- A caller goes on after its call. -/
theorem AllEnds.finish (h : AllEnds W e) (hs : e.stack = fr :: rest) :
    AllEnds W (e.finish fr rest) := by
  obtain ⟨-, hrest⟩ := List.forall_mem_cons.mp (hs ▸ h.frames)
  have hpopped : ∀ active, AllEnds W { e with active := active, stack := rest } := fun active =>
    ⟨⟨h.results.summaries, h.results.states⟩, hrest⟩
  unfold Engine.finish
  split
  · exact hpopped _
  · rename_i caller rest'
    obtain ⟨hcaller, hrest'⟩ := List.forall_mem_cons.mp hrest
    split
    · rename_i run hrun
      split
      · have hresults := (hpopped (e.active.filter (· ≠ (fr.context, fr.func.id)))).results
        have hstate := (hcaller run hrun).1
        refine ⟨hresults.callDone hstate fr.func.id, List.forall_mem_cons.mpr ⟨?_, hrest'⟩⟩
        exact hcaller.resume hrun (hresults.summaries.call_state hstate fr.func.id)
      · exact hpopped _
    · exact hpopped _

/-- **A step that meets the condition keeps the ends.** -/
theorem AllEnds.move (h : AllEnds W e) (hok : StepEnds M DL usePC W e)
    (hm : Move M (rangePolicy M DL) usePC rpot e e') : AllEnds W e' := by
  cases hm with
  | @enter c _ fn cw _ _ _ =>
      have hwork : AllEnds W { e with contextWork := cw } :=
        ⟨⟨h.results.summaries, h.results.states⟩, h.frames⟩
      exact hwork.enter fn c
  | drop _ _ _ => exact ⟨⟨h.results.summaries, h.results.states⟩, h.frames⟩
  | finish hs _ _ => exact h.finish hs
  | takeBlock hs hr hw => exact h.takeBlock hok hs hr hw
  | stepInst hs hr ht => exact h.stepInst hok hs hr ht
  | endBlock hs _ _ => exact h.endBlock hs

theorem allEnds_initial (entryPoints : List FuncId) : AllEnds W (Engine.initial entryPoints) :=
  ⟨⟨allUnknown_initial entryPoints, fun _ _ _ _ _ h => by cases h⟩, fun _ h => by cases h⟩

/-! ## The run -/

/-- The states of the analysis: its results, and those of the blocks that are being processed. -/
inductive Engine.HasState (e : Engine RangeValue) : RangeState → Prop
  | result (cf : Context × FuncId) (k : Value) : HasState e ((e.results cf).get k)
  | current {fr : Frame RangeValue} {run : BlockRun RangeValue} (hfr : fr ∈ e.stack)
      (hr : fr.run = some run) : HasState e run.state
  | oldExit {fr : Frame RangeValue} {run : BlockRun RangeValue} (hfr : fr ∈ e.stack)
      (hr : fr.run = some run) : HasState e run.oldExit

/-- Two ranges of a value that a step compares with `operator==`: when a block is taken and when it
ends, when a formal argument is met with what is passed, and when the results are compared, with
themselves. -/
inductive Compares (M : Module) (DL : DataLayout) (usePC : Bool) (e : Engine RangeValue) :
    Value → RangeValue → RangeValue → Prop
  | entry {fr : Frame RangeValue} {rest : List (Frame RangeValue)} {bb : BlockId}
      {work : WorkList BlockId} {k : Value} {a b : RangeValue} (hs : e.stack = fr :: rest)
      (hr : fr.run = none) (hw : fr.work.take = some (bb, work))
      (ha : (entryState M (rangePolicy M DL) usePC fr.func bb (touched e fr bb)).find k = some a)
      (hb : ((touched e fr bb).get (.block bb)).find k = some b) : Compares M DL usePC e k a b
  | exit {fr : Frame RangeValue} {rest : List (Frame RangeValue)} {run : BlockRun RangeValue}
      {k : Value} {a b : RangeValue} (hs : e.stack = fr :: rest) (hr : fr.run = some run)
      (ht : run.todo = []) (ha : run.state.find k = some a) (hb : run.oldExit.find k = some b) :
      Compares M DL usePC e k a b
  | argument {f : FuncId} {n : Nat} {x arg : RangeValue} :
      Compares M DL usePC e (.arg f n) ((rangePolicy M DL).meet [x, arg]) arg
  | results {cf : Context × FuncId} {k' k : Value} {a : RangeValue}
      (ha : ((e.results cf).get k').find k = some a) : Compares M DL usePC e k a a

theorem AllEnds.hasState (h : AllEnds W e) {s : RangeState} (hs : e.HasState s) :
    StateEnds W s := by
  cases hs with
  | result cf k => exact h.results.get cf k
  | current hfr hr => exact (h.frames _ hfr _ hr).1
  | oldExit hfr hr => exact (h.frames _ hfr _ hr).2

/-- The ranges that are compared have the widths of the value. -/
theorem AllEnds.compares (h : AllEnds W e) (hok : StepEnds M DL usePC W e) {k : Value}
    {a b : RangeValue} (hc : Compares M DL usePC e k a b) : a.SameWidths b := by
  cases hc with
  | entry hs hr hw ha hb =>
      obtain ⟨htouched, -, hentry⟩ := h.entryState hok hs hr hw
      exact (hentry k a ha).sameWidths (htouched _ k b hb)
  | @exit fr _ run _ _ _ hs hr _ ha hb =>
      obtain ⟨hstate, hexit⟩ := h.frames fr (hs ▸ List.mem_cons_self) run hr
      exact (hstate k a ha).sameWidths (hexit k b hb)
  | argument =>
      rw [rangePolicy_meet]
      exact RangeValue.sameWidths_unknown _
  | results ha => exact (h.results.get _ _ k a ha).sameWidths (h.results.get _ _ k a ha)

/-- What `operator|` gets on the left is the meet of the values before, which is unknown. -/
theorem joined_sameWidths (us : List RangeValue) (v : RangeValue) :
    rangeMeet (us ++ [v]) = (rangeMeet us).join v ∧ (rangeMeet us).SameWidths v := by
  constructor
  · unfold rangeMeet
    rw [List.foldl_append]
    rfl
  · rw [rangeMeet_eq]
    exact RangeValue.sameWidths_unknown v

/-- **The ranges of a run.** -/
theorem ends_run {entryPoints : List FuncId}
    (h : Run (Engine.step M (rangePolicy M DL) usePC rpot) (StepEnds M DL usePC W)
      (Engine.initial entryPoints) e) :
    (∀ s, e.HasState s → ∀ k R, s.find k = some R → R.Represented) ∧
    (∀ s s', e.HasState s → e.HasState s' → ∀ k R R', s.find k = some R → s'.find k = some R' →
      R.SameWidths R') ∧
    (StepEnds M DL usePC W e → ∀ k a b, Compares M DL usePC e k a b → a.SameWidths b) ∧
    ∀ us v, rangeMeet (us ++ [v]) = (rangeMeet us).join v ∧ (rangeMeet us).SameWidths v := by
  have hends : AllEnds W e := h.invariant (P := AllEnds W) (allEnds_initial entryPoints)
    fun _ _ ha hok hst => ha.move hok (step_move hst)
  refine ⟨fun s hs k R hR => ?_, fun s s' hs hs' k R R' hR hR' => ?_, ?_, joined_sameWidths⟩
  · exact (hends.hasState hs k R hR).represented
  · exact (hends.hasState hs k R hR).sameWidths (hends.hasState hs' k R' hR')
  · exact fun hok k a b => hends.compares hok

end

/-! ## A checked condition -/

section

variable (M : Module) (usePC : Bool) (W : Value → Nat)

instance (b : Bound) (p : Pred) (c : APInt) : Decidable (b.InOrder p c) := by
  cases b <;> unfold Bound.InOrder <;> infer_instance

/-- A branch whose compared keys have no constant range yet. -/
def guardCheck (states : List RangeState) (g : Guard) : Bool :=
  decide (0 < g.known.width ∧ M.typeOf g.variableOp = .int g.known.width ∧
      g.bound.InOrder g.pred g.known) &&
    (g.variableOp :: (loadedFrom M g.variableOp).toList).all fun k =>
      decide (W k = g.known.width) && states.all fun s => !(s.get k).isConstant

/-- The next step, when no instruction of the module needs a condition. -/
def endsCheck (e : Engine RangeValue) : Bool :=
  match e.stack with
  | [] => true
  | fr :: _ =>
      match fr.run with
      | some run => run.todo.all fun i => decide (i ∈ M.insts)
      | none =>
          match fr.work.take with
          | none => true
          | some (bb, _) =>
              !usePC || (guardAt M fr.func bb).all (guardCheck M W
                ((touched e fr bb).get (.block bb) ::
                  (fr.func.predecessors bb).map (exitState (touched e fr bb))))

end

section

variable {M : Module} {DL : DataLayout} {usePC : Bool} {W : Value → Nat} {e : Engine RangeValue}

theorem guardEnds_of_check {old summary : RangeState} {exits : List RangeState} {g : Guard}
    (h : guardCheck M W (old :: exits) g = true) : GuardEnds M W old summary exits g := by
  unfold guardCheck at h
  rw [Bool.and_eq_true, decide_eq_true_eq, List.all_eq_true] at h
  obtain ⟨⟨hpos, hty, horder⟩, hkeys⟩ := h
  have hkey : ∀ k, k = g.variableOp ∨ loadedFrom M g.variableOp = some k →
      W k = g.known.width ∧ ∀ s ∈ old :: exits, (s.get k).isConstant = false := by
    intro k hk
    have hmem : k ∈ g.variableOp :: (loadedFrom M g.variableOp).toList := by
      rwa [List.mem_cons, Option.mem_toList]
    simpa only [Bool.and_eq_true, decide_eq_true_eq, List.all_eq_true, Bool.not_eq_true'] using
      hkeys k hmem
  refine ⟨hpos, hty, fun _ k hk => (hkey k hk).1, horder, fun k hk l r _ _ hknown _ => ?_⟩
  -- nothing is known
  have hno : ∀ s ∈ old :: exits, s.find k ≠ some (.constant l r) := by
    intro s hs hfind
    have := (hkey k hk).2 s hs
    rw [FMap.get_of_find hfind] at this
    cases this
  rcases hknown.2 with ⟨hold, -⟩ | ⟨-, s, rfl, hs⟩
  · exact absurd hold (hno old List.mem_cons_self)
  · exact absurd hs (hno s (List.mem_cons_of_mem _ List.mem_cons_self))

theorem stepEnds_of_check (hinsts : ∀ i ∈ M.insts, ∀ s, InstEnds M DL W i s)
    (h : endsCheck M usePC W e = true) : StepEnds M DL usePC W e := by
  constructor
  · intro fr rest bb work hs hr hw huse g hg
    rw [endsCheck, hs] at h
    dsimp only at h
    rw [hr] at h
    dsimp only at h
    rw [hw, huse] at h
    dsimp only at h
    rw [hg] at h
    exact guardEnds_of_check (by simpa using h)
  · intro fr rest run i todo hs hr ht
    rw [endsCheck, hs] at h
    dsimp only at h
    rw [hr] at h
    dsimp only at h
    rw [List.all_eq_true, ht] at h
    exact hinsts i (of_decide_eq_true (h i List.mem_cons_self)) run.state

end

/-! ## A sum and a mask -/

/-- `main` applies an operation to two operands and asks whether its argument is less than 20. -/
def operationModule (op : BinOp) (a b : Value) : Module where
  structs := fun _ => []
  globals := []
  funcs := [⟨0, "main", [.int 32], [
    ⟨0, [
      ⟨0, .int 32, .binop op a b⟩,
      ⟨1, .int 1, .icmp .slt (.arg 0 0) (.constInt (.ofNat 32 20))⟩,
      ⟨2, .void, .condBr (.inst 1) 1 2⟩]⟩,
    ⟨1, [⟨3, .void, .ret none⟩]⟩,
    ⟨2, [⟨4, .void, .ret none⟩]⟩]⟩]

section

variable (op : BinOp) (a b : Value)

theorem operationModule_wf : (operationModule op a b).WF where
  funcs_nodup := by simp [operationModule]
  blocks_nodup := by simp [operationModule, Module.blocks]
  insts_nodup := by simp [operationModule, Module.insts, Function.insts]
  terminated := Module.terminated_of_last <| by
    simp [operationModule, Module.blocks, InstKind.isTerminator]
  targets := by
    simp [operationModule, Block.successors, Block.terminator, InstKind.successors]
  operands := Module.operands_of_isStore_eq_false <| by
    simp [operationModule, Module.insts, Function.insts, InstKind.isStore]

def operationStep : Engine RangeValue → Option (Engine RangeValue) :=
  Engine.step (operationModule op a b) (rangePolicy (operationModule op a b) structlessLayout) true
    fun _ => [0, 1, 2]

def operationState (n : Nat) : Engine RangeValue :=
  stepN (operationStep op a b) n (Engine.initial [0])

end

/-- The constants that are used as operands. -/
def five : Value := .constInt (.ofNat 32 5)

def six : Value := .constInt (.ofNat 32 6)

def lowByte : Value := .constInt (.ofNat 32 255)

/-- A sum has 64 bits; the argument has those of its type. -/
def sumWidth : Value → Nat
  | .inst _ => 64
  | _ => 32

theorem sum_inst (i : Inst) (hi : i ∈ (operationModule .add five six).insts) (s : RangeState) :
    InstEnds (operationModule .add five six) structlessLayout sumWidth i s := by
  simp only [operationModule, Module.insts, Function.insts, List.flatMap_cons, List.flatMap_nil,
    List.cons_append, List.nil_append, List.mem_cons, List.not_mem_nil, or_false] at hi
  rcases hi with rfl | rfl | rfl | rfl | rfl
  · refine ⟨fun _ h => (by cases h), fun _ l1 r1 l2 r2 h1 h2 _ => ?_⟩
    obtain ⟨rfl, rfl⟩ := RangeValue.constant.inj h1
    obtain ⟨rfl, rfl⟩ := RangeValue.constant.inj h2
    exact ⟨rfl, le_rfl⟩
  · trivial
  · trivial
  · trivial
  · trivial

/-- In the branch the sum is 11 and the argument at most 19. -/
theorem sum_ends : ∃ s, (operationState .add five six 7).HasState s ∧
    s.find (.inst 0) = some (.constant (.ofNat 64 11) (.ofNat 64 11)) ∧
    s.find (.arg 0 0) = some (.constant (.ofNat 32 0) (.ofNat 32 19)) ∧
    ∀ k R, s.find k = some R → R.Represented := by
  have hcheck : ∀ m < 7, endsCheck (operationModule .add five six) true sumWidth
      (operationState .add five six m) = true := by decide +kernel
  have hrun : Run (operationStep .add five six)
      (StepEnds (operationModule .add five six) structlessLayout true sumWidth)
      (Engine.initial [0]) (operationState .add five six 7) :=
    run_stepN_of 7 _ fun m hm => stepEnds_of_check sum_inst (hcheck m hm)
  have hstate : (operationState .add five six 7).HasState
      (((operationState .add five six 7).results (none, 0)).get (.block 1)) := .result (none, 0) _
  exact ⟨_, hstate, by decide +kernel, by decide +kernel, (ends_run hrun).1 _ hstate⟩

/-- The range of `x & 255` goes from a `0` of one bit to a `255` of 32. -/
theorem mask_not_represented : (operationModule .and (.arg 0 0) lowByte).WF ∧
    ¬ ∀ e, Run (operationStep .and (.arg 0 0) lowByte) (fun _ => True) (Engine.initial [0]) e →
      ∀ s, e.HasState s → ∀ k R, s.find k = some R → R.Represented := by
  refine ⟨operationModule_wf .., fun h => ?_⟩
  obtain ⟨l, r, hl, hr, hwidth, -⟩ := h (operationState .and (.arg 0 0) lowByte 5) (run_stepN _ 5 _)
    _ (.result (none, 0) (.inst 2)) (.inst 0) (.constant (.ofNat 1 0) (.ofNat 32 255))
    (by decide +kernel) rfl
  obtain rfl := Option.some.inj hl
  obtain rfl := Option.some.inj hr
  exact absurd hwidth (by decide)

end MSV
