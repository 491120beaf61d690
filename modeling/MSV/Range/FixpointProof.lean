import MSV.Range.MergeProof
import MSV.Range.VerdictProof

/-!
# When the worklist is empty

At the end of the worklist loop of a function no edge should be stale: a constant range at the
entry of a block should include the range its predecessor ends with, or be the one its guard
imposes. Two things get in the way. The loop that queues the successors of a block again stops at
the first one that was queued more than a hundred times, also for those behind it. And a guarded
block that is taken again gets the guard's range alone, since the merge of its old entry with its
predecessor has made the value unknown.

**Theorem (`edges_fresh`).** In a run in which neither happens, no edge is stale when the worklist
of a function is empty.

The invariant says of every edge that it is fresh or that its target is queued (`FrameFresh`). A
constant at the entry of a block comes with a key its predecessor writes on every visit (`Kept`),
so it cannot outlive the predecessor's own.
-/

namespace MSV

open Engine

variable {M : Module} {DL : DataLayout} {usePC : Bool} {rpot : FuncId → List BlockId}
  {entry f : Function}

/-! ## The invariant -/

/-- The key is in every exit state of the block from now on. -/
def Kept (M : Module) (r : RangeResult) (p : Block) (k : Value) : Prop :=
  (r.get (.block p.id)).has k ∨ ∃ i ∈ p.insts, WrittenBy M i k

/-- The invariant of the results of one pair. -/
structure PairOK (M : Module) (DL : DataLayout) (usePC : Bool) (f : Function) (r : RangeResult) :
    Prop where
  single : ∀ b p, f.predecessors b = [p] → ∀ k x y,
    (r.get (.block b)).find k = some (.constant x y) →
      (Kept M r p k ∧ (exitState r p).has k) ∨
        (guardOf M DL usePC f b).find k = some (.constant x y)
  several : ∀ b, f.getSinglePredecessor b = none → ∀ k x y,
    (r.get (.block b)).find k ≠ some (.constant x y)
  exits : ∀ p ∈ f.blocks, ∀ k x y, (exitState r p).find k = some (.constant x y) → Kept M r p k
  reached : ∀ b, (r.get (.block b)).isEmpty = false → CFGReachable f b
  ended : ∀ p ∈ f.blocks, ∀ k, (exitState r p).has k → CFGReachable f p.id

/-- The invariant of a block being processed. -/
structure RunOK (M : Module) (r : RangeResult) (run : BlockRun RangeValue) : Prop where
  keys : ∀ k, (r.get (.block run.block.id)).has k → run.state.has k
  written : ∀ done, run.block.insts = done ++ run.todo → ∀ i ∈ done, ∀ k, WrittenBy M i k →
    run.state.has k
  const : ∀ k x y, run.state.find k = some (.constant x y) → Kept M r run.block k
  /-- The exit state is written with the terminator. -/
  exit : exitState r run.block = if run.todo = [] then run.state else run.oldExit

/-- The exit state of a block, as it was before the block was taken. -/
def exitBefore (run : Option (BlockRun RangeValue)) (r : RangeResult) (p : Block) : RangeState :=
  match run with
  | some run => if run.block = p then run.oldExit else exitState r p
  | none => exitState r p

/-- The edge to a block with this entry state is not stale, and no key is lost. -/
structure EdgeDone (exit guard entry : RangeState) : Prop where
  fresh : Fresh exit guard entry
  keys : ∀ k, exit.has k → entry.has k

/-- The invariant of a frame: an edge is done, or its target is queued. -/
structure FrameFresh (M : Module) (DL : DataLayout) (usePC : Bool) (r : RangeResult)
    (fr : Frame RangeValue) : Prop where
  inList : fr.work.inList ⊆ fr.work.work
  run : ∀ run, fr.run = some run → RunOK M r run
  edges : ∀ p ∈ fr.func.blocks, ∀ b ∈ p.successors, b ∈ fr.work.work ∨
    EdgeDone (exitBefore fr.run r p) (guardOf M DL usePC fr.func b) (r.get (.block b))

/-- A frame that waits for a call has transferred the arguments. -/
def ArgsPassed (M : Module) (fr : Frame RangeValue) : Prop :=
  ∀ run i todo callee args, fr.run = some run → run.todo = i :: todo →
    calledDefinition M i = some (callee, args) → ∀ k ∈ args.take callee.params.length,
      run.state.has k

/-- A summary holds unknown values only. -/
def SummaryOK (f : FuncId) (r : RangeResult) : Prop :=
  ∀ k x, (r.get (.func f)).find k = some x → x = .unknown

structure EdgeInv (M : Module) (DL : DataLayout) (usePC : Bool) (e : Engine RangeValue) : Prop where
  summaries : ∀ cf, SummaryOK cf.2 (e.results cf)
  pairs : ∀ c, ∀ f ∈ M.funcs, PairOK M DL usePC f (e.results (c, f.id))
  frames : ∀ fr ∈ e.stack, FrameFresh M DL usePC (e.results fr.pair) fr
  passed : ∀ fr ∈ e.stack.tail, ArgsPassed M fr

/-! ## Results with the same states -/

/-- The states of blocks and instructions are the same. -/
structure SameStates (r r' : RangeResult) : Prop where
  block : ∀ b, r'.get (.block b) = r.get (.block b)
  inst : ∀ i, r'.get (.inst i) = r.get (.inst i)

section Same

variable {r r' : RangeResult}

theorem SameStates.exitState (h : SameStates r r') (p : Block) :
    exitState r' p = Engine.exitState r p := by
  unfold Engine.exitState
  cases p.terminator with
  | none => rfl
  | some t => exact h.inst t.id

theorem SameStates.kept (h : SameStates r r') (p : Block) (k : Value) :
    Kept M r' p k ↔ Kept M r p k := by
  unfold Kept
  rw [h.block]

theorem PairOK.congr (hp : PairOK M DL usePC f r) (h : SameStates r r') :
    PairOK M DL usePC f r' where
  single := by
    intro b p hpred k x y hk
    rw [h.block] at hk
    rw [h.kept, h.exitState]
    exact hp.single b p hpred k x y hk
  several := by
    intro b hb k x y
    rw [h.block]
    exact hp.several b hb k x y
  exits := by
    intro p hmem k x y hk
    rw [h.exitState] at hk
    rw [h.kept]
    exact hp.exits p hmem k x y hk
  reached := by
    intro b hb
    rw [h.block] at hb
    exact hp.reached b hb
  ended := by
    intro p hmem k hk
    rw [h.exitState] at hk
    exact hp.ended p hmem k hk

theorem RunOK.congr {run : BlockRun RangeValue} (hr : RunOK M r run) (h : SameStates r r') :
    RunOK M r' run where
  keys := by
    intro k hk
    rw [h.block] at hk
    exact hr.keys k hk
  written := hr.written
  const := fun k x y hk => (h.kept ..).mpr (hr.const k x y hk)
  exit := by rw [h.exitState, hr.exit]

theorem FrameFresh.congr {fr : Frame RangeValue} (hf : FrameFresh M DL usePC r fr)
    (h : SameStates r r') : FrameFresh M DL usePC r' fr where
  inList := hf.inList
  run := fun run hr => (hf.run run hr).congr h
  edges := by
    intro p hp b hb
    have heq : exitBefore fr.run r' p = exitBefore fr.run r p := by
      unfold exitBefore
      cases fr.run with
      | none => exact h.exitState p
      | some run =>
          dsimp only
          rw [h.exitState]
    rw [heq, h.block]
    exact hf.edges p hp b hb

/-- Steps that write neither a block nor an instruction of a pair. -/
theorem sameStates_of_writes {e e' : Engine RangeValue} {l : List Place} (h : Writes l e e')
    {cf : Context × FuncId} (hb : ∀ b, (cf, .block b) ∉ l) (hi : ∀ i, (cf, .inst i) ∉ l) :
    SameStates (e.results cf) (e'.results cf) :=
  ⟨fun b => h.get (hb b), fun i => h.get (hi i)⟩

end Same

/-! ## Terminators -/

section Terminator

variable (hM : M.WF) (hf : f ∈ M.funcs)

include hM hf

/-- An instruction is in one block only. -/
theorem Module.WF.block_of_inst {b b' : Block} (hb : b ∈ f.blocks) (hb' : b' ∈ f.blocks)
    {i i' : Inst} (hi : i ∈ b.insts) (hi' : i' ∈ b'.insts) (hid : i.id = i'.id) : b = b' := by
  have hmem : ∀ {b i}, b ∈ f.blocks → i ∈ b.insts → i ∈ f.insts :=
    fun hb hi => List.mem_flatMap.mpr ⟨_, hb, hi⟩
  have hnd := hM.insts_nodup_of_func hf
  obtain rfl : i = i' := List.inj_on_of_nodup_map hnd (hmem hb hi) (hmem hb' hi') hid
  by_contra hne
  have : Std.Symm (Function.onFun List.Disjoint Block.insts) := ⟨fun _ _ h => h.symm⟩
  exact (List.nodup_flatMap.mp (List.Nodup.of_map _ hnd)).2.forall hb hb' hne hi hi'

/-- The terminator of a block is its last instruction. -/
theorem terminator_ne {b p : Block} (hb : b ∈ f.blocks) (hp : p ∈ f.blocks) {done todo : List Inst}
    {i t : Inst} (heq : b.insts = done ++ i :: todo) (ht : p.terminator = some t)
    (hne : p ≠ b ∨ todo ≠ []) : t.id ≠ i.id := by
  intro hid
  have htp : t ∈ p.insts := List.mem_of_getLast? ht
  have hib : i ∈ b.insts := by rw [heq]; simp
  obtain rfl := hM.block_of_inst hf hp hb htp hib hid
  have htodo := hne.resolve_left fun h => h rfl
  have hnd := hM.insts_nodup_of_block hf hp
  have hlast : todo.getLast? = some t := by
    unfold Block.terminator at ht
    rw [heq, List.getLast?_append] at ht
    cases todo with
    | nil => exact absurd rfl htodo
    | cons x xs => simpa using ht
  rw [heq, List.map_append, List.map_cons, List.nodup_append, List.nodup_cons] at hnd
  exact hnd.2.1.1 (hid ▸ List.mem_map_of_mem (List.mem_of_getLast? hlast))

end Terminator

theorem exitState_of_ne {r r' : RangeResult} {j : InstId} {p : Block}
    (h : ∀ i, i ≠ j → r'.get (.inst i) = r.get (.inst i))
    (hp : ∀ t, p.terminator = some t → t.id ≠ j) : exitState r' p = Engine.exitState r p := by
  unfold Engine.exitState
  cases ht : p.terminator with
  | none => rfl
  | some t => exact h t.id (hp t ht)

/-! ## Results with a new entry state -/

section Enter

variable {r : RangeResult} {bb : BlockId} {s : RangeState}

theorem get_set_block (x : BlockId) : (r.set (.block bb) s).get (.block x) =
    if x = bb then s else r.get (.block x) := by
  rw [FMap.get_set]
  simp

theorem exitState_set_block (p : Block) :
    exitState (r.set (.block bb) s) p = Engine.exitState r p := by
  unfold Engine.exitState
  cases p.terminator with
  | none => rfl
  | some t =>
      dsimp only
      rw [FMap.get_set, if_neg (by simp)]

theorem Kept.set_block {p : Block} {k : Value} (hkeep : (r.get (.block bb)).has k → s.has k)
    (h : Kept M r p k) : Kept M (r.set (.block bb) s) p k := by
  refine h.imp_left fun hk => ?_
  rw [get_set_block]
  split_ifs with hid
  · rw [hid] at hk
    exact hkeep hk
  · exact hk

/-- The new entry state has the old keys, and its constants are from the predecessor. -/
theorem PairOK.set_block (hp : PairOK M DL usePC f r) (hreach : CFGReachable f bb)
    (hkeep : ∀ k, (r.get (.block bb)).has k → s.has k)
    (hsingle : ∀ p, f.predecessors bb = [p] → ∀ k x y, s.find k = some (.constant x y) →
      (Kept M r p k ∧ (exitState r p).has k) ∨
        (guardOf M DL usePC f bb).find k = some (.constant x y))
    (hseveral : f.getSinglePredecessor bb = none → ∀ k x y, s.find k ≠ some (.constant x y)) :
    PairOK M DL usePC f (r.set (.block bb) s) where
  single := by
    intro b p hpred k x y hk
    rw [get_set_block] at hk
    rw [exitState_set_block]
    split_ifs at hk with hb
    · subst hb
      exact (hsingle p hpred k x y hk).imp_left fun hq => ⟨hq.1.set_block (hkeep k), hq.2⟩
    · exact (hp.single b p hpred k x y hk).imp_left fun hq => ⟨hq.1.set_block (hkeep k), hq.2⟩
  several := by
    intro b hb k x y
    rw [get_set_block]
    split_ifs with hbb
    · subst hbb
      exact hseveral hb k x y
    · exact hp.several b hb k x y
  exits := by
    intro p hmem k x y hk
    rw [exitState_set_block] at hk
    exact (hp.exits p hmem k x y hk).set_block (hkeep k)
  reached := by
    intro b hb
    rw [get_set_block] at hb
    split_ifs at hb with hbb
    · rw [hbb]
      exact hreach
    · exact hp.reached b hb
  ended := by
    intro p hmem k hk
    rw [exitState_set_block] at hk
    exact hp.ended p hmem k hk

/-- A block that starts has its entry state, and nothing is written yet. -/
theorem RunOK.start {b : Block} (hb : b.insts ≠ []) (oldExit : RangeState)
    (hexit : oldExit = exitState r b) :
    RunOK M (r.set (.block b.id) s) ⟨b, oldExit, s, b.insts⟩ where
  keys := by
    intro k hk
    rw [get_set_block, if_pos rfl] at hk
    exact hk
  written := by
    intro done hdone i hi
    rw [show done = [] from List.self_eq_append_left.mp hdone] at hi
    cases hi
  const := by
    intro k x y hk
    refine Or.inl ?_
    rw [get_set_block, if_pos rfl]
    exact FMap.has_of_find hk
  exit := by rw [exitState_set_block, if_neg hb, hexit]

theorem exitBefore_start (b p : Block) (todo : List Inst) :
    exitBefore (some ⟨b, exitState r b, s, todo⟩) (r.set (.block bb) s) p = exitState r p := by
  unfold exitBefore
  dsimp only
  split_ifs with hbp
  · rw [hbp]
  · exact exitState_set_block p

end Enter

/-! ## Going on behind an instruction -/

section Advance

variable {r r' : RangeResult} {fr : Frame RangeValue} {run : BlockRun RangeValue} {i : Inst}
  {todo done : List Inst} {s : RangeState}

theorem mem_of_predecessors {f : Function} {p : Block} {b : BlockId} (h : f.predecessors b = [p]) :
    p ∈ f.blocks := by
  have hmem : p ∈ f.predecessors b := by rw [h]; simp
  obtain ⟨q, hq, hqp⟩ := List.mem_flatMap.mp hmem
  rw [List.mem_replicate] at hqp
  rw [hqp.2]
  exact hq

/-- The results after the state behind instruction `i` has been recorded. -/
structure Recorded (r r' : RangeResult) (i : Inst) (todo : List Inst) (s : RangeState) : Prop where
  block : ∀ b, r'.get (.block b) = r.get (.block b)
  inst : ∀ j, j ≠ i.id → r'.get (.inst j) = r.get (.inst j)
  self : r'.get (.inst i.id) = (recordState i todo s r).get (.inst i.id)

theorem Recorded.last (h : Recorded r r' i [] s) : r'.get (.inst i.id) = s :=
  h.self.trans (FMap.get_set_self ..)

theorem get_recordState_congr {r₁ : RangeResult} (h : r₁.get (.inst i.id) = r.get (.inst i.id)) :
    (recordState i todo s r₁).get (.inst i.id) = (recordState i todo s r).get (.inst i.id) := by
  cases todo with
  | nil => exact (FMap.get_set_self ..).trans (FMap.get_set_self ..).symm
  | cons next rest =>
      refine (FMap.get_set_self ..).trans (Eq.trans ?_ (FMap.get_set_self ..).symm)
      rw [h]

theorem Recorded.kept (h : Recorded r r' i todo s) (p : Block) (k : Value) :
    Kept M r' p k ↔ Kept M r p k := by
  unfold Kept
  rw [h.block]

variable (hM : M.WF) (hf : f ∈ M.funcs) (hb : run.block ∈ f.blocks)
  (hdone : run.block.insts = done ++ run.todo) (ht : run.todo = i :: todo)
  (hr : RunOK M r run) (hs : WritesOnly (WrittenBy M i) run.state s)
  (h : Recorded r r' i todo s)

include hM hf hb hdone ht h in
/-- Recording a state changes the exit state of a block at its terminator only. -/
theorem Recorded.exitState {p : Block} (hp : p ∈ f.blocks) :
    exitState r' p = if p = run.block ∧ todo = [] then s else Engine.exitState r p := by
  rw [ht] at hdone
  split_ifs with hcase
  · obtain ⟨rfl, rfl⟩ := hcase
    have hterm : run.block.terminator = some i := by
      unfold Block.terminator
      rw [hdone]
      simp
    unfold Engine.exitState
    rw [hterm]
    exact h.last
  · refine exitState_of_ne h.inst fun t hterm => ?_
    refine terminator_ne hM hf hb hp hdone hterm ?_
    by_cases hpb : p = run.block
    · exact Or.inr fun htodo => hcase ⟨hpb, htodo⟩
    · exact Or.inl hpb

include hdone ht hr hs in
/-- What the block has written is in the new state. -/
theorem RunOK.has_of_kept (hlast : todo = []) {k : Value} (hk : Kept M r run.block k) :
    s.has k := by
  rcases hk with hk | ⟨x, hx, hk⟩
  · exact hs.keeps k (hr.keys k hk)
  · have hdone' := hdone
    rw [ht, hlast] at hdone'
    rw [hdone', List.mem_append, List.mem_singleton] at hx
    rcases hx with hx | rfl
    · exact hs.keeps k (hr.written done hdone x hx k hk)
    · exact hs.writes k hk

include hM hf hb hdone ht hr hs h in
theorem PairOK.advance (hp : PairOK M DL usePC f r) (hreach : CFGReachable f run.block.id) :
    PairOK M DL usePC f r' where
  single := by
    intro b p hpred k x y hk
    rw [h.block] at hk
    rw [h.kept]
    refine (hp.single b p hpred k x y hk).imp_left fun ⟨hkept, hhas⟩ => ⟨hkept, ?_⟩
    rw [h.exitState hM hf hb hdone ht (mem_of_predecessors hpred)]
    split_ifs with hcase
    · rw [hcase.1] at hkept
      exact hr.has_of_kept hdone ht hs hcase.2 hkept
    · exact hhas
  several := by
    intro b hb k x y
    rw [h.block]
    exact hp.several b hb k x y
  exits := by
    intro p hpb k x y hk
    rw [h.kept]
    rw [h.exitState hM hf hb hdone ht hpb] at hk
    split_ifs at hk with hcase
    · rw [hcase.1]
      rcases hs.const k x y hk with hk | hk
      · exact hr.const k x y hk
      · exact Or.inr ⟨i, by rw [hdone, ht]; simp, hk⟩
    · exact hp.exits p hpb k x y hk
  reached := by
    intro b hb
    rw [h.block] at hb
    exact hp.reached b hb
  ended := by
    intro p hpb k hk
    rw [h.exitState hM hf hb hdone ht hpb] at hk
    split_ifs at hk with hcase
    · rw [hcase.1]
      exact hreach
    · exact hp.ended p hpb k hk

include hM hf hb hdone ht hr hs h in
theorem RunOK.advance : RunOK M r' { run with state := s, todo := todo } where
  keys := by
    intro k hk
    rw [h.block] at hk
    exact hs.keeps k (hr.keys k hk)
  written := by
    intro done' heq x hx k hk
    have hdone' : done' = done ++ [i] := by
      have heq' : done' ++ todo = (done ++ [i]) ++ todo := by
        rw [← heq, List.append_assoc]
        show run.block.insts = _
        rw [hdone, ht]
        rfl
      exact List.append_cancel_right heq'
    rw [hdone', List.mem_append, List.mem_singleton] at hx
    rcases hx with hx | rfl
    · exact hs.keeps k (hr.written done hdone x hx k hk)
    · exact hs.writes k hk
  const := by
    intro k x y hk
    rw [h.kept]
    rcases hs.const k x y hk with hk | hk
    · exact hr.const k x y hk
    · exact Or.inr ⟨i, by rw [hdone, ht]; simp, hk⟩
  exit := by
    show Engine.exitState r' run.block = if todo = [] then s else run.oldExit
    rw [h.exitState hM hf hb hdone ht hb]
    by_cases htodo : todo = []
    · rw [if_pos ⟨rfl, htodo⟩, if_pos htodo]
    · rw [if_neg fun hc => htodo hc.2, if_neg htodo, hr.exit, if_neg]
      rw [ht]
      simp

omit hb in
include hM hdone ht hr hs h in
theorem FrameFresh.advance (hfr : FrameFresh M DL usePC r fr) (hrun : fr.run = some run)
    (hf : fr.func ∈ M.funcs) (hb : run.block ∈ fr.func.blocks) :
    FrameFresh M DL usePC r' { fr with run := some { run with state := s, todo := todo } } where
  inList := hfr.inList
  run := by
    intro run' hrun'
    obtain rfl := Option.some.inj hrun'
    exact hr.advance hM hf hb hdone ht hs h
  edges := by
    intro p hp b hbp
    have hbefore : exitBefore (some { run with state := s, todo := todo }) r' p =
        exitBefore fr.run r p := by
      unfold exitBefore
      rw [hrun]
      dsimp only
      by_cases hpb : run.block = p
      · rw [if_pos hpb, if_pos hpb]
      · rw [if_neg hpb, if_neg hpb, h.exitState hM hf hb hdone ht hp,
          if_neg fun hc => hpb hc.1.symm]
    show b ∈ fr.work.work ∨
      EdgeDone (exitBefore (some { run with state := s, todo := todo }) r' p) _ _
    rw [hbefore, h.block]
    exact hfr.edges p hp b hbp

end Advance

/-! ## The moves keep the invariant -/

/-- The step at state `e` loses no edge: the guard of a taken block loses nothing, and the loop that
queues the successors is not cut short. -/
structure StepOK (M : Module) (DL : DataLayout) (usePC : Bool) (e : Engine RangeValue) : Prop where
  guard : ∀ fr rest bb work p, e.stack = fr :: rest → fr.run = none →
    fr.work.take = some (bb, work) → fr.func.predecessors bb = [p] →
      GuardOK (exitState (e.results fr.pair) p) (guardOf M DL usePC fr.func bb)
        ((e.results fr.pair).get (.block bb)) ((e.results fr.pair).get (.func fr.func.id))
  successors : ∀ fr rest run, e.stack = fr :: rest → fr.run = some run → run.todo = [] →
    stateEq (rangePolicy M DL) run.state run.oldExit = false →
      ∀ s ∈ run.block.successors, fr.blackmap.get s + run.block.successors.count s ≤ 101

section Moves

variable {e e' : Engine RangeValue} {fr fr' : Frame RangeValue} {rest : List (Frame RangeValue)}
  (hM : M.WF) (he : entry ∈ M.funcs) (hcov : Covers M entry rpot e)

include hM he hcov

/-- A step that works on the top frame only. -/
theorem EdgeInv.top (h : EdgeInv M DL usePC e) (hs : e.stack = fr :: rest)
    (hs' : e'.stack = fr' :: rest) (hpair : fr'.pair = fr.pair)
    (hsum : ∀ cf, SummaryOK cf.2 (e'.results cf))
    (hother : ∀ cf, cf ≠ fr.pair → SameStates (e.results cf) (e'.results cf))
    (hp : PairOK M DL usePC fr.func (e'.results fr.pair))
    (hfr : FrameFresh M DL usePC (e'.results fr.pair) fr') : EdgeInv M DL usePC e' where
  summaries := hsum
  pairs := by
    intro c f hf
    by_cases hcf : (c, f.id) = fr.pair
    · have hmem := (hcov.frames fr (by rw [hs]; simp)).called.mem he
      obtain rfl := hM.func_eq hf hmem (Prod.mk.inj hcf).2
      rw [hcf]
      exact hp
    · exact (h.pairs c f hf).congr (hother _ hcf)
  frames := by
    intro x hx
    rw [hs'] at hx
    rcases List.mem_cons.mp hx with rfl | hx
    · rw [hpair]
      exact hfr
    · have hne : x.pair ≠ fr.pair := by
        intro heq
        have hd := hcov.distinct
        rw [hs, List.map_cons, List.nodup_cons] at hd
        exact hd.1 (heq ▸ List.mem_map_of_mem hx)
      exact (h.frames x (by rw [hs]; simp [hx])).congr (hother _ hne)
  passed := by
    intro x hx
    rw [hs'] at hx
    exact h.passed x (by rw [hs]; exact hx)

omit hM he hcov in
theorem mem_predecessors {p : Block} {b : BlockId} (hp : p ∈ f.blocks) (hb : b ∈ p.successors) :
    p ∈ f.predecessors b :=
  List.mem_flatMap.mpr ⟨p, hp, List.mem_replicate.mpr ⟨(List.count_pos_iff.mpr hb).ne', rfl⟩⟩

omit hM he hcov in
theorem mergeInState_keeps {d t : RangeState} {k : Value} (h : d.has k) :
    (mergeInState (rangePolicy M DL) d t false).has k := by
  obtain ⟨x, hx⟩ := FMap.has_iff_find.mp h
  rw [FMap.has_iff_find, find_mergeInState]
  cases t.find k with
  | none => exact ⟨x, hx⟩
  | some y => exact ⟨_, rfl⟩

omit hM he hcov in
/-- A block that is taken again keeps its keys. -/
theorem entryState_keeps {bb : BlockId} {r : RangeResult} {k : Value}
    (h : (r.get (.block bb)).has k) :
    (entryState M (rangePolicy M DL) usePC f bb r).has k := by
  have hm : (mergedState M DL (r.get (.block bb)) (r.get (.func f.id))
      ((f.predecessors bb).map (exitState r))).has k := by
    refine mergeInState_keeps (mergeInState_keeps ?_)
    obtain ⟨x, hx⟩ := FMap.has_iff_find.mp h
    exact FMap.has_of_find ((find_mergeInState_empty _ k).trans hx)
  obtain ⟨x, hx⟩ := FMap.has_iff_find.mp hm
  rw [FMap.has_iff_find, find_entryState, hx]
  cases (guardOf M DL usePC f bb).find k with
  | none => exact ⟨x, rfl⟩
  | some c => exact ⟨_, rfl⟩

omit hM he hcov in
/-- What a predecessor ends with has an entry in the block. -/
theorem has_entryState {p : Block} {bb : BlockId} {r : RangeResult} {k : Value}
    (hp : p ∈ f.predecessors bb) (hk : (Engine.exitState r p).has k) :
    (entryState M (rangePolicy M DL) usePC f bb r).has k := by
  have hexit : Engine.exitState r p ∈ (f.predecessors bb).map (Engine.exitState r) :=
    List.mem_map_of_mem hp
  have hm : (mergedState M DL (r.get (.block bb)) (r.get (.func f.id))
      ((f.predecessors bb).map (Engine.exitState r))).has k :=
    has_mergeInState_iff.mpr (.inl (has_mergeInState_iff.mpr
      (.inr (has_mergePredecessors_iff.mpr ⟨_, hexit, hk⟩))))
  obtain ⟨x, hx⟩ := FMap.has_iff_find.mp hm
  rw [FMap.has_iff_find, find_entryState, hx]
  cases (guardOf M DL usePC f bb).find k with
  | none => exact ⟨x, rfl⟩
  | some c => exact ⟨_, rfl⟩

omit hM he hcov in
/-- The entry state computed for a block, against each of its predecessors. -/
theorem entryState_fresh (bb : BlockId) {r : RangeResult} (hp : PairOK M DL usePC f r)
    (hsum : SummaryOK f.id r)
    (hguard : ∀ p, f.predecessors bb = [p] → GuardOK (exitState r p) (guardOf M DL usePC f bb)
      (r.get (.block bb)) (r.get (.func f.id))) :
    (∀ p ∈ f.predecessors bb, Fresh (exitState r p) (guardOf M DL usePC f bb)
      (entryState M (rangePolicy M DL) usePC f bb r)) ∧
    (∀ p, f.predecessors bb = [p] → ∀ k x y,
      (entryState M (rangePolicy M DL) usePC f bb r).find k = some (.constant x y) →
        (Kept M r p k ∧ (exitState r p).has k) ∨
          (guardOf M DL usePC f bb).find k = some (.constant x y)) ∧
    (f.getSinglePredecessor bb = none → ∀ k x y,
      (entryState M (rangePolicy M DL) usePC f bb r).find k ≠ some (.constant x y)) := by
  have hsingle : ∀ p, f.predecessors bb = [p] → ∀ k x y,
      (entryState M (rangePolicy M DL) usePC f bb r).find k = some (.constant x y) →
        EdgeOK (exitState r p) (guardOf M DL usePC f bb) k (.constant x y) ∧
          ((∃ a b, (exitState r p).find k = some (.constant a b)) ∨
            (guardOf M DL usePC f bb).find k = some (.constant x y)) := by
    intro p hpred k x y hk
    refine entryState_single r hpred hsum (fun k x y hk => ?_) (hguard p hpred) hk
    exact (hp.single bb p hpred k x y hk).imp_left And.right
  have hseveral : f.getSinglePredecessor bb = none → ∀ k x y,
      (entryState M (rangePolicy M DL) usePC f bb r).find k ≠ some (.constant x y) :=
    fun hnone k x y => entryState_several r hnone hsum (hp.several bb hnone) k x y
  refine ⟨fun p hmem k x y hk => ?_, fun p hpred k x y hk => ?_, hseveral⟩
  · cases hg : f.getSinglePredecessor bb with
    | none => exact absurd hk (hseveral hg k x y)
    | some q =>
        have hpred : f.predecessors bb = [q] := by
          unfold Function.getSinglePredecessor at hg
          split at hg
          · rename_i q' hq'
            rw [← Option.some.inj hg, hq']
          · cases hg
        rw [hpred, List.mem_singleton] at hmem
        rw [hmem]
        exact (hsingle q hpred k x y hk).1
  · refine (hsingle p hpred k x y hk).2.imp_left fun ⟨a, b, hx⟩ => ?_
    exact ⟨hp.exits p (mem_of_predecessors hpred) k a b hx, FMap.has_of_find hx⟩

omit hM he hcov in
theorem sameStates_touched (e : Engine RangeValue) (fr : Frame RangeValue) (bb : BlockId) :
    SameStates (e.results fr.pair) (touched e fr bb) :=
  ⟨fun _ => get_touched bb _, fun _ => get_touched bb _⟩

omit hM he hcov in
/-- The summaries do not change when they are not written. -/
theorem summaries_of_writes {l : List Place} (h : ∀ cf, SummaryOK cf.2 (e.results cf))
    (hW : Writes l e e') {cf : Context × FuncId} (hcf : (cf, .func cf.2) ∉ l) :
    SummaryOK cf.2 (e'.results cf) := by
  intro k x hk
  rw [hW.get hcf] at hk
  exact h cf k x hk

omit hM he hcov in
theorem results_takeBlock_other {bb : BlockId} {work : WorkList BlockId} {cf : Context × FuncId}
    (hcf : cf ≠ fr.pair) : SameStates (e.results cf)
      ((e.takeBlock M (rangePolicy M DL) usePC fr rest bb work).results cf) := by
  refine sameStates_of_writes (writes_takeBlock ..) (fun b hb => ?_) fun i hi => ?_
  · simp only [List.mem_cons, Prod.mk.injEq, reduceCtorEq, and_false, List.not_mem_nil,
      or_false] at hb
    exact hcf hb.1
  · simp at hi

omit hM he hcov in
theorem summaries_takeBlock (M : Module) (DL : DataLayout) (usePC : Bool)
    (h : ∀ cf, SummaryOK cf.2 (e.results cf)) (fr : Frame RangeValue)
    (rest : List (Frame RangeValue)) (bb : BlockId) (work : WorkList BlockId)
    (cf : Context × FuncId) :
    SummaryOK cf.2 ((e.takeBlock M (rangePolicy M DL) usePC fr rest bb work).results cf) := by
  have hsumt : SummaryOK fr.func.id (touched e fr bb) := by
    intro k x hk
    rw [get_touched] at hk
    exact h fr.pair k x hk
  have hW := writes_takeBlock M (rangePolicy M DL) usePC e fr rest bb work
  by_cases hcf : (cf, Value.func cf.2) ∈ [((fr.context, fr.func.id), Value.block bb),
      ((fr.context, fr.func.id), Value.func fr.func.id)]
  · simp only [List.mem_cons, Prod.mk.injEq, reduceCtorEq, and_false, List.not_mem_nil, or_false,
      false_or] at hcf
    obtain ⟨rfl, -⟩ := hcf
    rcases takeBlock_cases M (rangePolicy M DL) usePC e fr rest bb work with
      ⟨-, heq⟩ | ⟨b, -, -, -, heq⟩ | ⟨b, -, -, heq⟩
    · rw [heq]
      exact h fr.pair
    · rw [heq]
      show SummaryOK _ ((e.setResults _ _).results _)
      rw [results_setResults_self]
      exact hsumt
    · rw [heq]
      show SummaryOK _ ((e.setResults _ _).results _)
      rw [results_setResults_self]
      intro k x hk
      rw [FMap.get_set, if_neg (by simp)] at hk
      exact hsumt k x hk
  · exact summaries_of_writes h hW hcf

/-- Taking a block. -/
theorem EdgeInv.takeBlock (h : EdgeInv M DL usePC e) (hok : StepOK M DL usePC e)
    (hs : e.stack = fr :: rest) (hr : fr.run = none) {bb : BlockId} {work : WorkList BlockId}
    (hw : fr.work.take = some (bb, work)) :
    EdgeInv M DL usePC (e.takeBlock M (rangePolicy M DL) usePC fr rest bb work) := by
  have hfrok := hcov.frames fr (by rw [hs]; simp)
  have hmem := hfrok.called.mem he
  have hfr := h.frames fr (by rw [hs]; simp)
  have hp : PairOK M DL usePC fr.func (e.results fr.pair) := h.pairs fr.context fr.func hmem
  have hwork := (WorkList.take_eq_some hw).1
  have hinList' := WorkList.inList_of_take hfr.inList hw
  have hnorun : ∀ run, fr.run ≠ some run := by simp [hr]
  have hguard := fun p hpred => hok.guard fr rest bb work p hs hr hw hpred
  -- the computed entry state, from the results with the two keys
  have hsame := sameStates_touched e fr bb
  have hsumt : SummaryOK fr.func.id (touched e fr bb) := by
    intro k x hk
    rw [get_touched] at hk
    exact h.summaries fr.pair k x hk
  obtain ⟨hfresh, hkept, hseveral⟩ := entryState_fresh bb (hp.congr hsame) hsumt
    (fun p hpred => by
      rw [hsame.exitState, get_touched, get_touched]
      exact hguard p hpred)
  have hsum := summaries_takeBlock M DL usePC h.summaries fr rest bb work
  -- the edges to the other blocks
  have hedges : ∀ p ∈ fr.func.blocks, ∀ b ∈ p.successors, b ≠ bb → b ∈ work.work ∨
      EdgeDone (exitState (e.results fr.pair) p) (guardOf M DL usePC fr.func b)
        ((e.results fr.pair).get (.block b)) := by
    intro p hpb b hb hne
    have := hfr.edges p hpb b hb
    rw [hwork, hr] at this
    exact this.imp_left fun hx => (List.mem_cons.mp hx).resolve_left hne
  rcases takeBlock_cases M (rangePolicy M DL) usePC e fr rest bb work with
    ⟨hb, heq⟩ | ⟨b, hb, heqs, -, heq⟩ | ⟨b, hb, -, heq⟩
  · refine h.top hM he hcov hs (congrArg Engine.stack heq) rfl hsum
      (fun cf hcf => results_takeBlock_other hcf) (by rw [heq]; exact hp) ?_
    rw [heq]
    refine ⟨hinList', fun run hrun => absurd hrun (hnorun run), fun p hpb x hx => ?_⟩
    have hne : x ≠ bb := by
      rintro rfl
      obtain ⟨b', hb', rfl⟩ := hM.targets fr.func hmem p hpb x hx
      cases hb.symm.trans (hM.block?_id hmem hb')
    show x ∈ work.work ∨ EdgeDone (exitBefore fr.run (e.results fr.pair) p) _ _
    rw [hr]
    exact hedges p hpb x hx hne
  · have hres : (e.takeBlock M (rangePolicy M DL) usePC fr rest bb work).results fr.pair =
        touched e fr bb := by
      rw [heq]
      show (e.setResults fr.pair _).results _ = _
      rw [results_setResults_self]
    refine h.top hM he hcov hs (congrArg Engine.stack heq) rfl hsum
      (fun cf hcf => results_takeBlock_other hcf) (by rw [hres]; exact hp.congr hsame) ?_
    rw [hres]
    refine ⟨hinList', fun run hrun => absurd hrun (hnorun run), fun p hpb x hx => ?_⟩
    show x ∈ work.work ∨ EdgeDone (exitBefore fr.run (touched e fr bb) p) _ _
    rw [hr]
    show x ∈ work.work ∨ EdgeDone (exitState (touched e fr bb) p) _ _
    by_cases hne : x = bb
    · subst hne
      have hpred := mem_predecessors hpb hx
      refine Or.inr ⟨fun k y z hk => ?_, fun k hk => ?_⟩
      · rw [← find_eq_of_stateEq heqs] at hk
        exact hfresh p hpred k y z hk
      · rw [FMap.has_iff_find, ← find_eq_of_stateEq heqs, ← FMap.has_iff_find]
        exact has_entryState hpred hk
    · rw [hsame.exitState, hsame.block]
      exact hedges p hpb x hx hne
  · have hid : b.id = bb := by simpa using List.find?_some hb
    have hbmem := List.mem_of_find?_eq_some hb
    have hres : (e.takeBlock M (rangePolicy M DL) usePC fr rest bb work).results fr.pair =
        (touched e fr bb).set (.block bb)
          (entryState M (rangePolicy M DL) usePC fr.func bb (touched e fr bb)) := by
      rw [heq]
      show (e.setResults fr.pair _).results _ = _
      rw [results_setResults_self]
    have hp' : PairOK M DL usePC fr.func ((touched e fr bb).set (.block bb) _) :=
      (hp.congr hsame).set_block (hfrok.work bb (by rw [hwork]; simp))
        (fun k hk => entryState_keeps hk) hkept hseveral
    refine h.top hM he hcov hs (congrArg Engine.stack heq) rfl hsum
      (fun cf hcf => results_takeBlock_other hcf) (by rw [hres]; exact hp') ?_
    rw [hres]
    refine ⟨hinList', ?_, fun p hpb x hx => ?_⟩
    · intro run hrun
      obtain rfl := Option.some.inj hrun
      rw [← hid]
      exact RunOK.start (hM.insts_ne_nil hmem hbmem) _ rfl
    · show x ∈ work.work ∨
        EdgeDone (exitBefore (some ⟨b, exitState (touched e fr bb) b, _, b.insts⟩) _ p) _ _
      rw [exitBefore_start, get_set_block]
      split_ifs with hxb
      · subst hxb
        have hpred := mem_predecessors hpb hx
        exact Or.inr ⟨hfresh p hpred, fun k hk => has_entryState hpred hk⟩
      · rw [hsame.exitState, hsame.block]
        exact hedges p hpb x hx hxb

omit hM he hcov in
theorem inList_requeue (ss : List BlockId) (w : WorkList BlockId) (m : FMap BlockId Nat) :
    (requeue ss w m).1.inList = w.inList := by
  induction ss generalizing w m with
  | nil => rfl
  | cons s ss ih =>
      unfold requeue
      split_ifs
      · rfl
      · rw [ih]
        unfold WorkList.add
        split_ifs <;> rfl

omit hM he hcov in
/-- Unless the loop is cut short, every successor is queued. -/
theorem mem_requeue_of_not_cut {ss : List BlockId} {w : WorkList BlockId} {m : FMap BlockId Nat}
    (hin : w.inList ⊆ w.work) (h : ∀ s ∈ ss, m.get s + ss.count s ≤ 101) {x : BlockId}
    (hx : x ∈ ss) : x ∈ (requeue ss w m).1.work := by
  induction ss generalizing w m with
  | nil => cases hx
  | cons s ss ih =>
      have hs := h s List.mem_cons_self
      rw [List.count_cons_self] at hs
      have hadd : (w.add s).inList = w.inList := by
        unfold WorkList.add
        split_ifs <;> rfl
      unfold requeue
      rw [if_neg (by omega)]
      rcases List.mem_cons.mp hx with rfl | hx
      · refine subset_requeue _ _ _ ?_
        unfold WorkList.add
        split_ifs with hmem
        · exact hin hmem
        · simp
      · refine ih ?_ (fun t ht => ?_) hx
        · rw [hadd]
          exact List.Subset.trans hin (w.subset_add s)
        · have ht' := h t (List.mem_cons_of_mem _ ht)
          rw [FMap.get_set]
          split_ifs with hts
          · subst hts
            omega
          · rwa [List.count_cons_of_ne (Ne.symm hts)] at ht'

omit hM he hcov in
theorem summaries_afterBlock (h : ∀ cf, SummaryOK cf.2 (e.results cf)) (run : BlockRun RangeValue)
    (cf : Context × FuncId) :
    SummaryOK cf.2 ((afterBlock (rangePolicy M DL) fr run e).results cf) := by
  by_cases hcf : cf = (fr.context, fr.func.id)
  · subst hcf
    unfold afterBlock
    split
    · rw [results_setResults_self]
      intro k x hk
      rw [FMap.get_set_self, FMap.find_set, rangePolicy_meet] at hk
      split_ifs at hk
      · exact (Option.some.inj hk).symm
      · exact h (fr.context, fr.func.id) k x hk
    · exact h _
  · refine summaries_of_writes h (writes_afterBlock run) fun hmem => ?_
    simp only [List.mem_singleton, Prod.mk.injEq] at hmem
    exact hcf hmem.1

/-- The end of a block. -/
theorem EdgeInv.endBlock (h : EdgeInv M DL usePC e) (hok : StepOK M DL usePC e)
    (hs : e.stack = fr :: rest) {run : BlockRun RangeValue} (hr : fr.run = some run)
    (ht : run.todo = []) :
    EdgeInv M DL usePC (e.endBlock (rangePolicy M DL) fr rest run) := by
  have hmem := (hcov.frames fr (by rw [hs]; simp)).called.mem he
  have hfr := h.frames fr (by rw [hs]; simp)
  have hp : PairOK M DL usePC fr.func (e.results fr.pair) := h.pairs fr.context fr.func hmem
  have hexit : exitState (e.results fr.pair) run.block = run.state := by
    rw [(hfr.run run hr).exit, if_pos ht]
  -- nothing but the summary of the function is written
  have hsame : ∀ cf, SameStates (e.results cf)
      ((e.endBlock (rangePolicy M DL) fr rest run).results cf) :=
    fun cf => sameStates_of_writes (writes_endBlock ..) (by simp) (by simp)
  have hbefore : ∀ p, exitBefore fr.run (e.results fr.pair) p =
      if run.block = p then run.oldExit else exitState (e.results fr.pair) p := by
    intro p
    rw [hr]
    rfl
  by_cases heqs : stateEq (rangePolicy M DL) run.state run.oldExit = true
  · have heq : e.endBlock (rangePolicy M DL) fr rest run =
        { e with stack := { fr with run := none } :: rest } := by
      rw [endBlock_eq, if_pos heqs]
    refine h.top hM he hcov hs (congrArg Engine.stack heq) rfl (by rw [heq]; exact h.summaries)
      (fun cf _ => hsame cf) (hp.congr (hsame _)) (FrameFresh.congr ?_ (hsame _))
    refine ⟨hfr.inList, fun run' hrun' => (by cases hrun'), fun p hpb b hb => ?_⟩
    have hedge := hfr.edges p hpb b hb
    rw [hbefore] at hedge
    show b ∈ fr.work.work ∨ EdgeDone (exitState (e.results fr.pair) p) _ _
    split_ifs at hedge with hrp
    · subst hrp
      refine hedge.imp_right fun hdone => ⟨fun k x y hk => ?_, fun k hk => ?_⟩
      · have hfind := find_eq_of_stateEq heqs k
        have hq := hdone.fresh k x y hk
        unfold EdgeOK at hq ⊢
        rw [hexit, hfind]
        exact hq
      · rw [hexit, FMap.has_iff_find, find_eq_of_stateEq heqs, ← FMap.has_iff_find] at hk
        exact hdone.keys k hk
    · exact hedge
  · have heq : e.endBlock (rangePolicy M DL) fr rest run =
        { afterBlock (rangePolicy M DL) fr run e with stack := requeued fr run :: rest } := by
      rw [endBlock_eq, if_neg heqs]
    refine h.top hM he hcov hs (congrArg Engine.stack heq) rfl
      (by rw [heq]; exact summaries_afterBlock h.summaries run) (fun cf _ => hsame cf)
      (hp.congr (hsame _)) (FrameFresh.congr ?_ (hsame _))
    have hcut := hok.successors fr rest run hs hr ht (by simpa using heqs)
    have hgrow := subset_requeue run.block.successors fr.work fr.blackmap
    refine ⟨?_, fun run' hrun' => (by cases hrun'), fun p hpb b hb => ?_⟩
    · show (requeue run.block.successors fr.work fr.blackmap).1.inList ⊆ _
      rw [inList_requeue]
      exact List.Subset.trans hfr.inList hgrow
    · show b ∈ (requeue run.block.successors fr.work fr.blackmap).1.work ∨
        EdgeDone (exitState (e.results fr.pair) p) _ _
      have hedge := hfr.edges p hpb b hb
      rw [hbefore] at hedge
      split_ifs at hedge with hrp
      · subst hrp
        exact Or.inl (mem_requeue_of_not_cut hfr.inList hcut hb)
      · exact hedge.imp_left fun hw => hgrow hw

omit hM he hcov in
theorem recorded_advance (e : Engine RangeValue) (fr : Frame RangeValue)
    (rest : List (Frame RangeValue)) (run : BlockRun RangeValue) (i : Inst) (todo : List Inst)
    (s : RangeState) :
    Recorded (e.results fr.pair) ((e.advance fr rest run i todo s).results fr.pair) i todo s := by
  have hres : (e.advance fr rest run i todo s).results fr.pair =
      recordState i todo s (e.results fr.pair) := by
    show (e.setResults fr.pair _).results _ = _
    rw [results_setResults_self]
    rfl
  rw [hres]
  refine ⟨fun b => ?_, fun j hj => ?_, ?_⟩
  · unfold FMap.get
    rw [find_recordState_ne _ _ _ _ (by simp)]
  · unfold FMap.get
    rw [find_recordState_ne _ _ _ _ (by simpa using hj)]
  · rfl

omit hM he hcov in
theorem recorded_callDone (e : Engine RangeValue) (fr : Frame RangeValue)
    (rest : List (Frame RangeValue)) (run : BlockRun RangeValue) (i : Inst) (todo : List Inst)
    (callee : FuncId) (s : RangeState) :
    ∃ x, Recorded (e.results fr.pair) ((e.callDone fr rest run i todo callee s).results fr.pair) i
        todo (s.set (.inst i.id) x) ∧
      (e.callDone fr rest run i todo callee s).stack =
        { fr with run := some { run with state := s.set (.inst i.id) x, todo := todo } } ::
          rest := by
  refine ⟨_, ?_, rfl⟩
  have hfirst : SameStates (e.results fr.pair) ((e.setResults (some i.id, callee)
      ((e.results (some i.id, callee)).set (.func callee)
        (((e.results (some i.id, callee)).get (.func callee)).touch (.func callee)))).results
          fr.pair) :=
    sameStates_of_writes (writes_set ..) (by simp) (by simp)
  have hrec := recorded_advance ({ e.setResults (some i.id, callee)
      ((e.results (some i.id, callee)).set (.func callee)
        (((e.results (some i.id, callee)).get (.func callee)).touch (.func callee))) with
      callers := (e.callDone fr rest run i todo callee s).callers }) fr rest run i todo
    (s.set (.inst i.id) (((e.results (some i.id, callee)).get (.func callee)).get (.func callee)))
  exact ⟨fun b => (hrec.block b).trans (hfirst.block b),
    fun j hj => (hrec.inst j hj).trans (hfirst.inst j),
    hrec.self.trans (get_recordState_congr (hfirst.inst i.id))⟩

omit hM he hcov in
theorem summaries_advance (h : ∀ cf, SummaryOK cf.2 (e.results cf)) (run : BlockRun RangeValue)
    (i : Inst) (todo : List Inst) (s : RangeState) (cf : Context × FuncId) :
    SummaryOK cf.2 ((e.advance fr rest run i todo s).results cf) :=
  summaries_of_writes h (writes_advance e fr rest run i todo s) (by simp)

omit hM he hcov in
theorem summaries_callDone (h : ∀ cf, SummaryOK cf.2 (e.results cf)) (run : BlockRun RangeValue)
    (i : Inst) (todo : List Inst) (callee : FuncId) (s : RangeState) (cf : Context × FuncId) :
    SummaryOK cf.2 ((e.callDone fr rest run i todo callee s).results cf) := by
  refine summaries_advance (e := { e.setResults (some i.id, callee)
      ((e.results (some i.id, callee)).set (.func callee)
        (((e.results (some i.id, callee)).get (.func callee)).touch (.func callee))) with
      callers := (e.callDone fr rest run i todo callee s).callers }) ?_ run i todo _ cf
  intro cf k x hk
  by_cases hcf : cf = (some i.id, callee)
  · subst hcf
    have hk' : FMap.find (FMap.get ((e.setResults (some i.id, callee) _).results
      (some i.id, callee)) (.func callee)) k = some x := hk
    rw [results_setResults_self, FMap.get_set_self, FMap.find_touch] at hk'
    split_ifs at hk' with hkc
    · subst hkc
      cases hfind : ((e.results (some i.id, callee)).get (.func callee)).find (.func callee) with
      | none =>
          rw [FMap.get, hfind] at hk'
          exact (Option.some.inj hk').symm
      | some y =>
          rw [FMap.get_of_find hfind] at hk'
          rw [← Option.some.inj hk']
          exact h (some i.id, callee) _ _ hfind
    · exact h (some i.id, callee) k x hk'
  · have hk' : FMap.find (FMap.get ((e.setResults (some i.id, callee) _).results cf)
      (.func cf.2)) k = some x := hk
    rw [results_setResults, if_neg hcf] at hk'
    exact h cf k x hk'

omit hM he hcov in
theorem summaries_passed (M : Module) (DL : DataLayout)
    (h : ∀ cf, SummaryOK cf.2 (e.results cf)) (run : BlockRun RangeValue)
    (i : Inst) (callee : Function) (args : List Value) (cf : Context × FuncId) :
    SummaryOK cf.2 ((passed (rangePolicy M DL) e run i callee args).results cf) := by
  by_cases hcf : cf = (some i.id, callee.id)
  · subst hcf
    intro k x hk
    unfold passed at hk
    rw [results_setResults_self, FMap.get_set_self] at hk
    exact passArguments_summary _ _ _ _ _ _ (h (some i.id, callee.id)) k x hk
  · refine summaries_of_writes h (writes_passed (rangePolicy M DL) e run i callee args)
      fun hmem => ?_
    simp only [List.mem_singleton, Prod.mk.injEq] at hmem
    exact hcf hmem.1

omit hM he hcov in
/-- A function that is entered has all its reachable blocks queued. -/
theorem frameFresh_enter (hrpo : ReversePostOrder M rpot) (hf : f ∈ M.funcs) {r : RangeResult}
    (hp : PairOK M DL usePC f r) (c : Context) (m : FMap BlockId Nat) :
    FrameFresh M DL usePC r ⟨c, f, .ofList (rpot f.id), m, none⟩ := by
  refine ⟨List.Subset.refl _, fun run hrun => (by cases hrun), fun p hpb b hbp => ?_⟩
  by_cases hb : CFGReachable f b
  · exact Or.inl ((hrpo f hf b).mpr hb)
  · refine Or.inr ⟨fun k x y hk => ?_, fun k hk =>
      absurd (CFGReachable.succ (hp.ended p hpb k hk) hpb hbp) hb⟩
    have hne : (r.get (.block b)).isEmpty = false := by
      unfold FMap.isEmpty
      rw [List.isEmpty_eq_false_iff]
      intro hnil
      have hmem : (⟨k, .constant x y⟩ : Sigma fun _ => RangeValue) ∈ (r.get (.block b)).entries :=
        AList.mem_lookup_iff.mp hk
      rw [hnil] at hmem
      cases hmem
    exact absurd (hp.reached b hne) hb

omit he hcov in
/-- After its arguments a call writes its own key. -/
theorem writesOnly_call (DL : DataLayout) (e : Engine RangeValue) {i : Inst} (hi : i ∈ M.insts)
    {callee : Function} {args : List Value} (hc : calledDefinition M i = some (callee, args))
    (run : BlockRun RangeValue)
    (x : RangeValue) : WritesOnly (WrittenBy M i) run.state
      (FMap.set (passedTo (rangePolicy M DL) e run i callee args).1 (.inst i.id) x) := by
  have hv : ∀ v ∈ args.take callee.params.length, ∀ val ptr,
      M.kindOf v ≠ some (.store val ptr) := fun v hv =>
    hM.operands i hi v (args_operands hc (List.mem_of_mem_take hv))
  have hargs := passArguments_writes DL callee.id hv 0 run.state
    ((e.results (some i.id, callee.id)).get (.func callee.id))
    (((e.results (some i.id, callee.id)).get (.func callee.id)).size == 0)
  have := hargs.trans (.set _ (.inst i.id) x)
  unfold WrittenBy
  rw [hc]
  exact this

omit hM he hcov in
/-- A frame that waited at a call has the arguments already. -/
theorem writesOnly_waited {i : Inst} {todo : List Inst} {callee : Function} {args : List Value}
    (hc : calledDefinition M i = some (callee, args)) {run : BlockRun RangeValue}
    (hargs : ArgsPassed M fr) (hr : fr.run = some run) (ht : run.todo = i :: todo)
    (x : RangeValue) : WritesOnly (WrittenBy M i) run.state (run.state.set (.inst i.id) x) := by
  have hset := WritesOnly.set run.state (.inst i.id) x
  unfold WrittenBy
  rw [hc]
  refine ⟨hset.keeps, fun k l r hk => (hset.const k l r hk).imp_right Or.inr, ?_,
    fun k x hk => (hset.frame k x hk).imp_right Or.inr⟩
  rintro k (hk | hk)
  · exact hset.keeps k (hargs run i todo callee args hr ht hc k hk)
  · exact hset.writes k hk

omit hM he hcov in
/-- A block whose state got the arguments of the call it is at. -/
theorem RunOK.passed {r : RangeResult} {run : BlockRun RangeValue} (hrun : RunOK M r run)
    {done todo : List Inst} {i : Inst} (hdone : run.block.insts = done ++ run.todo)
    (ht : run.todo = i :: todo) {callee : Function} {args : List Value}
    (hc : calledDefinition M i = some (callee, args)) {s : RangeState}
    (hargs : WritesOnly (· ∈ args.take callee.params.length) run.state s) :
    RunOK M r { run with state := s } where
  keys := fun k hk => hargs.keeps k (hrun.keys k hk)
  written := fun done' hdone' j hj k hk => hargs.keeps k (hrun.written done' hdone' j hj k hk)
  const := by
    intro k x y hk
    rcases hargs.const k x y hk with hk | hk
    · exact hrun.const k x y hk
    · refine Or.inr ⟨i, by rw [hdone, ht]; simp, ?_⟩
      unfold WrittenBy
      rw [hc]
      exact Or.inl hk
  exit := by
    have hne : run.todo ≠ [] := by rw [ht]; simp
    rw [hrun.exit, if_neg hne, if_neg hne]

omit hM he hcov in
theorem FrameFresh.setState {r : RangeResult} (hfr : FrameFresh M DL usePC r fr)
    {run : BlockRun RangeValue} (hr : fr.run = some run) {s : RangeState}
    (hrun : RunOK M r { run with state := s }) :
    FrameFresh M DL usePC r { fr with run := some { run with state := s } } where
  inList := hfr.inList
  run := by
    intro run' hrun'
    obtain rfl := Option.some.inj hrun'
    exact hrun
  edges := by
    intro p hpb b hbp
    have hedge := hfr.edges p hpb b hbp
    rw [hr] at hedge
    exact hedge

/-- An instruction. -/
theorem EdgeInv.stepInst (hrpo : ReversePostOrder M rpot) (h : EdgeInv M DL usePC e)
    (hs : e.stack = fr :: rest) {run : BlockRun RangeValue} (hr : fr.run = some run) {i : Inst}
    {todo : List Inst} (ht : run.todo = i :: todo) :
    EdgeInv M DL usePC (e.stepInst M (rangePolicy M DL) rpot fr rest run i todo) := by
  have hfrok := hcov.frames fr (by rw [hs]; simp)
  have hmem := hfrok.called.mem he
  obtain ⟨hb, hreach, done, hdone, -⟩ := hfrok.run run hr
  have hi : i ∈ M.insts := by
    have hib : i ∈ run.block.insts := by rw [hdone, ht]; simp
    exact List.mem_flatMap.mpr ⟨fr.func, hmem, List.mem_flatMap.mpr ⟨run.block, hb, hib⟩⟩
  have hfr := h.frames fr (by rw [hs]; simp)
  have hrun := hfr.run run hr
  have hp : PairOK M DL usePC fr.func (e.results fr.pair) := h.pairs fr.context fr.func hmem
  rcases stepInst_cases M (rangePolicy M DL) rpot e fr rest run i todo with
    ⟨hc, heq⟩ | ⟨callee, args, hc, hact, -, heq⟩ | ⟨callee, args, hc, -, heq⟩
  · rw [heq]
    have hrec := recorded_advance e fr rest run i todo
      (applyTransfer (rangePolicy M DL) i run.state)
    have hw := applyTransfer_writes DL hM hi hc run.state
    refine h.top hM he hcov hs rfl rfl (summaries_advance h.summaries run i todo _)
      (fun cf hcf => ?_) (hp.advance hM hmem hb hdone ht hrun hw hrec hreach)
      (hfr.advance hM hdone ht hrun hw hrec hr hmem hb)
    refine sameStates_of_writes (writes_advance e fr rest run i todo _) (by simp) fun j hj => ?_
    simp only [List.mem_singleton, Prod.mk.injEq] at hj
    exact hcf hj.1
  · -- the callee is entered
    have hcallee := calledDefinition_mem hc
    have hW := writes_passed (rangePolicy M DL) e run i callee args
    have hsame : ∀ cf, SameStates (e.results cf)
        ((Engine.passed (rangePolicy M DL) e run i callee args).results cf) :=
      fun cf => sameStates_of_writes hW (by simp) (by simp)
    have hsums := summaries_passed M DL h.summaries run i callee args
    have hv : ∀ v ∈ args.take callee.params.length, ∀ val ptr,
        M.kindOf v ≠ some (.store val ptr) := fun v hv =>
      hM.operands i hi v (args_operands hc (List.mem_of_mem_take hv))
    have hargs : WritesOnly (· ∈ args.take callee.params.length) run.state
        (passedTo (rangePolicy M DL) e run i callee args).1 :=
      passArguments_writes DL callee.id hv ..
    rw [heq]
    generalize (passedTo (rangePolicy M DL) e run i callee args).1 = s at *
    generalize he1 : Engine.passed (rangePolicy M DL) e run i callee args = e1 at *
    have hres : ∀ cf k, ((Engine.enter rpot { e1 with
        stack := { fr with run := some { run with state := s } } :: rest } callee
          (some i.id)).results cf).get k = (e1.results cf).get k := fun cf k => get_enter ..
    have hsame' : ∀ cf, SameStates (e.results cf) ((Engine.enter rpot { e1 with
        stack := { fr with run := some { run with state := s } } :: rest } callee
          (some i.id)).results cf) := fun cf =>
      ⟨fun b => (hres cf _).trans ((hsame cf).block b),
        fun j => (hres cf _).trans ((hsame cf).inst j)⟩
    refine ⟨fun cf k x hk => ?_, fun c f hf => (h.pairs c f hf).congr (hsame' _), ?_, ?_⟩
    · rw [hres] at hk
      exact hsums cf k x hk
    · intro x hx
      rcases List.mem_cons.mp hx with rfl | hx
      · exact frameFresh_enter hrpo hcallee
          ((h.pairs (some i.id) callee hcallee).congr (hsame' _)) _ _
      · rcases List.mem_cons.mp hx with rfl | hx
        · exact (hfr.setState hr (hrun.passed hdone ht hc hargs)).congr (hsame' fr.pair)
        · exact (h.frames x (by rw [hs]; simp [hx])).congr (hsame' _)
    · intro x hx
      have hx' : x ∈ { fr with run := some { run with state := s } } :: rest := hx
      rcases List.mem_cons.mp hx' with rfl | hx'
      · intro run' i' todo' callee' args' hrun' htodo' hc' k hk
        obtain rfl := Option.some.inj hrun'
        obtain ⟨rfl, -⟩ := List.cons.inj (ht.symm.trans htodo')
        obtain ⟨rfl, rfl⟩ := Prod.mk.inj (Option.some.inj (hc.symm.trans hc'))
        exact hargs.writes k hk
      · exact h.passed x (by rw [hs]; exact hx')
  · rw [heq]
    have hsame : ∀ cf, SameStates (e.results cf)
        ((Engine.passed (rangePolicy M DL) e run i callee args).results cf) :=
      fun cf => sameStates_of_writes (writes_passed (rangePolicy M DL) e run i callee args)
        (by simp) (by simp)
    obtain ⟨x, hrec, hstack⟩ := recorded_callDone
      (Engine.passed (rangePolicy M DL) e run i callee args) fr rest run i todo callee.id
      (passedTo (rangePolicy M DL) e run i callee args).1
    have hrec' : Recorded (e.results fr.pair) _ i todo _ :=
      ⟨fun b => (hrec.block b).trans ((hsame _).block b),
        fun j hj => (hrec.inst j hj).trans ((hsame _).inst j),
        hrec.self.trans (get_recordState_congr ((hsame _).inst i.id))⟩
    have hw := writesOnly_call hM DL e hi hc run x
    refine h.top hM he hcov hs hstack rfl
      (summaries_callDone (summaries_passed M DL h.summaries run i callee args) run i todo _ _)
      (fun cf hcf => ?_) (hp.advance hM hmem hb hdone ht hrun hw hrec' hreach)
      (hfr.advance hM hdone ht hrun hw hrec' hr hmem hb)
    refine sameStates_of_writes ((writes_passed (rangePolicy M DL) e run i callee args).trans
      (writes_callDone _ fr rest run i todo callee.id _)) (by simp) fun j hj => ?_
    simp only [List.cons_append, List.nil_append, List.mem_cons, Prod.mk.injEq, reduceCtorEq,
      and_false, List.not_mem_nil, or_false, false_or] at hj
    exact hcf hj.1

/-- The end of a function. -/
theorem EdgeInv.finish (h : EdgeInv M DL usePC e) (hs : e.stack = fr :: rest) :
    EdgeInv M DL usePC (e.finish fr rest) := by
  rcases finish_cases e fr rest with ⟨rfl, hstack, hres⟩ | ⟨caller, rest', rfl, hcall⟩
  · have hr : ∀ cf, (e.finish fr []).results cf = e.results cf := fun cf => by
      unfold results
      rw [hres]
    refine ⟨fun cf => by rw [hr]; exact h.summaries cf,
      fun c f hf => by rw [hr]; exact h.pairs c f hf, fun x hx => ?_, fun x hx => ?_⟩
    · rw [hstack] at hx
      cases hx
    · rw [hstack] at hx
      cases hx
  · have hwait := hcov.waiting
    rw [hs] at hwait
    obtain ⟨⟨run, i, todo, args, hrun, htodo, hc, -⟩, -⟩ := hwait
    have hcaller := hcov.frames caller (by rw [hs]; simp)
    have hmem := hcaller.called.mem he
    obtain ⟨hb, hreach, done, hdone, -⟩ := hcaller.run run hrun
    have hfr := h.frames caller (by rw [hs]; simp)
    have hrunok := hfr.run run hrun
    have hp : PairOK M DL usePC caller.func (e.results caller.pair) :=
      h.pairs caller.context caller.func hmem
    have hargs := h.passed caller (by rw [hs]; simp)
    rw [hcall run i todo hrun htodo]
    -- the engine with the frame popped
    have hpop : EdgeInv M DL usePC { e with
        active := e.active.filter (· ≠ (fr.context, fr.func.id))
        stack := caller :: rest' } :=
      ⟨h.summaries, h.pairs, fun x hx => h.frames x (by rw [hs]; exact List.mem_cons_of_mem _ hx),
        fun x hx => h.passed x (by rw [hs]; exact List.mem_cons_of_mem _ hx)⟩
    obtain ⟨x, hrec, hstack⟩ := recorded_callDone { e with
        active := e.active.filter (· ≠ (fr.context, fr.func.id))
        stack := caller :: rest' } caller rest' run i todo fr.func.id run.state
    have hw := writesOnly_waited hc hargs hrun htodo x
    have hother : ∀ cf, cf ≠ caller.pair → SameStates (e.results cf)
        ((Engine.callDone { e with
          active := e.active.filter (· ≠ (fr.context, fr.func.id))
          stack := caller :: rest' } caller rest' run i todo fr.func.id run.state).results cf) := by
      intro cf hcf
      refine sameStates_of_writes (e := { e with
        active := e.active.filter (· ≠ (fr.context, fr.func.id))
        stack := caller :: rest' }) (writes_callDone _ caller rest' run i todo fr.func.id run.state)
        (by simp) fun j hj => ?_
      simp only [List.mem_cons, Prod.mk.injEq, reduceCtorEq, and_false, List.not_mem_nil, or_false,
        false_or] at hj
      exact hcf hj.1
    refine ⟨summaries_callDone hpop.summaries run i todo _ _, ?_, ?_, ?_⟩
    · intro c f hf
      by_cases hcf : (c, f.id) = caller.pair
      · obtain rfl := hM.func_eq hf hmem (Prod.mk.inj hcf).2
        rw [hcf]
        exact hp.advance hM hmem hb hdone htodo hrunok hw hrec hreach
      · exact (h.pairs c f hf).congr (hother _ hcf)
    · intro y hy
      rw [hstack] at hy
      rcases List.mem_cons.mp hy with rfl | hy
      · exact hfr.advance hM hdone htodo hrunok hw hrec hrun hmem hb
      · have hne : y.pair ≠ caller.pair := by
          intro heq
          have hd := hcov.distinct
          rw [hs, List.map_cons, List.map_cons, List.nodup_cons, List.nodup_cons] at hd
          exact hd.2.1 (heq ▸ List.mem_map_of_mem hy)
        exact (h.frames y (by rw [hs]; simp [hy])).congr (hother _ hne)
    · intro y hy
      rw [hstack] at hy
      exact h.passed y (by rw [hs]; exact List.mem_cons_of_mem _ hy)

/-- **Every step that meets the condition keeps the invariant.** -/
theorem EdgeInv.move (hrpo : ReversePostOrder M rpot) (h : EdgeInv M DL usePC e)
    (hok : StepOK M DL usePC e) (hm : Move M (rangePolicy M DL) usePC rpot e e') :
    EdgeInv M DL usePC e' := by
  have hnowork : e.contextWork.take = none := by
    unfold WorkList.take
    rw [hcov.contexts]
  cases hm with
  | enter _ hw _ => cases hnowork.symm.trans hw
  | drop _ hw _ => cases hnowork.symm.trans hw
  | finish hs _ _ => exact h.finish hM he hcov hs
  | takeBlock hs hr hw => exact h.takeBlock hM he hcov hok hs hr hw
  | stepInst hs hr ht => exact h.stepInst hM he hcov hrpo hs hr ht
  | endBlock hs hr ht => exact h.endBlock hM he hcov hok hs hr ht

end Moves

/-- The results of an analysis that has not begun. -/
theorem pairOK_empty (f : Function) {r : RangeResult} (hr : ∀ k, r.get k = ∅) :
    PairOK M DL usePC f r where
  single := by
    intro b p _ k x y hk
    rw [hr] at hk
    cases hk
  several := by
    intro b _ k x y hk
    rw [hr] at hk
    cases hk
  exits := by
    intro p _ k x y hk
    unfold exitState at hk
    split at hk
    · rw [hr] at hk
      cases hk
    · cases hk
  reached := by
    intro b hb
    rw [hr] at hb
    cases hb
  ended := by
    intro p _ k hk
    obtain ⟨x, hx⟩ := FMap.has_iff_find.mp hk
    unfold exitState at hx
    split at hx
    · rw [hr] at hx
      cases hx
    · cases hx

theorem edgeInv_enter (he : entry ∈ M.funcs) (hrpo : ReversePostOrder M rpot)
    {e : Engine RangeValue} (hr : e.allResults = ∅) (hs : e.stack = []) :
    EdgeInv M DL usePC (Engine.enter rpot e entry none) := by
  have hempty : ∀ cf k, ((Engine.enter rpot e entry none).results cf).get k = ∅ := by
    intro cf k
    rw [get_enter]
    unfold results
    rw [hr]
    rfl
  have hstack : (Engine.enter rpot e entry none).stack = [⟨none, entry, .ofList (rpot entry.id),
      (rpot entry.id).foldl (fun m b => m.set b 0) ∅, none⟩] := by
    show _ :: e.stack = _
    rw [hs]
  refine ⟨fun cf k x hk => ?_, fun c f _ => pairOK_empty f (hempty _), fun fr hfr => ?_,
    fun fr hfr => ?_⟩
  · rw [hempty] at hk
    cases hk
  · rw [hstack, List.mem_singleton] at hfr
    subst hfr
    exact frameFresh_enter hrpo he (pairOK_empty entry (hempty _)) _ _
  · rw [hstack] at hfr
    cases hfr

/-- The invariant holds in every state of a run whose steps meet the condition. -/
theorem edgeInv_run (hM : M.WF) (he : entry ∈ M.funcs) (hrpo : ReversePostOrder M rpot)
    {e : Engine RangeValue}
    (h : Run (Engine.step M (rangePolicy M DL) usePC rpot) (StepOK M DL usePC)
      (Engine.initial [entry.id]) e) :
    e = Engine.initial [entry.id] ∨ Covers M entry rpot e ∧ EdgeInv M DL usePC e := by
  refine h.invariant (P := fun e => e = Engine.initial [entry.id] ∨
    Covers M entry rpot e ∧ EdgeInv M DL usePC e) (Or.inl rfl) ?_
  rintro a b (rfl | ⟨hcov, hinv⟩) hok hstep
  · obtain ⟨a, hr, hs, ha, hw, rfl⟩ := initial_step hM he hstep
    exact Or.inr ⟨covers_enter he hrpo hr ha hs hw, edgeInv_enter he hrpo hr hs⟩
  · exact Or.inr ⟨hcov.move hM he hrpo (step_move hstep),
      hinv.move hM he hcov hrpo hok (step_move hstep)⟩

/-! ## No edge is stale -/

/-- When the worklist of a function is empty, all its edges are done. -/
theorem edges_done (hM : M.WF) (he : entry ∈ M.funcs) (hrpo : ReversePostOrder M rpot)
    {e : Engine RangeValue} {fr : Frame RangeValue} {rest : List (Frame RangeValue)}
    (h : Run (Engine.step M (rangePolicy M DL) usePC rpot) (StepOK M DL usePC)
      (Engine.initial [entry.id]) e)
    (hs : e.stack = fr :: rest) (hrun : fr.run = none) (hw : fr.work.work = []) :
    ∀ p ∈ fr.func.blocks, ∀ b ∈ p.successors,
      EdgeDone (exitState (e.results fr.pair) p) (guardOf M DL usePC fr.func b)
        ((e.results fr.pair).get (.block b)) := by
  intro p hp b hb
  rcases edgeInv_run hM he hrpo h with rfl | ⟨-, hinv⟩
  · cases hs
  · have hfr := hinv.frames fr (by rw [hs]; exact List.mem_cons_self)
    rcases hfr.edges p hp b hb with hq | hdone
    · rw [hw] at hq
      cases hq
    · rw [hrun] at hdone
      exact hdone

/-- **No edge is stale.** In a run whose steps meet the condition, whenever the worklist of a
function is empty, a constant range at the entry of a block includes the range each predecessor
ends with, or is the one the guard imposes. -/
theorem edges_fresh (hM : M.WF) (he : entry ∈ M.funcs) (hrpo : ReversePostOrder M rpot)
    {e : Engine RangeValue} {fr : Frame RangeValue} {rest : List (Frame RangeValue)}
    (h : Run (Engine.step M (rangePolicy M DL) usePC rpot) (StepOK M DL usePC)
      (Engine.initial [entry.id]) e)
    (hs : e.stack = fr :: rest) (hrun : fr.run = none) (hw : fr.work.work = []) :
    ∀ p ∈ fr.func.blocks, ∀ b ∈ p.successors,
      Fresh (exitState (e.results fr.pair) p) (guardOf M DL usePC fr.func b)
        ((e.results fr.pair).get (.block b)) :=
  fun p hp b hb => (edges_done hM he hrpo h hs hrun hw p hp b hb).fresh

/-! ## A loop through a switch -/

/-- A switch to block 4 by default and in `n` cases, and to block 5 in one more. -/
def switchBlock (n : Nat) : Block :=
  ⟨3, [⟨5, .void, .switch (.inst 3) 4
    (((List.range n).map fun c => (.ofNat 32 c, 4)) ++ [(.ofNat 32 n, 5)])⟩]⟩

/-- A loop `2 → 3 → 4 → 2` that is left through block 5. -/
def switchLoop (n : Nat) : Function where
  id := 0
  name := "main"
  params := []
  blocks := [
    ⟨0, [⟨0, .int 32, .binop .add (.constInt (.ofNat 32 7)) (.constInt (.ofNat 32 8))⟩,
      ⟨1, .void, .br 1⟩]⟩,
    ⟨1, [⟨2, .void, .br 2⟩]⟩,
    ⟨2, [⟨3, .int 32, .binop .add (.constInt (.ofNat 32 1)) (.constInt (.ofNat 32 2))⟩,
      ⟨4, .void, .br 3⟩]⟩,
    switchBlock n,
    ⟨4, [⟨6, .int 32, .binop .add (.constInt (.ofNat 32 4)) (.constInt (.ofNat 32 5))⟩,
      ⟨7, .void, .br 2⟩]⟩,
    ⟨5, [⟨8, .void, .ret none⟩]⟩]

def switchModule (n : Nat) : Module where
  structs := fun _ => []
  globals := []
  funcs := [switchLoop n]

/-- One step of the range analysis of that module. -/
def switchStep (n : Nat) : Engine RangeValue → Option (Engine RangeValue) :=
  Engine.step (switchModule n) (rangePolicy (switchModule n) structlessLayout) false
    fun _ => [0, 1, 2, 3, 5, 4]

/-- The `k`-th state of that analysis. -/
def switchState (n k : Nat) : Engine RangeValue := stepN (switchStep n) k (Engine.initial [0])

theorem run_switchState (n k : Nat) :
    Run (switchStep n) (fun _ => True) (Engine.initial [0]) (switchState n k) :=
  run_stepN (switchStep n) k (Engine.initial [0])

/-- The blocks a block of the loop leads to. -/
theorem switchLoop_successors {n : Nat} {b : Block} {s : BlockId} (hb : b ∈ (switchLoop n).blocks)
    (hs : s ∈ b.successors) : s ∈ [1, 2, 3, 4, 5] := by
  simp only [switchLoop, List.mem_cons, List.not_mem_nil, or_false] at hb
  rcases hb with rfl | rfl | rfl | rfl | rfl | rfl <;>
    simp [switchBlock, Block.successors, Block.terminator, InstKind.successors] at hs ⊢ <;> grind

theorem switchModule_wf (n : Nat) : (switchModule n).WF where
  funcs_nodup := by simp [switchModule]
  blocks_nodup := by simp [switchModule, Module.blocks, switchLoop, switchBlock]
  insts_nodup := by simp [switchModule, Module.insts, Function.insts, switchLoop, switchBlock]
  terminated := Module.terminated_of_last <| by
    simp [switchModule, Module.blocks, switchLoop, switchBlock, InstKind.isTerminator]
  targets := by
    intro f hf b hb s hs
    obtain rfl : f = switchLoop n := List.mem_singleton.mp hf
    have hmem := switchLoop_successors hb hs
    simp only [List.mem_cons, List.not_mem_nil, or_false] at hmem
    simp only [switchLoop, switchBlock, List.exists_mem_cons_iff, List.not_mem_nil, false_and,
      exists_false, or_false]
    grind
  operands := Module.operands_of_isStore_eq_false <| by
    simp [switchModule, Module.insts, Function.insts, switchLoop, switchBlock, InstKind.isStore]

theorem switchModule_rpo (n : Nat) :
    ReversePostOrder (switchModule n) fun _ => [0, 1, 2, 3, 5, 4] := by
  intro f hf b
  obtain rfl : f = switchLoop n := List.mem_singleton.mp hf
  constructor
  · intro hb
    have h0 : CFGReachable (switchLoop n) 0 := .entry (b := ⟨0, _⟩) rfl
    have h1 : CFGReachable (switchLoop n) 1 :=
      .succ (b := ⟨0, _⟩) h0 List.mem_cons_self List.mem_cons_self
    have h2 : CFGReachable (switchLoop n) 2 :=
      .succ (b := ⟨1, _⟩) h1 (by simp [switchLoop, switchBlock]; rfl) List.mem_cons_self
    have h3 : CFGReachable (switchLoop n) 3 :=
      .succ (b := ⟨2, _⟩) h2 (by simp [switchLoop, switchBlock]; rfl) List.mem_cons_self
    have h4 : CFGReachable (switchLoop n) 4 :=
      .succ (b := switchBlock n) h3 (by simp [switchLoop]) List.mem_cons_self
    have h5 : CFGReachable (switchLoop n) 5 :=
      .succ (b := switchBlock n) h3 (by simp [switchLoop])
        (by simp [switchBlock, Block.successors, Block.terminator, InstKind.successors])
    simp only [List.mem_cons, List.not_mem_nil, or_false] at hb
    rcases hb with rfl | rfl | rfl | rfl | rfl | rfl
    exacts [h0, h1, h2, h3, h5, h4]
  · intro hb
    cases hb with
    | entry h =>
        rw [← (List.cons.inj h).1]
        exact List.mem_cons_self
    | succ _ hb hs =>
        have := switchLoop_successors hb hs
        simp only [List.mem_cons, List.not_mem_nil, or_false] at this ⊢
        grind

/-- The condition on a step, when guards are not used, as a check. -/
def successorsFit (M : Module) (DL : DataLayout) (e : Engine RangeValue) : Bool :=
  match e.stack with
  | ⟨_, _, _, blackmap, some run⟩ :: _ =>
      !run.todo.isEmpty || stateEq (rangePolicy M DL) run.state run.oldExit ||
        run.block.successors.all fun s =>
          decide (blackmap.get s + run.block.successors.count s ≤ 101)
  | _ => true

theorem stepOK_of_fit {e : Engine RangeValue} (h : successorsFit M DL e = true) :
    StepOK M DL false e where
  guard := by
    intro _ _ _ _ _ _ _ _ _ k c _ _ hc
    cases hc
  successors := by
    intro fr rest run hs hrun htodo hexit s hmem
    obtain ⟨context, func, work, blackmap, _⟩ := fr
    subst hrun
    rw [successorsFit, hs] at h
    simp only [htodo, hexit, List.isEmpty_nil, Bool.not_true, Bool.false_or, List.all_eq_true,
      decide_eq_true_eq] at h
    exact h s hmem

/-- What the end of the worklist loop is, of a state. -/
def atLoopEnd (e : Engine RangeValue) : Option ((Context × FuncId) × Function) :=
  match e.stack with
  | ⟨context, func, ⟨_, []⟩, _, none⟩ :: _ => some ((context, func.id), func)
  | _ => none

theorem exists_of_atLoopEnd {e : Engine RangeValue} {cf : Context × FuncId} {func : Function}
    (h : atLoopEnd e = some (cf, func)) :
    ∃ fr rest, e.stack = fr :: rest ∧ fr.run = none ∧ fr.work.work = [] ∧ fr.pair = cf ∧
      fr.func = func := by
  unfold atLoopEnd at h
  split at h
  · rename_i hs
    obtain ⟨rfl, rfl⟩ := Prod.mk.inj (Option.some.inj h)
    exact ⟨_, _, hs, rfl, rfl, rfl, rfl⟩
  · cases h

/-- With two edges to block 4 the loop ends without a stale edge; block 1 has a constant. -/
theorem edges_fresh_small_switch :
    (((switchState 1 37).results (none, 0)).get (.block 1)).find (.inst 0) =
        some (.constant (.ofNat 64 15) (.ofNat 64 15)) ∧
      ∀ p ∈ (switchLoop 1).blocks, ∀ b ∈ p.successors,
        Fresh (exitState ((switchState 1 37).results (none, 0)) p)
          (guardOf (switchModule 1) structlessLayout false (switchLoop 1) b)
          (((switchState 1 37).results (none, 0)).get (.block b)) := by
  refine ⟨by decide +kernel, ?_⟩
  have hok : ∀ m < 37, successorsFit (switchModule 1) structlessLayout
      (stepN (switchStep 1) m (Engine.initial [0])) = true := by decide +kernel
  have hrun : Run (switchStep 1) (StepOK (switchModule 1) structlessLayout false)
      (Engine.initial [0]) (switchState 1 37) :=
    run_stepN_of 37 _ fun m hm => stepOK_of_fit (hok m hm)
  have hend : atLoopEnd (switchState 1 37) = some ((none, 0), switchLoop 1) := by decide +kernel
  obtain ⟨fr, rest, hs, hnone, hw, hpair, hfunc⟩ := exists_of_atLoopEnd hend
  have hmem : switchLoop 1 ∈ (switchModule 1).funcs := List.mem_cons_self
  have := edges_fresh (switchModule_wf 1) hmem
    (switchModule_rpo 1) hrun hs hnone hw
  rwa [hpair, hfunc] at this

/-- With 101 edges to block 4 the second visit of the switch does not get to block 5, which keeps
the constant of the first. -/
theorem stale_edge_behind_switch :
    (switchModule 100).WF ∧ ReversePostOrder (switchModule 100) (fun _ => [0, 1, 2, 3, 5, 4]) ∧
      Run (switchStep 100) (fun _ => True) (Engine.initial [0]) (switchState 100 29) ∧
      atLoopEnd (switchState 100 29) = some ((none, 0), switchLoop 100) ∧
      ¬ ∀ p ∈ (switchLoop 100).blocks, ∀ b ∈ p.successors,
        Fresh (exitState ((switchState 100 29).results (none, 0)) p)
          (guardOf (switchModule 100) structlessLayout false (switchLoop 100) b)
          (((switchState 100 29).results (none, 0)).get (.block b)) := by
  obtain ⟨hend, hentry, hexit⟩ :
      atLoopEnd (switchState 100 29) = some ((none, 0), switchLoop 100) ∧
      (((switchState 100 29).results (none, 0)).get (.block 5)).find (.inst 3) =
        some (.constant (.ofNat 64 3) (.ofNat 64 3)) ∧
      (((switchState 100 29).results (none, 0)).get (.inst 5)).find (.inst 3) =
        some .unknown := by decide +kernel
  refine ⟨switchModule_wf 100, switchModule_rpo 100, run_switchState 100 29, hend, fun h => ?_⟩
  have hfresh := h (switchBlock 100) (by simp [switchLoop]) 5
    (by simp [switchBlock, Block.successors, Block.terminator, InstKind.successors])
  rcases hfresh (.inst 3) _ _ hentry with ⟨l, r, hl, -⟩ | ⟨c, hc, -⟩
  · cases hexit.symm.trans hl
  · cases hc

end MSV
