import Mathlib.Data.List.ProdSigma
import MSV.Window.OrderProof

/-!
# The pass stops

**Theorem (`explore_halts`).** A call of `explore` ends, with all the calls it makes, from every
place, call stack, counter and set of visited instructions.

**Theorem (`functions_visited`).** The pass ends, and the functions it has visited then are those
the entry function reaches by direct calls.

A call of `explore` is left out, or adds an instruction with a counter that was not there, and the
counter stays within the window. The loop of one call spends a step, or shortens the call stack, or
shortens the rest of the block; it goes to the start of another block only behind a branch, which
has spent a step. A function that is taken from the queue has not been visited before, or else there
is one less in front of the first that has not.
-/

namespace MSV

variable {M : Module} {E : WindowEnv M}

/-! ## Inside a block -/

/-- The loop goes on to the next block at the end of this one. -/
def Block.continues (b : Block) : Bool :=
  match b.terminator with
  | none => false
  | some t =>
      match t.kind with
      | .switch .. | .condBr .. | .invoke .. => false
      | k => k.successors.length == 1

/-- How much of a block is left, before a step is spent. At the end of a block that continues, a
whole block is. -/
def Pos.left (M : Module) (p : Pos) : Nat :=
  if p.todo = [] then if p.block.continues then M.insts.length + 1 else 0 else p.todo.length

theorem Pos.left_of_ne_nil {p : Pos} (h : p.todo ≠ []) : p.left M = p.todo.length := if_neg h

theorem length_le_of_wf {p : Pos} (h : p.WF M) : p.todo.length ≤ M.insts.length := by
  have hblock : p.block.insts.Sublist p.func.insts :=
    List.sublist_flatten_of_mem (List.mem_map_of_mem h.block)
  have hfunc : p.func.insts.Sublist M.insts :=
    List.sublist_flatten_of_mem (List.mem_map_of_mem h.func)
  exact h.todo.sublist.length_le.trans (hblock.trans hfunc).length_le

/-- What does not count leaves less of the block. -/
theorem left_of_debug (hM : M.WF) {p : Pos} (h : p.WF M) {i : Inst} {rest : List Inst}
    (hp : p.todo = i :: rest) (hdebug : i.calledFunction.any M.isDebugFunction = true) :
    Pos.left M { p with todo := rest } < p.left M := by
  rw [Pos.left_of_ne_nil (p := p) (by rw [hp]; simp), hp, List.length_cons]
  cases rest with
  | cons j rest =>
      rw [Pos.left_of_ne_nil (by simp)]
      exact Nat.lt_succ_self _
  | nil =>
      -- the last instruction of the block is an invoke
      obtain ⟨g, hg⟩ : ∃ g, i.calledFunction = some g := by
        cases hcall : i.calledFunction with
        | none => rw [hcall] at hdebug; cases hdebug
        | some g => exact ⟨g, rfl⟩
      have hterm : i.kind.isTerminator = true := by
        by_contra hnot
        exact rest_ne_nil hM h hp (Bool.not_eq_true _ ▸ hnot) rfl
      obtain ⟨callee, args, normal, unwind, hk⟩ | ⟨hnot, -⟩ :=
        invoke_or_not_terminator (asCallBase_of_calledFunction hg)
      · have hstop : p.block.continues = false := by
          unfold Block.continues
          rw [(rest_eq_nil hM h hp hterm).2]
          simp only [hk]
        simp [Pos.left, hstop]
      · rw [hnot] at hterm
        cases hterm

namespace Window

/-! ## One turn of the loop -/

/-- What a call of `explore` can still do: steps, returns, and the rest of the block. -/
def left (E : WindowEnv M) (w : Window) (p : Pos) : Nat × Nat × Nat :=
  (E.windowSize.toNat - w.step, w.callStack.length, p.left M)

/-- Less is left of it. -/
def Less : Nat × Nat × Nat → Nat × Nat × Nat → Prop :=
  Prod.Lex (· < ·) (Prod.Lex (· < ·) (· < ·))

/-- What a turn does: it leaves the visited instructions alone, keeps the counters within a bound,
and leaves less to do where it goes. -/
structure Progress (E : WindowEnv M) (bound : Nat) (w : Window) (p : Pos) (w' : Window) :
    Prop where
  visited : w'.visitedInstructions = w.visitedInstructions
  step : w'.step ≤ bound
  restore : ∀ n l, Task.restore n l ∈ w'.tasks → n ≤ bound ∨ Task.restore n l ∈ w.tasks
  less : ∀ q, w'.cursor = some q → Less (left E w' q) (left E w p)

variable {w : Window} {p : Pos} {bound : Nat}

theorem progress_leave {w' : Window} {us : List Task}
    (hvis : w'.visitedInstructions = w.visitedInstructions) (hstep : w'.step ≤ bound)
    (htasks : w'.tasks = w.tasks) (hus : ∀ n l, Task.restore n l ∈ us → n ≤ bound) :
    Progress E bound w p (w'.leave us) where
  visited := hvis
  step := hstep
  restore n l h := by
    obtain h | h := List.mem_append.mp h
    · exact .inl (hus n l h)
    · exact .inr (htasks ▸ h)
  less q h := by cases h

/-- A turn that goes somewhere. -/
theorem progress_move {w' : Window} (hvis : w'.visitedInstructions = w.visitedInstructions)
    (hstep : w'.step ≤ bound) (htasks : w'.tasks = w.tasks)
    (hless : ∀ q, w'.cursor = some q → Less (left E w' q) (left E w p)) :
    Progress E bound w p w' :=
  ⟨hvis, hstep, fun _ _ h => .inr (htasks ▸ h), hless⟩

/-- A step is spent. -/
theorem less_of_step {w' : Window} {q : Pos} (hlive : (w.step : Int) < E.windowSize)
    (hstep : w'.step = w.step + 1) : Less (left E w' q) (left E w p) := by
  refine .left _ _ ?_
  rw [hstep]
  omega

theorem restore_bothDestinations {f : Function} {normal unwind : BlockId} {m n : Nat}
    {k l : List Site} (h : Task.restore n l ∈ bothDestinations f normal unwind m k) : n = m := by
  have hdest : ∀ s : BlockId, Task.restore n l ∉ (f.blockStart s).toList.map Task.explore := by
    intro s hs
    obtain ⟨q, -, hq⟩ := List.mem_map.mp hs
    cases hq
  unfold bothDestinations at h
  obtain h | h := List.mem_append.mp h
  · obtain h | h := List.mem_append.mp h
    · exact absurd h (hdest normal)
    · exact (Task.restore.inj (List.mem_singleton.mp h)).1
  · split_ifs at h
    · exact absurd h (hdest unwind)
    · cases h

section Turn

variable (hM : M.WF) (hwf : Track.WellFormed (M := M) w) (hw : w.cursor = some p)
  (hlive : (w.step : Int) < E.windowSize) (hbound : E.windowSize.toNat ≤ bound)

include hlive hbound

theorem progress_toCallers (f : Function) : Progress E bound w p (w.toCallers E f) := by
  have hstep : w.step ≤ bound := by omega
  unfold toCallers
  split_ifs
  · exact progress_leave rfl hstep rfl fun _ _ h => nomatch h
  · refine progress_leave rfl hstep rfl fun n l h => ?_
    obtain ⟨s, -, h⟩ := List.mem_flatMap.mp h
    obtain ⟨q, -, h⟩ := List.mem_flatMap.mp h
    obtain h | h := List.mem_cons.mp h
    · cases h
    · obtain ⟨rfl, -⟩ := Task.restore.inj (List.mem_singleton.mp h)
      exact hstep

theorem progress_toCallSite {s : Site} {rest : List Site} (hstack : w.callStack = s :: rest) :
    Progress E bound w p (w.toCallSite s rest) := by
  have hstep : w.step ≤ bound := by omega
  unfold toCallSite
  split
  · refine progress_leave rfl hstep rfl fun n l h => ?_
    rw [restore_bothDestinations h]
    exact hstep
  · refine progress_move rfl hstep rfl fun q _ => ?_
    refine .right _ (.left _ _ ?_)
    rw [hstack]
    exact Nat.lt_succ_self _

theorem progress_endOfFunction (f : Function) : Progress E bound w p (w.endOfFunction E f) := by
  unfold endOfFunction
  split
  · exact progress_toCallers hlive hbound f
  · rename_i s rest hstack
    exact progress_toCallSite hlive hbound hstack

include hM hwf hw

theorem progress_endOfBlock (hp : p.todo = []) : Progress E bound w p (w.endOfBlock E p) := by
  have hstep : w.step ≤ bound := by omega
  have hfunc := (hwf.cursor p hw).func
  unfold endOfBlock
  split
  · exact progress_leave rfl hstep rfl fun _ _ h => nomatch h
  · rename_i t ht
    split
    · exact progress_leave rfl hstep rfl fun _ _ h => nomatch h
    · exact progress_leave rfl hstep rfl fun _ _ h => nomatch h
    · split_ifs
      · refine progress_leave rfl ?_ rfl fun n l h => ?_
        · show w.step + 1 ≤ bound
          omega
        · rw [restore_bothDestinations h]
          exact hstep
      · exact progress_endOfFunction hlive hbound p.func
    · rename_i hswitch hcond hinvoke
      split
      · rename_i s hs
        refine progress_move rfl hstep rfl fun q hq => ?_
        obtain ⟨hq, hne⟩ := blockStart_ne_nil hM hfunc hq
        have hcontinues : p.block.continues = true := by
          unfold Block.continues
          rw [ht]
          dsimp only
          split
          · exact absurd (by assumption) (hswitch _ _ _)
          · exact absurd (by assumption) (hcond _ _ _)
          · exact absurd (by assumption) (hinvoke _ _ _ _)
          · rw [hs]
            rfl
        refine .right _ (.right _ ?_)
        rw [Pos.left_of_ne_nil hne]
        have hlong := length_le_of_wf hq
        simp only [Pos.left, hp, hcontinues, if_true]
        omega
      · exact progress_endOfFunction hlive hbound p.func

theorem progress_visit {i : Inst} {rest : List Inst} (hp : p.todo = i :: rest) :
    Progress E bound w p (w.visit E p i rest) := by
  have hstep : w.step ≤ bound := by omega
  have hnext : w.step + 1 ≤ bound := by omega
  cases hent : E.entered i with
  | some q =>
      rw [Track.visit_of_entered hent]
      exact progress_move rfl hnext rfl fun _ _ => less_of_step hlive rfl
  | none =>
      rw [Track.visit_of_not_entered hent]
      split_ifs with hdebug
      · refine progress_move rfl hstep rfl fun q hq => ?_
        obtain rfl := Option.some.inj hq
        exact .right _ (.right _ (left_of_debug hM (hwf.cursor p hw) hp hdebug))
      · exact progress_move rfl hnext rfl fun _ _ => less_of_step hlive rfl

end Turn

/-- **A turn of the loop leaves less to do.** -/
theorem progress_turn (hM : M.WF) (hwf : Track.WellFormed (M := M) w) (hw : w.cursor = some p)
    (hbound : E.windowSize.toNat ≤ bound) (hstep : w.step ≤ bound) :
    Progress E bound w p (w.turn E p) := by
  unfold turn
  split_ifs with hlive
  · split
    · rename_i hp
      exact progress_endOfBlock hM hwf hw hlive hbound hp
    · rename_i i rest hp
      exact progress_visit hM hwf hw hlive hbound hp
  · exact progress_leave rfl hstep rfl fun _ _ h => nomatch h

/-! ## The tasks and the queue -/

/-- The counters are within a bound, and the places and the functions in the module. -/
structure Within (M : Module) (bound : Nat) (w : Window) : Prop where
  wf : Track.WellFormed (M := M) w
  queue : ∀ f ∈ w.functionsWillBeAnalyzed, f ∈ M.funcs
  step : w.step ≤ bound
  restore : ∀ n l, Task.restore n l ∈ w.tasks → n ≤ bound

/-- What may be added to the visited instructions. -/
def keys (M : Module) (bound : Nat) : List (InstId × Nat) :=
  (M.insts.map Inst.id).product (List.range (bound + 1))

/-- The visited functions in front of the queue. -/
def inFront (w : Window) : Nat :=
  (w.functionsWillBeAnalyzed.takeWhile fun f => decide (f.id ∈ w.visitedFunctions)).length

/-- What the running call of `explore` can still do, if there is one. -/
def running (E : WindowEnv M) (w : Window) : Nat × Nat × Nat × Nat :=
  match w.cursor with
  | some p => (1, left E w p)
  | none => (0, 0, 0, 0)

/-- What is left to do: functions that have not been visited, then the ones in front of these,
calls of `explore` that are not left out, the running one, and the tasks. -/
def measure (E : WindowEnv M) (bound : Nat) (w : Window) :
    Nat × Nat × Nat × (Nat × Nat × Nat × Nat) × Nat :=
  (unvisited (M.funcs.map Function.id) w.visitedFunctions, w.inFront,
    unvisited (keys M bound) w.visitedInstructions, running E w, w.tasks.length)

def Smaller : Nat × Nat × Nat × (Nat × Nat × Nat × Nat) × Nat →
    Nat × Nat × Nat × (Nat × Nat × Nat × Nat) × Nat → Prop :=
  Prod.Lex (· < ·) (Prod.Lex (· < ·) (Prod.Lex (· < ·)
    (Prod.Lex (Prod.Lex (· < ·) Less) (· < ·))))

theorem wellFounded_smaller : WellFounded Smaller := by
  have hnat : WellFounded ((· < ·) : Nat → Nat → Prop) := wellFounded_lt
  have hless : WellFounded Less := hnat.prod_lex (hnat.prod_lex hnat)
  exact hnat.prod_lex (hnat.prod_lex (hnat.prod_lex ((hnat.prod_lex hless).prod_lex hnat)))

theorem smaller_turn {w' : Window} (hw : w.cursor = some p) (ht : Track.Turned M w w')
    (h : Progress E bound w p w') : Smaller (measure E bound w') (measure E bound w) := by
  unfold measure inFront
  rw [ht.functions, ht.queue, h.visited]
  refine .right _ (.right _ (.right _ (.left _ _ ?_)))
  unfold running
  rw [hw]
  cases hq : w'.cursor with
  | none => exact .left _ _ Nat.zero_lt_one
  | some q => exact .right _ (h.less q hq)

/-- A call of `explore` is left out, or adds to the visited instructions. -/
theorem smaller_enter {u : Task} {ts : List Task} {n : Nat} (hw : w.cursor = none)
    (htasks : w.tasks = u :: ts) (hp : p.WF M) (hn : n ≤ bound) :
    Smaller (measure E bound (Window.enter { w with tasks := ts, step := n } p))
      (measure E bound w) := by
  have hskip : Smaller (measure E bound { w with tasks := ts, step := n })
      (measure E bound w) := by
    have hrun : running E { w with tasks := ts, step := n } = running E w := by
      unfold running
      rw [hw]
    unfold measure
    rw [hrun, htasks, List.length_cons]
    exact .right _ (.right _ (.right _ (.right _ (Nat.lt_succ_self _))))
  unfold enter
  split
  · exact hskip
  · rename_i i rest hi
    split_ifs with hseen
    · exact hskip
    · refine .right _ (.right _ (.left _ _ (unvisited_cons ?_ hseen)))
      refine List.mem_product.mpr
        ⟨List.mem_map_of_mem ?_, List.mem_range.mpr (Nat.lt_succ_of_le hn)⟩
      exact List.mem_flatMap.mpr ⟨p.func, hp.func,
        List.mem_flatMap.mpr ⟨p.block, hp.block, hp.mem hi⟩⟩

/-- Functions that have not been visited go behind the first such one. -/
theorem length_takeWhile_append {α : Type*} {q : α → Bool} (l new : List α)
    (h : ∀ a ∈ new, q a = false) : ((l ++ new).takeWhile q).length = (l.takeWhile q).length := by
  induction l with
  | nil =>
      cases new with
      | nil => rfl
      | cons a new => simp [h a List.mem_cons_self]
  | cons a l ih =>
      rw [List.cons_append, List.takeWhile_cons, List.takeWhile_cons]
      split_ifs
      · rw [List.length_cons, List.length_cons, ih]
      · rfl

theorem smaller_perform {u : Task} {ts : List Task} (h : Within M bound w) (hw : w.cursor = none)
    (htasks : w.tasks = u :: ts) :
    Smaller (measure E bound (perform (M := M) { w with tasks := ts } u)) (measure E bound w) := by
  have hmem : u ∈ w.tasks := htasks ▸ List.mem_cons_self
  have hskip : ∀ w' : Window, w'.visitedFunctions = w.visitedFunctions →
      w'.inFront = w.inFront → w'.visitedInstructions = w.visitedInstructions →
      w'.cursor = none → w'.tasks = ts → Smaller (measure E bound w') (measure E bound w) := by
    intro w' hf hq hv hc ht
    unfold measure running
    rw [hf, hq, hv, hc, hw, ht, htasks, List.length_cons]
    exact .right _ (.right _ (.right _ (.right _ (Nat.lt_succ_self _))))
  cases u with
  | start p => exact smaller_enter hw htasks (h.wf.start p hmem).1 (Nat.zero_le _)
  | explore p => exact smaller_enter hw htasks (h.wf.explore p hmem).1 h.step
  | restore n l => exact hskip _ rfl rfl rfl hw rfl
  | clear => exact hskip _ rfl rfl rfl hw rfl
  | callees f =>
      refine hskip _ rfl (length_takeWhile_append _ _ fun g hg => ?_) rfl hw rfl
      obtain ⟨i, -, hi⟩ := List.mem_filterMap.mp hg
      have hnew := (Option.filter_eq_some_iff.mp hi).2
      exact decide_eq_false (of_decide_eq_true hnew)

theorem smaller_analyze {f : Function} {rest : List Function} (hf : f ∈ M.funcs)
    (hqueue : w.functionsWillBeAnalyzed = f :: rest) :
    Smaller (measure E bound (w.analyze E f rest)) (measure E bound w) := by
  by_cases hvis : f.id ∈ w.visitedFunctions
  · refine lex_of_le (unvisited_mono (List.subset_cons_self _ _)) (.left _ _ ?_)
    have hsame : ∀ g : Function, decide (g.id ∈ f.id :: w.visitedFunctions) =
        decide (g.id ∈ w.visitedFunctions) := by
      intro g
      rw [decide_eq_decide, List.mem_cons]
      exact or_iff_right_of_imp fun heq => heq ▸ hvis
    show (rest.takeWhile fun g => decide (g.id ∈ f.id :: w.visitedFunctions)).length < _
    unfold inFront
    simp only [hsame]
    rw [hqueue, List.takeWhile_cons, if_pos (decide_eq_true hvis)]
    exact Nat.lt_succ_self _
  · exact .left _ _ (unvisited_cons (List.mem_map_of_mem hf) hvis)

theorem step_enter (w : Window) (p : Pos) : (w.enter p).step = w.step := by
  unfold enter
  split
  · rfl
  · split_ifs <;> rfl

theorem step_perform {u : Task} {ts : List Task} (h : Within M bound w)
    (htasks : w.tasks = u :: ts) :
    (perform (M := M) { w with tasks := ts } u).step ≤ bound := by
  cases u with
  | start p => exact (step_enter _ p).trans_le (Nat.zero_le _)
  | explore p => exact (step_enter _ p).trans_le h.step
  | restore n l => exact h.restore n l (htasks ▸ List.mem_cons_self)
  | clear => exact h.step
  | callees f => exact h.step

/-! ## The pass -/

theorem Within.next (hM : M.WF) (hbound : E.windowSize.toNat ≤ bound) {w' : Window}
    (h : Within M bound w) (hnext : w.next E = some w') :
    Within M bound w' ∧ Smaller (measure E bound w') (measure E bound w) := by
  have hwf := h.wf.next hM h.queue hnext
  obtain ⟨p, hw, rfl⟩ | ⟨u, ts, hw, htasks, rfl⟩ | ⟨f, rest, hw, htasks, hqueue, rfl⟩ :=
    Track.next_cases hnext
  · have hturned := Track.turned_turn (E := E) hM h.wf hw
    have hprogress := progress_turn (E := E) hM h.wf hw hbound h.step
    refine ⟨⟨hwf, hturned.queue ▸ h.queue, hprogress.step, fun n l hl => ?_⟩,
      smaller_turn hw hturned hprogress⟩
    exact (hprogress.restore n l hl).elim id (h.restore n l)
  · refine ⟨⟨hwf, fun g hg => ?_, step_perform h htasks, fun n l hl => ?_⟩,
      smaller_perform h hw htasks⟩
    · obtain hg | ⟨f, -, i, -, hg⟩ := Survey.queue_perform hg
      · exact h.queue g hg
      · obtain ⟨k, -, hk⟩ := Option.bind_eq_some_iff.mp hg
        exact List.mem_of_find?_eq_some hk
    · rw [Survey.tasks_perform] at hl
      exact h.restore n l (htasks ▸ List.mem_cons_of_mem u hl)
  · have hf : f ∈ M.funcs := h.queue f (hqueue ▸ List.mem_cons_self)
    refine ⟨⟨hwf, fun g hg => h.queue g (hqueue ▸ List.mem_cons_of_mem f hg), h.step,
      fun n l hl => ?_⟩, smaller_analyze hf hqueue⟩
    obtain ⟨q, hq, -⟩ | hq | hq := Track.mem_tasks_analyze hM hf hl <;> cases hq

theorem Within.halts (hM : M.WF) (hbound : E.windowSize.toNat ≤ bound) (h : Within M bound w) :
    Halts (Window.next E) w :=
  Halts.of_wellFounded wellFounded_smaller (P := Within M bound) (μ := measure E bound)
    (fun _ _ ha hab => ha.next hM hbound hab) h

/-- A call of `explore`, with what it finds. -/
def exploring (p : Pos) (step : Nat) (callStack : List Site)
    (visitedInstructions : List (InstId × Nat)) (OOWInstructions : List InstId) : Window where
  functionsWillBeAnalyzed := []
  visitedFunctions := []
  OOWInstructions := OOWInstructions
  callStack := callStack
  visitedInstructions := visitedInstructions
  step := step
  cursor := none
  tasks := [.explore p]

/-- A call of `explore` ends, with all the calls it makes. -/
theorem explore_halts (hM : M.WF) (E : WindowEnv M) {p : Pos} (hp : p.WF M) (hne : p.todo ≠ [])
    {callStack : List Site} (hstack : ∀ s ∈ callStack, s.WF M) (step : Nat)
    (visitedInstructions : List (InstId × Nat)) (OOWInstructions : List InstId) :
    Halts (next E) (exploring p step callStack visitedInstructions OOWInstructions) := by
  have hbound : E.windowSize.toNat ≤ max step E.windowSize.toNat := Nat.le_max_right _ _
  refine Within.halts hM hbound ⟨⟨?_, hstack, fun q hq => ?_, fun q hq => ?_, fun n l hl => ?_⟩,
    ?_, Nat.le_max_left _ _, fun n l hl => ?_⟩
  · exact fun q hq => nomatch hq
  · obtain rfl := Task.explore.inj (List.mem_singleton.mp hq)
    exact ⟨hp, hne⟩
  · cases List.mem_singleton.mp hq
  · cases List.mem_singleton.mp hl
  · exact fun f hf => nomatch hf
  · cases List.mem_singleton.mp hl

/-- In the callee `h`, with the call in `k` on the stack: from its end the exploration goes back. -/
theorem leftover_explore_halts : leftoverModule.callSitesOf 3 ≠ [] ∧
    ∃ p, leftoverH.blockStart 3 = some p ∧
      Halts (next (leftoverEnv 6)) (exploring p 0 (leftoverModule.callSitesOf 3) [] []) := by
  obtain ⟨p, hp⟩ : ∃ p, leftoverH.blockStart 3 = some p := ⟨_, rfl⟩
  have hmem : leftoverH ∈ leftoverModule.funcs := by simp [leftoverModule]
  obtain ⟨hwf, hne⟩ := blockStart_ne_nil leftoverModule_wf hmem hp
  have hstack : ∀ s ∈ leftoverModule.callSitesOf 3, s.WF leftoverModule :=
    fun s hs => wf_of_mem_callSitesOf hs
  exact ⟨by decide, p, hp, explore_halts leftoverModule_wf _ hwf hne hstack 0 [] []⟩

/-! ## The visited functions -/

/-- What is visited or queued is called from the entry function. -/
structure Called (E : WindowEnv M) (w : Window) : Prop where
  visited : ∀ id ∈ w.visitedFunctions, ∃ f, f.id = id ∧ CalledFromMain E f
  queue : ∀ f ∈ w.functionsWillBeAnalyzed, CalledFromMain E f
  callees : ∀ f, Task.callees f ∈ w.tasks → CalledFromMain E f

theorem Called.turned {w w' : Window} (h : Called E w) (ht : Track.Turned M w w') :
    Called E w' := by
  obtain ⟨us, hus, htasks⟩ := ht.tasks
  refine ⟨ht.functions ▸ h.visited, ht.queue ▸ h.queue, fun f hf => ?_⟩
  rw [htasks] at hf
  obtain hf | hf := List.mem_append.mp hf
  · obtain ⟨q, heq, -⟩ | ⟨n, l, heq, -⟩ := hus _ hf <;> cases heq
  · exact h.callees f hf

theorem Called.perform {w : Window} {u : Task} {ts : List Task} (h : Called E w)
    (htasks : w.tasks = u :: ts) : Called E (perform (M := M) { w with tasks := ts } u) := by
  refine ⟨?_, fun g hg => ?_, fun f hf => ?_⟩
  · rw [Survey.visitedFunctions_perform]
    exact h.visited
  · obtain hg | ⟨f, rfl, i, hi, hcall⟩ := Survey.queue_perform hg
    · exact h.queue g hg
    · exact .call (h.callees f (htasks ▸ List.mem_cons_self)) hi hcall
  · rw [Survey.tasks_perform] at hf
    exact h.callees f (htasks ▸ List.mem_cons_of_mem u hf)

theorem Called.analyze (hM : M.WF) {w : Window} {f : Function} {rest : List Function}
    (h : Called E w) (hf : f ∈ M.funcs) (hqueue : w.functionsWillBeAnalyzed = f :: rest) :
    Called E (w.analyze E f rest) := by
  have hcalled : CalledFromMain E f := h.queue f (hqueue ▸ List.mem_cons_self)
  refine ⟨fun id hid => ?_, fun g hg => h.queue g (hqueue ▸ List.mem_cons_of_mem f hg),
    fun g hg => ?_⟩
  · obtain rfl | hid := List.mem_cons.mp hid
    · exact ⟨f, rfl, hcalled⟩
    · exact h.visited id hid
  · obtain ⟨q, hq, -⟩ | hq | hq := Track.mem_tasks_analyze hM hf hg
    · cases hq
    · cases hq
    · obtain rfl := Task.callees.inj hq
      exact hcalled

/-- What holds in every state of the pass. -/
structure Everywhere (E : WindowEnv M) (w : Window) : Prop where
  wf : Track.WellFormed (M := M) w
  functions : Track.Functions E w
  called : Called E w

theorem Everywhere.next (hM : M.WF) {w w' : Window} (h : Everywhere E w)
    (hnext : w.next E = some w') : Everywhere E w' := by
  refine ⟨h.wf.next hM h.functions.queue hnext, h.functions.next hM h.wf hnext, ?_⟩
  obtain ⟨p, hcursor, rfl⟩ | ⟨u, ts, -, htasks, rfl⟩ | ⟨f, rest, -, -, hqueue, rfl⟩ :=
    Track.next_cases hnext
  · exact h.called.turned (Track.turned_turn hM h.wf hcursor)
  · exact h.called.perform htasks
  · exact h.called.analyze hM (h.functions.queue f (hqueue ▸ List.mem_cons_self)) hqueue

theorem everywhere_initial : Everywhere E (initial E) := by
  have hstart := Track.inv_initial (E := E)
  refine ⟨hstart.wf, hstart.functions, ⟨fun id hid => ?_, fun f hf => ?_,
    fun f hf => ?_⟩⟩
  · cases hid
  · obtain rfl := List.mem_singleton.mp hf
    exact .main
  · cases hf

theorem initial_halts (hM : M.WF) (E : WindowEnv M) : Halts (next E) (initial E) := by
  have hstart := everywhere_initial (E := E)
  exact Within.halts hM le_rfl ⟨hstart.wf, hstart.functions.queue, Nat.zero_le _,
    fun n l hl => nomatch hl⟩

/-- **The pass ends, and the functions it has visited are those that are called from the entry
function.** -/
theorem functions_visited (hM : M.WF) (E : WindowEnv M) :
    Halts (next E) (initial E) ∧ ∀ w, Run (next E) (fun _ => True) (initial E) w →
      w.next E = none → ∀ id, id ∈ w.visitedFunctions ↔ ∃ f, f.id = id ∧ CalledFromMain E f := by
  refine ⟨initial_halts hM E, fun w hrun hend id => ?_⟩
  have hall : Everywhere E w :=
    hrun.invariant everywhere_initial fun _ _ ha _ hab => ha.next hM hab
  constructor
  · exact hall.called.visited id
  · rintro ⟨f, rfl, hf⟩
    obtain ⟨-, htasks, hqueue⟩ := Track.done_of_next hend
    exact (hall.functions.visited htasks hqueue hf).2

/-- `f` and `g` call each other and both call `h`. Nothing calls `lone`. -/
def circleModule : Module where
  structs := fun _ => []
  globals := []
  funcs := [
    ⟨0, "main", [], [⟨0, [⟨0, .void, .call (.direct 1) []⟩, ⟨1, .void, .call (.direct 2) []⟩,
      ⟨2, .void, .ret none⟩]⟩]⟩,
    ⟨1, "f", [], [⟨1, [⟨3, .void, .call (.direct 2) []⟩, ⟨4, .void, .call (.direct 3) []⟩,
      ⟨5, .void, .ret none⟩]⟩]⟩,
    ⟨2, "g", [], [⟨2, [⟨6, .void, .call (.direct 1) []⟩, ⟨7, .void, .call (.direct 3) []⟩,
      ⟨8, .void, .ret none⟩]⟩]⟩,
    ⟨3, "h", [], [⟨3, [⟨9, .void, .ret none⟩]⟩]⟩,
    ⟨4, "lone", [], [⟨4, [⟨10, .void, .call (.direct 3) []⟩, ⟨11, .void, .ret none⟩]⟩]⟩]

theorem circleModule_wf : circleModule.WF where
  funcs_nodup := by decide
  blocks_nodup := by decide
  insts_nodup := by decide
  terminated := Module.terminated_of_last (by decide)
  targets := by decide
  operands := Module.operands_of_isStore_eq_false (by decide)

def circleEnv : WindowEnv circleModule where
  windowSize := 4
  CG := fun g => match g with
    | 0 => [some 1, some 2]
    | 1 => [some 2, some 3]
    | 2 => [some 1, some 3]
    | 4 => [some 3]
    | _ => []
  mainFunction := circleModule.funcs.head (List.cons_ne_nil _ _)
  main_mem := List.head_mem _
  functionCallSiteMap := circleModule.callSitesOf
  callSites_perm := fun _ => List.Perm.refl _

/-- The pass visits the circle and the callee the two share, and not the function that is not
called. -/
theorem circle_functions_visited : Halts (next circleEnv) (initial circleEnv) ∧
    ∀ id, (∃ f, f.id = id ∧ CalledFromMain circleEnv f) ↔ id ∈ [0, 1, 2, 3] := by
  obtain ⟨hhalts, hvisited⟩ := functions_visited circleModule_wf circleEnv
  obtain ⟨hend, hlist⟩ : ((stepN (next circleEnv) 38 (initial circleEnv)).next
      circleEnv).isNone = true ∧
      (stepN (next circleEnv) 38 (initial circleEnv)).visitedFunctions =
        [3, 3, 3, 2, 2, 1, 0] := by
    decide +kernel
  refine ⟨hhalts, fun id => ?_⟩
  rw [← hvisited _ (run_stepN _ _ _) (Option.isNone_iff_eq_none.mp hend) id, hlist]
  simp only [List.mem_cons, List.not_mem_nil, or_false]
  grind

end Window

end MSV
