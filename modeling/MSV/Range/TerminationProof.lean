import MSV.Dataflow.Coverage
import MSV.Range.Verdict

/-!
# The analysis ends

A running call of the engine is bounded in three ways. A call it makes adds a pair to the active
set, and the pairs of a module are finitely many; a block it takes comes off its worklist, and a
block put back on it costs one of the 101 rounds its counter allows; and what is left of a block
gets shorter with every instruction. The three, in this order, get smaller until the call returns,
whatever the calls it makes in between leave in the results.

Nothing is asked of the module, of the order the blocks are first taken in, or of the domain.
-/

namespace MSV

/-! ## The measure -/

/-- The pairs that calls of the module enter. -/
def callPairs (M : Module) : List (Context × FuncId) :=
  M.insts.filterMap fun i => (calledDefinition M i).map fun ca => (some i.id, ca.1.id)

/-- How many of them are not active. -/
def inactive (M : Module) (active : List (Context × FuncId)) : Nat :=
  ((callPairs M).filter fun p => active.all (· ≠ p)).length

theorem mem_callPairs {M : Module} {i : Inst} (hi : i ∈ M.insts) {callee : Function}
    {args : List Value} (h : calledDefinition M i = some (callee, args)) :
    (some i.id, callee.id) ∈ callPairs M := by
  refine List.mem_filterMap.mpr ⟨i, hi, ?_⟩
  rw [h]
  rfl

theorem inactive_cons_lt {M : Module} {p : Context × FuncId} {active : List (Context × FuncId)}
    (hp : p ∈ callPairs M) (hact : p ∉ active) : inactive M (p :: active) < inactive M active := by
  unfold inactive
  have hsplit : ((callPairs M).filter fun q => (p :: active).all (· ≠ q)) =
      ((callPairs M).filter fun q => active.all (· ≠ q)).filter (p ≠ ·) := by
    rw [List.filter_filter]
    exact List.filter_congr fun q _ => List.all_cons
  rw [hsplit]
  refine List.length_filter_lt_length_iff_exists.mpr ⟨p, ?_, by simp⟩
  refine List.mem_filter.mpr ⟨hp, List.all_eq_true.mpr fun q hq => ?_⟩
  have hne : q ≠ p := fun heq => hact (heq ▸ hq)
  simpa using hne

/-- The rounds the counters still allow for the listed blocks. -/
def credit (blackmap : FMap BlockId Nat) (l : List BlockId) : Nat :=
  (l.map fun s => 101 - blackmap.get s).sum

/-- Counting a block up costs a round. -/
theorem credit_set {m : FMap BlockId Nat} {s : BlockId} (hm : m.get s ≤ 100) (l : List BlockId) :
    credit (m.set s (m.get s + 1)) l + (if s ∈ l then 1 else 0) ≤ credit m l := by
  induction l with
  | nil => exact Nat.le_refl _
  | cons a l ih =>
      unfold credit at ih ⊢
      rw [List.map_cons, List.sum_cons, List.map_cons, List.sum_cons, FMap.get_set]
      by_cases ha : a = s
      · subst ha
        rw [if_pos rfl, if_pos List.mem_cons_self]
        split_ifs at ih <;> omega
      · have hmem : s ∈ a :: l ↔ s ∈ l := by simp [Ne.symm ha]
        simp only [if_neg ha, hmem]
        omega

/-- What is put back on the worklist is paid for. -/
theorem requeue_le (l : List BlockId) {ss : List BlockId} (hss : ss ⊆ l) (w : WorkList BlockId)
    (m : FMap BlockId Nat) :
    (requeue ss w m).1.work.length + credit (requeue ss w m).2 l ≤
      w.work.length + credit m l := by
  induction ss generalizing w m with
  | nil => exact Nat.le_refl _
  | cons s ss ih =>
      unfold requeue
      split_ifs with hs
      · exact Nat.le_refl _
      · obtain ⟨hsl, hss⟩ := List.cons_subset.mp hss
        have hadd : (w.add s).work.length ≤ w.work.length + 1 := by
          unfold WorkList.add
          split_ifs
          · exact Nat.le_succ _
          · simp
        have hcredit := credit_set (m := m) (Nat.le_of_not_gt hs) l
        rw [if_pos hsl] at hcredit
        have := ih hss (w.add s) (m.set s (m.get s + 1))
        omega

/-- A counter stops at 101. -/
theorem requeue_counters {m : FMap BlockId Nat} (hm : ∀ b, m.get b ≤ 101) (ss : List BlockId)
    (w : WorkList BlockId) (b : BlockId) : (requeue ss w m).2.get b ≤ 101 := by
  induction ss generalizing w m with
  | nil => exact hm b
  | cons s ss ih =>
      unfold requeue
      split_ifs with hs
      · exact hm b
      · refine ih (fun x => ?_) (w.add s)
        rw [FMap.get_set]
        split_ifs
        · omega
        · exact hm x

/-- The blocks the branches of a function go to. -/
def branchTargets (f : Function) : List BlockId := f.blocks.flatMap Block.successors

namespace Frame

variable {V : Type}

/-- How many blocks a frame can still take. -/
def blocksLeft (fr : Frame V) : Nat :=
  fr.work.work.length + credit fr.blackmap (branchTargets fr.func)

/-- What is left of the current block. -/
def instsLeft (fr : Frame V) : Nat :=
  match fr.run with
  | some run => run.todo.length + 1
  | none => 0

/-- The frame runs a function of the module, in one of its blocks, and its counters are in their
range. -/
structure InModule (M : Module) (fr : Frame V) : Prop where
  func : fr.func ∈ M.funcs
  counters : ∀ b, fr.blackmap.get b ≤ 101
  block : ∀ run, fr.run = some run → run.block ∈ fr.func.blocks
  todo : ∀ run, fr.run = some run → ∀ i ∈ run.todo, i ∈ M.insts

theorem InModule.mk_run {M : Module} {fr : Frame V} (h : fr.InModule M) {run : BlockRun V}
    (hr : fr.run = some run) (s : AbstractState V) {todo : List Inst} (ht : todo ⊆ run.todo) :
    ({ fr with run := some { run with state := s, todo := todo } } : Frame V).InModule M where
  func := h.func
  counters := h.counters
  block := by
    rintro _ ⟨rfl⟩
    exact h.block run hr
  todo := by
    rintro _ ⟨rfl⟩ i hi
    exact h.todo run hr i (ht hi)

theorem InModule.mk_none {M : Module} {fr : Frame V} (h : fr.InModule M) (w : WorkList BlockId)
    {m : FMap BlockId Nat} (hm : ∀ b, m.get b ≤ 101) :
    ({ fr with work := w, blackmap := m, run := none } : Frame V).InModule M where
  func := h.func
  counters := hm
  block := by rintro _ ⟨⟩
  todo := by rintro _ ⟨⟩

end Frame

namespace Engine

variable {V : Type} [Inhabited V] {M : Module} {P : Policy V} {usePC : Bool}
  {rpot : FuncId → List BlockId} {e e' : Engine V} {fr : Frame V} {rest : List (Frame V)}

/-! ## A running call returns -/

/-- The stack after a return: the caller is past its call. No caller is ever stuck, but the engine
says what happens to one. -/
inductive Resumed : List (Frame V) → List (Frame V) → Prop
  | nil : Resumed [] []
  | next {caller : Frame V} {rest : List (Frame V)} {run : BlockRun V} {i : Inst}
      {todo : List Inst} (hr : caller.run = some run) (ht : run.todo = i :: todo)
      (s : AbstractState V) : Resumed (caller :: rest)
        ({ caller with run := some { run with state := s, todo := todo } } :: rest)
  | stuck {caller : Frame V} {rest : List (Frame V)}
      (h : ∀ run i todo, caller.run = some run → run.todo ≠ i :: todo) :
      Resumed (caller :: rest) (caller :: rest)

omit [Inhabited V] in
theorem Resumed.of_nil {stack : List (Frame V)} (h : Resumed [] stack) : stack = [] := by
  cases h
  rfl

omit [Inhabited V] in
theorem Resumed.of_waiting {caller : Frame V} {stack : List (Frame V)} {run : BlockRun V} {i : Inst}
    {todo : List Inst} (h : Resumed (caller :: rest) stack) (hr : caller.run = some run)
    (ht : run.todo = i :: todo) : ∃ s : AbstractState V,
      stack = { caller with run := some { run with state := s, todo := todo } } :: rest := by
  cases h with
  | next hr' ht' s =>
      obtain rfl := Option.some.inj (hr.symm.trans hr')
      obtain ⟨-, rfl⟩ := List.cons.inj (ht.symm.trans ht')
      exact ⟨s, rfl⟩
  | stuck h => exact absurd ht (h run i todo hr)

/-- What a call leaves when it returns, apart from results. -/
structure Returned (e : Engine V) (fr : Frame V) (rest : List (Frame V)) (e' : Engine V) :
    Prop where
  contextWork : e'.contextWork = e.contextWork
  active : e'.active = e.active.filter (· ≠ fr.pair)
  stack : Resumed rest e'.stack

theorem returned_finish (e : Engine V) (fr : Frame V) (rest : List (Frame V)) :
    Returned e fr rest (e.finish fr rest) := by
  cases rest with
  | nil => exact ⟨rfl, rfl, .nil⟩
  | cons caller rest =>
      cases hr : caller.run with
      | none =>
          simp only [finish, hr]
          refine ⟨rfl, rfl, .stuck fun run i todo h => ?_⟩
          cases hr.symm.trans h
      | some run =>
          cases ht : run.todo with
          | nil =>
              simp only [finish, hr, ht]
              refine ⟨rfl, rfl, .stuck fun run' i todo h => ?_⟩
              rw [← Option.some.inj (hr.symm.trans h), ht]
              exact (List.cons_ne_nil i todo).symm
          | cons i todo =>
              simp only [finish, hr, ht]
              exact ⟨rfl, rfl, .next hr ht _⟩

/-- A step of the running call itself: less is left of it. -/
structure Progress (M : Module) (e : Engine V) (fr : Frame V) (rest : List (Frame V))
    (e' : Engine V) (fr' : Frame V) : Prop where
  contextWork : e'.contextWork = e.contextWork
  active : e'.active = e.active
  stack : e'.stack = fr' :: rest
  context : fr'.context = fr.context
  func : fr'.func = fr.func
  inModule : fr'.InModule M
  less : fr'.blocksLeft < fr.blocksLeft ∨
    fr'.blocksLeft ≤ fr.blocksLeft ∧ fr'.instsLeft < fr.instsLeft

omit [Inhabited V] in
theorem Progress.decreases {fr' : Frame V} (h : Progress M e fr rest e' fr') :
    Prod.Lex (· < ·) (Prod.Lex (· < ·) (· < ·))
      (inactive M e'.active, fr'.blocksLeft, fr'.instsLeft)
      (inactive M e.active, fr.blocksLeft, fr.instsLeft) := by
  rw [h.active]
  refine .right _ ?_
  rcases h.less with hlt | ⟨hle, hlt⟩
  · exact .left _ _ hlt
  · rcases Nat.lt_or_eq_of_le hle with hlt' | heq
    · exact .left _ _ hlt'
    · rw [heq]
      exact .right _ hlt

omit [Inhabited V] in
/-- It returns to the same states. -/
theorem Progress.returned {fr' : Frame V} {e'' : Engine V} (h : Progress M e fr rest e' fr')
    (hret : Returned e' fr' rest e'') : Returned e fr rest e'' where
  contextWork := hret.contextWork.trans h.contextWork
  active := by rw [hret.active, h.active, pair_eq h.context h.func]
  stack := hret.stack

theorem progress_takeBlock {bb : BlockId} {work : WorkList BlockId} (hfr : fr.InModule M)
    (hr : fr.run = none) (hw : fr.work.take = some (bb, work)) :
    ∃ fr', Progress M e fr rest (e.takeBlock M P usePC fr rest bb work) fr' := by
  obtain ⟨hwork, -⟩ := WorkList.take_eq_some hw
  -- whatever becomes of the block, it is off the worklist
  have hless : ∀ run : Option (BlockRun V),
      ({ fr with work := work, run := run } : Frame V).blocksLeft < fr.blocksLeft := by
    intro run
    unfold Frame.blocksLeft
    rw [hwork, List.length_cons]
    dsimp only
    omega
  have hskip : ({ fr with work := work } : Frame V).InModule M := by
    refine ⟨hfr.func, hfr.counters, fun run hrun => ?_, fun run hrun => ?_⟩ <;>
      cases hr.symm.trans hrun
  have hsame : ({ fr with work := work } : Frame V).blocksLeft < fr.blocksLeft := hless fr.run
  rcases takeBlock_cases M P usePC e fr rest bb work with
    ⟨-, heq⟩ | ⟨b, -, -, -, heq⟩ | ⟨b, hb, -, heq⟩
  · rw [heq]
    exact ⟨_, rfl, rfl, rfl, rfl, rfl, hskip, .inl hsame⟩
  · rw [heq]
    exact ⟨_, rfl, rfl, rfl, rfl, rfl, hskip, .inl hsame⟩
  · rw [heq]
    have hmem : b ∈ fr.func.blocks := List.mem_of_find?_eq_some hb
    refine ⟨_, rfl, rfl, rfl, rfl, rfl, ⟨hfr.func, hfr.counters, ?_, ?_⟩, .inl (hless _)⟩
    · rintro _ ⟨rfl⟩
      exact hmem
    · rintro _ ⟨rfl⟩ i hi
      exact List.mem_flatMap.mpr ⟨fr.func, hfr.func, List.mem_flatMap.mpr ⟨b, hmem, hi⟩⟩

omit [Inhabited V] in
/-- Moving on to the next instruction. -/
theorem progress_advance {run : BlockRun V} {i : Inst} {todo : List Inst} (hfr : fr.InModule M)
    (hr : fr.run = some run) (ht : run.todo = i :: todo) {a : Engine V}
    (hcw : a.contextWork = e.contextWork) (hact : a.active = e.active) (s : AbstractState V) :
    Progress M e fr rest (a.advance fr rest run i todo s)
      { fr with run := some { run with state := s, todo := todo } } where
  contextWork := hcw
  active := hact
  stack := rfl
  context := rfl
  func := rfl
  inModule := hfr.mk_run hr s (ht ▸ List.subset_cons_self i todo)
  less := by
    refine .inr ⟨Nat.le_refl _, ?_⟩
    unfold Frame.instsLeft
    rw [hr]
    dsimp only
    rw [ht, List.length_cons]
    omega

theorem progress_endBlock {run : BlockRun V} (hfr : fr.InModule M) (hr : fr.run = some run) :
    ∃ fr', Progress M e fr rest (e.endBlock P fr rest run) fr' := by
  have hinsts : ∀ fr' : Frame V, fr'.run = none → fr'.instsLeft < fr.instsLeft := by
    intro fr' hr'
    unfold Frame.instsLeft
    rw [hr, hr']
    exact Nat.succ_pos _
  rw [endBlock_eq]
  split_ifs
  · exact ⟨_, rfl, rfl, rfl, rfl, rfl, hfr.mk_none fr.work hfr.counters,
      .inr ⟨Nat.le_refl _, hinsts _ rfl⟩⟩
  · have hafter : (afterBlock P fr run e).contextWork = e.contextWork ∧
        (afterBlock P fr run e).active = e.active := by
      unfold afterBlock
      split <;> exact ⟨rfl, rfl⟩
    have hsucc : run.block.successors ⊆ branchTargets fr.func :=
      fun b hb => List.mem_flatMap.mpr ⟨run.block, hfr.block run hr, hb⟩
    exact ⟨_, hafter.1, hafter.2, rfl, rfl, rfl, hfr.mk_none _ (requeue_counters hfr.counters _ _),
      .inr ⟨requeue_le _ hsucc fr.work fr.blackmap, hinsts _ rfl⟩⟩

/-- A call enters an inactive pair; the caller waits in front of the call. -/
structure Entered (M : Module) (e : Engine V) (fr : Frame V) (rest : List (Frame V))
    (e' : Engine V) (callee : Frame V) : Prop where
  contextWork : e'.contextWork = e.contextWork
  active : e'.active = callee.pair :: e.active
  fresh : callee.pair ∉ e.active
  pair : callee.pair ∈ callPairs M
  inModule : callee.InModule M
  stack : ∃ run i todo args s, fr.run = some run ∧ run.todo = i :: todo ∧
    calledDefinition M i = some (callee.func, args) ∧ callee.context = some i.id ∧
    e'.stack = callee :: { fr with run := some { run with state := s } } :: rest

omit [Inhabited V] in
/-- When the callee returns, the caller has made progress. -/
theorem Entered.progress {callee : Frame V} {e'' : Engine V} (hfr : fr.InModule M)
    (h : Entered M e fr rest e' callee)
    (hret : ∀ rest', e'.stack = callee :: rest' → Returned e' callee rest' e'') :
    ∃ fr', Progress M e fr rest e'' fr' := by
  obtain ⟨run, i, todo, args, s, hr, ht, -, -, hstack⟩ := h.stack
  have hret := hret _ hstack
  have hactive : e''.active = e.active := by
    rw [hret.active, h.active, List.filter_cons_of_neg (by simp)]
    refine List.filter_eq_self.mpr fun p hp => ?_
    have hne : p ≠ callee.pair := fun heq => h.fresh (heq ▸ hp)
    simpa using hne
  obtain ⟨s', hs'⟩ := hret.stack.of_waiting rfl ht
  have hadv : Progress M e fr rest (e.advance fr rest run i todo s') _ :=
    progress_advance hfr hr ht rfl rfl s'
  exact ⟨_, hret.contextWork.trans h.contextWork, hactive, hs', rfl, rfl, hadv.inModule,
    hadv.less⟩

omit [Inhabited V] in
/-- A frame that was just entered. -/
theorem inModule_enter {f : Function} (hf : f ∈ M.funcs) (c : Context) (l : List BlockId) :
    (⟨c, f, .ofList l, l.foldl (fun m b => m.set b 0) ∅, none⟩ : Frame V).InModule M where
  func := hf
  counters := by
    intro b
    suffices hzero : ∀ m : FMap BlockId Nat, m.get b ≤ 101 →
        (l.foldl (fun m b => m.set b 0) m).get b ≤ 101 from hzero ∅ (Nat.zero_le _)
    induction l with
    | nil => exact fun _ h => h
    | cons x l ih =>
        intro m hm
        refine ih _ ?_
        rw [FMap.get_set]
        split_ifs
        · exact Nat.zero_le _
        · exact hm
  block := by rintro _ ⟨⟩
  todo := by rintro _ ⟨⟩

theorem stepInst_progress_or_enters {run : BlockRun V} {i : Inst} {todo : List Inst}
    (hfr : fr.InModule M) (hr : fr.run = some run) (ht : run.todo = i :: todo) :
    (∃ fr', Progress M e fr rest (e.stepInst M P rpot fr rest run i todo) fr') ∨
      ∃ callee, Entered M e fr rest (e.stepInst M P rpot fr rest run i todo) callee := by
  rcases stepInst_cases M P rpot e fr rest run i todo with
    ⟨-, heq⟩ | ⟨callee, args, hc, hact, -, heq⟩ | ⟨callee, args, hc, -, heq⟩
  · rw [heq]
    exact .inl ⟨_, progress_advance hfr hr ht rfl rfl _⟩
  · rw [heq]
    have hi : i ∈ M.insts := hfr.todo run hr i (ht ▸ List.mem_cons_self)
    exact .inr ⟨⟨some i.id, callee, .ofList (rpot callee.id), _, none⟩, rfl, rfl, hact,
      mem_callPairs hi hc, inModule_enter (calledDefinition_mem hc) _ _, run, i, todo, args, _,
      hr, ht, hc, rfl, rfl⟩
  · rw [heq]
    refine .inl ⟨_, progress_advance hfr hr ht ?_ ?_ _⟩
    · rfl
    · rfl

/-- While something runs, it returns, goes on, or calls. -/
theorem step_running (hs : e.stack = fr :: rest) (hfr : fr.InModule M)
    (h : e.step M P usePC rpot = some e') :
    (fr.run = none ∧ fr.work.take = none ∧ Returned e fr rest e') ∨
      (∃ fr', Progress M e fr rest e' fr') ∨ ∃ callee, Entered M e fr rest e' callee := by
  cases step_move h with
  | enter hs' => cases hs.symm.trans hs'
  | drop hs' => cases hs.symm.trans hs'
  | finish hs' hr hw =>
      obtain ⟨rfl, rfl⟩ := List.cons.inj (hs.symm.trans hs')
      exact .inl ⟨hr, hw, returned_finish e fr rest⟩
  | takeBlock hs' hr hw =>
      obtain ⟨rfl, rfl⟩ := List.cons.inj (hs.symm.trans hs')
      exact .inr (.inl (progress_takeBlock hfr hr hw))
  | stepInst hs' hr ht =>
      obtain ⟨rfl, rfl⟩ := List.cons.inj (hs.symm.trans hs')
      exact .inr (stepInst_progress_or_enters hfr hr ht)
  | endBlock hs' hr ht =>
      obtain ⟨rfl, rfl⟩ := List.cons.inj (hs.symm.trans hs')
      exact .inr (.inl (progress_endBlock hfr hr))

/-- **A running call returns.** The machine stops if it stops from every state the call can return
to. -/
theorem halts_of_frame (e : Engine V) (fr : Frame V) (rest : List (Frame V))
    (hs : e.stack = fr :: rest) (hfr : fr.InModule M)
    (hafter : ∀ e', Returned e fr rest e' → Halts (Engine.step M P usePC rpot) e') :
    Halts (Engine.step M P usePC rpot) e := by
  have hprogress : ∀ e' fr', Progress M e fr rest e' fr' →
      Halts (Engine.step M P usePC rpot) e' := by
    intro e' fr' h
    have hdecreases := h.decreases
    exact halts_of_frame e' fr' rest h.stack h.inModule fun e'' hret => hafter e'' (h.returned hret)
  cases hstep : e.step M P usePC rpot with
  | none => exact .of_none hstep
  | some e₁ =>
      refine .of_step hstep ?_
      rcases step_running hs hfr hstep with ⟨-, -, hret⟩ | ⟨fr', h⟩ | ⟨callee, h⟩
      · exact hafter e₁ hret
      · exact hprogress e₁ fr' h
      · -- the callee returns by the smaller active set, to a caller that has less left
        obtain ⟨run, i, todo, args, s, -, -, -, -, hstack⟩ := h.stack
        have hlt := inactive_cons_lt h.pair h.fresh
        refine halts_of_frame e₁ callee _ hstack h.inModule fun e'' hret => ?_
        obtain ⟨fr', h'⟩ := h.progress hfr fun rest' hrest => by
          rw [hstack] at hrest
          exact (List.cons.inj hrest).2 ▸ hret
        exact hprogress e'' fr' h'
termination_by (inactive M e.active, fr.blocksLeft, fr.instsLeft)
decreasing_by
  · exact hdecreases
  · rw [h.active]
    exact .left _ _ hlt

/-- With nothing running, the context worklist gets shorter. -/
theorem halts_of_idle (n : Nat) : ∀ e : Engine V, e.stack = [] → e.contextWork.work.length ≤ n →
    Halts (Engine.step M P usePC rpot) e := by
  induction n with
  | zero =>
      intro e hs hn
      refine .of_none ?_
      unfold step WorkList.take
      rw [hs, List.length_eq_zero_iff.mp (Nat.le_zero.mp hn)]
  | succ n ih =>
      intro e hs hn
      cases hstep : e.step M P usePC rpot with
      | none => exact .of_none hstep
      | some e' =>
          refine .of_step hstep ?_
          cases step_move hstep with
          | @enter c f fn cw hs' hw hf =>
              obtain ⟨hwork, -⟩ := WorkList.take_eq_some hw
              rw [hwork, List.length_cons] at hn
              refine halts_of_frame _ ⟨c, fn, .ofList (rpot fn.id), _, none⟩ e.stack rfl
                (inModule_enter (List.mem_of_find?_eq_some hf) _ _) fun e'' hret => ?_
              rw [hs] at hret
              refine ih e'' hret.stack.of_nil ?_
              rw [hret.contextWork]
              exact Nat.le_of_succ_le_succ hn
          | drop hs' hw hf =>
              obtain ⟨hwork, -⟩ := WorkList.take_eq_some hw
              rw [hwork, List.length_cons] at hn
              exact ih _ hs (Nat.le_of_succ_le_succ hn)
          | finish hs' => cases hs.symm.trans hs'
          | takeBlock hs' => cases hs.symm.trans hs'
          | stepInst hs' => cases hs.symm.trans hs'
          | endBlock hs' => cases hs.symm.trans hs'

/-! ## How deep calls nest -/

/-- The active pairs are those of the stack, each once, and all but the outermost were entered by a
call of the module, at which the frame below waits. -/
structure Nested (M : Module) (e : Engine V) : Prop where
  active : e.active = e.stack.map Frame.pair
  nodup : e.active.Nodup
  calls : ∀ p ∈ e.active.dropLast, p ∈ callPairs M
  waiting : Waiting M e.stack
  frames : ∀ fr ∈ e.stack, fr.InModule M

omit [Inhabited V] in
theorem Resumed.map_pair {stack : List (Frame V)} (h : Resumed rest stack) :
    stack.map Frame.pair = rest.map Frame.pair := by
  cases h <;> rfl

omit [Inhabited V] in
theorem Resumed.inModule {stack : List (Frame V)} (h : Resumed rest stack)
    (hrest : ∀ fr ∈ rest, fr.InModule M) : ∀ fr ∈ stack, fr.InModule M := by
  cases h with
  | nil => exact hrest
  | stuck => exact hrest
  | next hr ht s =>
      obtain ⟨hcaller, hrest⟩ := List.forall_mem_cons.mp hrest
      exact List.forall_mem_cons.mpr
        ⟨hcaller.mk_run hr s (ht ▸ List.subset_cons_self _ _), hrest⟩

omit [Inhabited V] in
/-- The frames further down wait as before. -/
theorem Resumed.waiting {stack : List (Frame V)} (h : Resumed rest stack)
    (hrest : Waiting M rest) : Waiting M stack := by
  cases h with
  | nil => trivial
  | stuck => exact hrest
  | @next caller rest run i todo hr ht s => exact waiting_cons caller rfl rfl hrest

omit [Inhabited V] in
theorem Nested.returned (h : Nested M e) (hs : e.stack = fr :: rest)
    (hret : Returned e fr rest e') : Nested M e' := by
  have hact : e.active = fr.pair :: rest.map Frame.pair := by rw [h.active, hs, List.map_cons]
  have hnodup := h.nodup
  rw [hact, List.nodup_cons] at hnodup
  have hact' : e'.active = rest.map Frame.pair := by
    rw [hret.active, hact, List.filter_cons_of_neg (by simp)]
    refine List.filter_eq_self.mpr fun p hp => ?_
    have hne : p ≠ fr.pair := fun heq => hnodup.1 (heq ▸ hp)
    simpa using hne
  refine ⟨hact'.trans hret.stack.map_pair.symm, hact' ▸ hnodup.2, fun p hp => ?_, ?_, ?_⟩
  · refine h.calls p ?_
    rw [hact]
    rw [hact'] at hp
    cases hrest : rest.map Frame.pair with
    | nil =>
        rw [hrest] at hp
        cases hp
    | cons q l =>
        rw [hrest] at hp
        exact List.mem_cons_of_mem _ hp
  · refine hret.stack.waiting ?_
    have hwait := hs ▸ h.waiting
    cases rest with
    | nil => trivial
    | cons caller rest => exact hwait.2
  · exact hret.stack.inModule fun fr' hfr' => h.frames fr' (hs ▸ List.mem_cons_of_mem _ hfr')

omit [Inhabited V] in
theorem Nested.progress {fr' : Frame V} (h : Nested M e) (hs : e.stack = fr :: rest)
    (hp : Progress M e fr rest e' fr') : Nested M e' where
  active := by
    rw [hp.active, h.active, hs, hp.stack, List.map_cons, List.map_cons, pair_eq hp.context hp.func]
  nodup := hp.active ▸ h.nodup
  calls := hp.active ▸ h.calls
  waiting := by
    rw [hp.stack]
    exact waiting_cons fr hp.context hp.func (hs ▸ h.waiting)
  frames := by
    rw [hp.stack]
    exact List.forall_mem_cons.mpr
      ⟨hp.inModule, fun x hx => h.frames x (hs ▸ List.mem_cons_of_mem _ hx)⟩

omit [Inhabited V] in
theorem Nested.entered {callee : Frame V} (h : Nested M e) (hs : e.stack = fr :: rest)
    (he : Entered M e fr rest e' callee) : Nested M e' := by
  obtain ⟨run, i, todo, args, s, hr, ht, hc, hctx, hstack⟩ := he.stack
  obtain ⟨hfr, hrest⟩ := List.forall_mem_cons.mp (hs ▸ h.frames)
  refine ⟨?_, ?_, ?_, ?_, ?_⟩
  · rw [he.active, h.active, hs, hstack]
    rfl
  · rw [he.active]
    exact List.nodup_cons.mpr ⟨he.fresh, h.nodup⟩
  · rw [he.active]
    intro p hp
    have hne : e.active ≠ [] := by
      rw [h.active, hs]
      exact List.cons_ne_nil _ _
    rw [List.dropLast_cons_of_ne_nil hne] at hp
    rcases List.mem_cons.mp hp with rfl | hp
    · exact he.pair
    · exact h.calls p hp
  · rw [hstack]
    exact ⟨⟨_, i, todo, args, rfl, ht, hc, hctx⟩, waiting_cons fr rfl rfl (hs ▸ h.waiting)⟩
  · rw [hstack]
    exact List.forall_mem_cons.mpr ⟨he.inModule, List.forall_mem_cons.mpr
      ⟨hfr.mk_run hr s (List.Subset.refl _), hrest⟩⟩

theorem Nested.step (h : Nested M e) (hstep : e.step M P usePC rpot = some e') : Nested M e' := by
  cases hs : e.stack with
  | nil =>
      have hact : e.active = [] := by rw [h.active, hs]; rfl
      cases step_move hstep with
      | @enter c f fn cw hs' hw hf =>
          refine ⟨?_, ?_, ?_, ?_, ?_⟩
          · show (c, fn.id) :: e.active = _
            rw [hact]
            show _ = (c, fn.id) :: e.stack.map Frame.pair
            rw [hs]
            rfl
          · show ((c, fn.id) :: e.active).Nodup
            rw [hact]
            exact List.nodup_singleton _
          · show ∀ p ∈ ((c, fn.id) :: e.active).dropLast, _
            rw [hact]
            intro p hp
            cases hp
          · show Waiting M (_ :: e.stack)
            rw [hs]
            trivial
          · refine List.forall_mem_cons.mpr ⟨?_, ?_⟩
            · exact inModule_enter (List.mem_of_find?_eq_some hf) _ _
            · exact h.frames
      | drop hs' hw hf => exact ⟨h.active, h.nodup, h.calls, h.waiting, h.frames⟩
      | finish hs' => cases hs.symm.trans hs'
      | takeBlock hs' => cases hs.symm.trans hs'
      | stepInst hs' => cases hs.symm.trans hs'
      | endBlock hs' => cases hs.symm.trans hs'
  | cons fr rest =>
      have hfr : fr.InModule M := h.frames fr (hs ▸ List.mem_cons_self)
      rcases step_running hs hfr hstep with ⟨-, -, hret⟩ | ⟨fr', hp⟩ | ⟨callee, he⟩
      · exact h.returned hs hret
      · exact h.progress hs hp
      · exact h.entered hs he

omit [Inhabited V] in
/-- No more calls run at once than there are pairs. -/
theorem Nested.length_le (h : Nested M e) : e.stack.length ≤ (callPairs M).length + 1 := by
  have hlen : e.stack.length = e.active.length := by rw [h.active, List.length_map]
  have hsub : e.active.dropLast.length ≤ (callPairs M).length :=
    ((h.nodup.sublist (List.dropLast_sublist _)).subperm h.calls).length_le
  rw [List.length_dropLast] at hsub
  omega

end Engine

/-- **The range analysis ends**, with nothing running and nothing waiting. On the way no more calls
run at once than the module has calls and one, and no block is counted above 101. -/
theorem computeForwardDataflow_terminates (M : Module) (DL : DataLayout) (usePC : Bool)
    (rpot : FuncId → List BlockId) (entryPoints : List FuncId) :
    (∃ n, Engine.step M (rangePolicy M DL) usePC rpot
        (stepN (Engine.step M (rangePolicy M DL) usePC rpot) n
          (Engine.initial entryPoints)) = none ∧
      (stepN (Engine.step M (rangePolicy M DL) usePC rpot) n
        (Engine.initial entryPoints)).stack = [] ∧
      (stepN (Engine.step M (rangePolicy M DL) usePC rpot) n
        (Engine.initial entryPoints)).contextWork.work = []) ∧
    ∀ e, Run (Engine.step M (rangePolicy M DL) usePC rpot) (fun _ => True)
        (Engine.initial entryPoints) e →
      e.stack.length ≤ (callPairs M).length + 1 ∧
        ∀ fr ∈ e.stack, ∀ b, fr.blackmap.get b ≤ 101 := by
  refine ⟨?_, fun e hrun => ?_⟩
  · have hhalts : Halts (Engine.step M (rangePolicy M DL) usePC rpot)
        (Engine.initial entryPoints) := Engine.halts_of_idle _ _ rfl (Nat.le_refl _)
    obtain ⟨n, hn⟩ := hhalts
    obtain ⟨hs, hw⟩ := Engine.step_eq_none hn
    exact ⟨n, hn, hs, WorkList.take_eq_none hw⟩
  · have hinit : Engine.Nested M (Engine.initial entryPoints : Engine RangeValue) :=
      ⟨rfl, List.nodup_nil, by rintro _ ⟨⟩, trivial, by rintro _ ⟨⟩⟩
    have hnested := hrun.invariant (P := Engine.Nested M) hinit fun a b ha _ h => ha.step h
    exact ⟨hnested.length_le, fun fr hfr => (hnested.frames fr hfr).counters⟩

end MSV
