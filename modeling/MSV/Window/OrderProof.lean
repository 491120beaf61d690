import MSV.Window.SurveyProof

/-!
# The window and the order of the sources

Explorations share a call stack, which only the branches clear, and a set of visited instructions,
whose key has no call stack. So what one leaves behind decides where the next one returns to, and
what it leaves out.

**Theorem (`window_monotone`).** Of two undisturbed runs the one with the larger window leaves no
GEP the other one does not leave.

**Theorem (`order_independent`).** The sources may be explored in any order, and the call sites of a
function too: undisturbed runs leave the same GEPs, and each exploration erases the GEPs its source
comes to.

Both follow from `Survey.left_iff`: what is left is said there without the state of the pass.
-/

namespace MSV

variable {M : Module} (E E' : WindowEnv M)

/-- A place the pass starts an exploration from. -/
def WindowEnv.Source (p : Pos) : Prop :=
  ∃ f, CalledFromMain E f ∧ Task.start p ∈ Window.analyzeFunction E f

/-- The same call graph and entry; the windows and the orders of the call sites may differ. -/
structure WindowEnv.Agrees : Prop where
  CG : E.CG = E'.CG
  mainFunction : E.mainFunction = E'.mainFunction

variable {E E'}

/-! ## What does not depend on the window and on the order of the call sites -/

section Agrees

variable (h : E.Agrees E')

include h

theorem WindowEnv.Agrees.symm : E'.Agrees E := ⟨h.CG.symm, h.mainFunction.symm⟩

theorem isRecursive_congr : E.isRecursive = E'.isRecursive := by
  have hcallees : E.callees = E'.callees := by
    funext g
    unfold WindowEnv.callees
    rw [h.CG]
  funext g
  unfold WindowEnv.isRecursive
  rw [hcallees]

theorem entered_congr : E.entered = E'.entered := by
  funext i
  unfold WindowEnv.entered
  rw [isRecursive_congr h]

theorem mem_returnsTo_congr {f : Function} {k : List Site} {n : Nat} {c : Config} :
    c ∈ E.returnsTo f k n ↔ c ∈ E'.returnsTo f k n := by
  cases k with
  | nil => rw [mem_returnsTo_nil, mem_returnsTo_nil, isRecursive_congr h]
  | cons s rest => rfl

theorem mem_successors_congr {c c' : Config} :
    c' ∈ E.successors c ↔ c' ∈ E'.successors c := by
  unfold WindowEnv.successors
  rw [entered_congr h]
  split
  · unfold WindowEnv.afterBlock
    split
    · rfl
    · split
      · rfl
      · rfl
      · split_ifs
        · rfl
        · rfl
        · exact mem_returnsTo_congr h
      · split
        · rfl
        · exact mem_returnsTo_congr h
  · rfl

/-- A larger window hits more. -/
theorem Survey.Hits.mono (hW : E.windowSize ≤ E'.windowSize) {r : Config} {id : InstId}
    (hhits : Hits E r id) : Hits E' r id := by
  obtain ⟨c, hreach, hlive, hat⟩ := hhits
  refine ⟨c, Relation.ReflTransGen.mono (fun a b hb => (mem_successors_congr h).mp hb) _ _ hreach,
    ?_, hat⟩
  unfold WindowEnv.Live at hlive ⊢
  omega

theorem calledFromMain_congr {f : Function} (hf : CalledFromMain E f) : CalledFromMain E' f := by
  induction hf with
  | main =>
      rw [h.mainFunction]
      exact .main
  | call _ hi hg ih => exact .call ih hi hg

theorem analyzeFunction_congr (f : Function) :
    Window.analyzeFunction E f = Window.analyzeFunction E' f := by
  unfold Window.analyzeFunction Window.callStarts Window.isSourceCall
  rw [isRecursive_congr h]

theorem source_congr {p : Pos} (hp : E.Source p) : E'.Source p := by
  obtain ⟨f, hf, hstart⟩ := hp
  exact ⟨f, calledFromMain_congr h hf, analyzeFunction_congr h f ▸ hstart⟩

end Agrees

/-! ## The run of the pass -/

namespace Survey

variable {s : Survey}

theorem mem_of_calledFromMain {f : Function} (hf : CalledFromMain E f) : f ∈ M.funcs := by
  cases hf with
  | main => exact E.main_mem
  | call _ _ hg =>
      obtain ⟨k, -, hk⟩ := Option.bind_eq_some_iff.mp hg
      exact List.mem_of_find?_eq_some hk

theorem origin : Origin E (CalledFromMain E) E.Source where
  mem := mem_of_calledFromMain
  called := fun hf hi hg => .call hf hi hg
  starts := fun hf hp => ⟨_, hf, hp⟩

theorem settled_initial : Settled E (CalledFromMain E) E.Source (initial E) where
  shape := by
    refine ⟨(Track.inv_initial (E := E)).wf, trivial, fun f hf => ?_, ?_, ?_, ?_⟩
    · rw [List.mem_singleton.mp hf]
      exact .main
    · exact fun f hf => nomatch hf
    · exact fun p hp => nomatch hp
    · exact fun r hr => nomatch hr
  cursor := rfl
  tasks := fun u hu => nomatch hu
  closed := fun c hc => nomatch hc
  places := fun c hc => nomatch hc
  erased := fun c hc => nomatch hc
  roots := rfl

/-- The functions of the queue, and the starts of those that have been taken from it. -/
structure Queued (E : WindowEnv M) (s : Survey) : Prop where
  functions : Track.Functions E s.win
  started : ∀ f ∈ M.funcs, f.id ∈ s.win.visitedFunctions → ∀ p,
    Task.start p ∈ Window.analyzeFunction E f →
      Task.start p ∈ s.win.tasks ∨ ⟨p, [], 0⟩ ∈ s.roots

theorem Queued.next (hM : M.WF) {s' : Survey} (hwf : Track.WellFormed (M := M) s.win)
    (h : Queued E s) (hok : Undisturbed E s) (hnext : s.next E = some s') : Queued E s' := by
  have hstarted : ∀ f ∈ M.funcs, f.id ∈ s.win.visitedFunctions → ∀ p,
      Task.start p ∈ Window.analyzeFunction E f →
        Task.start p ∈ s'.win.tasks ∨ ⟨p, [], 0⟩ ∈ s'.roots :=
    fun f hf hvis p hp => started_next hok hnext (h.started f hf hvis p hp)
  obtain ⟨w, hw, rfl⟩ := Option.map_eq_some_iff.mp hnext
  refine ⟨h.functions.next hM hwf hw, fun f hf hvis p hp => ?_⟩
  obtain ⟨q, hcursor, rfl⟩ | ⟨u, ts, hcursor, htasks, rfl⟩ |
    ⟨g, rest, hcursor, htasks, hqueue, rfl⟩ := Track.next_cases hw
  · rw [(Track.turned_turn (E := E) hM hwf hcursor).functions] at hvis
    exact hstarted f hf hvis p hp
  · rw [visitedFunctions_perform] at hvis
    exact hstarted f hf hvis p hp
  · obtain hid | hvis := List.mem_cons.mp hvis
    · have hg : g ∈ M.funcs := h.functions.queue g (hqueue ▸ List.mem_cons_self)
      obtain rfl := List.inj_on_of_nodup_map hM.funcs_nodup hf hg hid
      exact .inl (List.mem_append_left _ hp)
    · exact hstarted f hf hvis p hp

theorem queued_run (hM : M.WF) (hrun : Run (next E) (Undisturbed E) (initial E) s) :
    Queued E s := by
  have hfirst : Queued E (initial E) :=
    ⟨(Track.inv_initial (E := E)).functions, fun f _ hvis => nomatch hvis⟩
  have hboth : Shape M (CalledFromMain E) E.Source s ∧ Queued E s :=
    hrun.invariant (P := fun s => Shape M (CalledFromMain E) E.Source s ∧ Queued E s)
      ⟨settled_initial.shape, hfirst⟩
      fun _ _ h hok hnext => ⟨h.1.next hM origin hok hnext, h.2.next hM h.1.wf hok hnext⟩
  exact hboth.2

/-- **The pass starts from every source.** -/
theorem source_root (hM : M.WF) (hrun : Run (next E) (Undisturbed E) (initial E) s)
    (hend : s.next E = none) {p : Pos} (hp : E.Source p) : ⟨p, [], 0⟩ ∈ s.roots := by
  have hqueued := queued_run hM hrun
  obtain ⟨-, htasks, hqueue⟩ := Track.done_of_next (Option.map_eq_none_iff.mp hend)
  obtain ⟨f, hf, hstart⟩ := hp
  obtain ⟨hfm, hvis⟩ := hqueued.functions.visited htasks hqueue hf
  refine (hqueued.started f hfm hvis p hstart).resolve_left ?_
  rw [htasks]
  exact List.not_mem_nil

theorem agenda_of_end (hend : s.next E = none) : s.win.agenda = [] := by
  obtain ⟨hcursor, htasks, -⟩ := Track.done_of_next (Option.map_eq_none_iff.mp hend)
  rw [Window.agenda_of_none hcursor, htasks]
  rfl

/-- What the pass starts with are the GEPs. -/
theorem gep_of_mem_initial {id : InstId} (h : id ∈ (initial E).win.OOWInstructions) :
    ∃ g ∈ M.insts, g.kind.isGEP = true ∧ g.id = id := by
  obtain ⟨g, hg, rfl⟩ := List.mem_map.mp h
  obtain ⟨hmem, hgep⟩ := List.mem_filter.mp hg
  exact ⟨g, hmem, hgep, rfl⟩

/-- What a run leaves, once it has started from everything it may start from. -/
theorem mem_left_of_roots {Q : Function → Prop} {P : Pos → Prop} (hM : M.WF) (hO : Origin E Q P)
    {s₀ : Survey} (h₀ : Settled E Q P s₀) (hrun : Run (next E) (Undisturbed E) s₀ s)
    (hend : s.next E = none) (hroots : ∀ p, P p → ⟨p, [], 0⟩ ∈ s.roots) {id : InstId}
    (hid : id ∈ s₀.win.OOWInstructions → id ∈ (initial E).win.OOWInstructions) :
    id ∈ s.win.OOWInstructions ↔
      id ∈ s₀.win.OOWInstructions ∧ ∀ p, P p → ¬ Hits E ⟨p, [], 0⟩ id := by
  have halong := along_run hM hO h₀ hrun
  constructor
  · intro hleft
    obtain ⟨g, hg, hgep, rfl⟩ := gep_of_mem_initial (hid (halong.subset id hleft))
    obtain ⟨hfirst, hno⟩ := (left_iff hM h₀ halong (agenda_of_end hend) hg hgep).mp hleft
    exact ⟨hfirst, fun p hp => hno _ (hroots p hp)⟩
  · rintro ⟨hfirst, hno⟩
    obtain ⟨g, hg, hgep, rfl⟩ := gep_of_mem_initial (hid hfirst)
    refine (left_iff hM h₀ halong (agenda_of_end hend) hg hgep).mpr ⟨hfirst, fun r hr => ?_⟩
    obtain ⟨p, rfl, hp, -⟩ := halong.shape.roots r hr
    exact hno p hp

/-- **What the pass leaves**: the GEPs no source comes to. -/
theorem mem_left_iff (hM : M.WF) (hrun : Run (next E) (Undisturbed E) (initial E) s)
    (hend : s.next E = none) {id : InstId} :
    id ∈ s.win.OOWInstructions ↔ id ∈ (initial E).win.OOWInstructions ∧
      ∀ p, E.Source p → ¬ Hits E ⟨p, [], 0⟩ id :=
  mem_left_of_roots hM origin settled_initial hrun hend
    (fun _ hp => source_root hM hrun hend hp) fun h => h

end Survey

/-- **A larger window leaves no more GEPs**, in undisturbed runs. -/
theorem window_monotone (hM : M.WF) (hE : E.Agrees E') (hW : E.windowSize ≤ E'.windowSize)
    {s s' : Survey} (hrun : Run (Survey.next E) (Survey.Undisturbed E) (Survey.initial E) s)
    (hend : s.next E = none)
    (hrun' : Run (Survey.next E') (Survey.Undisturbed E') (Survey.initial E') s')
    (hend' : s'.next E' = none) :
    ∀ id ∈ s'.win.OOWInstructions, id ∈ s.win.OOWInstructions := by
  intro id hid
  obtain ⟨hfirst, hno⟩ := (Survey.mem_left_iff hM hrun' hend').mp hid
  refine (Survey.mem_left_iff hM hrun hend).mpr ⟨hfirst, fun p hp hhits => ?_⟩
  exact hno p (source_congr hE hp) (hhits.mono hE hW)

/-! ## Runs that are not disturbed -/

namespace Survey

/-- Nothing is left out, and a start finds the call stack empty. -/
def quiet (s : Survey) : Bool :=
  match s.win.cursor, s.win.tasks with
  | none, .start p :: _ => s.win.callStack.isEmpty &&
      p.todo.head?.all fun i => s.win.visitedInstructions.all fun v => v ≠ (i.id, 0)
  | none, .explore p :: _ =>
      p.todo.head?.all fun i => s.win.visitedInstructions.all fun v => v ≠ (i.id, s.win.step)
  | _, _ => true

theorem pruneOK_of_new {s : Survey} {p : Pos} {n : Nat}
    (h : (p.todo.head?.all fun i => s.win.visitedInstructions.all fun v => v ≠ (i.id, n)) = true) :
    PruneOK E s p n := by
  intro i rest hp hseen
  rw [hp] at h
  simp only [List.head?_cons, Option.all_some, List.all_eq_true, decide_eq_true_iff] at h
  exact absurd rfl (h (i.id, n) hseen)

theorem undisturbed_of_quiet {s : Survey} (h : s.quiet = true) : Undisturbed E s := by
  unfold quiet at h
  unfold Undisturbed
  cases hcursor : s.win.cursor with
  | some p => trivial
  | none =>
      rw [hcursor] at h
      cases htasks : s.win.tasks with
      | nil => trivial
      | cons u ts =>
          rw [htasks] at h
          cases u with
          | start p =>
              obtain ⟨hstack, hnew⟩ := Bool.and_eq_true_iff.mp h
              exact ⟨List.isEmpty_iff.mp hstack, pruneOK_of_new hnew⟩
          | explore p => exact pruneOK_of_new h
          | _ => trivial

end Survey

/-- The pass over one branch, after `n` steps. -/
def splitSurvey (window : Int) (n : Nat) : Survey :=
  stepN (Survey.next (splitEnv splitBranch window)) n (Survey.initial (splitEnv splitBranch window))

/-! ## A call that is left on the stack -/

/-- `main` calls `k` and `f`. From the indirect call in `k` the callee `h` is entered; behind that
in `f` the function returns, to the GEP of `main`. -/
def leftoverMain : Function :=
  ⟨0, "main", [.ptr (.int 8), .int 32], [⟨0, [
    ⟨0, .void, .call (.direct 1) []⟩,
    ⟨1, .void, .call (.direct 2) []⟩,
    ⟨2, .ptr (.int 8), .gep (.int 8) (.arg 0 0) [.arg 0 1]⟩,
    ⟨3, .void, .ret none⟩]⟩]⟩

def leftoverK : Function :=
  ⟨1, "k", [.ptr (.int 8)], [⟨1, [
    ⟨4, .void, .call (.indirect (.arg 1 0)) []⟩,
    ⟨5, .int 32, .other []⟩,
    ⟨6, .int 32, .other []⟩,
    ⟨7, .void, .call (.direct 3) []⟩,
    ⟨8, .void, .ret none⟩]⟩]⟩

def leftoverF : Function :=
  ⟨2, "f", [.ptr (.int 8)], [⟨2, [
    ⟨9, .void, .call (.indirect (.arg 2 0)) []⟩,
    ⟨10, .void, .ret none⟩]⟩]⟩

def leftoverH : Function :=
  ⟨3, "h", [], [⟨3, [
    ⟨11, .int 32, .other []⟩,
    ⟨12, .int 32, .other []⟩,
    ⟨13, .void, .ret none⟩]⟩]⟩

def leftoverModule : Module where
  structs := fun _ => []
  globals := []
  funcs := [leftoverMain, leftoverK, leftoverF, leftoverH]

theorem leftoverModule_wf : leftoverModule.WF where
  funcs_nodup := by decide
  blocks_nodup := by decide
  insts_nodup := by decide
  terminated := Module.terminated_of_last (by decide)
  targets := by decide
  operands := Module.operands_of_isStore_eq_false (by decide)

def leftoverEnv (window : Int) : WindowEnv leftoverModule where
  windowSize := window
  CG := fun g => match g with
    | 0 => [some 1, some 2]
    | 1 => [none, some 3]
    | 2 => [none]
    | _ => []
  mainFunction := leftoverMain
  main_mem := List.mem_cons_self
  functionCallSiteMap := leftoverModule.callSitesOf
  callSites_perm := fun _ => List.Perm.refl _

/-- The pass after `n` steps. -/
def leftoverRun (window : Int) (n : Nat) : Window :=
  stepN (Window.next (leftoverEnv window)) n (Window.initial (leftoverEnv window))

/-- With a window of three the exploration in `k` ends before the call of `h`, and the one in `f`
comes to the GEP. With a window of six it ends in `h`, and the one in `f` returns to `k`. -/
theorem larger_window_leaves_more : leftoverModule.WF ∧
    ((leftoverRun 3 21).next (leftoverEnv 3)).isNone = true ∧
    ((leftoverRun 6 28).next (leftoverEnv 6)).isNone = true ∧
    ¬ ∀ id ∈ (leftoverRun 6 28).OOWInstructions, id ∈ (leftoverRun 3 21).OOWInstructions := by
  refine ⟨leftoverModule_wf, by decide +kernel, by decide +kernel, fun h => ?_⟩
  have hleft : 2 ∈ (leftoverRun 6 28).OOWInstructions := by decide +kernel
  have hgone : 2 ∉ (leftoverRun 3 21).OOWInstructions := by decide +kernel
  exact hgone (h 2 hleft)

/-- The same pass with its log, after `n` steps. -/
def leftoverSurvey (window : Int) (n : Nat) : Survey :=
  stepN (Survey.next (leftoverEnv window)) n (Survey.initial (leftoverEnv window))

/-- With windows of one and two, which end before the calls, the GEP of `main` is left. -/
theorem leftover_window_monotone : (leftoverSurvey 2 16).win.OOWInstructions = [2] ∧
    ∀ id ∈ (leftoverSurvey 2 16).win.OOWInstructions,
      id ∈ (leftoverSurvey 1 14).win.OOWInstructions := by
  have hquiet : ∀ m < 14, (leftoverSurvey 1 m).quiet = true := by decide +kernel
  have hquiet' : ∀ m < 16, (leftoverSurvey 2 m).quiet = true := by decide +kernel
  have hend : ((leftoverSurvey 1 14).next (leftoverEnv 1)).isNone = true := by decide +kernel
  have hend' : ((leftoverSurvey 2 16).next (leftoverEnv 2)).isNone = true := by decide +kernel
  have hagree : (leftoverEnv 1).Agrees (leftoverEnv 2) := ⟨rfl, rfl⟩
  refine ⟨by decide +kernel, ?_⟩
  exact window_monotone leftoverModule_wf hagree (by decide)
    (run_stepN_of 14 _ fun m hm => Survey.undisturbed_of_quiet (hquiet m hm))
    (Option.isNone_iff_eq_none.mp hend)
    (run_stepN_of 16 _ fun m hm => Survey.undisturbed_of_quiet (hquiet' m hm))
    (Option.isNone_iff_eq_none.mp hend')

/-! ## Another order -/

/-- The starts in a given order, each with whether the call stack is cleared behind it. -/
def startTasks (σ : List (Pos × Bool)) : List Task :=
  σ.flatMap fun x => .start x.1 :: if x.2 then [.clear] else []

theorem mem_startTasks {σ : List (Pos × Bool)} {u : Task} :
    u ∈ startTasks σ → u = .clear ∨ ∃ p b, (p, b) ∈ σ ∧ u = .start p := by
  intro h
  obtain ⟨⟨p, b⟩, hp, hu⟩ := List.mem_flatMap.mp h
  obtain rfl | hu := List.mem_cons.mp hu
  · exact .inr ⟨p, b, hp, rfl⟩
  · split_ifs at hu
    · exact .inl (List.mem_singleton.mp hu)
    · cases hu

theorem start_mem_startTasks {σ : List (Pos × Bool)} {p : Pos} {b : Bool} (h : (p, b) ∈ σ) :
    Task.start p ∈ startTasks σ :=
  List.mem_flatMap.mpr ⟨(p, b), h, List.mem_cons_self⟩

namespace Survey

/-- The pass with nothing but these starts. -/
def inOrder (E : WindowEnv M) (σ : List (Pos × Bool)) : Survey :=
  ⟨{ Window.initial E with functionsWillBeAnalyzed := [], tasks := startTasks σ }, [], []⟩

/-- One exploration from a state of the pass, and nothing else. -/
def alone (s : Survey) (p : Pos) : Survey :=
  ⟨{ s.win with functionsWillBeAnalyzed := [], tasks := [.start p] }, s.seen, []⟩

/-- No function is analysed. -/
theorem origin_none {P : Pos → Prop} : Origin E (fun _ => False) P where
  mem := fun h => h.elim
  called := fun h _ _ => h.elim
  starts := fun h _ => h.elim

variable {s : Survey}

/-- A start of the first state is a root of the last one. -/
theorem root_of_start {s₀ : Survey} (hrun : Run (next E) (Undisturbed E) s₀ s)
    (hend : s.next E = none) {p : Pos} (hp : Task.start p ∈ s₀.win.tasks) :
    ⟨p, [], 0⟩ ∈ s.roots := by
  have hstarted : Task.start p ∈ s.win.tasks ∨ ⟨p, [], 0⟩ ∈ s.roots :=
    hrun.invariant (P := fun s => Task.start p ∈ s.win.tasks ∨ ⟨p, [], 0⟩ ∈ s.roots) (.inl hp)
      fun _ _ h hok hnext => started_next hok hnext h
  refine hstarted.resolve_left ?_
  rw [(Track.done_of_next (Option.map_eq_none_iff.mp hend)).2.1]
  exact List.not_mem_nil

theorem wf_of_source (hM : M.WF) {p : Pos} (hp : E.Source p) : p.WF M ∧ p.todo ≠ [] := by
  obtain ⟨f, hf, hstart⟩ := hp
  obtain ⟨q, heq, hwf⟩ | hq := Track.mem_analyzeFunction hM (mem_of_calledFromMain hf) hstart
  · obtain rfl := Task.start.inj heq
    exact hwf
  · cases hq

theorem settled_inOrder (hM : M.WF) {σ : List (Pos × Bool)}
    (hσ : ∀ p b, (p, b) ∈ σ → E.Source p) :
    Settled E (fun _ => False) E.Source (inOrder E σ) where
  shape := by
    have hstart : ∀ p, Task.start p ∈ startTasks σ → E.Source p := by
      intro p hp
      obtain hp | ⟨q, b, hq, hp⟩ := mem_startTasks hp
      · cases hp
      · obtain rfl := Task.start.inj hp
        exact hσ _ _ hq
    have hnone : ∀ u ∈ startTasks σ, u.isOuter = true ∧ ∀ f, u ≠ .callees f := by
      intro u hu
      obtain rfl | ⟨q, b, -, rfl⟩ := mem_startTasks hu
      · exact ⟨rfl, fun f hf => nomatch hf⟩
      · exact ⟨rfl, fun f hf => nomatch hf⟩
    refine ⟨⟨?_, ?_, fun p hp => ?_, fun p hp => wf_of_source hM (hstart p hp), fun n l hl => ?_⟩,
      guarded_of_outer (fun u hu => (hnone u hu).1) _, ?_, fun f hf => ?_, hstart, ?_⟩
    · exact fun p hp => nomatch hp
    · exact fun s hs => nomatch hs
    · cases (hnone _ hp).1
    · cases (hnone _ hl).1
    · exact fun f hf => nomatch hf
    · exact (hnone _ hf).2 f rfl
    · exact fun r hr => nomatch hr
  cursor := rfl
  tasks := by
    intro u hu
    obtain rfl | ⟨q, b, -, rfl⟩ := mem_startTasks hu <;> rfl
  closed := fun c hc => nomatch hc
  places := fun c hc => nomatch hc
  erased := fun c hc => nomatch hc
  roots := rfl

/-- What is left does not say in which order the sources were explored. -/
theorem mem_left_inOrder_iff (hM : M.WF) {σ : List (Pos × Bool)}
    (hσ : ∀ p, (∃ b, (p, b) ∈ σ) ↔ E.Source p)
    (hrun : Run (next E) (Undisturbed E) (inOrder E σ) s) (hend : s.next E = none) {id : InstId} :
    id ∈ s.win.OOWInstructions ↔ id ∈ (initial E).win.OOWInstructions ∧
      ∀ p, E.Source p → ¬ Hits E ⟨p, [], 0⟩ id := by
  refine mem_left_of_roots hM origin_none
    (settled_inOrder hM fun p b hp => (hσ p).mp ⟨b, hp⟩) hrun hend (fun p hp => ?_) fun h => h
  obtain ⟨b, hb⟩ := (hσ p).mpr hp
  exact root_of_start hrun hend (start_mem_startTasks hb)

/-- Between two explorations of the pass. -/
theorem settled_alone (hM : M.WF) (hrun : Run (next E) (Undisturbed E) (initial E) s)
    (hcursor : s.win.cursor = none) {p : Pos} {ts : List Task}
    (htasks : s.win.tasks = .start p :: ts) :
    Settled E (fun _ => False) (· = p) (s.alone p) where
  shape := by
    have hwf := (along_run hM origin settled_initial hrun).shape.wf
    have hstart : ∀ q, Task.start q ∈ (s.alone p).win.tasks → q = p := by
      intro q hq
      exact Task.start.inj (List.mem_singleton.mp hq)
    refine ⟨⟨?_, hwf.stack, ?_, ?_, ?_⟩, fun u hu => ?_, ?_, ?_, hstart, ?_⟩
    · exact fun q hq => hwf.cursor q hq
    · intro q hq
      cases List.mem_singleton.mp hq
    · intro q hq
      rw [hstart q hq]
      exact hwf.start p (htasks ▸ List.mem_cons_self)
    · intro n l hl
      cases List.mem_singleton.mp hl
    · cases hu
    · exact fun f hf => nomatch hf
    · intro f hf
      cases List.mem_singleton.mp hf
    · exact fun r hr => nomatch hr
  cursor := hcursor
  tasks := by
    intro u hu
    rw [List.mem_singleton.mp hu]
    rfl
  closed := by
    have halong := along_run hM origin settled_initial hrun
    have hguard : ∀ u ∈ ts, u.isOuter = true := by
      have hg := halong.shape.guarded
      unfold GuardedIn at hg
      rw [htasks] at hg
      exact hg
    have hagenda : s.win.agenda = [] := by
      rw [Window.agenda_of_none hcursor, htasks]
      exact plan_of_outer hguard none
    exact (complete hM settled_initial halong).closed hagenda
  places := fun _ hc =>
    place_of_seen hM settled_initial (along_run hM origin settled_initial hrun) hc
  erased := (along_run hM origin settled_initial hrun).erased
  roots := rfl

/-- **An exploration erases what its source comes to**, whatever was left behind before it. -/
theorem mem_left_alone_iff (hM : M.WF) (hrun : Run (next E) (Undisturbed E) (initial E) s)
    (hcursor : s.win.cursor = none) {p : Pos} {ts : List Task}
    (htasks : s.win.tasks = .start p :: ts) {s' : Survey}
    (hrun' : Run (next E) (Undisturbed E) (s.alone p) s') (hend : s'.next E = none) {id : InstId} :
    id ∈ s'.win.OOWInstructions ↔
      id ∈ s.win.OOWInstructions ∧ ¬ Hits E ⟨p, [], 0⟩ id := by
  have hroot : ∀ q, q = p → ⟨q, [], 0⟩ ∈ s'.roots := by
    rintro q rfl
    exact root_of_start hrun' hend List.mem_cons_self
  have hleft := mem_left_of_roots hM origin_none (settled_alone hM hrun hcursor htasks) hrun' hend
    hroot ((along_run hM origin settled_initial hrun).subset id)
  rw [hleft, forall_eq]
  rfl

end Survey

/-- **The order does not matter**, in undisturbed runs: the GEPs that are left are the same when the
sources, and the call sites of each function, are taken in another order, and an exploration erases
the GEPs its source comes to. -/
theorem order_independent (hM : M.WF) (hE : E.Agrees E') (hW : E.windowSize = E'.windowSize)
    {σ : List (Pos × Bool)} (hσ : ∀ p, (∃ b, (p, b) ∈ σ) ↔ E.Source p) {s s' : Survey}
    (hrun : Run (Survey.next E) (Survey.Undisturbed E) (Survey.initial E) s)
    (hend : s.next E = none)
    (hrun' : Run (Survey.next E') (Survey.Undisturbed E') (Survey.inOrder E' σ) s')
    (hend' : s'.next E' = none) :
    (∀ id, id ∈ s.win.OOWInstructions ↔ id ∈ s'.win.OOWInstructions) ∧
    ∀ (a b : Survey) (p : Pos) (ts : List Task),
      Run (Survey.next E) (Survey.Undisturbed E) (Survey.initial E) a → a.win.cursor = none →
      a.win.tasks = .start p :: ts →
      Run (Survey.next E) (Survey.Undisturbed E) (a.alone p) b → b.next E = none →
      ∀ id, id ∈ b.win.OOWInstructions ↔
        id ∈ a.win.OOWInstructions ∧ ¬ Survey.Hits E ⟨p, [], 0⟩ id := by
  refine ⟨fun id => ?_, fun a b p ts ha hcursor htasks hb hbend id =>
    Survey.mem_left_alone_iff hM ha hcursor htasks hb hbend⟩
  have hσ' : ∀ p, (∃ b, (p, b) ∈ σ) ↔ E'.Source p := fun p =>
    (hσ p).trans ⟨source_congr hE, source_congr hE.symm⟩
  rw [Survey.mem_left_iff hM hrun hend, Survey.mem_left_inOrder_iff hM hσ' hrun' hend']
  refine and_congr_right fun _ => ⟨fun hno p hp hhits => ?_, fun hno p hp hhits => ?_⟩
  · exact hno p (source_congr hE.symm hp) (hhits.mono hE.symm hW.ge)
  · exact hno p (source_congr hE hp) (hhits.mono hE hW.le)

/-- The second block first. -/
def splitOrder : List (Pos × Bool) :=
  [2, 1].filterMap fun b => (splitStart splitBranch 1 b).map (·, true)

theorem splitOrder_sources (p : Pos) :
    (∃ b, (p, b) ∈ splitOrder) ↔ (splitEnv splitBranch 1).Source p := by
  have hstarts : (∃ b, (p, b) ∈ splitOrder) ↔
      Task.start p ∈ Window.analyzeFunction (splitEnv splitBranch 1)
        (splitEnv splitBranch 1).mainFunction := by
    show (∃ b, (p, b) ∈ [(_, true), (_, true)]) ↔
      Task.start p ∈ [Task.start _, .clear, Task.start _, .clear]
    simp only [List.mem_cons, Prod.mk.injEq, List.not_mem_nil, or_false, Task.start.injEq,
      reduceCtorEq, false_or]
    constructor
    · rintro ⟨b, ⟨rfl, -⟩ | ⟨rfl, -⟩⟩
      · exact .inr rfl
      · exact .inl rfl
    · rintro (rfl | rfl)
      · exact ⟨true, .inr ⟨rfl, rfl⟩⟩
      · exact ⟨true, .inl ⟨rfl, rfl⟩⟩
  rw [hstarts]
  constructor
  · exact fun h => ⟨_, .main, h⟩
  · rintro ⟨f, hf, h⟩
    obtain rfl := List.mem_singleton.mp (Survey.mem_of_calledFromMain hf)
    exact h

/-- The pass over one branch in that order, after `n` steps. -/
def splitSurveyInOrder (n : Nat) : Survey :=
  stepN (Survey.next (splitEnv splitBranch 1)) n
    (Survey.inOrder (splitEnv splitBranch 1) splitOrder)

/-- Both orders leave the GEP behind another instruction. -/
theorem split_order_independent : (splitSurvey 1 10).win.OOWInstructions = [2] ∧
    (∀ id, id ∈ (splitSurvey 1 10).win.OOWInstructions ↔
      id ∈ (splitSurveyInOrder 8).win.OOWInstructions) ∧
    ∀ (a b : Survey) (p : Pos) (ts : List Task),
      Run (Survey.next (splitEnv splitBranch 1)) (Survey.Undisturbed (splitEnv splitBranch 1))
        (Survey.initial (splitEnv splitBranch 1)) a →
      a.win.cursor = none → a.win.tasks = .start p :: ts →
      Run (Survey.next (splitEnv splitBranch 1)) (Survey.Undisturbed (splitEnv splitBranch 1))
        (a.alone p) b →
      b.next (splitEnv splitBranch 1) = none →
      ∀ id, id ∈ b.win.OOWInstructions ↔
        id ∈ a.win.OOWInstructions ∧ ¬ Survey.Hits (splitEnv splitBranch 1) ⟨p, [], 0⟩ id := by
  have hquiet : ∀ m < 10, (splitSurvey 1 m).quiet = true := by decide +kernel
  have hquiet' : ∀ m < 8, (splitSurveyInOrder m).quiet = true := by decide +kernel
  have hend : ((splitSurvey 1 10).next (splitEnv splitBranch 1)).isNone = true := by
    decide +kernel
  have hend' : ((splitSurveyInOrder 8).next (splitEnv splitBranch 1)).isNone = true := by
    decide +kernel
  refine ⟨by decide +kernel, ?_⟩
  exact order_independent splitModule_wf ⟨rfl, rfl⟩ rfl splitOrder_sources
    (run_stepN_of 10 _ fun m hm => Survey.undisturbed_of_quiet (hquiet m hm))
    (Option.isNone_iff_eq_none.mp hend)
    (run_stepN_of 8 _ fun m hm => Survey.undisturbed_of_quiet (hquiet' m hm))
    (Option.isNone_iff_eq_none.mp hend')

/-- The indirect call in `f` first. -/
def leftoverOrder : List (Pos × Bool) :=
  [leftoverF, leftoverK].flatMap fun f => f.blocks.map fun b => (Pos.start f b, false)

theorem leftoverOrder_sources (p : Pos) :
    (∃ b, (p, b) ∈ leftoverOrder) ↔ (leftoverEnv 6).Source p := by
  have hmain : Window.analyzeFunction (leftoverEnv 6) leftoverMain = [] := rfl
  have hh : Window.analyzeFunction (leftoverEnv 6) leftoverH = [] := rfl
  have hk : Window.analyzeFunction (leftoverEnv 6) leftoverK =
      leftoverK.blocks.map fun b => .start (Pos.start leftoverK b) := rfl
  have hf : Window.analyzeFunction (leftoverEnv 6) leftoverF =
      leftoverF.blocks.map fun b => .start (Pos.start leftoverF b) := rfl
  have hcalled : CalledFromMain (leftoverEnv 6) leftoverK ∧
      CalledFromMain (leftoverEnv 6) leftoverF :=
    ⟨.call .main (i := ⟨0, .void, .call (.direct 1) []⟩) (by decide) rfl,
      .call .main (i := ⟨1, .void, .call (.direct 2) []⟩) (by decide) rfl⟩
  constructor
  · rintro ⟨b, hp⟩
    obtain ⟨f, hf', hb⟩ := List.mem_flatMap.mp hp
    obtain ⟨blk, hblk, heq⟩ := List.mem_map.mp hb
    obtain ⟨rfl, -⟩ := Prod.mk.inj heq
    simp only [List.mem_cons, List.not_mem_nil, or_false] at hf'
    obtain rfl | rfl := hf'
    · exact ⟨leftoverF, hcalled.2, hf ▸ List.mem_map.mpr ⟨blk, hblk, rfl⟩⟩
    · exact ⟨leftoverK, hcalled.1, hk ▸ List.mem_map.mpr ⟨blk, hblk, rfl⟩⟩
  · rintro ⟨f, hf', hp⟩
    have hmem : f ∈ [leftoverMain, leftoverK, leftoverF, leftoverH] :=
      Survey.mem_of_calledFromMain hf'
    simp only [List.mem_cons, List.not_mem_nil, or_false] at hmem
    refine ⟨false, List.mem_flatMap.mpr ?_⟩
    obtain rfl | rfl | rfl | rfl := hmem
    · rw [hmain] at hp
      cases hp
    · rw [hk] at hp
      obtain ⟨blk, hblk, heq⟩ := List.mem_map.mp hp
      exact ⟨leftoverK, by simp, List.mem_map.mpr ⟨blk, hblk, by rw [Task.start.inj heq]⟩⟩
    · rw [hf] at hp
      obtain ⟨blk, hblk, heq⟩ := List.mem_map.mp hp
      exact ⟨leftoverF, by simp, List.mem_map.mpr ⟨blk, hblk, by rw [Task.start.inj heq]⟩⟩
    · rw [hh] at hp
      cases hp

/-- The pass in that order, after `n` steps. -/
def leftoverRunInOrder (n : Nat) : Window :=
  stepN (Window.next (leftoverEnv 6)) n (Survey.inOrder (leftoverEnv 6) leftoverOrder).win

/-- In the order of the pass the GEP of `main` is left, in the other order it is not. -/
theorem order_matters : leftoverModule.WF ∧
    (∀ p, (∃ b, (p, b) ∈ leftoverOrder) ↔ (leftoverEnv 6).Source p) ∧
    ((leftoverRun 6 28).next (leftoverEnv 6)).isNone = true ∧
    ((leftoverRunInOrder 28).next (leftoverEnv 6)).isNone = true ∧
    ¬ ∀ id, id ∈ (leftoverRun 6 28).OOWInstructions ↔
      id ∈ (leftoverRunInOrder 28).OOWInstructions := by
  refine ⟨leftoverModule_wf, leftoverOrder_sources, by decide +kernel, by decide +kernel,
    fun h => ?_⟩
  have hleft : 2 ∈ (leftoverRun 6 28).OOWInstructions := by decide +kernel
  have hgone : 2 ∉ (leftoverRunInOrder 28).OOWInstructions := by decide +kernel
  exact hgone ((h 2).mp hleft)

end MSV
