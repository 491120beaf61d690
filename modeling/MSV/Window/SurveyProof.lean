import MSV.Window.Agenda

/-!
# The pass refines the worklist

The pass is run with the configurations it has explored and those it started from. A step of it is
some steps of the search, if it is `Undisturbed`: an exploration starts with an empty call stack,
and an instruction that is left out, because it has been seen at this count, has been explored with
a call stack that leads to as much.

**Theorem (`left_iff`).** When such a run stops, a GEP is left if and only if it was there before
and is at none of the configurations that are reached from a start within the window.
-/

namespace MSV

variable {M : Module} (E : WindowEnv M)

/-- The pass with the configurations it has explored and those it started from. -/
structure Survey where
  win : Window
  seen : List Config
  roots : List Config

namespace Survey

/-- The start of an exploration, if the next task is one. -/
def starting (w : Window) : List Config :=
  match w.cursor, w.tasks with
  | none, .start p :: _ => [⟨p, w.callStack, 0⟩]
  | _, _ => []

/-- The configuration the next step explores from. -/
def exploring (w : Window) : List Config := if (w.step : Int) < E.windowSize then w.here else []

def next (s : Survey) : Option Survey :=
  (s.win.next E).map fun w => ⟨w, exploring E s.win ++ s.seen, starting s.win ++ s.roots⟩

def initial : Survey := ⟨Window.initial E, [], []⟩

def worklist (s : Survey) : Worklist Config := ⟨s.win.agenda, s.seen, s.roots⟩

/-- An instruction that is left out has been explored with a call stack that leads to as much. -/
def PruneOK (s : Survey) (p : Pos) (step : Nat) : Prop :=
  ∀ i rest, p.todo = i :: rest → (i.id, step) ∈ s.win.visitedInstructions →
    (step : Int) < E.windowSize → ∃ d ∈ s.seen, d.Covers E ⟨p, s.win.callStack, step⟩

/-- The step does not depend on the call stack and the visited instructions of other
explorations. -/
def Undisturbed (s : Survey) : Prop :=
  match s.win.cursor, s.win.tasks with
  | none, .start p :: _ => s.win.callStack = [] ∧ PruneOK E s p 0
  | none, .explore p :: _ => PruneOK E s p s.win.step
  | _, _ => True

end Survey

/-! ## The tasks `explore` leaves behind -/

/-- Tasks that stand in front of the others. -/
def Inner (us : List Task) : Prop := Guarded true us ∧ ∀ u ∈ us, u.isOuter = false

variable {E}

theorem inner_nil : Inner [] := ⟨trivial, fun _ hu => nomatch hu⟩

theorem inner_each (ps : List Pos) (n : Nat) :
    Inner (ps.flatMap fun p => [.explore p, .restore n []]) := by
  induction ps with
  | nil => exact inner_nil
  | cons p ps ih =>
      rw [List.flatMap_cons]
      refine ⟨⟨rfl, ih.1⟩, fun u hu => ?_⟩
      obtain hu | hu := List.mem_append.mp hu
      · simp only [List.mem_cons, List.not_mem_nil, or_false] at hu
        obtain rfl | rfl := hu <;> rfl
      · exact ih.2 u hu

theorem inner_bothDestinations (f : Function) (normal unwind : BlockId) (n : Nat)
    (l : List Site) : Inner (Window.bothDestinations f normal unwind n l) := by
  unfold Window.bothDestinations
  cases f.blockStart normal <;> cases f.blockStart unwind <;> split_ifs <;>
    simp [Inner, Guarded, Task.isOuter]

/-- A turn of the loop puts tasks in front of the others if it leaves `explore`. -/
def Pushed (w w' : Window) : Prop :=
  ∃ us, w'.tasks = us ++ w.tasks ∧ Inner us ∧ (w'.cursor.isNone = false → us = [])

section Pushed

variable {w : Window} {p : Pos}

theorem pushed_leave {w' : Window} {us : List Task} (hus : Inner us) (htasks : w'.tasks = w.tasks) :
    Pushed w (w'.leave us) :=
  ⟨us, by rw [← htasks]; rfl, hus, fun h => nomatch h⟩

theorem pushed_same {w' : Window} (htasks : w'.tasks = w.tasks) : Pushed w w' :=
  ⟨[], htasks, inner_nil, fun _ => rfl⟩

theorem pushed_endOfFunction (f : Function) : Pushed w (w.endOfFunction E f) := by
  unfold Window.endOfFunction
  split
  · unfold Window.toCallers
    split_ifs
    · exact pushed_leave inner_nil rfl
    · rw [← List.flatMap_assoc]
      exact pushed_leave (inner_each _ _) rfl
  · unfold Window.toCallSite
    split
    · exact pushed_leave (inner_bothDestinations ..) rfl
    · exact pushed_same rfl

theorem pushed_endOfBlock : Pushed w (w.endOfBlock E p) := by
  unfold Window.endOfBlock
  split
  · exact pushed_leave inner_nil rfl
  · split
    · exact pushed_leave inner_nil rfl
    · exact pushed_leave inner_nil rfl
    · split_ifs
      · exact pushed_leave (inner_bothDestinations ..) rfl
      · exact pushed_endOfFunction p.func
    · split
      · exact pushed_same rfl
      · exact pushed_endOfFunction p.func

theorem pushed_turn : Pushed w (w.turn E p) := by
  unfold Window.turn
  split_ifs
  · split
    · exact pushed_endOfBlock
    · rename_i i rest _
      cases hent : E.entered i with
      | some q =>
          rw [Track.visit_of_entered hent]
          exact pushed_same rfl
      | none =>
          rw [Track.visit_of_not_entered hent]
          split_ifs <;> exact pushed_same rfl
  · exact pushed_leave inner_nil rfl

end Pushed

/-- Every call of `explore` knows its counter and its stack. -/
def GuardedIn (w : Window) : Prop := Guarded w.cursor.isNone w.tasks

theorem outer_of_mem_analyzeFunction {f : Function} {u : Task}
    (h : u ∈ Window.analyzeFunction E f) : u.isOuter = true := by
  unfold Window.analyzeFunction at h
  split_ifs at h
  · cases h
  · obtain h | h := List.mem_append.mp h
    · obtain ⟨b, -, hu⟩ := List.mem_flatMap.mp h
      obtain ⟨i, todo, rfl, -⟩ := Track.mem_callStarts hu
      rfl
    · obtain ⟨b, -, hu⟩ := List.mem_flatMap.mp h
      obtain ⟨s, q, rfl, -⟩ | rfl := Track.mem_branchStarts hu <;> rfl

theorem outer_of_mem_analyze {w : Window} {f : Function} {rest : List Function} :
    ∀ u ∈ (w.analyze E f rest).tasks, u.isOuter = true := by
  intro u hu
  obtain hu | hu := List.mem_append.mp hu
  · exact outer_of_mem_analyzeFunction hu
  · rw [List.mem_singleton.mp hu]
    rfl

theorem GuardedIn.enter {w : Window} (h : Guarded false w.tasks) (p : Pos) :
    GuardedIn (w.enter p) := by
  unfold GuardedIn
  rw [(Track.enter_other p).1]
  exact h.known _

theorem GuardedIn.perform {w : Window} {u : Task} {ts : List Task} (h : GuardedIn w)
    (hw : w.cursor = none) (htasks : w.tasks = u :: ts) :
    GuardedIn (Window.perform (M := M) { w with tasks := ts } u) := by
  unfold GuardedIn at h
  rw [hw, htasks] at h
  cases u with
  | start p =>
      have hts : Guarded false ts := guarded_of_outer h false
      exact GuardedIn.enter (w := { w with tasks := ts, step := 0 }) hts p
  | explore p => exact GuardedIn.enter (w := { w with tasks := ts }) h.2 p
  | restore n l =>
      show Guarded w.cursor.isNone ts
      rw [hw]
      exact h
  | clear => exact guarded_of_outer h _
  | callees f => exact guarded_of_outer h _

theorem GuardedIn.next {w w' : Window} (h : GuardedIn w) (hnext : w.next E = some w') :
    GuardedIn w' := by
  obtain ⟨p, hcursor, rfl⟩ | ⟨u, ts, hcursor, htasks, rfl⟩ | ⟨f, rest, -, -, -, rfl⟩ :=
    Track.next_cases hnext
  · unfold GuardedIn at h ⊢
    rw [hcursor] at h
    obtain ⟨us, htasks, ⟨hguard, hinner⟩, hsame⟩ := pushed_turn (E := E) (w := w) (p := p)
    rw [htasks]
    cases hnone : (w.turn E p).cursor.isNone with
    | true => exact hguard.append hinner h
    | false =>
        rw [hsame hnone]
        exact h
  · exact h.perform hcursor htasks
  · exact guarded_of_outer outer_of_mem_analyze _

/-! ## The refinement -/

namespace Survey

variable {s s' : Survey}

/-- One step of the search, or none. -/
def Steps (E : WindowEnv M) : Worklist Config → Worklist Config → Prop :=
  Relation.ReflTransGen (Worklist.Step E.successors E.Live (Config.Covers E))

theorem starting_of_cursor {w : Window} {p : Pos} (hw : w.cursor = some p) : starting w = [] := by
  unfold starting
  rw [hw]

theorem starting_of_nil {w : Window} (hw : w.cursor = none) (htasks : w.tasks = []) :
    starting w = [] := by
  unfold starting
  rw [hw, htasks]

theorem exploring_of_none {w : Window} (hw : w.cursor = none) : exploring E w = [] := by
  unfold exploring Window.here
  rw [hw]
  exact ite_self _

theorem steps_turn {p : Pos} (hg : GuardedIn s.win) (hcursor : s.win.cursor = some p) :
    Steps E s.worklist ⟨(s.win.turn E p).agenda, exploring E s.win ++ s.seen, s.roots⟩ := by
  unfold GuardedIn at hg
  rw [hcursor] at hg
  unfold worklist exploring Window.here
  rw [Window.agenda_of_cursor hcursor, hcursor]
  by_cases hlive : (s.win.step : Int) < E.windowSize
  · rw [agenda_turn hg hlive, if_pos hlive]
    exact .single (.visit hlive)
  · have hstop : s.win.turn E p = s.win.leave [] := by
      unfold Window.turn
      rw [if_neg hlive]
    rw [hstop, Window.agenda_leave [] hg, if_neg hlive]
    exact .single (.skip fun h => absurd h hlive)

/-- A call of `explore`: its configuration goes to the cursor, or is left out. -/
theorem steps_enter {w : Window} {p : Pos} {seen roots : List Config}
    (hg : Guarded false w.tasks) (hw : w.cursor = none) (hp : p.todo ≠ [])
    (hok : ∀ i rest, p.todo = i :: rest → (i.id, w.step) ∈ w.visitedInstructions →
      (w.step : Int) < E.windowSize → ∃ d ∈ seen, d.Covers E ⟨p, w.callStack, w.step⟩) :
    Steps E ⟨⟨p, w.callStack, w.step⟩ :: plan none w.tasks, seen, roots⟩
      ⟨(w.enter p).agenda, seen, roots⟩ := by
  obtain ⟨heq, i, rest, hi, hseen⟩ | ⟨vs, heq⟩ := Track.enter_cases (w := w) hp
  · rw [heq, Window.agenda_of_none hw, plan_of_guarded hg (some _)]
    exact .single (.skip fun hlive => hok i rest hi hseen hlive)
  · rw [heq, Window.agenda_of_cursor rfl]
    exact .refl

theorem starting_of_task {w : Window} {u : Task} {ts : List Task} (hw : w.cursor = none)
    (htasks : w.tasks = u :: ts) (hu : ∀ p, u ≠ .start p) : starting w = [] := by
  unfold starting
  rw [hw, htasks]
  cases u with
  | start p => exact absurd rfl (hu p)
  | _ => rfl

theorem agenda_restore {w : Window} (hw : w.cursor = none) (n : Nat) (l : List Site) :
    (Window.perform (M := M) w (.restore n l)).agenda = plan (some (n, l)) w.tasks :=
  Window.agenda_of_none (w := { w with step := n, callStack := l }) hw

theorem agenda_clear {w : Window} (hw : w.cursor = none) (hg : Guarded false w.tasks) :
    (Window.perform (M := M) w .clear).agenda = plan none w.tasks :=
  (Window.agenda_of_none (w := { w with callStack := [] }) hw).trans (plan_of_guarded hg _)

theorem agenda_callees {w : Window} (hw : w.cursor = none) (hg : Guarded false w.tasks)
    (f : Function) : (Window.perform (M := M) w (.callees f)).agenda = plan none w.tasks :=
  (Window.agenda_of_none (w := Window.perform (M := M) w (.callees f)) hw).trans
    (plan_of_guarded hg _)

theorem agenda_analyze {w : Window} (hw : w.cursor = none) (f : Function) (rest : List Function) :
    (w.analyze E f rest).agenda = [] :=
  (Window.agenda_of_none (w := w.analyze E f rest) hw).trans (plan_of_outer outer_of_mem_analyze _)

theorem steps_perform {u : Task} {ts : List Task} (hwf : Track.WellFormed (M := M) s.win)
    (hg : GuardedIn s.win) (hok : Undisturbed E s) (hcursor : s.win.cursor = none)
    (htasks : s.win.tasks = u :: ts) :
    Steps E s.worklist ⟨(Window.perform (M := M) { s.win with tasks := ts } u).agenda, s.seen,
      starting s.win ++ s.roots⟩ := by
  unfold GuardedIn at hg
  rw [hcursor, htasks] at hg
  unfold Undisturbed at hok
  rw [hcursor, htasks] at hok
  have hmem : u ∈ s.win.tasks := htasks ▸ List.mem_cons_self
  unfold worklist
  rw [Window.agenda_of_none hcursor, htasks]
  cases u with
  | start p =>
      have hts : Guarded false ts := guarded_of_outer hg false
      have hstart : starting s.win = [⟨p, s.win.callStack, 0⟩] := by
        unfold starting
        rw [hcursor, htasks]
      rw [hstart]
      refine .head (.root ⟨p, s.win.callStack, 0⟩) ?_
      exact steps_enter (w := { s.win with tasks := ts, step := 0 }) hts hcursor
        (hwf.start p hmem).2 hok.2
  | explore p =>
      rw [starting_of_task hcursor htasks fun q hq => nomatch hq]
      exact steps_enter (w := { s.win with tasks := ts }) hg.2 hcursor (hwf.explore p hmem).2 hok
  | restore n l =>
      rw [agenda_restore (w := { s.win with tasks := ts }) hcursor,
        starting_of_task hcursor htasks fun q hq => nomatch hq]
      exact .refl
  | clear =>
      rw [agenda_clear (w := { s.win with tasks := ts }) hcursor (guarded_of_outer hg false),
        starting_of_task hcursor htasks fun q hq => nomatch hq]
      exact .refl
  | callees f =>
      rw [agenda_callees (w := { s.win with tasks := ts }) hcursor (guarded_of_outer hg false),
        starting_of_task hcursor htasks fun q hq => nomatch hq]
      exact .refl

/-- **A step of the pass is some steps of the search.** -/
theorem refines (hwf : Track.WellFormed (M := M) s.win) (hg : GuardedIn s.win)
    (hok : Undisturbed E s) (hnext : s.next E = some s') : Steps E s.worklist s'.worklist := by
  obtain ⟨w, hw, rfl⟩ := Option.map_eq_some_iff.mp hnext
  obtain ⟨p, hcursor, rfl⟩ | ⟨u, ts, hcursor, htasks, rfl⟩ | ⟨f, rest, hcursor, htasks, -, rfl⟩ :=
    Track.next_cases hw
  · rw [starting_of_cursor hcursor]
    exact steps_turn hg hcursor
  · rw [exploring_of_none hcursor]
    exact steps_perform hwf hg hok hcursor htasks
  · have hbefore : s.win.agenda = [] := by
      rw [Window.agenda_of_none hcursor, htasks]
      rfl
    unfold worklist
    rw [exploring_of_none hcursor, starting_of_nil hcursor htasks, hbefore]
    show Steps E _ ⟨(s.win.analyze E f rest).agenda, s.seen, s.roots⟩
    rw [agenda_analyze hcursor]
    exact .refl

/-! ## Where explorations start -/

/-- The functions that may be analysed, and the places that may be started from. -/
structure Origin (E : WindowEnv M) (Q : Function → Prop) (P : Pos → Prop) : Prop where
  mem : ∀ {f}, Q f → f ∈ M.funcs
  called : ∀ {f g i}, Q f → i ∈ f.insts → i.calledFunction.bind M.func? = some g → Q g
  starts : ∀ {f p}, Q f → Task.start p ∈ Window.analyzeFunction E f → P p

/-- What every state of a run is like. -/
structure Shape (M : Module) (Q : Function → Prop) (P : Pos → Prop) (s : Survey) : Prop where
  wf : Track.WellFormed (M := M) s.win
  guarded : GuardedIn s.win
  queue : ∀ f ∈ s.win.functionsWillBeAnalyzed, Q f
  callees : ∀ f, Task.callees f ∈ s.win.tasks → Q f
  starts : ∀ p, Task.start p ∈ s.win.tasks → P p
  roots : ∀ r ∈ s.roots, ∃ p, r = ⟨p, [], 0⟩ ∧ P p ∧ p.WF M

variable {Q : Function → Prop} {P : Pos → Prop}

theorem tasks_perform (w : Window) (u : Task) : (Window.perform (M := M) w u).tasks = w.tasks := by
  cases u with
  | start p => exact (Track.enter_other (w := { w with step := 0 }) p).1
  | explore p => exact (Track.enter_other p).1
  | _ => rfl

theorem visitedFunctions_perform (w : Window) (u : Task) :
    (Window.perform (M := M) w u).visitedFunctions = w.visitedFunctions := by
  cases u with
  | start p => exact (Track.enter_other (w := { w with step := 0 }) p).2.1
  | explore p => exact (Track.enter_other p).2.1
  | _ => rfl

/-- The functions a task queues are called. -/
theorem queue_perform {w : Window} {u : Task} {g : Function}
    (h : g ∈ (Window.perform (M := M) w u).functionsWillBeAnalyzed) :
    g ∈ w.functionsWillBeAnalyzed ∨ ∃ f, u = .callees f ∧ ∃ i ∈ f.insts,
      i.calledFunction.bind M.func? = some g := by
  cases u with
  | start p =>
      left
      rwa [← (Track.enter_other (w := { w with step := 0 }) p).2.2.2.1]
  | explore p =>
      left
      rwa [← (Track.enter_other (w := w) p).2.2.2.1]
  | callees f =>
      obtain h | h := List.mem_append.mp h
      · exact .inl h
      · obtain ⟨i, hi, hg⟩ := List.mem_filterMap.mp h
        exact .inr ⟨f, rfl, i, hi, (Option.filter_eq_some_iff.mp hg).1⟩
  | _ => exact .inl h

theorem Shape.next (hM : M.WF) (hE : Origin E Q P) (h : Shape M Q P s) (hok : Undisturbed E s)
    (hnext : s.next E = some s') : Shape M Q P s' := by
  obtain ⟨w, hw, rfl⟩ := Option.map_eq_some_iff.mp hnext
  have hwf := h.wf.next hM (fun f hf => hE.mem (h.queue f hf)) hw
  have hguard := h.guarded.next hw
  obtain ⟨p, hcursor, rfl⟩ | ⟨u, ts, hcursor, htasks, rfl⟩ |
    ⟨f, rest, hcursor, htasks, hqueue, rfl⟩ := Track.next_cases hw
  · obtain ⟨us, htasks, ⟨-, hinner⟩, -⟩ := pushed_turn (E := E) (w := s.win) (p := p)
    have hold : ∀ u, u.isOuter = true → u ∈ (s.win.turn E p).tasks → u ∈ s.win.tasks := by
      intro u hu hmem
      rw [htasks] at hmem
      refine (List.mem_append.mp hmem).resolve_left fun hin => ?_
      rw [hinner u hin] at hu
      cases hu
    refine ⟨hwf, hguard, fun f hf => h.queue f ?_, fun f hf => h.callees f (hold _ rfl hf),
      fun q hq => h.starts q (hold _ rfl hq), ?_⟩
    · rwa [(Track.turned_turn (E := E) hM h.wf hcursor).queue] at hf
    · rw [starting_of_cursor hcursor]
      exact h.roots
  · have hold : ∀ v, v ∈ (Window.perform (M := M) { s.win with tasks := ts } u).tasks →
        v ∈ s.win.tasks := by
      intro v hv
      rw [tasks_perform] at hv
      rw [htasks]
      exact List.mem_cons_of_mem u hv
    refine ⟨hwf, hguard, fun f hf => ?_, fun f hf => h.callees f (hold _ hf),
      fun q hq => h.starts q (hold _ hq), fun r hr => ?_⟩
    · obtain hf | ⟨f', rfl, i, hi, hf⟩ := queue_perform hf
      · exact h.queue f hf
      · exact hE.called (h.callees f' (htasks ▸ List.mem_cons_self)) hi hf
    · obtain hr | hr := List.mem_append.mp hr
      · unfold starting at hr
        unfold Undisturbed at hok
        rw [hcursor, htasks] at hr hok
        cases u with
        | start q =>
            have hmem : Task.start q ∈ s.win.tasks := htasks ▸ List.mem_cons_self
            rw [List.mem_singleton.mp hr, hok.1]
            exact ⟨q, rfl, h.starts q hmem, (h.wf.start q hmem).1⟩
        | _ => cases hr
      · exact h.roots r hr
  · have hf : Q f := h.queue f (hqueue ▸ List.mem_cons_self)
    refine ⟨hwf, hguard, fun g hg => h.queue g (hqueue ▸ List.mem_cons_of_mem f hg),
      fun g hg => ?_, fun q hq => ?_, ?_⟩
    · obtain ⟨q, hq, -⟩ | hq | hq := Track.mem_tasks_analyze hM (hE.mem hf) hg
      · cases hq
      · cases hq
      · obtain rfl := Task.callees.inj hq
        exact hf
    · obtain hq | hq := List.mem_append.mp hq
      · exact hE.starts hf hq
      · cases List.mem_singleton.mp hq
    · rw [starting_of_nil hcursor htasks]
      exact h.roots

/-- A place that is to be started from is started from. -/
theorem started_next (hok : Undisturbed E s) (hnext : s.next E = some s') {p : Pos}
    (h : Task.start p ∈ s.win.tasks ∨ ⟨p, [], 0⟩ ∈ s.roots) :
    Task.start p ∈ s'.win.tasks ∨ ⟨p, [], 0⟩ ∈ s'.roots := by
  obtain ⟨w, hw, rfl⟩ := Option.map_eq_some_iff.mp hnext
  obtain h | h := h
  swap
  · exact .inr (List.mem_append_right _ h)
  obtain ⟨q, hcursor, rfl⟩ | ⟨u, ts, hcursor, htasks, rfl⟩ | ⟨f, rest, -, htasks, -, rfl⟩ :=
    Track.next_cases hw
  · obtain ⟨us, htasks, -⟩ := pushed_turn (E := E) (w := s.win) (p := q)
    left
    rw [htasks]
    exact List.mem_append_right us h
  · rw [htasks] at h
    obtain rfl | h := List.mem_cons.mp h
    · right
      unfold Undisturbed at hok
      rw [hcursor, htasks] at hok
      unfold starting
      rw [hcursor, htasks, hok.1]
      exact List.mem_cons_self
    · left
      rw [tasks_perform]
      exact h
  · rw [htasks] at h
    cases h

/-! ## What is erased -/

theorem oow_endOfFunction (w : Window) (f : Function) :
    (w.endOfFunction E f).OOWInstructions = w.OOWInstructions := by
  unfold Window.endOfFunction
  split
  · unfold Window.toCallers
    split_ifs <;> rfl
  · unfold Window.toCallSite
    split <;> rfl

theorem oow_endOfBlock (w : Window) (p : Pos) :
    (w.endOfBlock E p).OOWInstructions = w.OOWInstructions := by
  unfold Window.endOfBlock
  split
  · rfl
  · split
    · rfl
    · rfl
    · split_ifs
      · rfl
      · exact oow_endOfFunction w p.func
    · split
      · rfl
      · exact oow_endOfFunction w p.func

/-- A step erases at most the instruction it is at, and erases a GEP. -/
structure Erases (E : WindowEnv M) (w w' : Window) : Prop where
  subset : ∀ id ∈ w'.OOWInstructions, id ∈ w.OOWInstructions
  explored : ∀ id ∈ w.OOWInstructions, id ∉ w'.OOWInstructions →
    ∃ c ∈ exploring E w, c.instId = some id
  gep : ∀ c ∈ exploring E w, ∀ i rest, c.pos.todo = i :: rest → i.kind.isGEP = true →
    i.id ∉ w'.OOWInstructions

section Erases

variable {w w' : Window} {p : Pos}

theorem erases_same (h : w'.OOWInstructions = w.OOWInstructions)
    (hgep : ∀ c ∈ exploring E w, ∀ i rest, c.pos.todo = i :: rest → i.kind.isGEP = false) :
    Erases E w w' := by
  refine ⟨fun id hid => h ▸ hid, fun id hid hn => absurd (h ▸ hid) hn, fun c hc i rest hp hi => ?_⟩
  cases (hgep c hc i rest hp).symm.trans hi

theorem mem_exploring {c : Config} (hw : w.cursor = some p) (h : c ∈ exploring E w) :
    c = ⟨p, w.callStack, w.step⟩ := by
  unfold exploring Window.here at h
  split_ifs at h
  · rw [hw] at h
    exact List.mem_singleton.mp h
  · cases h

theorem not_gep_of_call {i : Inst} {g : FuncId} (h : i.calledFunction = some g) :
    i.kind.isGEP = false := by
  have hcall := asCallBase_of_calledFunction h
  cases hk : i.kind with
  | gep =>
      rw [hk] at hcall
      cases hcall
  | _ => rfl

theorem erases_count (hw : w.cursor = some p) (hlive : (w.step : Int) < E.windowSize) {i : Inst}
    {rest : List Inst} (hp : p.todo = i :: rest) : Erases E w (w.count p i rest) := by
  refine ⟨fun id hid => (List.mem_filter.mp hid).1, fun id hid hn => ?_,
    fun c hc j rest' hj _ hmem => ?_⟩
  · have heq : id = i.id := by
      by_contra hne
      exact hn (List.mem_filter.mpr ⟨hid, by simpa using hne⟩)
    refine ⟨⟨p, w.callStack, w.step⟩, ?_, ?_⟩
    · unfold exploring Window.here
      rw [if_pos hlive, hw]
      exact List.mem_cons_self
    · unfold Config.instId
      rw [hp, heq]
      rfl
  · rw [mem_exploring hw hc] at hj
    obtain ⟨rfl, -⟩ := List.cons.inj (hp.symm.trans hj)
    have hne := (List.mem_filter.mp hmem).2
    simp at hne

theorem erases_visit (hw : w.cursor = some p) (hlive : (w.step : Int) < E.windowSize) {i : Inst}
    {rest : List Inst} (hp : p.todo = i :: rest) : Erases E w (w.visit E p i rest) := by
  have hcall : ∀ w', w'.OOWInstructions = w.OOWInstructions → ∀ g, i.calledFunction = some g →
      Erases E w w' := by
    intro w' heq g hg
    refine erases_same heq fun c hc j rest' hj => ?_
    rw [mem_exploring hw hc] at hj
    obtain ⟨rfl, -⟩ := List.cons.inj (hp.symm.trans hj)
    exact not_gep_of_call hg
  cases hent : E.entered i with
  | some q =>
      obtain ⟨g, hg, -⟩ := entered_eq E hent
      rw [Track.visit_of_entered hent]
      exact hcall _ rfl g hg
  | none =>
      rw [Track.visit_of_not_entered hent]
      cases hg : i.calledFunction with
      | none => exact erases_count hw hlive hp
      | some g =>
          split_ifs
          · exact hcall _ rfl g hg
          · exact erases_count hw hlive hp

theorem erases_turn (hw : w.cursor = some p) : Erases E w (w.turn E p) := by
  unfold Window.turn
  split_ifs with hlive
  · cases hp : p.todo with
    | nil =>
        refine erases_same (oow_endOfBlock w p) fun c hc i rest hi => ?_
        rw [mem_exploring hw hc] at hi
        cases hp.symm.trans hi
    | cons i rest => exact erases_visit hw hlive hp
  · refine erases_same rfl fun c hc => ?_
    unfold exploring at hc
    rw [if_neg hlive] at hc
    cases hc

theorem erases_next (hnext : w.next E = some w') : Erases E w w' := by
  have hnone : w.cursor = none → w'.OOWInstructions = w.OOWInstructions → Erases E w w' := by
    intro hcursor heq
    refine erases_same heq fun c hc => ?_
    rw [exploring_of_none hcursor] at hc
    cases hc
  obtain ⟨p, hcursor, rfl⟩ | ⟨u, ts, hcursor, -, rfl⟩ | ⟨f, rest, hcursor, -, -, rfl⟩ :=
    Track.next_cases hnext
  · exact erases_turn hcursor
  · refine hnone hcursor ?_
    cases u with
    | start p => exact (Track.enter_other (w := { w with tasks := ts, step := 0 }) p).2.2.1
    | explore p => exact (Track.enter_other (w := { w with tasks := ts }) p).2.2.1
    | _ => rfl
  · exact hnone hcursor rfl

end Erases

/-! ## Runs -/

/-- A state between two explorations. -/
structure Settled (E : WindowEnv M) (Q : Function → Prop) (P : Pos → Prop) (s : Survey) : Prop where
  shape : Shape M Q P s
  cursor : s.win.cursor = none
  tasks : ∀ u ∈ s.win.tasks, u.isOuter = true
  closed : Worklist.Closed E.successors E.Live (Config.Covers E) s.seen
  places : ∀ c ∈ s.seen, c.pos.WF M
  erased : ∀ c ∈ s.seen, ∀ i rest, c.pos.todo = i :: rest → i.kind.isGEP = true →
    i.id ∉ s.win.OOWInstructions
  roots : s.roots = []

/-- What holds along a run from such a state. -/
structure Along (E : WindowEnv M) (Q : Function → Prop) (P : Pos → Prop) (s₀ s : Survey) :
    Prop where
  shape : Shape M Q P s
  steps : Steps E s₀.worklist s.worklist
  subset : ∀ id ∈ s.win.OOWInstructions, id ∈ s₀.win.OOWInstructions
  explored : ∀ id ∈ s₀.win.OOWInstructions, id ∉ s.win.OOWInstructions →
    ∃ c ∈ s.seen, c.instId = some id
  erased : ∀ c ∈ s.seen, ∀ i rest, c.pos.todo = i :: rest → i.kind.isGEP = true →
    i.id ∉ s.win.OOWInstructions

theorem Along.next (hM : M.WF) (hE : Origin E Q P) {s₀ : Survey} (h : Along E Q P s₀ s)
    (hok : Undisturbed E s) (hnext : s.next E = some s') : Along E Q P s₀ s' := by
  have hshape := h.shape.next hM hE hok hnext
  have hsteps := h.steps.trans (refines h.shape.wf h.shape.guarded hok hnext)
  obtain ⟨w, hw, rfl⟩ := Option.map_eq_some_iff.mp hnext
  have herases := erases_next hw
  refine ⟨hshape, hsteps, fun id hid => h.subset id (herases.subset id hid), fun id hid hn => ?_,
    fun c hc i rest hp hgep => ?_⟩
  · by_cases hid' : id ∈ s.win.OOWInstructions
    · obtain ⟨c, hc, hat⟩ := herases.explored id hid' hn
      exact ⟨c, List.mem_append_left _ hc, hat⟩
    · obtain ⟨c, hc, hat⟩ := h.explored id hid hid'
      exact ⟨c, List.mem_append_right _ hc, hat⟩
  · obtain hc | hc := List.mem_append.mp hc
    · exact herases.gep c hc i rest hp hgep
    · exact fun hmem => h.erased c hc i rest hp hgep (herases.subset _ hmem)

theorem along_run (hM : M.WF) (hE : Origin E Q P) {s₀ : Survey} (h₀ : Settled E Q P s₀)
    (hrun : Run (next E) (Undisturbed E) s₀ s) : Along E Q P s₀ s := by
  refine hrun.invariant ?_ fun a b h hok hnext => h.next hM hE hok hnext
  exact ⟨h₀.shape, .refl, fun _ h => h, fun _ h hn => absurd h hn, h₀.erased⟩

/-- An exploration from `r` comes to the instruction within the window. -/
def Hits (E : WindowEnv M) (r : Config) (id : InstId) : Prop :=
  ∃ c, Worklist.Reach E.successors r c ∧ E.Live c ∧ c.instId = some id

/-- The instruction a configuration is at is the one of this name. -/
theorem todo_of_instId (hM : M.WF) {c : Config} (hc : c.pos.WF M) {g : Inst} (hg : g ∈ M.insts)
    (hat : c.instId = some g.id) : ∃ rest, c.pos.todo = g :: rest := by
  unfold Config.instId at hat
  obtain ⟨i, hi, hid⟩ := Option.map_eq_some_iff.mp hat
  obtain ⟨rest, hrest⟩ := List.head?_eq_some_iff.mp hi
  have himem : i ∈ M.insts := List.mem_flatMap.mpr
    ⟨c.pos.func, hc.func, List.mem_flatMap.mpr ⟨c.pos.block, hc.block, hc.mem hrest⟩⟩
  rw [List.inj_on_of_nodup_map hM.insts_nodup himem hg hid] at hrest
  exact ⟨rest, hrest⟩

section Settled

variable (hM : M.WF) {s₀ : Survey} (h₀ : Settled E Q P s₀) (h : Along E Q P s₀ s)

include h₀ in
theorem worklist_of_settled : s₀.worklist = ⟨[], s₀.seen, []⟩ := by
  unfold worklist
  rw [Window.agenda_of_none h₀.cursor, plan_of_outer h₀.tasks, h₀.roots]

include hM h₀ h

theorem complete : Worklist.Complete E.successors E.Live (Config.Covers E) s.worklist := by
  have hsteps := h.steps
  rw [worklist_of_settled h₀] at hsteps
  exact Worklist.complete_of_steps (covering hM) h₀.closed hsteps

omit hM in
theorem traced : Worklist.Traced E.successors E.Live s₀.seen s.worklist := by
  have hsteps := h.steps
  rw [worklist_of_settled h₀] at hsteps
  exact Worklist.traced_of_steps hsteps

omit h₀ in
theorem onPath_of_reach {r c : Config} (hr : r ∈ s.roots)
    (hreach : Worklist.Reach E.successors r c) : OnPath E c := by
  induction hreach with
  | refl =>
      obtain ⟨p, rfl, -, hp⟩ := h.shape.roots r hr
      exact ⟨hp, trivial⟩
  | tail _ hstep ih => exact ih.successor hM hstep

theorem place_of_seen {c : Config} (hc : c ∈ s.seen) : c.pos.WF M := by
  obtain hold | ⟨-, r, hr, hreach⟩ := (traced h₀ h).seen c hc
  · exact h₀.places c hold
  · exact (onPath_of_reach hM h hr hreach).wf

/-- **When everything has been explored, a GEP is left if and only if it was there and no start
comes to it.** -/
theorem left_iff (hend : s.win.agenda = []) {g : Inst} (hg : g ∈ M.insts)
    (hgep : g.kind.isGEP = true) :
    g.id ∈ s.win.OOWInstructions ↔
      g.id ∈ s₀.win.OOWInstructions ∧ ∀ r ∈ s.roots, ¬ Hits E r g.id := by
  constructor
  · intro hleft
    refine ⟨h.subset _ hleft, fun r hr hhits => ?_⟩
    obtain ⟨c, hreach, hlive, hat⟩ := hhits
    have hgood : OnPath E r := onPath_of_reach hM h hr .refl
    obtain ⟨d, hd, hdc⟩ := Worklist.covered_of_reach (covering hM) (complete hM h₀ h) hend hr hgood
      hreach hlive
    obtain ⟨rest, hrest⟩ := todo_of_instId hM (onPath_of_reach hM h hr hreach).wf hg hat
    exact h.erased d hd g rest (hdc.pos ▸ hrest) hgep hleft
  · rintro ⟨hbefore, hno⟩
    by_contra hgone
    obtain ⟨c, hc, hat⟩ := h.explored _ hbefore hgone
    obtain hold | ⟨hlive, r, hr, hreach⟩ := (traced h₀ h).seen c hc
    · obtain ⟨rest, hrest⟩ := todo_of_instId hM (h₀.places c hold) hg hat
      exact h₀.erased c hold g rest hrest hgep hbefore
    · exact hno r hr ⟨c, hreach, hlive, hat⟩

end Settled

end Survey

end MSV
