import MSV.Window.ExploreProof
import Mathlib.Data.List.Infix

/-!
# Soundness of the out-of-window analysis

**Theorem (`out_of_window_sound`).** In a run whose steps all meet `StepOK`, a GEP that is left at
the end is not reached within the window from any place where speculation starts.

The tasks and the functions of the queue keep the invariant of `MSV.Window.ExploreProof`. At the end
nothing is owed any more, so the log is closed under the steps of a path up to domination, and has
the places where speculation starts. A return from a recursive function needs a word: its calls are
such places themselves, and have been stepped over.
-/

namespace MSV

variable {M : Module} (E : WindowEnv M)

namespace Track

variable {E} {t t' : Track} {c : Config}

/-! ## Places stay in the module -/

section Shape

/-- The tasks `explore` leaves behind. -/
def Benign (M : Module) (us : List Task) : Prop :=
  ∀ u ∈ us, (∃ p, u = .explore p ∧ p.WF M ∧ p.todo ≠ []) ∨
    ∃ n l, u = .restore n l ∧ ∀ s ∈ l, Site.WF M s

theorem benign_append {us vs : List Task} (hu : Benign M us) (hv : Benign M vs) :
    Benign M (us ++ vs) := by
  intro u h
  obtain h | h := List.mem_append.mp h
  · exact hu u h
  · exact hv u h

theorem benign_explores {ps : List Pos} (h : ∀ p ∈ ps, p.WF M ∧ p.todo ≠ []) :
    Benign M (ps.map Task.explore) := by
  intro u hu
  obtain ⟨p, hp, rfl⟩ := List.mem_map.mp hu
  exact .inl ⟨p, rfl, h p hp⟩

theorem benign_bothDestinations (hM : M.WF) {f : Function} (hf : f ∈ M.funcs)
    {normal unwind : BlockId} {n : Nat} {l : List Site} (hl : ∀ s ∈ l, s.WF M) :
    Benign M (Window.bothDestinations f normal unwind n l) := by
  have hdest : ∀ s : BlockId, Benign M ((f.blockStart s).toList.map Task.explore) := by
    intro s
    apply benign_explores
    intro q hq
    exact blockStart_ne_nil hM hf (Option.mem_toList.mp hq)
  refine benign_append (benign_append (hdest normal) ?_) ?_
  · intro u hu
    exact .inr ⟨n, l, List.mem_singleton.mp hu, hl⟩
  · split_ifs
    · exact hdest unwind
    · exact fun u hu => nomatch hu

/-- What a turn of the loop does to the tasks, the queue and the places. -/
structure Turned (M : Module) (w w' : Window) : Prop where
  tasks : ∃ us, Benign M us ∧ w'.tasks = us ++ w.tasks
  functions : w'.visitedFunctions = w.visitedFunctions
  queue : w'.functionsWillBeAnalyzed = w.functionsWillBeAnalyzed
  cursor : ∀ q, w'.cursor = some q → q.WF M
  stack : ∀ s ∈ w'.callStack, s.WF M

theorem benign_nil : Benign M [] := fun _ hu => nomatch hu

variable {w : Window} {p : Pos}

theorem turned_leave {w' : Window} {us : List Task} (hus : Benign M us)
    (htasks : w'.tasks = w.tasks) (hf : w'.visitedFunctions = w.visitedFunctions)
    (hq : w'.functionsWillBeAnalyzed = w.functionsWillBeAnalyzed)
    (hstack : ∀ s ∈ w'.callStack, s.WF M) : Turned M w (w'.leave us) :=
  ⟨⟨us, hus, htasks ▸ rfl⟩, hf, hq, (fun _ h => by cases h), hstack⟩

section WithPlaces

variable (hM : M.WF) (hwf : WellFormed (M := M) w)

include hM hwf

theorem turned_visit (hw : w.cursor = some p) {i : Inst} {rest : List Inst}
    (hp : p.todo = i :: rest) : Turned M w (w.visit E p i rest) := by
  have hpwf := hwf.cursor p hw
  have hrest : ∀ q, some { p with todo := rest } = some q → q.WF M := by
    intro q hq
    obtain rfl := Option.some.inj hq
    exact hpwf.rest hp
  cases hent : E.entered i with
  | some q =>
      rw [visit_of_entered hent]
      obtain ⟨g, hg, -⟩ := entered_eq E hent
      refine ⟨⟨[], benign_nil, rfl⟩, rfl, rfl, ?_, ?_⟩
      · intro q' hq'
        obtain rfl := Option.some.inj hq'
        exact (wf_of_entered E hM hent).1
      · intro s hs
        obtain rfl | hs := List.mem_cons.mp hs
        · exact ⟨hpwf.func, hpwf.block, hpwf.mem hp, asCallBase_of_calledFunction hg⟩
        · exact hwf.stack s hs
  | none =>
      rw [visit_of_not_entered hent]
      split_ifs
      · exact ⟨⟨[], benign_nil, rfl⟩, rfl, rfl, hrest, hwf.stack⟩
      · exact ⟨⟨[], benign_nil, rfl⟩, rfl, rfl, hrest, hwf.stack⟩

theorem turned_toCallers (f : Function) : Turned M w (w.toCallers E f) := by
  unfold Window.toCallers
  split_ifs
  · exact turned_leave benign_nil rfl rfl rfl hwf.stack
  · refine turned_leave ?_ rfl rfl rfl hwf.stack
    intro u hu
    obtain ⟨s, hs, hu⟩ := List.mem_flatMap.mp hu
    obtain ⟨q, hq, hu⟩ := List.mem_flatMap.mp hu
    have hsite := (E.callSites_perm f.id).mem_iff.mp (List.mem_filter.mp hs).1
    obtain ⟨hqwf, hne, -⟩ := wf_of_mem_landings hM (wf_of_mem_callSitesOf hsite) hq
    obtain rfl | hu := List.mem_cons.mp hu
    · exact .inl ⟨q, rfl, hqwf, hne⟩
    · exact .inr ⟨w.step, [], List.mem_singleton.mp hu, fun _ h => nomatch h⟩

theorem turned_toCallSite {s : Site} {rest : List Site} (hstack : w.callStack = s :: rest) :
    Turned M w (w.toCallSite s rest) := by
  have hs : s.WF M := hwf.stack s (hstack ▸ List.mem_cons_self)
  have hrest : ∀ s' ∈ rest, Site.WF M s' :=
    fun s' hs' => hwf.stack s' (hstack ▸ List.mem_cons_of_mem s hs')
  unfold Window.toCallSite
  split
  · exact turned_leave (benign_bothDestinations hM hs.func hrest) rfl rfl rfl hrest
  · rename_i hk
    have hterm := (invoke_or_not_terminator hs.call).resolve_left
      fun ⟨c, as, n, u, h⟩ => hk c as n u h
    refine ⟨⟨[], benign_nil, rfl⟩, rfl, rfl, ?_, hrest⟩
    intro q hq
    obtain rfl := Option.some.inj hq
    exact (after_of_call hM hs hterm.1).1.rest rfl

theorem turned_endOfBlock (hw : w.cursor = some p) : Turned M w (w.endOfBlock E p) := by
  have hfunc := (hwf.cursor p hw).func
  have hend : Turned M w (w.endOfFunction E p.func) := by
    unfold Window.endOfFunction
    split
    · exact turned_toCallers hM hwf p.func
    · rename_i s rest hstack
      exact turned_toCallSite hM hwf hstack
  unfold Window.endOfBlock
  split
  · exact turned_leave benign_nil rfl rfl rfl hwf.stack
  · split
    · exact turned_leave benign_nil rfl rfl rfl hwf.stack
    · exact turned_leave benign_nil rfl rfl rfl hwf.stack
    · split_ifs
      · exact turned_leave (benign_bothDestinations hM hfunc hwf.stack) rfl rfl rfl hwf.stack
      · exact hend
    · split
      · refine ⟨⟨[], benign_nil, rfl⟩, rfl, rfl, ?_, hwf.stack⟩
        exact fun q hq => (blockStart_ne_nil hM hfunc hq).1
      · exact hend

theorem turned_turn (hw : w.cursor = some p) : Turned M w (w.turn E p) := by
  unfold Window.turn
  split_ifs
  · split
    · exact turned_endOfBlock hM hwf hw
    · rename_i i rest hp
      exact turned_visit hM hwf hw hp
  · exact turned_leave benign_nil rfl rfl rfl hwf.stack

end WithPlaces

theorem WellFormed.turned {w' : Window} (h : WellFormed (M := M) w) (ht : Turned M w w') :
    WellFormed (M := M) w' := by
  obtain ⟨us, hus, htasks⟩ := ht.tasks
  refine ⟨ht.cursor, ht.stack, fun q hq => ?_, fun q hq => ?_, fun n l hl => ?_⟩
  · rw [htasks] at hq
    obtain hq | hq := List.mem_append.mp hq
    · obtain ⟨q', heq, hwf⟩ | ⟨n, l, heq, -⟩ := hus _ hq
      · obtain rfl := Task.explore.inj heq
        exact hwf
      · cases heq
    · exact h.explore q hq
  · rw [htasks] at hq
    obtain hq | hq := List.mem_append.mp hq
    · obtain ⟨q', heq, -⟩ | ⟨n, l, heq, -⟩ := hus _ hq <;> cases heq
    · exact h.start q hq
  · rw [htasks] at hl
    obtain hl | hl := List.mem_append.mp hl
    · obtain ⟨q', heq, -⟩ | ⟨n', l', heq, hwf⟩ := hus _ hl
      · cases heq
      · obtain ⟨rfl, rfl⟩ := Task.restore.inj heq
        exact hwf
    · exact h.restore n l hl

theorem Functions.turned {w' : Window} (h : Functions E w) (ht : Turned M w w') :
    Functions E w' := by
  obtain ⟨us, hus, htasks⟩ := ht.tasks
  refine ⟨fun f hf => h.queue f (ht.queue ▸ hf), fun f hf => ?_, ?_, fun f hf hvis => ?_⟩
  · rw [htasks] at hf
    obtain hf | hf := List.mem_append.mp hf
    · obtain ⟨q', heq, -⟩ | ⟨n, l, heq, -⟩ := hus _ hf <;> cases heq
    · exact h.callees f hf
  · rw [ht.functions, ht.queue]
    exact h.main
  · rw [ht.functions] at hvis ⊢
    rw [ht.queue, htasks]
    exact (h.called f hf hvis).imp_left fun hmem => List.mem_append_right us hmem

end Shape

/-! ## Tasks -/

section Perform

variable {w : Window} {p : Pos} {ts : List Task}

theorem enter_cases (hp : p.todo ≠ []) :
    (w.enter p = w ∧ ∃ i rest, p.todo = i :: rest ∧ (i.id, w.step) ∈ w.visitedInstructions) ∨
      ∃ vs, w.enter p = { w with visitedInstructions := vs, cursor := some p } := by
  unfold Window.enter
  split
  · rename_i hnil
    exact absurd hnil hp
  · rename_i i rest heq
    by_cases hseen : (i.id, w.step) ∈ w.visitedInstructions
    · rw [if_pos hseen]
      exact .inl ⟨rfl, i, rest, heq, hseen⟩
    · rw [if_neg hseen]
      exact .inr ⟨_, rfl⟩

/-- After a call of `explore` its configuration is owed: it is where the cursor is, or it was left
out for one that dominates it. -/
theorem owed_enter {log : List Config} (hp : p.todo ≠ [])
    (hprune : ∀ i rest, p.todo = i :: rest → (i.id, w.step) ∈ w.visitedInstructions →
      (w.step : Int) < E.windowSize → ∃ d ∈ log, d.Dominates ⟨p, w.callStack, w.step⟩)
    (hlive : (w.step : Int) < E.windowSize) :
    Owed ⟨w.enter p, log⟩ ⟨p, w.callStack, w.step⟩ := by
  obtain ⟨-, i, rest, hi, hseen⟩ | ⟨vs, heq⟩ := enter_cases (w := w) hp
  · obtain ⟨d, hd, hdom⟩ := hprune i rest hi hseen hlive
    exact ⟨d, .inl hd, hdom⟩
  · refine owed_of_present (.inr (.inl ?_))
    rw [heq, current_of_cursor rfl hp]
    exact List.mem_cons_self

theorem plan_subset_enter (hp : p.todo ≠ []) : plan none w.tasks ⊆ (w.enter p).planned := by
  obtain ⟨heq, -⟩ | ⟨vs, heq⟩ := enter_cases (w := w) hp
  · rw [heq]
    exact plan_none_subset _ _
  · rw [heq, planned_of_cursor rfl]
    exact List.Subset.refl _

/-- The rest of the state is as it was. -/
theorem enter_other (p : Pos) : (w.enter p).tasks = w.tasks ∧
    (w.enter p).visitedFunctions = w.visitedFunctions ∧
    (w.enter p).OOWInstructions = w.OOWInstructions ∧
    (w.enter p).functionsWillBeAnalyzed = w.functionsWillBeAnalyzed ∧
    (w.enter p).callStack = w.callStack := by
  unfold Window.enter
  split
  · exact ⟨rfl, rfl, rfl, rfl, rfl⟩
  · split_ifs
    · exact ⟨rfl, rfl, rfl, rfl, rfl⟩
    · exact ⟨rfl, rfl, rfl, rfl, rfl⟩

theorem cursor_enter (hw : w.cursor = none) (hp : p.todo ≠ []) {q : Pos}
    (hq : (w.enter p).cursor = some q) : q = p := by
  obtain ⟨heq, -⟩ | ⟨vs, heq⟩ := enter_cases (w := w) hp
  · rw [heq] at hq
    cases hw.symm.trans hq
  · rw [heq] at hq
    exact (Option.some.inj hq).symm

/-- Between two calls of `explore` nothing is in flight. -/
theorem Covers.performed (h : Covers E t) (hw : t.win.cursor = none)
    (hplanned : ∀ c ∈ t.win.planned, (c.count : Int) < E.windowSize → Owed ⟨w, t.log⟩ c)
    (hvisited : w.visitedFunctions = t.win.visitedFunctions)
    (hOOW : w.OOWInstructions = t.win.OOWInstructions)
    (harrived : ∀ q, w.cursor = some q → q.todo ≠ [])
    (hstart : ∀ q, Task.start q ∈ t.win.tasks → Task.start q ∈ w.tasks ∨
      (0 < E.windowSize → Owed ⟨w, t.log⟩ ⟨q, [], 0⟩)) : Covers E ⟨w, t.log⟩ := by
  have hcurrent : t.win.current = [] := by
    unfold Window.current
    rw [hw]
  have hkeep : Keeps E t ⟨w, t.log⟩ := by
    intro c hc hlive
    obtain hc | hc | hc := hc
    · exact owed_of_present (.inl hc)
    · rw [hcurrent] at hc
      cases hc
    · exact hplanned c hc hlive
  refine Covers.of_keeps [] h hkeep hvisited (hOOW ▸ List.Subset.refl _) ?_ ?_ ?_ ?_ hstart
  · exact fun q hq hnil => absurd hnil (harrived q hq)
  · exact fun c hc => nomatch hc
  · exact fun c hc => nomatch hc
  · exact fun c _ hfl => absurd hfl (not_inFlight_of_none hw)

section Kinds

variable (h : Covers E t) (hwf : WellFormed (M := M) t.win) (hw : t.win.cursor = none)

include h hw

/-- A task that explores nothing. -/
theorem Covers.skipped {u : Task} (htasks : t.win.tasks = u :: ts)
    (hu : ∀ q, u ≠ .start q) (hwtasks : w.tasks = ts)
    (hplanned : t.win.planned ⊆ w.planned)
    (hvisited : w.visitedFunctions = t.win.visitedFunctions)
    (hOOW : w.OOWInstructions = t.win.OOWInstructions) (hcursor : w.cursor = none) :
    Covers E ⟨w, t.log⟩ := by
  refine h.performed hw ?_ hvisited hOOW ?_ ?_
  · exact fun c hc _ => owed_of_present (.inr (.inr (hplanned hc)))
  · intro q hq
    cases hcursor.symm.trans hq
  · intro q hq
    rw [htasks] at hq
    obtain heq | hq := List.mem_cons.mp hq
    · exact absurd heq.symm (hu q)
    · exact .inl (hwtasks ▸ hq)

include hwf

theorem Covers.explored (htasks : t.win.tasks = .explore p :: ts)
    (hok : PruneOK E t p t.win.step) :
    Covers E ⟨{ t.win with tasks := ts }.enter p, t.log⟩ := by
  have hp : p.todo ≠ [] := (hwf.explore p (htasks ▸ List.mem_cons_self)).2
  obtain ⟨htasks', hvis, hOOW, -⟩ := enter_other (w := { t.win with tasks := ts }) p
  refine h.performed hw ?_ hvis hOOW ?_ ?_
  · intro c hc hlive
    rw [planned_of_none hw, htasks] at hc
    obtain rfl | hc := List.mem_cons.mp hc
    · exact owed_enter (w := { t.win with tasks := ts }) hp hok hlive
    · exact owed_of_present (.inr (.inr
        (plan_subset_enter (w := { t.win with tasks := ts }) hp hc)))
  · intro q hq
    rw [cursor_enter (w := { t.win with tasks := ts }) hw hp hq]
    exact hp
  · intro q hq
    rw [htasks] at hq
    obtain heq | hq := List.mem_cons.mp hq
    · cases heq
    · rw [htasks']
      exact .inl hq

theorem Covers.started (htasks : t.win.tasks = .start p :: ts) (hstack : t.win.callStack = [])
    (hok : PruneOK E t p 0) :
    Covers E ⟨{ t.win with tasks := ts, step := 0 }.enter p, t.log⟩ := by
  have hp : p.todo ≠ [] := (hwf.start p (htasks ▸ List.mem_cons_self)).2
  obtain ⟨htasks', hvis, hOOW, -⟩ := enter_other (w := { t.win with tasks := ts, step := 0 }) p
  refine h.performed hw ?_ hvis hOOW ?_ ?_
  · intro c hc _
    rw [planned_of_none hw, htasks] at hc
    exact owed_of_present (.inr (.inr
      (plan_subset_enter (w := { t.win with tasks := ts, step := 0 }) hp hc)))
  · intro q hq
    rw [cursor_enter (w := { t.win with tasks := ts, step := 0 }) hw hp hq]
    exact hp
  · intro q hq
    rw [htasks] at hq
    obtain heq | hq := List.mem_cons.mp hq
    · obtain rfl := Task.start.inj heq
      right
      intro hpos
      obtain ⟨d, hd, hdom⟩ := owed_enter (w := { t.win with tasks := ts, step := 0 }) hp hok hpos
      have hpending : d.pending <+: t.win.callStack := hdom.pending
      rw [hstack] at hpending
      exact ⟨d, hd, hdom.pos, hpending, hdom.count⟩
    · rw [htasks']
      exact .inl hq

end Kinds

theorem WellFormed.rest {u : Task} (h : WellFormed (M := M) w) (htasks : w.tasks = u :: ts)
    {w' : Window} (hw' : w'.tasks = ts) (hcursor : ∀ q, w'.cursor = some q → q.WF M)
    (hstack : ∀ s ∈ w'.callStack, s.WF M) : WellFormed (M := M) w' := by
  have hsub : ∀ v ∈ w'.tasks, v ∈ w.tasks := by
    intro v hv
    rw [hw'] at hv
    rw [htasks]
    exact List.mem_cons_of_mem u hv
  exact ⟨hcursor, hstack, fun q hq => h.explore q (hsub _ hq), fun q hq => h.start q (hsub _ hq),
    fun n l hl => h.restore n l (hsub _ hl)⟩

theorem WellFormed.perform {u : Task} (h : WellFormed (M := M) w) (hw : w.cursor = none)
    (htasks : w.tasks = u :: ts) :
    WellFormed (M := M) (Window.perform (M := M) { w with tasks := ts } u) := by
  have hmem : u ∈ w.tasks := htasks ▸ List.mem_cons_self
  have hnone : ∀ q, w.cursor = some q → q.WF M := fun q hq => h.cursor q hq
  have henter : ∀ (w' : Window) (q : Pos), w'.tasks = ts → w'.cursor = none →
      w'.callStack = w.callStack → q.WF M ∧ q.todo ≠ [] → WellFormed (M := M) (w'.enter q) := by
    intro w' q hts hcur hstack hq
    obtain ⟨htasks', -, -, -, hstack'⟩ := enter_other (w := w') q
    refine h.rest htasks (htasks'.trans hts) (fun r hr => ?_) ?_
    · rw [cursor_enter hcur hq.2 hr]
      exact hq.1
    · rw [hstack', hstack]
      exact h.stack
  cases u with
  | start q => exact henter _ q rfl hw rfl (h.start q hmem)
  | explore q => exact henter _ q rfl hw rfl (h.explore q hmem)
  | restore n l => exact h.rest htasks rfl hnone (h.restore n l hmem)
  | clear => exact h.rest htasks rfl hnone fun s hs => nomatch hs
  | callees f => exact h.rest htasks rfl hnone h.stack

/-- A task that queues nothing. -/
theorem Functions.rest {u : Task} (h : Functions E w) (htasks : w.tasks = u :: ts)
    (hu : ∀ f, u ≠ .callees f) {w' : Window} (hw' : w'.tasks = ts)
    (hvis : w'.visitedFunctions = w.visitedFunctions)
    (hqueue : w'.functionsWillBeAnalyzed = w.functionsWillBeAnalyzed) : Functions E w' := by
  refine ⟨?_, fun f hf => ?_, ?_, fun f hf hv => ?_⟩
  · rw [hqueue]
    exact h.queue
  · rw [hw'] at hf
    exact h.callees f (htasks ▸ List.mem_cons_of_mem u hf)
  · rw [hvis, hqueue]
    exact h.main
  · rw [hvis] at hv ⊢
    rw [hqueue, hw']
    refine (h.called f hf hv).imp_left fun hmem => ?_
    rw [htasks] at hmem
    obtain heq | hmem := List.mem_cons.mp hmem
    · exact absurd heq.symm (hu f)
    · exact hmem

theorem Functions.queued {f : Function} (h : Functions E w) (htasks : w.tasks = .callees f :: ts) :
    Functions E (Window.perform (M := M) { w with tasks := ts } (.callees f)) := by
  have hmem : ∀ g, g ∈ Window.queued (M := M) { w with tasks := ts } f ↔
      ∃ i ∈ f.insts, i.calledFunction.bind M.func? = some g ∧ g.id ∉ w.visitedFunctions := by
    intro g
    unfold Window.queued
    rw [List.mem_filterMap]
    refine exists_congr fun i => and_congr_right fun _ => ?_
    rw [Option.filter_eq_some_iff, decide_eq_true_iff]
  refine ⟨fun g hg => ?_, fun g hg => ?_, ?_, fun g hg hvis => ?_⟩
  · obtain hg | hg := List.mem_append.mp hg
    · exact h.queue g hg
    · obtain ⟨i, -, hi, -⟩ := (hmem g).mp hg
      obtain ⟨k, -, hk⟩ := Option.bind_eq_some_iff.mp hi
      exact List.mem_of_find?_eq_some hk
  · exact h.callees g (htasks ▸ List.mem_cons_of_mem _ hg)
  · exact h.main.imp_right fun hmain => List.mem_append_left _ hmain
  · obtain htask | hall := h.called g hg hvis
    · rw [htasks] at htask
      obtain heq | htask := List.mem_cons.mp htask
      · obtain rfl := Task.callees.inj heq
        right
        intro i hi k hk
        by_cases hv : k.id ∈ w.visitedFunctions
        · exact .inl hv
        · exact .inr (List.mem_append_right _ ((hmem k).mpr ⟨i, hi, hk, hv⟩))
      · exact .inl htask
    · right
      intro i hi k hk
      exact (hall i hi k hk).imp_right fun hq => List.mem_append_left _ hq

theorem Functions.perform {u : Task} (h : Functions E w) (htasks : w.tasks = u :: ts) :
    Functions E (Window.perform (M := M) { w with tasks := ts } u) := by
  cases u with
  | start p =>
      obtain ⟨hts, hvis, -, hq, -⟩ := enter_other (w := { w with tasks := ts, step := 0 }) p
      exact h.rest htasks (fun f hf => nomatch hf) hts hvis hq
  | explore p =>
      obtain ⟨hts, hvis, -, hq, -⟩ := enter_other (w := { w with tasks := ts }) p
      exact h.rest htasks (fun f hf => nomatch hf) hts hvis hq
  | callees f => exact h.queued htasks
  | _ => exact h.rest htasks (fun f hf => nomatch hf) rfl rfl rfl

/-- **A task keeps the cover.** -/
theorem Covers.perform {u : Task} (h : Covers E t) (hwf : WellFormed (M := M) t.win)
    (hw : t.win.cursor = none) (htasks : t.win.tasks = u :: ts) (hok : StepOK E t) :
    Covers E ⟨Window.perform (M := M) { t.win with tasks := ts } u, t.log⟩ := by
  unfold StepOK at hok
  rw [hw, htasks] at hok
  cases u with
  | start p => exact h.started hwf hw htasks hok.1 hok.2
  | explore p => exact h.explored hwf hw htasks hok
  | restore n l =>
      refine h.skipped hw htasks (fun q hq => nomatch hq) rfl ?_ rfl rfl hw
      have hplan : (Window.perform (M := M) { t.win with tasks := ts } (.restore n l)).planned =
          plan (some (n, l)) ts := planned_of_none hw
      rw [planned_of_none hw, htasks, hplan]
      exact List.Subset.refl _
  | clear =>
      refine h.skipped hw htasks (fun q hq => nomatch hq) rfl ?_ rfl rfl hw
      rw [planned_of_none hw, htasks]
      exact plan_none_subset _ ts
  | callees f =>
      refine h.skipped hw htasks (fun q hq => nomatch hq) rfl ?_ rfl rfl hw
      rw [planned_of_none hw, htasks]
      exact plan_none_subset _ ts

end Perform

/-! ## A new function -/

section Analyze

variable {f : Function} {rest : List Function}

theorem mem_callStarts {b : Block} {u : Task} (h : u ∈ Window.callStarts E f b) :
    ∃ i todo, u = .start ⟨f, b, i :: todo⟩ ∧ i :: todo <:+ b.insts := by
  obtain ⟨todo, htodo, hu⟩ := List.mem_flatMap.mp h
  cases todo with
  | nil => cases hu
  | cons i todo =>
      dsimp only at hu
      split_ifs at hu
      · exact ⟨i, todo, List.mem_singleton.mp hu, (List.mem_tails _ _).mp htodo⟩
      · cases hu

theorem mem_branchStarts {b : Block} {u : Task} (h : u ∈ Window.branchStarts f b) :
    (∃ s q, u = .start q ∧ f.blockStart s = some q) ∨ u = .clear := by
  unfold Window.branchStarts at h
  split at h
  · obtain ⟨s, -, hu⟩ := List.mem_flatMap.mp h
    obtain ⟨q, hq, hu⟩ := List.mem_flatMap.mp hu
    obtain hu | hu := List.mem_cons.mp hu
    · exact .inl ⟨s, q, hu, Option.mem_toList.mp hq⟩
    · exact .inr (List.mem_singleton.mp hu)
  · cases h

/-- A function's list has starts, and stacks to clear. -/
theorem mem_analyzeFunction (hM : M.WF) (hf : f ∈ M.funcs) {u : Task}
    (h : u ∈ Window.analyzeFunction E f) :
    (∃ p, u = .start p ∧ p.WF M ∧ p.todo ≠ []) ∨ u = .clear := by
  unfold Window.analyzeFunction at h
  split_ifs at h
  · cases h
  · obtain h | h := List.mem_append.mp h
    · obtain ⟨b, hb, hu⟩ := List.mem_flatMap.mp h
      obtain ⟨i, todo, rfl, hsuffix⟩ := mem_callStarts hu
      exact .inl ⟨_, rfl, ⟨hf, hb, hsuffix⟩, List.cons_ne_nil i todo⟩
    · obtain ⟨b, hb, hu⟩ := List.mem_flatMap.mp h
      obtain ⟨s, q, rfl, hq⟩ | rfl := mem_branchStarts hu
      · exact .inl ⟨q, rfl, blockStart_ne_nil hM hf hq⟩
      · exact .inr rfl

/-- Every place where speculation starts is in the list. -/
theorem start_mem_analyzeFunction (hok : SwitchesOK f) {p : Pos} (hp : SourceOf E f p) :
    Task.start p ∈ Window.analyzeFunction E f := by
  have hdecl : ∀ b ∈ f.blocks, ¬ f.isDeclaration = true := by
    intro b hb hnil
    rw [List.isEmpty_iff.mp hnil] at hb
    cases hb
  unfold Window.analyzeFunction
  cases hp with
  | @edge b t s _ hb ht hsplit hs hq =>
      rw [if_neg (hdecl b hb)]
      refine List.mem_append_right _ (List.mem_flatMap.mpr ⟨b, hb, ?_⟩)
      unfold Window.branchStarts
      rw [ht]
      refine List.mem_flatMap.mpr ⟨s, hok b hb t ht s hs hsplit, ?_⟩
      exact List.mem_flatMap.mpr ⟨p, Option.mem_toList.mpr hq, List.mem_cons_self⟩
  | @call b done i todo hb hi hcall =>
      rw [if_neg (hdecl b hb)]
      refine List.mem_append_left _ (List.mem_flatMap.mpr ⟨b, hb, ?_⟩)
      unfold Window.callStarts
      refine List.mem_flatMap.mpr ⟨i :: todo, (List.mem_tails _ _).mpr ⟨done, hi.symm⟩, ?_⟩
      dsimp only
      rw [if_pos hcall]
      exact List.mem_cons_self

variable (hM : M.WF) {w : Window}

include hM

theorem mem_tasks_analyze (hf : f ∈ M.funcs) {u : Task} (hu : u ∈ (w.analyze E f rest).tasks) :
    (∃ p, u = .start p ∧ p.WF M ∧ p.todo ≠ []) ∨ u = .clear ∨ u = .callees f := by
  obtain hu | hu := List.mem_append.mp hu
  · exact (mem_analyzeFunction hM hf hu).imp_right .inl
  · exact .inr (.inr (List.mem_singleton.mp hu))

theorem WellFormed.analyze (h : WellFormed (M := M) w) (hw : w.cursor = none) (hf : f ∈ M.funcs) :
    WellFormed (M := M) (w.analyze E f rest) := by
  refine ⟨fun p hp => ?_, h.stack, fun p hp => ?_, fun p hp => ?_, fun n l hl => ?_⟩
  · cases hw.symm.trans hp
  · obtain ⟨q, hq, -⟩ | hq | hq := mem_tasks_analyze hM hf hp <;> cases hq
  · obtain ⟨q, hq, hwf⟩ | hq | hq := mem_tasks_analyze hM hf hp
    · obtain rfl := Task.start.inj hq
      exact hwf
    · cases hq
    · cases hq
  · obtain ⟨q, hq, -⟩ | hq | hq := mem_tasks_analyze hM hf hl <;> cases hq

theorem Functions.analyze (h : Functions E w) (htasks : w.tasks = [])
    (hqueue : w.functionsWillBeAnalyzed = f :: rest) : Functions E (w.analyze E f rest) := by
  have hf : f ∈ M.funcs := h.queue f (hqueue ▸ List.mem_cons_self)
  refine ⟨fun g hg => ?_, fun g hg => ?_, ?_, fun g hg hvis => ?_⟩
  · exact h.queue g (hqueue ▸ List.mem_cons_of_mem f hg)
  · obtain ⟨q, hq, -⟩ | hq | hq := mem_tasks_analyze hM hf hg
    · cases hq
    · cases hq
    · obtain rfl := Task.callees.inj hq
      exact hf
  · obtain hmain | hmain := h.main
    · exact .inl (List.mem_cons_of_mem _ hmain)
    · rw [hqueue] at hmain
      obtain hmain | hmain := List.mem_cons.mp hmain
      · left
        rw [hmain]
        exact List.mem_cons_self
      · exact .inr hmain
  · obtain hid | hvis := List.mem_cons.mp hvis
    · obtain rfl := List.inj_on_of_nodup_map hM.funcs_nodup hg hf hid
      exact .inl (List.mem_append_right _ List.mem_cons_self)
    · obtain hnone | hall := h.called g hg hvis
      · rw [htasks] at hnone
        cases hnone
      · right
        intro i hi k hk
        obtain hk' | hk' := hall i hi k hk
        · exact .inl (List.mem_cons_of_mem _ hk')
        · rw [hqueue] at hk'
          obtain rfl | hk' := List.mem_cons.mp hk'
          · exact .inl List.mem_cons_self
          · exact .inr hk'

/-- **The next function of the queue keeps the cover.** -/
theorem Covers.analyze (h : Covers E t) (hw : t.win.cursor = none) (htasks : t.win.tasks = [])
    (hf : f ∈ M.funcs) (hok : SwitchesOK f) : Covers E ⟨t.win.analyze E f rest, t.log⟩ := by
  have hkeep : Keeps E t ⟨t.win.analyze E f rest, t.log⟩ := by
    intro c hc _
    obtain hc | hc | hc := hc
    · exact owed_of_present (.inl hc)
    · unfold Window.current at hc
      rw [hw] at hc
      cases hc
    · rw [planned_of_none hw, htasks] at hc
      cases hc
  refine ⟨fun p hp => ?_, h.erased, fun c hc => ?_, fun g hg hvis p hp => ?_⟩
  · cases hw.symm.trans hp
  · obtain hfl | hcl := h.closed c hc
    · exact absurd hfl (not_inFlight_of_none hw)
    · exact .inr (hcl.keep hkeep)
  · obtain hid | hvis := List.mem_cons.mp hvis
    · obtain rfl := List.inj_on_of_nodup_map hM.funcs_nodup hg hf hid
      exact .inl (List.mem_append_left _ (start_mem_analyzeFunction hok hp))
    · obtain hnone | howed := h.sources g hg hvis p hp
      · rw [htasks] at hnone
        cases hnone
      · exact .inr fun hpos => (howed hpos).keep hkeep (by simpa using hpos)

end Analyze

/-! ## Runs -/

theorem inv_initial : Inv E (initial E) := by
  refine ⟨⟨?_, ?_, ?_, ?_, ?_⟩, ⟨?_, ?_, ?_, ?_⟩, ⟨?_, ?_, ?_, ?_⟩⟩
  · exact fun p hp => nomatch hp
  · exact fun s hs => nomatch hs
  · exact fun p hp => nomatch hp
  · exact fun p hp => nomatch hp
  · exact fun n l hl => nomatch hl
  · exact fun p hp => nomatch hp
  · exact fun c hc => nomatch hc
  · exact fun c hc => nomatch hc
  · exact fun f _ hvis => nomatch hvis
  · intro f hf
    obtain rfl := List.mem_singleton.mp hf
    exact E.main_mem
  · exact fun f hf => nomatch hf
  · exact .inr List.mem_cons_self
  · exact fun f _ hvis => nomatch hvis

theorem next_of_task {w : Window} (hw : w.cursor = none) {u : Task} {ts : List Task}
    (htasks : w.tasks = u :: ts) :
    w.next E = some (Window.perform (M := M) { w with tasks := ts } u) := by
  unfold Window.next
  rw [hw, htasks]

theorem next_of_function {w : Window} (hw : w.cursor = none) (htasks : w.tasks = [])
    {f : Function} {rest : List Function} (hqueue : w.functionsWillBeAnalyzed = f :: rest) :
    w.next E = some (w.analyze E f rest) := by
  unfold Window.next
  rw [hw, htasks, hqueue]

theorem next_of_nothing {w : Window} (hw : w.cursor = none) (htasks : w.tasks = [])
    (hqueue : w.functionsWillBeAnalyzed = []) : w.next E = none := by
  unfold Window.next
  rw [hw, htasks, hqueue]

theorem next_of_cursor {w : Window} {p : Pos} (hw : w.cursor = some p) :
    w.next E = some (w.turn E p) := by
  unfold Window.next
  rw [hw]

/-- What a step of the pass is. -/
theorem next_cases {w w' : Window} (h : w.next E = some w') :
    (∃ p, w.cursor = some p ∧ w' = w.turn E p) ∨
    (∃ u ts, w.cursor = none ∧ w.tasks = u :: ts ∧
      w' = Window.perform (M := M) { w with tasks := ts } u) ∨
    ∃ f rest, w.cursor = none ∧ w.tasks = [] ∧ w.functionsWillBeAnalyzed = f :: rest ∧
      w' = w.analyze E f rest := by
  obtain hcursor | ⟨p, hcursor⟩ := w.cursor.eq_none_or_eq_some
  · by_cases htasks : w.tasks = []
    · by_cases hqueue : w.functionsWillBeAnalyzed = []
      · rw [next_of_nothing hcursor htasks hqueue] at h
        cases h
      · obtain ⟨f, rest, hqueue⟩ := List.exists_cons_of_ne_nil hqueue
        rw [next_of_function hcursor htasks hqueue] at h
        exact .inr (.inr ⟨f, rest, hcursor, htasks, hqueue, (Option.some.inj h).symm⟩)
    · obtain ⟨u, ts, htasks⟩ := List.exists_cons_of_ne_nil htasks
      rw [next_of_task hcursor htasks] at h
      exact .inr (.inl ⟨u, ts, hcursor, htasks, (Option.some.inj h).symm⟩)
  · rw [next_of_cursor hcursor] at h
    exact .inl ⟨p, hcursor, (Option.some.inj h).symm⟩

/-- Where the pass stops nothing is left to do. -/
theorem done_of_next {w : Window} (h : w.next E = none) :
    w.cursor = none ∧ w.tasks = [] ∧ w.functionsWillBeAnalyzed = [] := by
  obtain hcursor | ⟨p, hcursor⟩ := w.cursor.eq_none_or_eq_some
  · by_cases htasks : w.tasks = []
    · by_cases hqueue : w.functionsWillBeAnalyzed = []
      · exact ⟨hcursor, htasks, hqueue⟩
      · obtain ⟨f, rest, hqueue⟩ := List.exists_cons_of_ne_nil hqueue
        rw [next_of_function hcursor htasks hqueue] at h
        cases h
    · obtain ⟨u, ts, htasks⟩ := List.exists_cons_of_ne_nil htasks
      rw [next_of_task hcursor htasks] at h
      cases h
  · rw [next_of_cursor hcursor] at h
    cases h

/-- Places stay in the module. -/
theorem WellFormed.next (hM : M.WF) {w w' : Window} (h : WellFormed (M := M) w)
    (hqueue : ∀ f ∈ w.functionsWillBeAnalyzed, f ∈ M.funcs) (hnext : w.next E = some w') :
    WellFormed (M := M) w' := by
  obtain ⟨p, hcursor, rfl⟩ | ⟨u, ts, hcursor, htasks, rfl⟩ | ⟨f, rest, hcursor, -, hf, rfl⟩ :=
    next_cases hnext
  · exact h.turned (turned_turn hM h hcursor)
  · exact h.perform hcursor htasks
  · exact h.analyze hM hcursor (hqueue f (hf ▸ List.mem_cons_self))

theorem Functions.next (hM : M.WF) {w w' : Window} (h : Functions E w)
    (hwf : WellFormed (M := M) w) (hnext : w.next E = some w') : Functions E w' := by
  obtain ⟨p, hcursor, rfl⟩ | ⟨u, ts, -, htasks, rfl⟩ | ⟨f, rest, -, htasks, hqueue, rfl⟩ :=
    next_cases hnext
  · exact h.turned (turned_turn hM hwf hcursor)
  · exact h.perform htasks
  · exact h.analyze hM htasks hqueue

/-- With nothing queued, everything that is called has been visited. -/
theorem Functions.visited {w : Window} (h : Functions E w) (htasks : w.tasks = [])
    (hqueue : w.functionsWillBeAnalyzed = []) {f : Function} (hf : CalledFromMain E f) :
    f ∈ M.funcs ∧ f.id ∈ w.visitedFunctions := by
  induction hf with
  | main =>
      refine ⟨E.main_mem, h.main.resolve_right ?_⟩
      rw [hqueue]
      exact List.not_mem_nil
  | @call f g i _ hi hg ih =>
      obtain ⟨k, -, hk⟩ := Option.bind_eq_some_iff.mp hg
      refine ⟨List.mem_of_find?_eq_some hk, ?_⟩
      obtain htask | hall := h.called f ih.1 ih.2
      · rw [htasks] at htask
        cases htask
      · refine (hall i hi g hg).resolve_right ?_
        rw [hqueue]
        exact List.not_mem_nil

/-- **Every step that meets the condition keeps the cover.** -/
theorem Covers.step (hM : M.WF) (h : Inv E t) (hok : StepOK E t) (hnext : t.next E = some t') :
    Covers E t' := by
  obtain ⟨w, hw, rfl⟩ := Option.map_eq_some_iff.mp hnext
  have hnone : t.win.cursor = none → Track.visited E t.win = [] := by
    intro hcursor
    unfold Track.visited Window.current
    rw [hcursor]
    exact ite_self _
  obtain ⟨p, hcursor, rfl⟩ | ⟨u, ts, hcursor, htasks, rfl⟩ |
    ⟨f, rest, hcursor, htasks, hqueue, rfl⟩ := next_cases hw
  · unfold Track.visited Window.turn
    by_cases hlive : (t.win.step : Int) < E.windowSize
    · rw [if_pos hlive, if_pos hlive]
      cases hp : p.todo with
      | cons i rest => exact h.covers.visit hM h.wf hcursor hp
      | nil =>
          rw [current_of_nil hcursor hp]
          obtain ⟨c, -, p', i, hp', -, -, hlast, hterm, -⟩ := h.covers.arrived p hcursor hp
          obtain rfl := Option.some.inj (hcursor.symm.trans hp')
          unfold StepOK at hok
          rw [hcursor] at hok
          exact h.covers.endOfBlock hcursor hp hlast hM h.wf (hok hp hlive i hlast) hterm
    · rw [if_neg hlive, if_neg hlive]
      exact h.covers.full hcursor hlive
  · rw [hnone hcursor]
    exact h.covers.perform h.wf hcursor htasks hok
  · rw [hnone hcursor]
    unfold StepOK at hok
    rw [hcursor, htasks, hqueue] at hok
    exact h.covers.analyze hM hcursor htasks
      (h.functions.queue f (hqueue ▸ List.mem_cons_self)) hok

theorem Inv.step (hM : M.WF) (h : Inv E t) (hok : StepOK E t) (hnext : t.next E = some t') :
    Inv E t' := by
  obtain ⟨w, hw, heq⟩ := Option.map_eq_some_iff.mp hnext
  have hwin : t'.win = w := by rw [← heq]
  refine ⟨?_, Covers.step hM h hok hnext, ?_⟩
  · rw [hwin]
    exact h.wf.next hM h.functions.queue hw
  · rw [hwin]
    exact h.functions.next hM h.wf hw

theorem inv_run (hM : M.WF) (h : Run (next E) (StepOK E) (initial E) t) : Inv E t :=
  h.invariant inv_initial fun _ _ hinv hok hs => hinv.step hM hok hs

/-! ## At the end -/

section Finished

variable (hM : M.WF) (h : Inv E t) (hend : t.next E = none)

omit hM h in
include hend in
theorem finished : t.win.cursor = none ∧ t.win.tasks = [] ∧ t.win.functionsWillBeAnalyzed = [] :=
  done_of_next (Option.map_eq_none_iff.mp hend)

omit hM h in
include hend in
/-- Nothing is left to do, so what is owed has been visited. -/
theorem Owed.visited (howed : t.Owed c) : ∃ d ∈ t.log, d.Dominates c := by
  obtain ⟨hcursor, htasks, -⟩ := finished hend
  obtain ⟨d, hd | hd | hd, hdom⟩ := howed
  · exact ⟨d, hd, hdom⟩
  · unfold Window.current at hd
    rw [hcursor] at hd
    cases hd
  · rw [planned_of_none hcursor, htasks] at hd
    cases hd

include h hend

theorem visited_of_calledFromMain {f : Function} (hf : CalledFromMain E f) :
    f ∈ M.funcs ∧ f.id ∈ t.win.visitedFunctions :=
  h.functions.visited (finished hend).2.1 (finished hend).2.2 hf

theorem source_visited {f : Function} (hf : CalledFromMain E f) {p : Pos} (hp : SourceOf E f p)
    (hpos : 0 < E.windowSize) : ∃ d ∈ t.log, d.Dominates ⟨p, [], 0⟩ := by
  obtain ⟨hmem, hvis⟩ := visited_of_calledFromMain h hend hf
  obtain htask | howed := h.covers.sources f hmem hvis p hp
  · rw [(finished hend).2.1] at htask
    cases htask
  · exact (howed hpos).visited hend

theorem bySource_visited (hc : BySource E c) (hlive : (c.count : Int) < E.windowSize) :
    ∃ d ∈ t.log, d.Dominates c := by
  obtain ⟨f, p, hf, hp, hdom⟩ := hc
  obtain ⟨d, hd, hdom'⟩ := source_visited h hend hf hp (by omega)
  exact ⟨d, hd, hdom'.trans hdom⟩

include hM

omit h hend in
/-- A recursive call steps to where it returns to. -/
theorem step_of_recursive {g : FuncId} {s : Site} (hs : s ∈ M.callSitesOf g)
    (hrec : E.isRecursive g = true) {q : Pos} (hq : q ∈ s.landings) {rest done : List Inst}
    (hsplit : s.block.insts = done ++ s.inst :: rest) :
    PathStep E ⟨⟨s.func, s.block, s.inst :: rest⟩, [], 0⟩ ⟨q, [], 1⟩ := by
  have hswf := wf_of_mem_callSitesOf hs
  obtain ⟨-, -, -, hg, -⟩ := mem_callSitesOf.mp hs
  have hent : E.entered s.inst = none := by
    unfold WindowEnv.entered
    rw [hg, Option.bind_some, if_pos hrec]
  obtain ⟨callee, args, normal, unwind, hk⟩ | ⟨hterm, hk⟩ := invoke_or_not_terminator hswf.call
  · have hstart : ∃ b ∈ s.inst.kind.successors, s.func.blockStart b = some q := by
      rw [hk]
      obtain hq | hq := (mem_landings_of_invoke hk).mp hq
      · exact ⟨normal, List.mem_cons_self, hq⟩
      · exact ⟨unwind, List.mem_cons_of_mem _ List.mem_cons_self, hq⟩
    obtain ⟨b, hb, hbq⟩ := hstart
    exact .branch rfl hent hb hbq
  · rw [landings_of_not_invoke hk, List.mem_singleton, after_eq hM hswf hsplit] at hq
    have hweight : M.weight s.inst = 1 := by
      unfold Module.weight
      rw [hg, Option.any_some, if_neg]
      intro hdebug
      rw [not_isRecursive_of_debug E hdebug] at hrec
      cases hrec
    have hover := PathStep.stepOver (E := E) (k := []) (n := 0)
      (p := ⟨s.func, s.block, s.inst :: rest⟩) rfl hent hterm
    rwa [hweight, ← hq] at hover

/-- What has been visited is closed up to domination. -/
theorem log_closed {d d' : Config} (hd : d ∈ t.log) (hstep : PathStep E d d')
    (hlive : (d'.count : Int) < E.windowSize) : ∃ e ∈ t.log, e.Dominates d' := by
  have hcl : ∀ c ∈ t.log, Closed E t c := fun c hc =>
    (h.covers.closed c hc).resolve_left (not_inFlight_of_none (finished hend).1)
  obtain howed | hsource | ⟨-, g, s, hs, hrec, hmain, hq, hpos⟩ := hcl d hd d' hstep hlive
  · exact howed.visited hend
  · exact bySource_visited h hend hsource hlive
  · -- the call of the recursive function has been started from, and stepped over
    have hswf := wf_of_mem_callSitesOf hs
    obtain ⟨-, -, -, hg, -⟩ := mem_callSitesOf.mp hs
    obtain ⟨done, rest, hsplit⟩ := List.append_of_mem hswf.inst
    have hcall : Window.isSourceCall E s.inst = true := by
      unfold Window.isSourceCall
      rw [hswf.call, hg, Option.all_some, hrec]
      rfl
    obtain ⟨⟨p, k, n⟩, he, hdom⟩ := source_visited h hend hmain (.call hswf.block hsplit hcall)
      (by omega)
    obtain rfl : p = _ := hdom.pos
    obtain rfl := List.prefix_nil.mp hdom.pending
    obtain rfl : n = 0 := Nat.le_zero.mp hdom.count
    have hafter := hcl _ he ⟨d'.pos, [], 1⟩ (step_of_recursive hM hs hrec hq hsplit)
      (show ((1 : Nat) : Int) < _ by omega)
    have hdom' : Config.Dominates ⟨d'.pos, [], 1⟩ d' := ⟨rfl, List.nil_prefix, hpos⟩
    have hvisited : ∃ e ∈ t.log, e.Dominates ⟨d'.pos, [], 1⟩ := by
      obtain howed | hsource | ⟨⟨i, hi, hret⟩, -⟩ := hafter
      · exact howed.visited hend
      · exact bySource_visited h hend hsource (show ((1 : Nat) : Int) < _ by omega)
      · obtain ⟨rfl, -⟩ := List.cons.inj hi
        rw [not_returns_of_call hswf.call] at hret
        cases hret
    obtain ⟨e, he', hedom⟩ := hvisited
    exact ⟨e, he', hedom.trans hdom'⟩

end Finished

end Track

/-- **A GEP that is left at the end is not reached within the window.** -/
theorem out_of_window_sound (hM : M.WF) {t : Track}
    (hrun : Run (Track.next E) (Track.StepOK E) (Track.initial E) t) (hend : t.next E = none)
    {g : Inst} (hgep : g.kind.isGEP = true) (hg : g.id ∈ t.win.OOWInstructions) {f : Function}
    (hf : CalledFromMain E f) {p : Pos} (hp : SourceOf E f p) {c : Config}
    (hpath : Relation.ReflTransGen (PathStep E) ⟨p, [], 0⟩ c) (hat : c.pos.todo.head? = some g) :
    E.windowSize ≤ c.count := by
  have hinv := Track.inv_run hM hrun
  obtain ⟨hfmem, -⟩ := Track.visited_of_calledFromMain hinv hend hf
  have hpwf : p.WF M := by
    cases hp with
    | edge hb ht hsplit hs hq => exact (blockStart_ne_nil hM hfmem hq).1
    | @call b done i rest hb hi hcall => exact ⟨hfmem, hb, ⟨done, hi.symm⟩⟩
  by_contra hlive
  obtain ⟨d, hd, hdom⟩ := dominated_of_reach Config.Dominates (OnPath E)
    (fun c => (c.count : Int) < E.windowSize) (fun d => d ∈ t.log)
    (fun _ _ hc hstep => hc.step E hM hstep)
    (fun _ _ hstep hl => by have := hstep.count_le; omega)
    (fun _ _ hdom hl => by have := hdom.count; omega)
    (fun _ _ _ h1 h2 => h1.trans h2)
    (fun _ _ _ hc hdom hstep => hstep.simulate E hc hdom)
    (fun _ _ hd hstep hl => Track.log_closed hM hinv hend hd hstep hl)
    (s := ⟨p, [], 0⟩) ⟨hpwf, trivial⟩
    (fun hl => Track.source_visited hinv hend hf hp (by simpa using hl)) hpath (by omega)
  obtain ⟨rest, hrest⟩ := List.head?_eq_some_iff.mp hat
  exact hinv.covers.erased d hd g rest (hdom.pos ▸ hrest) hgep hg

/-! ## One branch -/

/-- A branch to two blocks with a GEP each, the first behind another instruction. -/
def splitModule (k : InstKind) : Module where
  structs := fun _ => []
  globals := []
  funcs := [⟨0, "main", [.int 32, .ptr (.int 8)], [
    ⟨0, [⟨0, .void, k⟩]⟩,
    ⟨1, [⟨1, .int 32, .other []⟩,
      ⟨2, .ptr (.int 8), .gep (.int 8) (.arg 0 1) [.arg 0 0]⟩,
      ⟨3, .void, .ret none⟩]⟩,
    ⟨2, [⟨4, .ptr (.int 8), .gep (.int 8) (.arg 0 1) [.arg 0 0]⟩,
      ⟨5, .void, .ret none⟩]⟩]⟩]

/-- Without calls. -/
def splitEnv (k : InstKind) (window : Int) : WindowEnv (splitModule k) where
  windowSize := window
  CG := fun _ => []
  mainFunction := (splitModule k).funcs.head (List.cons_ne_nil _ _)
  main_mem := List.head_mem _
  functionCallSiteMap := (splitModule k).callSitesOf
  callSites_perm := fun _ => List.Perm.refl _

def splitBranch : InstKind := .condBr (.arg 0 0) 1 2

def splitSwitch : InstKind := .switch (.arg 0 0) 2 [(APInt.ofNat 32 1, 1)]

theorem splitModule_wf : (splitModule splitBranch).WF where
  funcs_nodup := by decide
  blocks_nodup := by decide
  insts_nodup := by decide
  terminated := Module.terminated_of_last (by decide)
  targets := by decide
  operands := Module.operands_of_isStore_eq_false (by decide)

namespace Track

/-- No step of this kind meets a defect: nothing is left out, no block ends within the window. -/
def quiet {M : Module} (E : WindowEnv M) (t : Track) : Bool :=
  match t.win.cursor with
  | some p => !p.todo.isEmpty || !decide ((t.win.step : Int) < E.windowSize)
  | none =>
      match t.win.tasks with
      | .start p :: _ => t.win.callStack.isEmpty &&
          p.todo.head?.all fun i => t.win.visitedInstructions.all fun v => v ≠ (i.id, 0)
      | .explore _ :: _ => false
      | _ :: _ => true
      | [] => t.win.functionsWillBeAnalyzed.head?.all fun f => f.blocks.all fun b =>
          b.terminator.all fun i => i.kind.successors.all fun s =>
            s ∈ Window.exploredDestinations i.kind

theorem stepOK_of_quiet {M : Module} {E : WindowEnv M} {t : Track} (h : t.quiet E = true) :
    StepOK E t := by
  unfold quiet at h
  unfold StepOK
  cases hcursor : t.win.cursor with
  | some p =>
      rw [hcursor] at h
      intro hnil hlive
      simp [hnil, hlive] at h
  | none =>
      rw [hcursor] at h
      cases htasks : t.win.tasks with
      | cons u ts =>
          rw [htasks] at h
          cases u with
          | start p =>
              simp only [Bool.and_eq_true, List.isEmpty_iff] at h
              refine ⟨h.1, fun i rest hp hseen => ?_⟩
              have hnew := h.2
              rw [hp] at hnew
              simp only [List.head?_cons, Option.all_some, List.all_eq_true,
                decide_eq_true_iff] at hnew
              exact absurd rfl (hnew (i.id, 0) hseen)
          | explore p => cases h
          | _ => trivial
      | nil =>
          rw [htasks] at h
          cases hqueue : t.win.functionsWillBeAnalyzed with
          | nil => trivial
          | cons f rest =>
              rw [hqueue] at h
              intro b hb i hi s hs _
              simp only [List.head?_cons, Option.all_some, List.all_eq_true] at h
              have hterm := h b hb
              rw [hi] at hterm
              simp only [Option.all_some, List.all_eq_true, decide_eq_true_iff] at hterm
              exact hterm s hs

end Track

/-- The pass after `n` steps. -/
def splitRun (k : InstKind) (window : Int) (n : Nat) : Track :=
  stepN (Track.next (splitEnv k window)) n (Track.initial (splitEnv k window))

/-- The first instruction of block `b`. -/
def splitStart (k : InstKind) (window : Int) (b : BlockId) : Option Pos :=
  (splitEnv k window).mainFunction.blockStart b

/-- With a window of one, the GEP behind another instruction is left, and is not reached in it. -/
theorem second_out_of_window : 2 ∈ (splitRun splitBranch 1 10).win.OOWInstructions ∧
    ∃ c, (∃ p, splitStart splitBranch 1 1 = some p ∧
        Relation.ReflTransGen (PathStep (splitEnv splitBranch 1)) ⟨p, [], 0⟩ c) ∧
      (c.pos.todo.head?.map Inst.id) = some 2 ∧ (1 : Int) ≤ c.count := by
  have hquiet : ∀ m < 10, (splitRun splitBranch 1 m).quiet (splitEnv splitBranch 1) = true := by
    decide +kernel
  have hleft : 2 ∈ (splitRun splitBranch 1 10).win.OOWInstructions := by decide +kernel
  have hend : ((splitRun splitBranch 1 10).next (splitEnv splitBranch 1)).isNone = true := by
    decide +kernel
  obtain ⟨p, hp⟩ : ∃ p, splitStart splitBranch 1 1 = some p := ⟨_, rfl⟩
  have hsource : SourceOf (splitEnv splitBranch 1) (splitEnv splitBranch 1).mainFunction p :=
    .edge List.mem_cons_self rfl rfl List.mem_cons_self hp
  obtain rfl := Option.some.inj hp
  have hpath : Relation.ReflTransGen (PathStep (splitEnv splitBranch 1)) ⟨_, [], 0⟩ ⟨_, [], 1⟩ :=
    .single (.stepOver (p := (splitStart splitBranch 1 1).get rfl) rfl rfl rfl)
  exact ⟨hleft, _, ⟨_, rfl, hpath⟩, rfl,
    out_of_window_sound (splitEnv splitBranch 1) splitModule_wf
      (run_stepN_of 10 _ fun m hm => Track.stepOK_of_quiet (hquiet m hm))
      (Option.isNone_iff_eq_none.mp hend)
      (g := ⟨2, .ptr (.int 8), .gep (.int 8) (.arg 0 1) [.arg 0 0]⟩) rfl hleft .main hsource hpath
      rfl⟩

/-- The default of the switch is not explored: the GEP there is left, and is reached at once. -/
theorem default_not_explored :
    Run (Track.next (splitEnv splitSwitch 200)) (fun _ => True)
        (Track.initial (splitEnv splitSwitch 200)) (splitRun splitSwitch 200 8) ∧
      ((splitRun splitSwitch 200 8).next (splitEnv splitSwitch 200)).isNone = true ∧
      ¬ ∀ g : Inst, g.kind.isGEP = true →
        g.id ∈ (splitRun splitSwitch 200 8).win.OOWInstructions →
        ∀ f, CalledFromMain (splitEnv splitSwitch 200) f →
        ∀ p, SourceOf (splitEnv splitSwitch 200) f p →
        ∀ c, Relation.ReflTransGen (PathStep (splitEnv splitSwitch 200)) ⟨p, [], 0⟩ c →
          c.pos.todo.head? = some g → (200 : Int) ≤ c.count := by
  refine ⟨run_stepN _ 8 _, by decide +kernel, fun h => ?_⟩
  have hsource : SourceOf (splitEnv splitSwitch 200) (splitEnv splitSwitch 200).mainFunction _ :=
    .edge (s := 2) List.mem_cons_self rfl rfl List.mem_cons_self rfl
  have hwindow := h ⟨4, .ptr (.int 8), .gep (.int 8) (.arg 0 1) [.arg 0 0]⟩ rfl
    (by decide +kernel) _ .main _ hsource _ .refl rfl
  exact absurd hwindow (by decide)

end MSV
