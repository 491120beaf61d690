import MSV.Window.Paths

/-!
# Exploring from one place

The pass is run beside a log of the configurations it has been at. What it has been at is closed
under the steps of a path, up to domination and up to what is still to do: a task, the place the
cursor is at, or a place where speculation starts, which gets its own turn.

`StepOK` says which steps lose no path. The ones that do are: an instruction left out because it has
been seen at the same count with another call stack; a start with calls left on the stack; a switch
whose default is no case; the end of a block with an invoke, whose normal destination is counted
twice or, for a recursive function, not followed; another terminator with several successors;
a return into a recursive function; and a stop in a function that is not reached from the entry.

This module has the turns of `explore` (`Covers.visit`, `Covers.endOfBlock`).
-/

namespace MSV

variable {M : Module} (E : WindowEnv M)

/-! ## What is still to do -/

/-- The configurations a list of tasks will explore from, when the counter and the stack are known
at its start. A call of `explore` may leave both anyhow. -/
def plan : Option (Nat × List Site) → List Task → List Config
  | _, [] => []
  | k, .explore p :: ts => (k.toList.map fun x => ⟨p, x.2, x.1⟩) ++ plan none ts
  | _, .start _ :: ts => plan none ts
  | _, .restore n l :: ts => plan (some (n, l)) ts
  | _, .clear :: ts => plan none ts
  | _, .callees _ :: ts => plan none ts

theorem plan_none_subset (k : Option (Nat × List Site)) (ts : List Task) :
    plan none ts ⊆ plan k ts := by
  cases ts with
  | nil => exact List.Subset.refl _
  | cons t ts =>
      cases t with
      | explore p =>
          intro c hc
          exact List.mem_append_right _ hc
      | _ => exact List.Subset.refl _

theorem plan_subset_append (us ts : List Task) (k : Option (Nat × List Site)) :
    plan none ts ⊆ plan k (us ++ ts) := by
  induction us generalizing k with
  | nil => exact plan_none_subset k ts
  | cons u us ih =>
      cases u with
      | explore p =>
          intro c hc
          exact List.mem_append_right _ (ih none hc)
      | restore n l => exact ih _
      | _ => exact ih none

/-- In front of the others, what an explored place and what is put back lead to. -/
theorem plan_append_left (us ts : List Task) (k : Option (Nat × List Site)) :
    plan k us ⊆ plan k (us ++ ts) := by
  induction us generalizing k with
  | nil => exact List.nil_subset _
  | cons u us ih =>
      cases u with
      | explore p =>
          intro c hc
          obtain hc | hc := List.mem_append.mp hc
          · exact List.mem_append_left _ hc
          · exact List.mem_append_right _ (ih none hc)
      | _ => exact ih _

namespace Window

/-- Where the cursor is. -/
def current (w : Window) : List Config :=
  match w.cursor with
  | some p => if p.todo = [] then [] else [⟨p, w.callStack, w.step⟩]
  | none => []

/-- What the tasks will explore from. -/
def planned (w : Window) : List Config :=
  plan (if w.cursor.isSome then none else some (w.step, w.callStack)) w.tasks

end Window

/-- The pass with a log of where it has been. -/
structure Track where
  win : Window
  log : List Config

namespace Track

/-- The configuration the next step visits, if it visits an instruction. -/
def visited (w : Window) : List Config :=
  if (w.step : Int) < E.windowSize then w.current else []

def next (t : Track) : Option Track :=
  (t.win.next E).map fun w => ⟨w, visited E t.win ++ t.log⟩

def initial : Track := ⟨Window.initial E, []⟩

/-- Visited, about to be visited, or planned. -/
def Present (t : Track) (c : Config) : Prop := c ∈ t.log ∨ c ∈ t.win.current ∨ c ∈ t.win.planned

/-- Something present dominates. -/
def Owed (t : Track) (c : Config) : Prop := ∃ d, t.Present d ∧ d.Dominates c

/-! ## The condition -/

/-- An instruction that is left out has been visited with a part of the call stack. -/
def PruneOK (t : Track) (p : Pos) (step : Nat) : Prop :=
  ∀ i rest, p.todo = i :: rest → (i.id, step) ∈ t.win.visitedInstructions →
    (step : Int) < E.windowSize → ∃ d ∈ t.log, d.Dominates ⟨p, t.win.callStack, step⟩

/-- The end of a block. -/
structure EndOK (w : Window) (f : Function) (t : Inst) : Prop where
  not_invoke : ∀ callee args normal unwind, t.kind ≠ .invoke callee args normal unwind
  stop : t.kind.splits = true → CalledFromMain E f
  single : t.kind.splits = false → t.kind.successors.length ≤ 1
  recursive : t.kind.returns = true → w.callStack = [] → E.isRecursive f.id = true →
    ∀ s ∈ M.callSitesOf f.id, CalledFromMain E s.func
  callers : t.kind.returns = true → w.callStack = [] → E.isRecursive f.id = false →
    ∀ s ∈ M.callSitesOf f.id, E.isRecursive s.func.id = false

/-- The default of a switch is one of its cases. -/
def SwitchesOK (f : Function) : Prop :=
  ∀ b ∈ f.blocks, ∀ t, b.terminator = some t → ∀ s ∈ t.kind.successors, t.kind.splits = true →
    s ∈ Window.exploredDestinations t.kind

/-- The condition on a step. -/
def StepOK (t : Track) : Prop :=
  match t.win.cursor with
  | some p => p.todo = [] → (t.win.step : Int) < E.windowSize →
      ∀ i, p.block.terminator = some i → EndOK E t.win p.func i
  | none =>
      match t.win.tasks with
      | .start p :: _ => t.win.callStack = [] ∧ PruneOK E t p 0
      | .explore p :: _ => PruneOK E t p t.win.step
      | _ :: _ => True
      | [] =>
          match t.win.functionsWillBeAnalyzed with
          | f :: _ => SwitchesOK f
          | [] => True

/-! ## The invariant -/

/-- The configuration whose terminator has been visited, before its successors are. -/
def InFlight (w : Window) (c : Config) : Prop :=
  ∃ p i, w.cursor = some p ∧ p.todo = [] ∧ c = ⟨{ p with todo := [i] }, w.callStack, c.count⟩ ∧
    p.block.terminator = some i ∧ i.kind.isTerminator = true ∧ E.entered i = none ∧
      w.step ≤ c.count + 1

/-- A place where speculation starts dominates. -/
def BySource (c : Config) : Prop :=
  ∃ f p, CalledFromMain E f ∧ SourceOf E f p ∧ Config.Dominates ⟨p, [], 0⟩ c

/-- A return from a recursive function: the call is a place where speculation starts. -/
def ByRecursion (c : Config) : Prop :=
  ∃ g s, s ∈ M.callSitesOf g ∧ E.isRecursive g = true ∧ CalledFromMain E s.func ∧
    c.pos ∈ s.landings ∧ 1 ≤ c.count

/-- The steps of a visited configuration are taken care of. -/
def Closed (t : Track) (c : Config) : Prop :=
  ∀ c', PathStep E c c' → (c'.count : Int) < E.windowSize →
    t.Owed c' ∨ BySource E c' ∨
      (∃ i, c.pos.todo = [i] ∧ i.kind.returns = true) ∧ ByRecursion E c'

/-- Places and call sites are in the module. -/
structure WellFormed (w : Window) : Prop where
  cursor : ∀ p, w.cursor = some p → p.WF M
  stack : ∀ s ∈ w.callStack, s.WF M
  explore : ∀ p, Task.explore p ∈ w.tasks → p.WF M ∧ p.todo ≠ []
  start : ∀ p, Task.start p ∈ w.tasks → p.WF M ∧ p.todo ≠ []
  restore : ∀ n l, Task.restore n l ∈ w.tasks → ∀ s ∈ l, s.WF M

/-- What has been visited is closed, and no visited GEP is left. -/
structure Covers (t : Track) : Prop where
  arrived : ∀ p, t.win.cursor = some p → p.todo = [] → ∃ c ∈ t.log, InFlight E t.win c
  erased : ∀ c ∈ t.log, ∀ i rest, c.pos.todo = i :: rest → i.kind.isGEP = true →
    i.id ∉ t.win.OOWInstructions
  closed : ∀ c ∈ t.log, InFlight E t.win c ∨ Closed E t c
  sources : ∀ f ∈ M.funcs, f.id ∈ t.win.visitedFunctions → ∀ p, SourceOf E f p →
    Task.start p ∈ t.win.tasks ∨ (0 < E.windowSize → t.Owed ⟨p, [], 0⟩)

/-- Called functions are visited or queued. -/
structure Functions (w : Window) : Prop where
  queue : ∀ f ∈ w.functionsWillBeAnalyzed, f ∈ M.funcs
  callees : ∀ f, Task.callees f ∈ w.tasks → f ∈ M.funcs
  main : E.mainFunction.id ∈ w.visitedFunctions ∨ E.mainFunction ∈ w.functionsWillBeAnalyzed
  called : ∀ f ∈ M.funcs, f.id ∈ w.visitedFunctions → Task.callees f ∈ w.tasks ∨
    ∀ i ∈ f.insts, ∀ g, i.calledFunction.bind M.func? = some g →
      g.id ∈ w.visitedFunctions ∨ g ∈ w.functionsWillBeAnalyzed

structure Inv (t : Track) : Prop where
  wf : WellFormed (M := M) t.win
  covers : Covers E t
  functions : Functions E t.win

/-! ## Keeping what is owed -/

variable {E} {t t' : Track} {c : Config}

/-- What was present and can still matter stays owed. -/
def Keeps (E : WindowEnv M) (t t' : Track) : Prop :=
  ∀ c, t.Present c → (c.count : Int) < E.windowSize → t'.Owed c

theorem owed_of_present (h : t.Present c) : t.Owed c := ⟨c, h, .refl c⟩

theorem Owed.keep (h : t.Owed c) (hkeep : Keeps E t t') (hlive : (c.count : Int) < E.windowSize) :
    t'.Owed c := by
  obtain ⟨d, hd, hdom⟩ := h
  have hcount := hdom.count
  obtain ⟨e, he, hedom⟩ := hkeep d hd (by omega)
  exact ⟨e, he, hedom.trans hdom⟩

theorem Closed.keep (h : Closed E t c) (hkeep : Keeps E t t') : Closed E t' c := by
  intro c' hstep hlive
  exact (h c' hstep hlive).imp_left fun howed => howed.keep hkeep hlive

/-- What a step has to show, when it does not begin a function. -/
theorem Covers.of_keeps {w : Window} (seen : List Config) (h : Covers E t)
    (hkeep : Keeps E t ⟨w, seen ++ t.log⟩)
    (hvisited : w.visitedFunctions = t.win.visitedFunctions)
    (hOOW : w.OOWInstructions ⊆ t.win.OOWInstructions)
    (harrived : ∀ p, w.cursor = some p → p.todo = [] → ∃ c ∈ seen ++ t.log, InFlight E w c)
    (herased : ∀ c ∈ seen, ∀ i rest, c.pos.todo = i :: rest → i.kind.isGEP = true →
      i.id ∉ w.OOWInstructions)
    (hseen : ∀ c ∈ seen, InFlight E w c ∨ Closed E ⟨w, seen ++ t.log⟩ c)
    (hflight : ∀ c ∈ t.log, InFlight E t.win c → Closed E ⟨w, seen ++ t.log⟩ c)
    (hstart : ∀ p, Task.start p ∈ t.win.tasks → Task.start p ∈ w.tasks ∨
      (0 < E.windowSize → Owed ⟨w, seen ++ t.log⟩ ⟨p, [], 0⟩)) :
    Covers E ⟨w, seen ++ t.log⟩ := by
  refine ⟨harrived, fun c hc i rest hp hgep => ?_, fun c hc => ?_, fun f hf hvis p hp => ?_⟩
  · obtain hc | hc := List.mem_append.mp hc
    · exact herased c hc i rest hp hgep
    · exact fun hmem => h.erased c hc i rest hp hgep (hOOW hmem)
  · obtain hc | hc := List.mem_append.mp hc
    · exact hseen c hc
    · obtain hfl | hcl := h.closed c hc
      · exact .inr (hflight c hc hfl)
      · exact .inr (hcl.keep hkeep)
  · obtain htask | howed := h.sources f hf (hvisited ▸ hvis) p hp
    · exact hstart p htask
    · exact .inr fun hpos => (howed hpos).keep hkeep (by simpa using hpos)

theorem not_inFlight_of_none {w : Window} (hw : w.cursor = none) : ¬ InFlight E w c := by
  rintro ⟨p, i, hp, -⟩
  cases hw.symm.trans hp

/-! ## Visiting an instruction -/

section Visit

variable {w : Window} {p : Pos} {i : Inst} {rest : List Inst}

theorem visit_of_entered {q : Pos} (h : E.entered i = some q) : w.visit E p i rest =
    { w with
      cursor := some q
      step := w.step + 1
      callStack := ⟨p.func, p.block, i⟩ :: w.callStack } := by
  obtain ⟨g, hg, hrec, hstart⟩ := entered_eq E h
  unfold Window.visit
  rw [hg]
  dsimp only
  rw [hrec, hstart]
  rfl

theorem visit_of_not_entered (h : E.entered i = none) : w.visit E p i rest =
    if i.calledFunction.any M.isDebugFunction then { w with cursor := some { p with todo := rest } }
    else w.count p i rest := by
  unfold Window.visit
  cases hg : i.calledFunction with
  | none => rfl
  | some g =>
      dsimp only [Option.any_some]
      cases hrec : E.isRecursive g with
      | true =>
          have hdebug : ¬ M.isDebugFunction g = true := by
            intro hd
            rw [not_isRecursive_of_debug E hd] at hrec
            cases hrec
          rw [if_pos rfl, if_neg hdebug]
      | false =>
          have hstart : M.functionStart g = none := by
            unfold WindowEnv.entered at h
            rw [hg, Option.bind_some, hrec] at h
            exact h
          rw [if_neg (by decide), hstart]

theorem current_of_cursor (hw : w.cursor = some p) (hp : p.todo ≠ []) :
    w.current = [⟨p, w.callStack, w.step⟩] := by
  unfold Window.current
  rw [hw]
  exact if_neg hp

theorem planned_of_cursor (hw : w.cursor = some p) : w.planned = plan none w.tasks := by
  unfold Window.planned
  rw [hw]
  rfl

/-- The cursor moves on, and the configuration it was at has been visited. -/
theorem keeps_visit (hw : t.win.cursor = some p) {q : Pos} (hq : w.cursor = some q)
    (htasks : w.tasks = t.win.tasks) : Keeps E t ⟨w, t.win.current ++ t.log⟩ := by
  intro c hc _
  apply owed_of_present
  obtain hc | hc | hc := hc
  · exact .inl (List.mem_append_right _ hc)
  · exact .inl (List.mem_append_left _ hc)
  · rw [planned_of_cursor hw] at hc
    refine .inr (.inr ?_)
    rw [planned_of_cursor hq, htasks]
    exact hc

theorem not_returns_of_call (h : i.kind.asCallBase.isSome = true) : i.kind.returns = false := by
  cases hk : i.kind with
  | call callee args => rfl
  | invoke callee args normal unwind => rfl
  | _ =>
      rw [hk] at h
      cases h

theorem successors_of_not_terminator (h : i.kind.isTerminator = false) :
    i.kind.successors = [] := by
  cases hk : i.kind with
  | br | condBr | switch | invoke | otherTerm =>
      rw [hk] at h
      cases h
  | _ => rfl

/-- An instruction that is entered has one step. -/
theorem step_of_entered {q : Pos} (hp : p.todo = i :: rest) (h : E.entered i = some q)
    {k : List Site} {n : Nat} {c' : Config} (hstep : PathStep E ⟨p, k, n⟩ c') :
    c' = ⟨q, ⟨p.func, p.block, i⟩ :: k, n + 1⟩ := by
  have hret : i.kind.returns = false := by
    obtain ⟨g, hg, -⟩ := entered_eq E h
    exact not_returns_of_call (asCallBase_of_calledFunction hg)
  cases hstep with
  | stepOver hp' hstay _ | branch hp' hstay _ _ =>
      obtain ⟨rfl, -⟩ := List.cons.inj (hp.symm.trans hp')
      cases h.symm.trans hstay
  | enter hp' henter =>
      obtain ⟨rfl, -⟩ := List.cons.inj (hp.symm.trans hp')
      rw [Option.some.inj (h.symm.trans henter)]
  | back hp' hret' _ | backAny hp' hret' _ _ =>
      obtain ⟨rfl, -⟩ := List.cons.inj (hp.symm.trans hp')
      cases hret.symm.trans hret'

/-- An instruction that is stepped over has one step. -/
theorem step_of_over (hp : p.todo = i :: rest) (h : E.entered i = none)
    (hterm : i.kind.isTerminator = false) {k : List Site} {n : Nat} {c' : Config}
    (hstep : PathStep E ⟨p, k, n⟩ c') :
    c' = ⟨{ p with todo := rest }, k, n + M.weight i⟩ := by
  have hret : i.kind.returns = false := by
    unfold InstKind.returns
    rw [hterm, Bool.false_and]
  cases hstep with
  | stepOver hp' _ _ =>
      obtain ⟨rfl, rfl⟩ := List.cons.inj (hp.symm.trans hp')
      rfl
  | enter hp' henter =>
      obtain ⟨rfl, -⟩ := List.cons.inj (hp.symm.trans hp')
      cases h.symm.trans henter
  | branch hp' _ hs _ =>
      obtain ⟨rfl, -⟩ := List.cons.inj (hp.symm.trans hp')
      rw [successors_of_not_terminator hterm] at hs
      cases hs
  | back hp' hret' _ | backAny hp' hret' _ _ =>
      obtain ⟨rfl, -⟩ := List.cons.inj (hp.symm.trans hp')
      cases hret.symm.trans hret'

/-- The configuration the cursor was at is in flight, or its one step is where the cursor is. -/
theorem Covers.visited (h : Covers E t) (hw : t.win.cursor = some p) (hp : p.todo ≠ []) {q : Pos}
    (hq : w.cursor = some q) (htasks : w.tasks = t.win.tasks)
    (hvisited : w.visitedFunctions = t.win.visitedFunctions)
    (hOOW : w.OOWInstructions ⊆ t.win.OOWInstructions)
    (herased : ∀ i rest, p.todo = i :: rest → i.kind.isGEP = true → i.id ∉ w.OOWInstructions)
    (hnext : InFlight E w ⟨p, t.win.callStack, t.win.step⟩ ∨ q.todo ≠ [] ∧
      ∀ c', PathStep E ⟨p, t.win.callStack, t.win.step⟩ c' → c' = ⟨q, w.callStack, w.step⟩) :
    Covers E ⟨w, t.win.current ++ t.log⟩ := by
  have hcur := current_of_cursor hw hp
  refine h.of_keeps t.win.current (keeps_visit hw hq htasks) hvisited hOOW ?_ ?_ ?_ ?_ ?_
  · intro q' hq' hnil
    obtain rfl := Option.some.inj (hq.symm.trans hq')
    obtain hfl | ⟨hne, -⟩ := hnext
    · exact ⟨_, by rw [hcur]; exact List.mem_cons_self, hfl⟩
    · exact absurd hnil hne
  · intro c hc
    rw [hcur, List.mem_singleton] at hc
    subst hc
    exact herased
  · intro c hc
    rw [hcur, List.mem_singleton] at hc
    subst hc
    obtain hfl | ⟨hne, hone⟩ := hnext
    · exact .inl hfl
    · refine .inr fun c' hstep _ => .inl (owed_of_present (.inr (.inl ?_)))
      rw [hone c' hstep, current_of_cursor hq hne]
      exact List.mem_cons_self
  · rintro c - ⟨p', j, hp', hnil, -⟩
    obtain rfl := Option.some.inj (hw.symm.trans hp')
    exact absurd hnil hp
  · intro p' hp'
    rw [htasks]
    exact .inl hp'

/-- **Visiting an instruction keeps the cover.** -/
theorem Covers.visit (hM : M.WF) (h : Covers E t) (hwf : WellFormed (M := M) t.win)
    (hw : t.win.cursor = some p) (hp : p.todo = i :: rest) :
    Covers E ⟨t.win.visit E p i rest, t.win.current ++ t.log⟩ := by
  have hne : p.todo ≠ [] := by
    rw [hp]
    exact List.cons_ne_nil i rest
  have hpwf := hwf.cursor p hw
  have hcall : ∀ j r, p.todo = j :: r → i.kind.asCallBase.isSome = true → j.kind.isGEP ≠ true := by
    intro j r hj hi hgep
    obtain ⟨rfl, -⟩ := List.cons.inj (hp.symm.trans hj)
    cases hk : i.kind with
    | gep => rw [hk] at hi; cases hi
    | _ => rw [hk] at hgep; cases hgep
  have hflight : ∀ w' : Window, w'.cursor = some { p with todo := rest } →
      w'.callStack = t.win.callStack → w'.step ≤ t.win.step + 1 → E.entered i = none →
      i.kind.isTerminator = true → InFlight E w' ⟨p, t.win.callStack, t.win.step⟩ := by
    intro w' hcur hstack hstep hent hterm
    obtain ⟨hnil, hlast⟩ := rest_eq_nil hM hpwf hp hterm
    refine ⟨_, i, hcur, hnil, ?_, hlast, hterm, hent, hstep⟩
    rw [hstack, ← hnil, ← hp]
  cases hent : E.entered i with
  | some q =>
      rw [visit_of_entered hent]
      obtain ⟨g, hg, -⟩ := entered_eq E hent
      refine h.visited hw hne (Eq.refl _) (Eq.refl _) (Eq.refl _) (List.Subset.refl _)
        (fun j r hj hgep => absurd hgep (hcall j r hj (asCallBase_of_calledFunction hg)))
        (.inr ⟨(wf_of_entered E hM hent).2, fun c' hstep => step_of_entered hp hent hstep⟩)
  | none =>
      rw [visit_of_not_entered hent]
      by_cases hdebug : i.calledFunction.any M.isDebugFunction = true
      · rw [if_pos hdebug]
        obtain ⟨g, hg, -⟩ := (Option.any_eq_true _ _).mp hdebug
        refine h.visited hw hne (Eq.refl _) (Eq.refl _) (Eq.refl _) (List.Subset.refl _)
          (fun j r hj hgep => absurd hgep (hcall j r hj (asCallBase_of_calledFunction hg))) ?_
        cases hterm : i.kind.isTerminator with
        | true => exact .inl (hflight _ rfl rfl (Nat.le_succ _) hent hterm)
        | false =>
            refine .inr ⟨rest_ne_nil hM hpwf hp hterm, fun c' hstep => ?_⟩
            rw [step_of_over hp hent hterm hstep, Module.weight, if_pos hdebug]
            rfl
      · rw [if_neg hdebug]
        refine h.visited hw hne (Eq.refl _) (Eq.refl _) (Eq.refl _) (List.filter_subset_self _)
          ?_ ?_
        · intro j r hj _ hmem
          obtain ⟨rfl, -⟩ := List.cons.inj (hp.symm.trans hj)
          simp [Window.count] at hmem
        · cases hterm : i.kind.isTerminator with
          | true => exact .inl (hflight _ rfl rfl le_rfl hent hterm)
          | false =>
              refine .inr ⟨rest_ne_nil hM hpwf hp hterm, fun c' hstep => ?_⟩
              rw [step_of_over hp hent hterm hstep, Module.weight, if_neg hdebug]
              rfl

end Visit

/-! ## The end of a block -/

section EndOfBlock

variable {w : Window} {p : Pos}

/-- Nothing is visited, and what is in flight is settled. -/
theorem Covers.turned (h : Covers E t)
    (hcurrent : ∀ c ∈ t.win.current, ¬ (c.count : Int) < E.windowSize)
    (hplanned : t.win.planned ⊆ w.planned)
    (hvisited : w.visitedFunctions = t.win.visitedFunctions)
    (hOOW : w.OOWInstructions = t.win.OOWInstructions)
    (harrived : ∀ q, w.cursor = some q → q.todo ≠ [])
    (hstart : ∀ q, Task.start q ∈ t.win.tasks → Task.start q ∈ w.tasks)
    (hflight : ∀ c, InFlight E t.win c → Closed E ⟨w, t.log⟩ c) : Covers E ⟨w, t.log⟩ := by
  have hkeep : Keeps E t ⟨w, t.log⟩ := by
    intro c hc hlive
    obtain hc | hc | hc := hc
    · exact owed_of_present (.inl hc)
    · exact absurd hlive (hcurrent c hc)
    · exact owed_of_present (.inr (.inr (hplanned hc)))
  refine Covers.of_keeps [] h hkeep hvisited (hOOW ▸ List.Subset.refl _) ?_ ?_ ?_ ?_ ?_
  · exact fun q hq hnil => absurd hnil (harrived q hq)
  · exact fun c hc => nomatch hc
  · exact fun c hc => nomatch hc
  · exact fun c _ hfl => hflight c hfl
  · exact fun q hq => .inl (hstart q hq)

theorem planned_of_none (hw : w.cursor = none) :
    w.planned = plan (some (w.step, w.callStack)) w.tasks := by
  unfold Window.planned
  rw [hw]
  rfl

theorem planned_subset_leave (w' : Window) (hw : w.cursor = some p) (htasks : w'.tasks = w.tasks)
    (us : List Task) : w.planned ⊆ (w'.leave us).planned := by
  rw [planned_of_cursor hw, planned_of_none rfl, ← htasks]
  exact plan_subset_append us w'.tasks _

theorem mem_planned_leave {us : List Task} {c : Config}
    (h : c ∈ plan (some (w.step, w.callStack)) us) : c ∈ (w.leave us).planned := by
  rw [planned_of_none rfl]
  exact plan_append_left us w.tasks _ h

/-- `explore` returns with tasks that start nothing from a function's own list. -/
theorem Covers.left (h : Covers E t) (hw : t.win.cursor = some p)
    (hcurrent : ∀ c ∈ t.win.current, ¬ (c.count : Int) < E.windowSize) (w' : Window)
    (htasks : w'.tasks = t.win.tasks) (hvisited : w'.visitedFunctions = t.win.visitedFunctions)
    (hOOW : w'.OOWInstructions = t.win.OOWInstructions) {us : List Task}
    (hflight : ∀ c, InFlight E t.win c → Closed E ⟨w'.leave us, t.log⟩ c) :
    Covers E ⟨w'.leave us, t.log⟩ := by
  refine h.turned hcurrent (planned_subset_leave w' hw htasks us) hvisited hOOW ?_ ?_ hflight
  · exact fun q hq => nomatch hq
  · intro q hq
    exact List.mem_append_right us (htasks ▸ hq)

theorem not_returns_of_splits {k : InstKind} (h : k.splits = true) : k.returns = false := by
  cases k with
  | condBr | switch => rfl
  | _ => cases h

/-- The steps of a configuration in flight: along an edge, or back. -/
theorem step_of_inFlight {c c' : Config} (h : InFlight E t.win c) (hw : t.win.cursor = some p)
    (hstep : PathStep E c c') : ∃ i, p.block.terminator = some i ∧ c.pos.todo = [i] ∧
      t.win.step ≤ c'.count ∧ 1 ≤ c'.count ∧
      ((∃ s ∈ i.kind.successors, p.func.blockStart s = some c'.pos ∧
          c'.pending = t.win.callStack) ∨
        i.kind.returns = true ∧ (∃ s, t.win.callStack = s :: c'.pending ∧ c'.pos ∈ s.landings) ∨
        i.kind.returns = true ∧ t.win.callStack = [] ∧ c'.pending = [] ∧
          ∃ s ∈ M.callSitesOf p.func.id, c'.pos ∈ s.landings) := by
  obtain ⟨p', i, hp', -, hc, hlast, hterm, hent, hcount⟩ := h
  obtain rfl := Option.some.inj (hw.symm.trans hp')
  rw [hc] at hstep ⊢
  generalize hk : t.win.callStack = k at hstep ⊢
  refine ⟨i, hlast, rfl, ?_⟩
  cases hstep with
  | stepOver hp _ hterm' =>
      obtain ⟨rfl, -⟩ := List.cons.inj hp
      cases hterm.symm.trans hterm'
  | enter hp henter =>
      obtain ⟨rfl, -⟩ := List.cons.inj hp
      cases hent.symm.trans henter
  | branch hp _ hs hq =>
      obtain ⟨rfl, -⟩ := List.cons.inj hp
      exact ⟨hcount, Nat.succ_pos _, .inl ⟨_, hs, hq, rfl⟩⟩
  | back hp hret hq =>
      obtain ⟨rfl, -⟩ := List.cons.inj hp
      exact ⟨hcount, Nat.succ_pos _, .inr (.inl ⟨hret, _, rfl, hq⟩)⟩
  | backAny hp hret hs hq =>
      obtain ⟨rfl, -⟩ := List.cons.inj hp
      exact ⟨hcount, Nat.succ_pos _, .inr (.inr ⟨hret, rfl, rfl, _, hs, hq⟩)⟩

/-- The window is full. -/
theorem Covers.full (h : Covers E t) (hw : t.win.cursor = some p)
    (hfull : ¬ (t.win.step : Int) < E.windowSize) : Covers E ⟨t.win.leave [], t.log⟩ := by
  refine h.left hw ?_ t.win rfl rfl rfl ?_
  · intro c hc
    unfold Window.current at hc
    rw [hw] at hc
    dsimp only at hc
    split_ifs at hc
    · cases hc
    · rw [List.mem_singleton.mp hc]
      exact hfull
  · intro c hfl c' hstep hlive
    obtain ⟨-, -, -, hcount, -⟩ := step_of_inFlight hfl hw hstep
    omega

variable {i : Inst}

theorem endOfBlock_of_splits (hlast : p.block.terminator = some i) (h : i.kind.splits = true) :
    w.endOfBlock E p = w.leave [] := by
  unfold Window.endOfBlock
  rw [hlast]
  cases hk : i.kind with
  | condBr | switch => simp only [hk]
  | _ =>
      rw [hk] at h
      cases h

theorem endOfBlock_of_single (hlast : p.block.terminator = some i) (h : i.kind.splits = false)
    {s : BlockId} (hs : i.kind.successors = [s]) :
    w.endOfBlock E p = { w with cursor := p.func.blockStart s } := by
  unfold Window.endOfBlock
  rw [hlast]
  cases hk : i.kind with
  | condBr | switch =>
      rw [hk] at h
      cases h
  | invoke =>
      rw [hk] at hs
      cases hs
  | _ =>
      rw [hk] at hs
      simp only [hk, hs]

theorem endOfBlock_of_none (hlast : p.block.terminator = some i) (hs : i.kind.successors = []) :
    w.endOfBlock E p = w.endOfFunction E p.func := by
  unfold Window.endOfBlock
  rw [hlast]
  cases hk : i.kind with
  | condBr | switch | invoke =>
      rw [hk] at hs
      cases hs
  | _ =>
      rw [hk] at hs
      simp only [hk, hs]

/-- Every place of the list is explored with the counter and the stack as they are now. -/
theorem mem_plan_each {ps : List Pos} {n : Nat} {q : Pos} (hq : q ∈ ps) :
    (⟨q, [], n⟩ : Config) ∈
      plan (some (n, [])) (ps.flatMap fun p => [Task.explore p, .restore n []]) := by
  induction ps with
  | nil => cases hq
  | cons p ps ih =>
      rw [List.flatMap_cons]
      obtain rfl | hq := List.mem_cons.mp hq
      · exact List.mem_append_left _ List.mem_cons_self
      · exact List.mem_append_right _ (ih hq)

theorem mem_plan_bothDestinations {f : Function} {normal unwind : BlockId} {n : Nat}
    {l : List Site} {q : Pos}
    (hq : f.blockStart normal = some q ∨ f.blockStart unwind = some q) :
    (⟨q, l, n⟩ : Config) ∈ plan (some (n, l)) (Window.bothDestinations f normal unwind n l) := by
  unfold Window.bothDestinations
  obtain hq | hq := hq
  · rw [hq]
    exact List.mem_cons_self
  · by_cases hne : unwind ≠ normal
    · rw [if_pos hne, hq]
      cases f.blockStart normal with
      | none => exact List.mem_cons_self
      | some _ => exact List.mem_cons_of_mem _ List.mem_cons_self
    · rw [← not_not.mp hne, hq]
      exact List.mem_cons_self

/-- What a step of the code explores dominates the step of the path. -/
theorem owed_of_mem {w : Window} {log : List Config} {q : Pos} {n : Nat} {l : List Site}
    {c' : Config} (hmem : (⟨q, l, n⟩ : Config) ∈ w.current ∨ ⟨q, l, n⟩ ∈ w.planned)
    (hpos : q = c'.pos) (hpending : l = c'.pending) (hcount : n ≤ c'.count) :
    Owed ⟨w, log⟩ c' :=
  ⟨⟨q, l, n⟩, .inr hmem, hpos, hpending ▸ List.prefix_rfl, hcount⟩

theorem current_of_nil (hw : w.cursor = some p) (hp : p.todo = []) : w.current = [] := by
  unfold Window.current
  rw [hw]
  exact if_pos hp

theorem planned_subset_cursor (hw : w.cursor = some p) {w' : Window} (htasks : w'.tasks = w.tasks) :
    w.planned ⊆ w'.planned := by
  rw [planned_of_cursor hw, ← htasks]
  exact plan_none_subset _ _

section Ends

variable (h : Covers E t) (hw : t.win.cursor = some p) (hnil : p.todo = [])
  (hlast : p.block.terminator = some i)

include h hw hnil hlast

/-- The successors of a branch or a switch get their own turn. -/
theorem Covers.stopped (hwf : WellFormed (M := M) t.win) (hsplit : i.kind.splits = true)
    (hmain : CalledFromMain E p.func) : Covers E ⟨t.win.leave [], t.log⟩ := by
  refine h.left hw (by rw [current_of_nil hw hnil]; simp) t.win rfl rfl rfl
    fun c hfl c' hstep _ => ?_
  obtain ⟨j, hj, -, -, -, hcases⟩ := step_of_inFlight hfl hw hstep
  obtain rfl := Option.some.inj (hlast.symm.trans hj)
  have hret : i.kind.returns ≠ true := by
    rw [not_returns_of_splits hsplit]
    decide
  obtain ⟨s, hs, hq, -⟩ | ⟨hret', -⟩ | ⟨hret', -⟩ := hcases
  · refine .inr (.inl ⟨p.func, c'.pos, hmain, ?_, rfl, List.nil_prefix, Nat.zero_le _⟩)
    exact .edge (hwf.cursor p hw).block hlast hsplit hs hq
  · exact absurd hret' hret
  · exact absurd hret' hret

/-- The only successor. -/
theorem Covers.followed (hM : M.WF) (hwf : WellFormed (M := M) t.win) {s : BlockId}
    (hs : i.kind.successors = [s]) :
    Covers E ⟨{ t.win with cursor := p.func.blockStart s }, t.log⟩ := by
  have hfunc := (hwf.cursor p hw).func
  refine h.turned (by rw [current_of_nil hw hnil]; simp) (planned_subset_cursor hw rfl) rfl rfl ?_
    (fun q hq => hq) fun c hfl c' hstep _ => ?_
  · intro q hq
    exact (blockStart_ne_nil hM hfunc hq).2
  · obtain ⟨j, hj, -, hcount, -, hcases⟩ := step_of_inFlight hfl hw hstep
    obtain rfl := Option.some.inj (hlast.symm.trans hj)
    have hret : i.kind.returns ≠ true := by
      unfold InstKind.returns
      rw [hs]
      simp
    obtain ⟨s', hs', hq, hpending⟩ | ⟨hret', -⟩ | ⟨hret', -⟩ := hcases
    · rw [hs, List.mem_singleton] at hs'
      subst hs'
      refine .inl (owed_of_mem (.inl ?_) rfl hpending.symm hcount)
      rw [hq, current_of_cursor rfl (blockStart_ne_nil hM hfunc hq).2]
      exact List.mem_cons_self
    · exact absurd hret' hret
    · exact absurd hret' hret

/-- Back to every caller. -/
theorem Covers.toCallers (hret : i.kind.returns = true) (hstack : t.win.callStack = [])
    (hok : EndOK E t.win p.func i) : Covers E ⟨t.win.toCallers E p.func, t.log⟩ := by
  have hback : ∀ c c', InFlight E t.win c → PathStep E c c' → c.pos.todo = [i] ∧
      t.win.step ≤ c'.count ∧ 1 ≤ c'.count ∧ c'.pending = [] ∧
      ∃ s ∈ M.callSitesOf p.func.id, c'.pos ∈ s.landings := by
    intro c c' hfl hstep
    obtain ⟨j, hj, htodo, hcount, hpos, hcases⟩ := step_of_inFlight hfl hw hstep
    obtain rfl := Option.some.inj (hlast.symm.trans hj)
    obtain ⟨s, hs, -⟩ | ⟨-, s, hs, -⟩ | ⟨-, -, hpending, hsites⟩ := hcases
    · unfold InstKind.returns at hret
      rw [Bool.and_eq_true, List.isEmpty_iff] at hret
      rw [hret.2] at hs
      cases hs
    · cases hstack.symm.trans hs
    · exact ⟨htodo, hcount, hpos, hpending, hsites⟩
  have hcur : ∀ c ∈ t.win.current, ¬ (c.count : Int) < E.windowSize := by
    rw [current_of_nil hw hnil]
    simp
  unfold Window.toCallers
  cases hrec : E.isRecursive p.func.id with
  | true =>
      rw [if_pos rfl]
      refine h.left hw hcur t.win rfl rfl rfl fun c hfl c' hstep _ => ?_
      obtain ⟨htodo, -, hpos, -, s, hs, hq⟩ := hback c c' hfl hstep
      exact .inr (.inr ⟨⟨i, htodo, hret⟩, p.func.id, s, hs, hrec,
        hok.recursive hret hstack hrec s hs, hq, hpos⟩)
  | false =>
      rw [if_neg (by decide)]
      refine h.left hw hcur t.win rfl rfl rfl fun c hfl c' hstep _ => ?_
      obtain ⟨-, hcount, -, hpending, s, hs, hq⟩ := hback c c' hfl hstep
      refine .inl (owed_of_mem (.inr (mem_planned_leave ?_)) rfl hpending.symm hcount)
      rw [hstack, ← List.flatMap_assoc]
      apply mem_plan_each
      refine List.mem_flatMap.mpr ⟨s, List.mem_filter.mpr ⟨?_, ?_⟩, hq⟩
      · exact (E.callSites_perm p.func.id).mem_iff.mpr hs
      · rw [hok.callers hret hstack hrec s hs]
        rfl

/-- Back to the call on top. -/
theorem Covers.toCallSite (hM : M.WF) (hwf : WellFormed (M := M) t.win)
    (hret : i.kind.returns = true) {s : Site} {rest : List Site}
    (hstack : t.win.callStack = s :: rest) : Covers E ⟨t.win.toCallSite s rest, t.log⟩ := by
  have hback : ∀ c c', InFlight E t.win c → PathStep E c c' →
      t.win.step ≤ c'.count ∧ c'.pending = rest ∧ c'.pos ∈ s.landings := by
    intro c c' hfl hstep
    obtain ⟨j, hj, -, hcount, -, hcases⟩ := step_of_inFlight hfl hw hstep
    obtain rfl := Option.some.inj (hlast.symm.trans hj)
    obtain ⟨s', hs', -⟩ | ⟨-, s', hs', hq⟩ | ⟨-, hnone, -⟩ := hcases
    · unfold InstKind.returns at hret
      rw [Bool.and_eq_true, List.isEmpty_iff] at hret
      rw [hret.2] at hs'
      cases hs'
    · obtain ⟨rfl, hrest⟩ := List.cons.inj (hstack.symm.trans hs')
      exact ⟨hcount, hrest.symm, hq⟩
    · cases hstack.symm.trans hnone
  have hcur : ∀ c ∈ t.win.current, ¬ (c.count : Int) < E.windowSize := by
    rw [current_of_nil hw hnil]
    simp
  have hs : s.WF M := hwf.stack s (hstack ▸ List.mem_cons_self)
  unfold Window.toCallSite
  obtain ⟨callee, args, normal, unwind, hk⟩ | ⟨hterm, hk⟩ := invoke_or_not_terminator hs.call
  · simp only [hk]
    refine h.left hw hcur { t.win with callStack := rest } rfl rfl rfl fun c hfl c' hstep _ => ?_
    obtain ⟨hcount, hpending, hq⟩ := hback c c' hfl hstep
    refine .inl (owed_of_mem (.inr (mem_planned_leave ?_)) rfl hpending.symm hcount)
    exact mem_plan_bothDestinations ((mem_landings_of_invoke hk).mp hq)
  · have hne := (after_of_call hM hs hterm).2
    split
    · rename_i heq
      exact absurd heq (hk _ _ _ _)
    · refine h.turned hcur (planned_subset_cursor hw rfl) rfl rfl ?_ (fun q hq => hq)
        fun c hfl c' hstep _ => ?_
      · intro q hq
        obtain rfl := Option.some.inj hq
        exact hne
      · obtain ⟨hcount, hpending, hq⟩ := hback c c' hfl hstep
        rw [landings_of_not_invoke hk, List.mem_singleton] at hq
        refine .inl (owed_of_mem (.inl ?_) hq.symm hpending.symm hcount)
        rw [current_of_cursor rfl hne]
        exact List.mem_cons_self

/-- **The end of a block keeps the cover.** -/
theorem Covers.endOfBlock (hM : M.WF) (hwf : WellFormed (M := M) t.win)
    (hok : EndOK E t.win p.func i) (hterm : i.kind.isTerminator = true) :
    Covers E ⟨t.win.endOfBlock E p, t.log⟩ := by
  cases hsplit : i.kind.splits with
  | true =>
      rw [endOfBlock_of_splits hlast hsplit]
      exact h.stopped hw hnil hlast hwf hsplit (hok.stop hsplit)
  | false =>
      have hsingle := hok.single hsplit
      cases hs : i.kind.successors with
      | nil =>
          have hret : i.kind.returns = true := by
            unfold InstKind.returns
            rw [hterm, hs]
            rfl
          rw [endOfBlock_of_none hlast hs]
          unfold Window.endOfFunction
          cases hstack : t.win.callStack with
          | nil => exact h.toCallers hw hnil hlast hret hstack hok
          | cons s rest => exact h.toCallSite hw hnil hlast hM hwf hret hstack
      | cons s ss =>
          rw [hs, List.length_cons] at hsingle
          obtain rfl : ss = [] := List.eq_nil_of_length_eq_zero (by omega)
          rw [endOfBlock_of_single hlast hsplit hs]
          exact h.followed hw hnil hlast hM hwf hs

end Ends

end EndOfBlock

end Track

end MSV
