import MSV.Range.FixpointProof

/-!
# The summaries

A summary of a function in a context holds a range for every formal argument and, under the function
itself, one for the result. `analyzeCall` meets what is passed with what is there; a return meets
what is returned with what is there. Every meet starts from a fresh range value, which is unknown,
and unknown absorbs, so a summary holds unknown values only. Once there, an entry stays.

**Theorem (`summaries_contain`).** In every run, after a call has passed its arguments the summary
of the callee has for each formal a value that contains the one passed, and what a call is given as
its result contains everything that a return of the callee has merged before.
-/

namespace MSV

/-- The first value contains the second. Unknown and infinity contain everything. -/
def RangeValue.Covers : RangeValue → RangeValue → Prop
  | .unknown, _ | .infinity, _ => True
  | .constant l r, .constant l' r' => l.toInt ≤ l'.toInt ∧ r'.toInt ≤ r.toInt
  | .constant .., _ => False

namespace Engine

/-! ## What a step is about to do -/

section

variable {V : Type} [Inhabited V] (M : Module) (P : Policy V)

/-- The abstract values `passArguments` finds for the arguments. -/
def passedValues : List Value → AbstractState V → List V
  | [], _ => []
  | v :: vs, state =>
      let state := if state.has v then state else P.transfer v state
      state.get v :: passedValues vs state

/-- The call that passes its arguments next, the callee, and the values. -/
def passing (e : Engine V) : Option (Inst × Function × List V) :=
  match e.stack with
  | ⟨_, _, _, _, some ⟨_, _, state, i :: _⟩⟩ :: _ =>
      (calledDefinition M i).map fun c =>
        (i, c.1, passedValues P (c.2.take c.1.params.length) state)
  | _ => none

/-- The value a return merges next, and the function with its context. -/
def returning (e : Engine V) : Option ((Context × FuncId) × V) :=
  match e.stack with
  | ⟨context, f, _, _, some ⟨b, oldExit, state, []⟩⟩ :: _ =>
      match b.terminator with
      | some ⟨_, _, .ret v⟩ =>
          if stateEq P state oldExit then none
          else some ((context, f.id), match v with
            | some v => state.get v
            | none => default)
      | _ => none
  | _ => none

/-- The call that gets its result next, and the callee: the callee is done, or is not entered. -/
def resuming (e : Engine V) : Option (Inst × FuncId) :=
  match e.stack with
  | ⟨_, f, work, _, none⟩ :: ⟨_, _, _, _, some ⟨_, _, _, i :: _⟩⟩ :: _ =>
      if work.work = [] then some (i, f.id) else none
  | ⟨_, _, _, _, some run⟩ :: _ =>
      match run.todo with
      | [] => none
      | i :: _ =>
          match calledDefinition M i with
          | none => none
          | some (callee, args) =>
              if (some i.id, callee.id) ∉ e.active ∧ (passedTo P e run i callee args).2.2 = true
              then none
              else some (i, callee.id)
  | _ => none

/-- The state at the current instruction. -/
def currentState (e : Engine V) : Option (AbstractState V) :=
  match e.stack with
  | fr :: _ => fr.run.map BlockRun.state
  | [] => none

/-- The summary of a function in a context. -/
def summary (e : Engine V) (cf : Context × FuncId) : AbstractState V :=
  (e.results cf).get (.func cf.2)

end

/-! ## What a step does to the summaries -/

section Keys

variable {V : Type} [Inhabited V] {M : Module} {P : Policy V} {usePC : Bool}
  {rpot : FuncId → List BlockId} {e e' e'' : Engine V}

/-- No summary loses a key. -/
def KeepsKeys (e e' : Engine V) : Prop := ∀ cf k, (e.summary cf).has k → (e'.summary cf).has k

omit [Inhabited V] in
theorem KeepsKeys.trans (h : KeepsKeys e e') (h' : KeepsKeys e' e'') : KeepsKeys e e'' :=
  fun cf k hk => h' cf k (h cf k hk)

omit [Inhabited V] in
theorem keepsKeys_of_results (h : ∀ cf, (e'.results cf).get (.func cf.2) = e.summary cf) :
    KeepsKeys e e' := by
  intro cf k hk
  show FMap.has ((e'.results cf).get (.func cf.2)) k
  rw [h cf]
  exact hk

omit [Inhabited V] in
theorem keepsKeys_of_writes {l : List Place} (h : Writes l e e')
    (hl : ∀ cf : Context × FuncId, (cf, Value.func cf.2) ∉ l) : KeepsKeys e e' :=
  keepsKeys_of_results fun cf => h.get (hl cf)

omit [Inhabited V] in
/-- A summary is replaced by one with more keys. -/
theorem keepsKeys_set (cf : Context × FuncId) {s : AbstractState V}
    (h : ∀ k, (e.summary cf).has k → s.has k) :
    KeepsKeys e (e.setResults cf ((e.results cf).set (.func cf.2) s)) := by
  intro cf' k hk
  by_cases hcf : cf' = cf
  · subst hcf
    show FMap.has (FMap.get ((e.setResults cf' _).results cf') _) k
    rw [results_setResults_self, FMap.get_set_self]
    exact h k hk
  · show FMap.has (FMap.get ((e.setResults cf _).results cf') _) k
    rw [results_setResults, if_neg hcf]
    exact hk

theorem passArguments_keys (f : FuncId) (vs : List Value) (n : Nat) (s t : AbstractState V)
    (u : Bool) {k : Value} (hk : t.has k) : (passArguments P f vs n s t u).2.1.has k := by
  induction vs generalizing n s t u with
  | nil => exact hk
  | cons v vs ih => exact ih _ _ _ _ (FMap.has_set_of_has _ hk)

/-- Every formal that is passed something has an entry. -/
theorem passArguments_has (f : FuncId) (vs : List Value) (n : Nat) (s t : AbstractState V)
    (u : Bool) {m : Nat} (hm : m < vs.length) :
    (passArguments P f vs n s t u).2.1.has (.arg f (n + m)) := by
  induction vs generalizing n s t u m with
  | nil => exact absurd hm (Nat.not_lt_zero m)
  | cons v vs ih =>
      cases m with
      | zero => exact passArguments_keys f vs _ _ _ _ (FMap.has_set_self ..)
      | succ m =>
          have := ih (n + 1) (if s.has v then s else P.transfer v s)
            (t.set (.arg f n) (P.meet [(if s.has v then s else P.transfer v s).get v,
              t.get (.arg f n)]))
            (u || !P.beq (P.meet [(if s.has v then s else P.transfer v s).get v,
              t.get (.arg f n)]) (t.get (.arg f n)))
            (Nat.lt_of_succ_lt_succ hm)
          rwa [Nat.add_right_comm, Nat.add_assoc] at this

theorem keepsKeys_passed (run : BlockRun V) (i : Inst) (callee : Function) (args : List Value) :
    KeepsKeys e (passed P e run i callee args) :=
  keepsKeys_set (some i.id, callee.id) fun _ hk => passArguments_keys _ _ _ _ _ _ hk

theorem keepsKeys_callDone (fr : Frame V) (rest : List (Frame V)) (run : BlockRun V) (i : Inst)
    (todo : List Inst) (callee : FuncId) (s : AbstractState V) :
    KeepsKeys e (e.callDone fr rest run i todo callee s) := by
  have htouch := keepsKeys_set (e := e) (some i.id, callee)
    (s := (e.summary (some i.id, callee)).touch (.func callee))
    fun k hk => FMap.has_touch.mpr (Or.inr hk)
  have hadv := keepsKeys_of_writes (writes_advance { e.setResults (some i.id, callee)
      ((e.results (some i.id, callee)).set (.func callee)
        (((e.results (some i.id, callee)).get (.func callee)).touch (.func callee))) with
      callers := (e.callDone fr rest run i todo callee s).callers } fr rest run i todo
    (s.set (.inst i.id) (((e.results (some i.id, callee)).get (.func callee)).get (.func callee))))
    (by simp)
  exact htouch.trans hadv

omit [Inhabited V] in
theorem keepsKeys_enter (rpot : FuncId → List BlockId) (f : Function) (c : Context) :
    KeepsKeys e (e.enter rpot f c) :=
  keepsKeys_of_results fun cf => get_enter e f c cf (.func cf.2)

theorem keepsKeys_takeBlock (fr : Frame V) (rest : List (Frame V)) (bb : BlockId)
    (work : WorkList BlockId) : KeepsKeys e (e.takeBlock M P usePC fr rest bb work) := by
  refine keepsKeys_of_results fun cf => ?_
  have htouched : ∀ k, ((e.setResults (fr.context, fr.func.id) (touched e fr bb)).results cf).get
      k = (e.results cf).get k := by
    intro k
    rw [results_setResults]
    split_ifs with hcf
    · subst hcf
      exact get_touched bb k
    · rfl
  rcases takeBlock_cases M P usePC e fr rest bb work with
    ⟨-, heq⟩ | ⟨b, -, -, -, heq⟩ | ⟨b, -, -, heq⟩
  · rw [heq]
    rfl
  · rw [heq]
    exact htouched _
  · rw [heq]
    refine Eq.trans ?_ (htouched _)
    show FMap.get ((e.setResults _ _).results cf) _ = FMap.get ((e.setResults _ _).results cf) _
    rw [results_setResults, results_setResults]
    split_ifs with hcf
    · rw [FMap.get_set, if_neg (by simp)]
    · rfl

theorem keepsKeys_endBlock (fr : Frame V) (rest : List (Frame V)) (run : BlockRun V) :
    KeepsKeys e (e.endBlock P fr rest run) := by
  rw [endBlock_eq]
  split_ifs
  · exact fun _ _ hk => hk
  · unfold afterBlock
    split
    · exact keepsKeys_set (fr.context, fr.func.id) fun k hk => FMap.has_set_of_has _ hk
    · exact fun _ _ hk => hk

theorem keepsKeys_finish (fr : Frame V) (rest : List (Frame V)) :
    KeepsKeys e (e.finish fr rest) := by
  unfold finish
  split
  · exact fun _ _ hk => hk
  · rename_i caller rest'
    split
    · rename_i run _
      split
      · rename_i i todo _
        exact keepsKeys_callDone (e := { e with
          active := e.active.filter (· ≠ (fr.context, fr.func.id))
          stack := caller :: rest' }) caller rest' run i todo fr.func.id run.state
      · exact fun _ _ hk => hk
    · exact fun _ _ hk => hk

/-- **No step takes an entry out of a summary.** -/
theorem keepsKeys_move (h : Move M P usePC rpot e e') : KeepsKeys e e' := by
  cases h with
  | @enter c _ fn cw _ _ _ =>
      exact keepsKeys_enter (e := { e with contextWork := cw }) rpot fn c
  | drop _ _ _ => exact fun _ _ hk => hk
  | @finish fr rest _ _ _ => exact keepsKeys_finish fr rest
  | @takeBlock fr rest bb work _ _ _ => exact keepsKeys_takeBlock fr rest bb work
  | @stepInst fr rest run i todo _ _ _ =>
      rcases stepInst_cases M P rpot e fr rest run i todo with
        ⟨-, heq⟩ | ⟨callee, args, -, -, -, heq⟩ | ⟨callee, args, -, -, heq⟩
      · rw [heq]
        exact keepsKeys_of_writes (writes_advance e fr rest run i todo _) (by simp)
      · rw [heq]
        exact (keepsKeys_passed run i callee args).trans (keepsKeys_enter rpot callee (some i.id))
      · rw [heq]
        exact (keepsKeys_passed run i callee args).trans
          (keepsKeys_callDone fr rest run i todo callee.id _)
  | @endBlock fr rest run _ _ _ => exact keepsKeys_endBlock fr rest run

end Keys

/-! ## Unknown values only -/

section Unknown

variable {M : Module} {DL : DataLayout} {usePC : Bool} {rpot : FuncId → List BlockId}
  {e e' : Engine RangeValue}

/-- All summaries hold unknown values only. -/
def AllUnknown (e : Engine RangeValue) : Prop := ∀ cf, SummaryOK cf.2 (e.results cf)

theorem AllUnknown.enter (h : AllUnknown e) (rpot : FuncId → List BlockId) (f : Function)
    (c : Context) : AllUnknown (e.enter rpot f c) := by
  intro cf k x hk
  rw [get_enter] at hk
  exact h cf k x hk

theorem AllUnknown.finish (h : AllUnknown e) (fr : Frame RangeValue)
    (rest : List (Frame RangeValue)) : AllUnknown (e.finish fr rest) := by
  unfold Engine.finish
  split
  · exact h
  · rename_i caller rest'
    split
    · rename_i run _
      split
      · rename_i i todo _
        exact summaries_callDone (e := { e with
          active := e.active.filter (· ≠ (fr.context, fr.func.id))
          stack := caller :: rest' }) h run i todo fr.func.id run.state
      · exact h
    · exact h

/-- **A step puts unknown values in the summaries.** -/
theorem AllUnknown.move (h : AllUnknown e) (hm : Move M (rangePolicy M DL) usePC rpot e e') :
    AllUnknown e' := by
  cases hm with
  | @enter c _ fn cw _ _ _ => exact AllUnknown.enter (e := { e with contextWork := cw }) h rpot fn c
  | drop _ _ _ => exact h
  | @finish fr rest _ _ _ => exact h.finish fr rest
  | @takeBlock fr rest bb work _ _ _ => exact summaries_takeBlock M DL usePC h fr rest bb work
  | @stepInst fr rest run i todo _ _ _ =>
      rcases stepInst_cases M (rangePolicy M DL) rpot e fr rest run i todo with
        ⟨-, heq⟩ | ⟨callee, args, -, -, -, heq⟩ | ⟨callee, args, -, -, heq⟩
      · rw [heq]
        exact summaries_advance h run i todo _
      · rw [heq]
        have hp : AllUnknown (Engine.passed (rangePolicy M DL) e run i callee args) :=
          summaries_passed M DL h run i callee args
        exact AllUnknown.enter (e := { Engine.passed (rangePolicy M DL) e run i callee args with
          stack := { fr with
            run := some { run with
              state := (passedTo (rangePolicy M DL) e run i callee args).1 } } :: rest })
          hp rpot callee (some i.id)
      · rw [heq]
        exact summaries_callDone (summaries_passed M DL h run i callee args) run i todo _ _
  | @endBlock fr rest run _ _ _ =>
      rw [endBlock_eq]
      split_ifs
      · exact h
      · exact summaries_afterBlock h run

theorem allUnknown_initial (entryPoints : List FuncId) :
    AllUnknown (Engine.initial entryPoints) := fun _ _ _ hk => nomatch hk

theorem allUnknown_run {entryPoints : List FuncId}
    (h : Run (Engine.step M (rangePolicy M DL) usePC rpot) (fun _ => True)
      (Engine.initial entryPoints) e) : AllUnknown e :=
  h.invariant (P := AllUnknown) (allUnknown_initial entryPoints)
    fun _ _ ha _ hst => ha.move (step_move hst)

theorem AllUnknown.get (h : AllUnknown e) (cf : Context × FuncId) (k : Value) :
    (e.summary cf).get k = .unknown := by
  unfold FMap.get
  cases hk : (e.summary cf).find k with
  | none => rfl
  | some x => exact h cf k x hk

theorem length_passedValues (P : Policy RangeValue) (vs : List Value) (s : RangeState) :
    (passedValues P vs s).length = vs.length := by
  induction vs generalizing s with
  | nil => rfl
  | cons v vs ih => exact congrArg Nat.succ (ih _)

/-- After the arguments are passed every formal has an entry. -/
theorem has_of_passing {i : Inst} {callee : Function} {values : List RangeValue}
    (hp : e.passing M (rangePolicy M DL) = some (i, callee, values))
    (h : e.step M (rangePolicy M DL) usePC rpot = some e') {n : Nat} (hn : n < values.length) :
    (e'.summary (some i.id, callee.id)).has (.arg callee.id n) := by
  unfold passing at hp
  split at hp
  · rename_i context func work blackmap block oldExit state j todo rest hs
    simp only [Option.map_eq_some_iff, Prod.mk.injEq] at hp
    obtain ⟨⟨callee', args⟩, hc, rfl, rfl, rfl⟩ := hp
    rw [length_passedValues] at hn
    simp only [step, hs] at h
    obtain rfl := Option.some.inj h
    -- the entry is there when the callee's summary is updated, and stays
    have hkey : ∀ run : BlockRun RangeValue, ((Engine.passed (rangePolicy M DL) e run j callee'
        args).summary (some j.id, callee'.id)).has (.arg callee'.id n) := by
      intro run
      unfold summary Engine.passed
      rw [results_setResults_self, FMap.get_set_self]
      have := passArguments_has (P := rangePolicy M DL) callee'.id
        (args.take callee'.params.length) 0 run.state
        ((e.results (some j.id, callee'.id)).get (.func callee'.id))
        (((e.results (some j.id, callee'.id)).get (.func callee'.id)).size == 0) hn
      rwa [Nat.zero_add] at this
    rcases stepInst_cases M (rangePolicy M DL) rpot e
        ⟨context, func, work, blackmap, some ⟨block, oldExit, state, j :: todo⟩⟩ rest
        ⟨block, oldExit, state, j :: todo⟩ j todo with
      ⟨hnone, -⟩ | ⟨callee, args, hc', -, -, heq⟩ | ⟨callee, args, hc', -, heq⟩
    · cases hnone.symm.trans hc
    · obtain ⟨rfl, rfl⟩ := Prod.mk.inj (Option.some.inj (hc.symm.trans hc'))
      rw [heq]
      exact keepsKeys_enter rpot _ _ _ _ (hkey _)
    · obtain ⟨rfl, rfl⟩ := Prod.mk.inj (Option.some.inj (hc.symm.trans hc'))
      rw [heq]
      exact keepsKeys_callDone _ _ _ _ _ _ _ _ _ (hkey _)
  · cases hp

/-- What `callDone` gives the call. -/
theorem currentState_callDone (h : AllUnknown e) (fr : Frame RangeValue)
    (rest : List (Frame RangeValue)) (run : BlockRun RangeValue) (i : Inst) (todo : List Inst)
    (callee : FuncId) (s : RangeState) :
    (e.callDone fr rest run i todo callee s).currentState =
      some (s.set (.inst i.id) .unknown) := by
  rw [← h.get (some i.id, callee) (.func callee)]
  rfl

/-- The value a call gets as its result. -/
theorem result_of_resuming (hu : AllUnknown e) {i : Inst} {f : FuncId}
    (hr : e.resuming M (rangePolicy M DL) = some (i, f))
    (h : e.step M (rangePolicy M DL) usePC rpot = some e') :
    ∃ s, e'.currentState = some s ∧ s.find (.inst i.id) = some .unknown := by
  unfold resuming at hr
  split at hr
  · rename_i context func work blackmap context' func' work' blackmap' block oldExit state j todo
      rest hs
    split_ifs at hr with hwork
    obtain ⟨rfl, rfl⟩ := Prod.mk.inj (Option.some.inj hr)
    simp only [step, hs, WorkList.take, hwork, updateResults_eq] at h
    obtain rfl := Option.some.inj h
    refine ⟨_, currentState_callDone (e := { e with
      active := e.active.filter (· ≠ (context, func.id))
      stack := _ }) hu .., FMap.find_set_self ..⟩
  · rename_i context func work blackmap run rest hs
    split at hr
    · cases hr
    · rename_i j todo htodo
      split at hr
      · cases hr
      · rename_i callee args hc
        split_ifs at hr with henter
        obtain ⟨rfl, rfl⟩ := Prod.mk.inj (Option.some.inj hr)
        simp only [step, hs, htodo] at h
        obtain rfl := Option.some.inj h
        rcases stepInst_cases M (rangePolicy M DL) rpot e
            ⟨context, func, work, blackmap, some run⟩ rest run j todo with
          ⟨hnone, -⟩ | ⟨callee', args', hc', hact, hupd, -⟩ | ⟨callee', args', hc', -, heq⟩
        · cases hnone.symm.trans hc
        · obtain ⟨rfl, rfl⟩ := Prod.mk.inj (Option.some.inj (hc.symm.trans hc'))
          exact absurd ⟨hact, hupd⟩ henter
        · obtain ⟨rfl, rfl⟩ := Prod.mk.inj (Option.some.inj (hc.symm.trans hc'))
          rw [heq]
          have hp := summaries_passed M DL hu run j callee args
          exact ⟨_, currentState_callDone hp .., FMap.find_set_self ..⟩
  · cases hr

/-- **The summaries contain what is passed and what is returned.** -/
theorem summaries_contain {entryPoints : List FuncId} {e₁ e₂ e₃ : Engine RangeValue}
    (h₁ : Run (Engine.step M (rangePolicy M DL) usePC rpot) (fun _ => True)
      (Engine.initial entryPoints) e₁)
    (h₂ : e₁.step M (rangePolicy M DL) usePC rpot = some e₂)
    (h₃ : Run (Engine.step M (rangePolicy M DL) usePC rpot) (fun _ => True) e₂ e₃) :
    (∀ i callee values, e₁.passing M (rangePolicy M DL) = some (i, callee, values) →
      ∀ n v, values[n]? = some v →
        ∃ w, (e₃.summary (some i.id, callee.id)).find (.arg callee.id n) = some w ∧ w.Covers v) ∧
    ∀ c f v, e₁.returning (rangePolicy M DL) = some ((c, f), v) →
      ∀ i e₄, e₃.resuming M (rangePolicy M DL) = some (i, f) →
        e₃.step M (rangePolicy M DL) usePC rpot = some e₄ →
          ∃ s w, e₄.currentState = some s ∧ s.find (.inst i.id) = some w ∧ w.Covers v := by
  have hu : AllUnknown e₃ := allUnknown_run ((h₁.tail trivial h₂).trans h₃)
  constructor
  · intro i callee values hp n v hv
    obtain ⟨hn, -⟩ := List.getElem?_eq_some_iff.mp hv
    have hkeep : KeepsKeys e₂ e₃ := h₃.invariant (P := KeepsKeys e₂) (fun _ _ hk => hk)
      fun _ _ ha _ hst => ha.trans (keepsKeys_move (step_move hst))
    obtain ⟨w, hw⟩ := FMap.has_iff_find.mp (hkeep _ _ (has_of_passing hp h₂ hn))
    obtain rfl := hu _ _ _ hw
    exact ⟨.unknown, hw, trivial⟩
  · intro c f v _ i e₄ hr h₄
    obtain ⟨s, hs, hres⟩ := result_of_resuming hu hr h₄
    exact ⟨s, .unknown, hs, hres, trivial⟩

end Unknown

/-! ## A call -/

/-- `main` passes 5 to a function that returns its argument. -/
def identityModule : Module where
  structs := fun _ => []
  globals := []
  funcs := [
    ⟨0, "main", [], [⟨0, [
      ⟨0, .int 64, .call (.direct 1) [.constInt (.ofNat 64 5)]⟩,
      ⟨1, .void, .ret none⟩]⟩]⟩,
    ⟨1, "identity", [.int 64], [⟨1, [⟨2, .void, .ret (some (.arg 1 0))⟩]⟩]⟩]

def identityStep : Engine RangeValue → Option (Engine RangeValue) :=
  Engine.step identityModule (rangePolicy identityModule structlessLayout) false fun f => [f]

def identityState (n : Nat) : Engine RangeValue := stepN identityStep n (Engine.initial [0])

/-- The call is at step 3, the return at step 6, and the call gets its result at step 7. -/
theorem identity_contained :
    (∃ w, ((identityState 6).summary (some 0, 1)).find (.arg 1 0) = some w ∧
      w.Covers (.constant (.ofNat 64 5) (.ofNat 64 5))) ∧
    ∃ s w, (identityState 7).currentState = some s ∧ s.find (.inst 0) = some w ∧
      w.Covers .unknown := by
  have hrun : ∀ n, Run identityStep (fun _ => True) (Engine.initial [0]) (identityState n) :=
    fun n => run_stepN identityStep n _
  have hstep : ∀ n < 7, identityStep (identityState n) = some (identityState (n + 1)) := by
    have hsome : ∀ n < 7, (identityStep (identityState n)).isSome = true := by decide +kernel
    intro n hn
    obtain ⟨t, ht⟩ := Option.isSome_iff_exists.mp (hsome n hn)
    rw [ht, identityState, stepN_succ_of_step n ht]
  have hrest : Run identityStep (fun _ => True) (identityState 3) (identityState 6) :=
    ((Run.refl _).tail trivial (hstep 3 (by decide))).tail trivial (hstep 4 (by decide))
      |>.tail trivial (hstep 5 (by decide))
  constructor
  · exact (summaries_contain (hrun 2) (hstep 2 (by decide)) hrest).1
      ⟨0, .int 64, .call (.direct 1) [.constInt (.ofNat 64 5)]⟩
      ⟨1, "identity", [.int 64], [⟨1, [⟨2, .void, .ret (some (.arg 1 0))⟩]⟩]⟩
      [.constant (.ofNat 64 5) (.ofNat 64 5)] (by decide +kernel) 0 _ rfl
  · exact (summaries_contain (hrun 5) (hstep 5 (by decide)) (.refl _)).2 (some 0) 1 .unknown
      (by decide +kernel) ⟨0, .int 64, .call (.direct 1) [.constInt (.ofNat 64 5)]⟩ _
      (by decide +kernel) (hstep 6 (by decide))

end Engine

end MSV
