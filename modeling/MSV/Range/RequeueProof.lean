import MSV.Range.CoverageProof
import MSV.Range.SummaryProof
import MSV.Range.TerminationProof

/-!
# Callers are not queued again

A call of `computeForwardDataflow(f, context)` that ends with new results should put every recorded
caller of the pair back on the context worklist. The results are compared with the entry of the
table they are stored in, so the comparison always succeeds and nothing is ever queued: what is on
the worklist when a call ends was there when it began.

A pair is entered by a call once at most, since its summary never changes after that, and then no
caller of it is recorded; every analysis of a function changes its results. So a call ends as it
should exactly when the pair is not called again while it runs.

**Theorem (`requeued_iff`).** The callers are on the worklist at the end of a call if and only if
every call of the running pair inside it was made by a pair on the worklist.
-/

namespace MSV

namespace Engine

section

variable {V : Type}

/-- `callers[{context, f}]`. -/
def callersOf (e : Engine V) (cf : Context × FuncId) : List (Context × FuncId) :=
  (e.callers.find cf).getD []

/-- A call of `computeForwardDataflow(f, context)`: the step from `e₀` to `e₁` enters it, and it
returns from `e₂`. -/
structure Call (step : Engine V → Option (Engine V)) (e₀ e₁ e₂ : Engine V) : Prop where
  enters : step e₀ = some e₁
  deeper : e₁.stack.length = e₀.stack.length + 1
  inside : Run step (fun e => e₀.stack.length < e.stack.length) e₁ e₂
  returns : ∃ e₃, step e₂ = some e₃ ∧ e₃.stack.length = e₀.stack.length ∧
    e₂.stack.length = e₀.stack.length + 1

/-- The call makes a step from `a`. -/
structure Passes (step : Engine V → Option (Engine V)) (e₀ e₁ e₂ a : Engine V) : Prop where
  reached : Run step (fun e => e₀.stack.length < e.stack.length) e₁ a
  higher : e₀.stack.length < a.stack.length
  onward : ∃ b, step a = some b ∧ Run step (fun e => e₀.stack.length < e.stack.length) b e₂

/-- The results of the pair changed only if its recorded callers are on the context worklist when
the call returns. -/
def Requeued [Inhabited V] (P : Policy V) (cf : Context × FuncId) (e₁ e₂ : Engine V) : Prop :=
  resultsEq P (e₁.results cf) ((e₂.updateResults P cf).results cf) = false →
    ∀ c ∈ (e₂.updateResults P cf).callersOf cf, c ∈ (e₂.updateResults P cf).contextWork.work

/-- The next step is a call of the pair, made by `c`. -/
def Calling (M : Module) (e : Engine V) (cf c : Context × FuncId) : Prop :=
  ∃ fr rest run i todo callee args, e.stack = fr :: rest ∧ fr.run = some run ∧
    run.todo = i :: todo ∧ calledDefinition M i = some (callee, args) ∧
    cf = (some i.id, callee.id) ∧ c = fr.pair

/-- Whoever calls the pair next is on the context worklist. -/
def CalledByWaiting (M : Module) (cf : Context × FuncId) (e : Engine V) : Prop :=
  ∀ c, Calling M e cf c → c ∈ e.contextWork.work

end

/-! ## What a step does to the callers -/

section Callers

variable {V : Type} [Inhabited V] {M : Module} {P : Policy V} {usePC : Bool}
  {rpot : FuncId → List BlockId} {e e' : Engine V} {fr : Frame V} {rest : List (Frame V)}

theorem mem_callersOf_callDone {run : BlockRun V} {i : Inst} {todo : List Inst} {callee : FuncId}
    {s : AbstractState V} {cf c : Context × FuncId} :
    c ∈ (e.callDone fr rest run i todo callee s).callersOf cf ↔
      c ∈ e.callersOf cf ∨ cf = (some i.id, callee) ∧ c = fr.pair := by
  have hcallers : (e.callDone fr rest run i todo callee s).callers =
      e.callers.set (some i.id, callee)
        (if fr.pair ∈ e.callersOf (some i.id, callee) then e.callersOf (some i.id, callee)
          else fr.pair :: e.callersOf (some i.id, callee)) := rfl
  unfold callersOf at hcallers ⊢
  rw [hcallers, FMap.find_set]
  by_cases hcf : cf = (some i.id, callee)
  · rw [if_pos hcf, hcf, Option.getD_some]
    split_ifs with hmem
    · constructor
      · exact .inl
      · rintro (h | ⟨-, rfl⟩)
        · exact h
        · exact hmem
    · rw [List.mem_cons]
      tauto
  · rw [if_neg hcf]
    tauto

/-- The top frame is about to return to the frame below it, which called it. -/
def Returning (e : Engine V) (cf c : Context × FuncId) : Prop :=
  ∃ fr caller rest, e.stack = fr :: caller :: rest ∧ fr.run = none ∧ fr.work.take = none ∧
    cf = fr.pair ∧ c = caller.pair

omit [Inhabited V] in
theorem not_returning (hs : e.stack = fr :: rest) (h : fr.run ≠ none ∨ rest = [])
    (cf c : Context × FuncId) : ¬ Returning e cf c := by
  rintro ⟨fr', caller, rest', hs', hr', -⟩
  obtain ⟨rfl, rfl⟩ := List.cons.inj (hs.symm.trans hs')
  rcases h with h | h
  · exact h hr'
  · cases h

omit [Inhabited V] in
theorem not_calling (hs : e.stack = fr :: rest)
    (h : ∀ run i todo, fr.run = some run → run.todo ≠ i :: todo) (cf c : Context × FuncId) :
    ¬ Calling M e cf c := by
  rintro ⟨fr', rest', run, i, todo, callee, args, hs', hr, ht, -⟩
  obtain ⟨rfl, -⟩ := List.cons.inj (hs.symm.trans hs')
  exact h run i todo hr ht

omit [Inhabited V] in
/-- At a call, what is called is determined. -/
theorem calling_iff {run : BlockRun V} {i : Inst} {todo : List Inst} (hs : e.stack = fr :: rest)
    (hr : fr.run = some run) (ht : run.todo = i :: todo) {cf c : Context × FuncId} :
    Calling M e cf c ↔ ∃ callee args, calledDefinition M i = some (callee, args) ∧
      cf = (some i.id, callee.id) ∧ c = fr.pair := by
  constructor
  · rintro ⟨fr', rest', run', i', todo', callee, args, hs', hr', ht', hc, hcf, rfl⟩
    obtain ⟨rfl, -⟩ := List.cons.inj (hs.symm.trans hs')
    obtain rfl := Option.some.inj (hr.symm.trans hr')
    obtain ⟨rfl, -⟩ := List.cons.inj (ht.symm.trans ht')
    exact ⟨callee, args, hc, hcf, rfl⟩
  · rintro ⟨callee, args, hc, hcf, rfl⟩
    exact ⟨fr, rest, run, i, todo, callee, args, hs, hr, ht, hc, hcf, rfl⟩

theorem length_of_returning (hm : Move M P usePC rpot e e') {cf c : Context × FuncId}
    (h : Returning e cf c) : e'.stack.length < e.stack.length := by
  obtain ⟨fr, caller, rest, hs, hr, hw, -⟩ := h
  cases hm with
  | enter hs' => cases hs.symm.trans hs'
  | drop hs' => cases hs.symm.trans hs'
  | finish hs' =>
      obtain ⟨rfl, rfl⟩ := List.cons.inj (hs.symm.trans hs')
      have hmap := congrArg List.length (returned_finish e fr (caller :: rest)).stack.map_pair
      rw [List.length_map, List.length_map] at hmap
      rw [hmap, hs]
      exact Nat.lt_succ_self _
  | takeBlock hs' hr' hw' =>
      obtain ⟨rfl, -⟩ := List.cons.inj (hs.symm.trans hs')
      cases hw.symm.trans hw'
  | stepInst hs' hr' =>
      obtain ⟨rfl, -⟩ := List.cons.inj (hs.symm.trans hs')
      cases hr.symm.trans hr'
  | endBlock hs' hr' =>
      obtain ⟨rfl, -⟩ := List.cons.inj (hs.symm.trans hs')
      cases hr.symm.trans hr'

/-- The step from `e` to `e'` ends a call of `cf` made by `c`. -/
def Recording (M : Module) (e e' : Engine V) (cf c : Context × FuncId) : Prop :=
  Returning e cf c ∨ Calling M e cf c ∧ e'.stack.length = e.stack.length

omit [Inhabited V] in
theorem not_recording_of_nil (hs : e.stack = []) {cf c : Context × FuncId} :
    ¬ Recording M e e' cf c := by
  rintro (⟨fr, caller, rest, hs', -⟩ | ⟨⟨fr, rest, run, i, todo, callee, args, hs', -⟩, -⟩)
  · cases hs.symm.trans hs'
  · cases hs.symm.trans hs'

/-- A step ends no call and leaves the callers alone, or ends one with `callDone`. -/
theorem callDone_of_move (h : Nested M e) (hm : Move M P usePC rpot e e') :
    (e'.callers = e.callers ∧ ∀ cf c, ¬ Recording M e e' cf c) ∨
    ∃ (a : Engine V) (fr : Frame V) (rest : List (Frame V)) (run : BlockRun V) (i : Inst)
      (todo : List Inst) (callee : FuncId) (s : AbstractState V),
      e' = a.callDone fr rest run i todo callee s ∧ a.callers = e.callers ∧
      ∀ cf c, Recording M e e' cf c ↔ cf = (some i.id, callee) ∧ c = fr.pair := by
  have hnone : (∀ cf c, ¬ Returning e cf c) → (∀ cf c, ¬ Calling M e cf c) →
      ∀ cf c, ¬ Recording M e e' cf c :=
    fun hret hcall cf c h => h.elim (hret cf c) fun h => hcall cf c h.1
  cases hm with
  | enter hs hw hf => exact .inl ⟨rfl, fun cf c => not_recording_of_nil hs⟩
  | drop hs hw hf => exact .inl ⟨rfl, fun cf c => not_recording_of_nil hs⟩
  | @finish fr rest hs hr hw =>
      have hcall : ∀ cf c, ¬ Calling M e cf c := not_calling hs (by simp [hr])
      rcases finish_cases e fr rest with ⟨rfl, -, -⟩ | ⟨caller, rest', rfl, hcalled⟩
      · exact .inl ⟨rfl, hnone (not_returning hs (.inr rfl)) hcall⟩
      · obtain ⟨⟨run, i, todo, args, hr', ht', hc, hctx⟩, -⟩ := hs ▸ h.waiting
        have hpair : (some i.id, fr.func.id) = fr.pair := by rw [← hctx]; rfl
        refine .inr ⟨_, caller, rest', run, i, todo, fr.func.id, run.state,
          hcalled run i todo hr' ht', rfl, fun cf c => ?_⟩
        rw [hpair]
        constructor
        · rintro (⟨fr', caller', rest'', hs', -, -, rfl, rfl⟩ | ⟨hcalls, -⟩)
          · obtain ⟨rfl, hrest⟩ := List.cons.inj (hs.symm.trans hs')
            obtain ⟨rfl, -⟩ := List.cons.inj hrest
            exact ⟨rfl, rfl⟩
          · exact absurd hcalls (hcall cf c)
        · rintro ⟨rfl, rfl⟩
          exact .inl ⟨fr, caller, rest', hs, hr, hw, rfl, rfl⟩
  | @takeBlock fr rest bb work hs hr hw =>
      refine .inl ⟨?_, hnone ?_ (not_calling hs (by simp [hr]))⟩
      · rcases takeBlock_cases M P usePC e fr rest bb work with
          ⟨-, heq⟩ | ⟨b, -, -, -, heq⟩ | ⟨b, -, -, heq⟩ <;> rw [heq] <;> rfl
      · rintro cf c ⟨fr', caller, rest', hs', -, hw', -⟩
        obtain ⟨rfl, -⟩ := List.cons.inj (hs.symm.trans hs')
        cases hw.symm.trans hw'
  | @stepInst fr rest run i todo hs hr ht =>
      have hret : ∀ cf c, ¬ Returning e cf c := not_returning hs (.inl (by simp [hr]))
      rcases stepInst_cases M P rpot e fr rest run i todo with
        ⟨hc, heq⟩ | ⟨callee, args, hc, -, -, heq⟩ | ⟨callee, args, hc, -, heq⟩
      · refine .inl ⟨by rw [heq]; rfl, hnone hret fun cf c hcalls => ?_⟩
        obtain ⟨callee, args, hc', -⟩ := (calling_iff hs hr ht).mp hcalls
        cases hc.symm.trans hc'
      · refine .inl ⟨by rw [heq]; rfl, fun cf c hrec => ?_⟩
        rcases hrec with hrec | ⟨-, hlen⟩
        · exact hret cf c hrec
        · -- the stack has grown
          rw [heq, hs] at hlen
          have hlen : (rest.length + 1) + 1 = rest.length + 1 := hlen
          omega
      · refine .inr ⟨_, fr, rest, run, i, todo, callee.id, _, heq, rfl, fun cf c => ?_⟩
        have hlen : (e.stepInst M P rpot fr rest run i todo).stack.length = e.stack.length := by
          rw [heq, hs]
          rfl
        constructor
        · rintro (hrec | ⟨hcalls, -⟩)
          · exact absurd hrec (hret cf c)
          · obtain ⟨callee', args', hc', hcf, hcaller⟩ := (calling_iff hs hr ht).mp hcalls
            obtain ⟨rfl, -⟩ := Prod.mk.inj (Option.some.inj (hc.symm.trans hc'))
            exact ⟨hcf, hcaller⟩
        · rintro ⟨hcf, hcaller⟩
          exact .inr ⟨(calling_iff hs hr ht).mpr ⟨callee, args, hc, hcf, hcaller⟩, hlen⟩
  | @endBlock fr rest run hs hr ht =>
      refine .inl ⟨?_, hnone (not_returning hs (.inl (by simp [hr]))) (not_calling hs ?_)⟩
      · rw [endBlock_eq]
        split_ifs
        · rfl
        · show (afterBlock P fr run e).callers = _
          unfold afterBlock
          split <;> rfl
      · intro run' i todo hr'
        obtain rfl := Option.some.inj (hr.symm.trans hr')
        rw [ht]
        exact (List.cons_ne_nil i todo).symm

/-- **A step records a caller where a call ends.** -/
theorem mem_callersOf_move (h : Nested M e) (hm : Move M P usePC rpot e e')
    {cf c : Context × FuncId} :
    c ∈ e'.callersOf cf ↔ c ∈ e.callersOf cf ∨ Recording M e e' cf c := by
  rcases callDone_of_move h hm with ⟨hcallers, hnone⟩ |
    ⟨a, fr, rest, run, i, todo, callee, s, rfl, hcallers, hrec⟩
  · unfold callersOf
    rw [hcallers, or_iff_left (hnone cf c)]
  · rw [mem_callersOf_callDone, hrec]
    unfold callersOf
    rw [hcallers]

/-- The callee of a call that ends has a summary. -/
theorem has_summary_of_recording (h : Nested M e) (hm : Move M P usePC rpot e e')
    {cf c : Context × FuncId} (hrec : Recording M e e' cf c) :
    cf.1 ≠ none ∧ (e'.summary cf).has (.func cf.2) := by
  rcases callDone_of_move h hm with ⟨-, hnone⟩ |
    ⟨a, fr, rest, run, i, todo, callee, s, rfl, -, hrecs⟩
  · exact absurd hrec (hnone cf c)
  · obtain ⟨rfl, -⟩ := (hrecs cf c).mp hrec
    refine ⟨Option.some_ne_none _, ?_⟩
    have hget : (a.callDone fr rest run i todo callee s).summary (some i.id, callee) =
        ((a.results (some i.id, callee)).get (.func callee)).touch (.func callee) := by
      unfold callDone summary
      rw [(writes_advance _ fr rest run i todo _).get (by simp)]
      show FMap.get ((a.setResults _ _).results _) _ = _
      rw [results_setResults_self, FMap.get_set_self]
    rw [hget]
    exact FMap.has_touch.mpr (.inl rfl)

/-! ## What a step does to the keys of the results -/

/-- Keys are never removed, and a key for a block is new to a pair that runs only. -/
structure KeysGrow (e e' : Engine V) : Prop where
  kept : ∀ cf k, (e.results cf).has k → (e'.results cf).has k
  blocks : ∀ cf b, (e'.results cf).has (.block b) → (e.results cf).has (.block b) ∨ cf ∈ e'.active

omit [Inhabited V] in
theorem Writes.keysGrow {l : List Place} (h : Writes l e e')
    (hl : ∀ cf b, (cf, Value.block b) ∈ l → cf ∈ e'.active) : KeysGrow e e' :=
  ⟨h.grows, fun cf b hk => (h.has hk).imp_right (hl cf b)⟩

omit [Inhabited V] in
theorem keysGrow_enter (rpot : FuncId → List BlockId) (f : Function) (c : Context) :
    KeysGrow e (e.enter rpot f c) := by
  have hactive : (c, f.id) ∈ (e.enter rpot f c).active := List.mem_cons_self
  refine ⟨fun cf k hk => ?_, fun cf b hk => ?_⟩
  · rw [results_enter]
    split_ifs
    · exact (has_freshResults f _ k).mpr (.inl hk)
    · exact hk
  · rw [results_enter] at hk
    split_ifs at hk with hcf
    · exact .inr (hcf.1 ▸ hactive)
    · exact .inl hk

theorem keysGrow_move (h : Nested M e) (hm : Move M P usePC rpot e e') : KeysGrow e e' := by
  cases hm with
  | @enter c f fn cw hs hw hf =>
      obtain ⟨hkept, hblocks⟩ := keysGrow_enter (e := { e with contextWork := cw }) rpot fn c
      exact ⟨hkept, hblocks⟩
  | drop hs hw hf => exact ⟨fun cf k hk => hk, fun cf b hk => .inl hk⟩
  | @finish fr rest hs hr hw =>
      rcases finish_cases e fr rest with ⟨rfl, -, -⟩ | ⟨caller, rest', rfl, hcalled⟩
      · exact ⟨fun cf k hk => hk, fun cf b hk => .inl hk⟩
      · obtain ⟨⟨run, i, todo, args, hr', ht', -, -⟩, -⟩ := hs ▸ h.waiting
        rw [hcalled run i todo hr' ht']
        have hpop : Writes [] e { e with
            active := e.active.filter (· ≠ (fr.context, fr.func.id))
            stack := caller :: rest' } := Writes.rfl (Eq.refl _)
        exact (hpop.trans (writes_callDone _ caller rest' run i todo fr.func.id run.state)).keysGrow
          (by simp)
  | @takeBlock fr rest bb work hs hr hw =>
      refine (writes_takeBlock M P usePC e fr rest bb work).keysGrow fun cf b hl => ?_
      have hcf : cf = fr.pair := by
        simp only [List.mem_cons, Prod.mk.injEq, List.not_mem_nil, reduceCtorEq, and_false,
          or_false] at hl
        exact hl.1
      have hact : (e.takeBlock M P usePC fr rest bb work).active = e.active := by
        rcases takeBlock_cases M P usePC e fr rest bb work with
          ⟨-, heq⟩ | ⟨b, -, -, -, heq⟩ | ⟨b, -, -, heq⟩ <;> rw [heq] <;> rfl
      rw [hact, h.active, hs, hcf]
      exact List.mem_cons_self
  | @stepInst fr rest run i todo hs hr ht =>
      rcases stepInst_cases M P rpot e fr rest run i todo with
        ⟨-, heq⟩ | ⟨callee, args, -, -, -, heq⟩ | ⟨callee, args, -, -, heq⟩
      · rw [heq]
        exact (writes_advance e fr rest run i todo _).keysGrow (by simp)
      · rw [heq]
        have hpassed : Writes [((some i.id, callee.id), .func callee.id)] e
            { Engine.passed P e run i callee args with
              stack := { fr with
                run := some { run with state := (passedTo P e run i callee args).1 } } :: rest } :=
          (writes_passed P e run i callee args).congr (Eq.refl _)
        exact (hpassed.trans (writes_enter _ (has_passed P e run i callee args))).keysGrow (by simp)
      · rw [heq]
        exact ((writes_passed P e run i callee args).trans (writes_callDone _ fr rest run i todo
          callee.id _)).keysGrow (by simp)
  | @endBlock fr rest run hs hr ht =>
      exact (writes_endBlock P e fr rest run).keysGrow (by simp)

end Callers

/-! ## Every pair is entered by a call once -/

section Once

variable {M : Module} {DL : DataLayout} {usePC : Bool} {rpot : FuncId → List BlockId}
  {e e' : Engine RangeValue} {fr : Frame RangeValue} {rest : List (Frame RangeValue)}

/-- A pair with a recorded caller has a summary, and a pair with the state of a block is an entry
point, runs, or has a recorded caller. -/
structure EnteredOnce (M : Module) (e : Engine RangeValue) : Prop where
  nested : Nested M e
  unknown : AllUnknown e
  waiting : ∀ cf ∈ e.contextWork.work, cf.1 = none
  bottom : ∀ cf, e.active.getLast? = some cf → cf.1 = none
  recorded : ∀ cf, e.callersOf cf ≠ [] → cf.1 ≠ none ∧ (e.summary cf).has (.func cf.2)
  blocks : ∀ cf b, (e.results cf).has (.block b) →
    cf.1 = none ∨ cf ∈ e.active ∨ e.callersOf cf ≠ []

/-- With unknown values only, passing arguments never asks for an update. -/
theorem passArguments_unknown (f : FuncId) (vs : List Value) (n : Nat) (s t : RangeState) (u : Bool)
    (ht : ∀ k x, t.find k = some x → x = .unknown) :
    (passArguments (rangePolicy M DL) f vs n s t u).2.2 = u := by
  induction vs generalizing n s t u with
  | nil => rfl
  | cons v vs ih =>
      unfold passArguments
      rw [ih, rangePolicy_meet]
      · have hget : t.get (.arg f n) = .unknown := by
          unfold FMap.get
          cases hfind : t.find (.arg f n) with
          | none => rfl
          | some x => exact ht _ x hfind
        rw [hget, (rangePolicy M DL).beq_refl]
        simp
      · intro k x hk
        rw [rangePolicy_meet, FMap.find_set] at hk
        split_ifs at hk
        · exact (Option.some.inj hk).symm
        · exact ht k x hk

/-- A callee that is entered has no recorded caller. -/
theorem EnteredOnce.callersOf_nil (h : EnteredOnce M e) {run : BlockRun RangeValue} {i : Inst}
    {callee : Function} {args : List Value}
    (hupd : (passedTo (rangePolicy M DL) e run i callee args).2.2 = true) :
    e.callersOf (some i.id, callee.id) = [] := by
  unfold passedTo at hupd
  rw [passArguments_unknown _ _ _ _ _ _ (h.unknown (some i.id, callee.id)), beq_iff_eq] at hupd
  by_contra hne
  obtain ⟨-, hkey⟩ := h.recorded _ hne
  obtain ⟨x, hx, -⟩ := FMap.mem_keys_iff_has.mpr hkey
  have hnil : (e.summary (some i.id, callee.id)).entries = [] := List.length_eq_zero_iff.mp hupd
  rw [hnil] at hx
  cases hx

/-- A caller is recorded for a pair that was entered by a call and has a summary. -/
theorem EnteredOnce.recorded_move (h : EnteredOnce M e)
    (hm : Move M (rangePolicy M DL) usePC rpot e e') (cf : Context × FuncId)
    (hne : e'.callersOf cf ≠ []) : cf.1 ≠ none ∧ (e'.summary cf).has (.func cf.2) := by
  obtain ⟨c, hc⟩ := List.exists_mem_of_ne_nil _ hne
  rcases (mem_callersOf_move h.nested hm).mp hc with hc | hrec
  · obtain ⟨hctx, hkey⟩ := h.recorded cf (List.ne_nil_of_mem hc)
    exact ⟨hctx, keepsKeys_move hm cf _ hkey⟩
  · exact has_summary_of_recording h.nested hm hrec

/-- Only the pairs that stop being active have to be looked at. -/
theorem EnteredOnce.blocks_move (h : EnteredOnce M e)
    (hm : Move M (rangePolicy M DL) usePC rpot e e')
    (hold : ∀ cf ∈ e.active, cf.1 = none ∨ cf ∈ e'.active ∨ e'.callersOf cf ≠ [])
    (cf : Context × FuncId) (b : BlockId) (hk : (e'.results cf).has (.block b)) :
    cf.1 = none ∨ cf ∈ e'.active ∨ e'.callersOf cf ≠ [] := by
  rcases (keysGrow_move h.nested hm).blocks cf b hk with hk | hmem
  · rcases h.blocks cf b hk with hnone | hmem | hne
    · exact .inl hnone
    · exact hold cf hmem
    · obtain ⟨c, hc⟩ := List.exists_mem_of_ne_nil _ hne
      exact .inr (.inr (List.ne_nil_of_mem ((mem_callersOf_move h.nested hm).mpr (.inl hc))))
  · exact .inr (.inl hmem)

theorem EnteredOnce.step (h : EnteredOnce M e)
    (hstep : e.step M (rangePolicy M DL) usePC rpot = some e') : EnteredOnce M e' := by
  have hm := step_move hstep
  have hnested := h.nested.step hstep
  have hrecorded := h.recorded_move hm
  cases hs : e.stack with
  | nil =>
      have hact : e.active = [] := by rw [h.nested.active, hs]; rfl
      cases hm with
      | @enter c f fn cw hs' hw hf =>
          obtain ⟨hwork, -⟩ := WorkList.take_eq_some hw
          have hwaiting : ∀ cf ∈ (c, f) :: cw.work, cf.1 = none := hwork ▸ h.waiting
          have hactive : (Engine.enter rpot { e with contextWork := cw } fn c).active =
              [(c, fn.id)] := congrArg ((c, fn.id) :: ·) hact
          refine ⟨hnested, h.unknown.move (step_move hstep), ?_, ?_, hrecorded, ?_⟩
          · exact fun cf hcf => hwaiting cf (List.mem_cons_of_mem _ hcf)
          · intro cf hcf
            rw [hactive] at hcf
            rw [← Option.some.inj hcf]
            exact hwaiting (c, f) List.mem_cons_self
          · refine h.blocks_move (step_move hstep) fun cf hmem => ?_
            rw [hact] at hmem
            cases hmem
      | @drop c f cw hs' hw hf =>
          obtain ⟨hwork, -⟩ := WorkList.take_eq_some hw
          refine ⟨hnested, h.unknown, fun cf hcf => ?_, h.bottom, hrecorded, h.blocks⟩
          exact h.waiting cf (hwork ▸ List.mem_cons_of_mem _ hcf)
      | finish hs' => cases hs.symm.trans hs'
      | takeBlock hs' => cases hs.symm.trans hs'
      | stepInst hs' => cases hs.symm.trans hs'
      | endBlock hs' => cases hs.symm.trans hs'
  | cons fr rest =>
      have hfr : fr.InModule M := h.nested.frames fr (hs ▸ List.mem_cons_self)
      have hact : e.active = fr.pair :: rest.map Frame.pair := by
        rw [h.nested.active, hs, List.map_cons]
      rcases step_running hs hfr hstep with ⟨hr, hw, hret⟩ | ⟨fr', hp⟩ | ⟨callee, he⟩
      · have hact' : e'.active = rest.map Frame.pair :=
          hnested.active.trans hret.stack.map_pair
        refine ⟨hnested, h.unknown.move hm, hret.contextWork ▸ h.waiting, ?_, hrecorded, ?_⟩
        · intro cf hcf
          refine h.bottom cf ?_
          rw [hact'] at hcf
          rw [hact, List.getLast?_cons, hcf]
          rfl
        · refine h.blocks_move hm fun cf hcf => ?_
          rw [hact] at hcf
          rcases List.mem_cons.mp hcf with rfl | hcf
          · -- the pair that returns is the entry point, or its caller is recorded
            cases rest with
            | nil => exact .inl (h.bottom fr.pair (by rw [hact]; rfl))
            | cons caller rest' =>
                have hrec : Recording M e e' fr.pair caller.pair :=
                  .inl ⟨fr, caller, rest', hs, hr, hw, rfl, rfl⟩
                exact .inr (.inr (List.ne_nil_of_mem
                  ((mem_callersOf_move h.nested hm).mpr (.inr hrec))))
          · exact .inr (.inl (hact' ▸ hcf))
      · refine ⟨hnested, h.unknown.move hm, hp.contextWork ▸ h.waiting, hp.active ▸ h.bottom,
          hrecorded, h.blocks_move hm fun cf hcf => .inr (.inl (hp.active ▸ hcf))⟩
      · refine ⟨hnested, h.unknown.move hm, he.contextWork ▸ h.waiting, ?_, hrecorded, ?_⟩
        · intro cf hcf
          refine h.bottom cf ?_
          rw [he.active, List.getLast?_cons, hact, List.getLast?_cons, Option.getD_some] at hcf
          rw [hact, List.getLast?_cons, hcf]
        · refine h.blocks_move hm fun cf hcf => .inr (.inl ?_)
          rw [he.active]
          exact List.mem_cons_of_mem _ hcf

theorem mem_foldl_add {α : Type*} [DecidableEq α] (l : List α) (w : WorkList α) {x : α}
    (h : x ∈ (l.foldl WorkList.add w).work) : x ∈ w.work ∨ x ∈ l := by
  induction l generalizing w with
  | nil => exact .inl h
  | cons a l ih =>
      rcases ih (w.add a) h with h | h
      · rcases w.mem_add a x h with h | rfl
        · exact .inl h
        · exact .inr List.mem_cons_self
      · exact .inr (List.mem_cons_of_mem _ h)

theorem enteredOnce_run {entryPoints : List FuncId}
    (hrun : Run (Engine.step M (rangePolicy M DL) usePC rpot) (fun _ => True)
      (Engine.initial entryPoints) e) : EnteredOnce M e := by
  have hinit : EnteredOnce M (Engine.initial entryPoints) := by
    refine ⟨⟨rfl, List.nodup_nil, by rintro _ ⟨⟩, trivial, by rintro _ ⟨⟩⟩,
      allUnknown_initial entryPoints, fun cf hcf => ?_, by rintro _ ⟨⟩, fun cf h => absurd rfl h,
      fun cf b hk => absurd hk (FMap.not_has_empty _)⟩
    have hmap : (Engine.initial entryPoints : Engine RangeValue).contextWork =
        (entryPoints.map fun f => ((none : Context), f)).foldl WorkList.add ⟨[], []⟩ := by
      unfold Engine.initial
      rw [List.foldl_map]
    rw [hmap] at hcf
    rcases mem_foldl_add _ _ hcf with hcf | hcf
    · cases hcf
    · obtain ⟨f, -, rfl⟩ := List.mem_map.mp hcf
      rfl
  exact hrun.invariant (P := EnteredOnce M) hinit fun a b ha _ h => ha.step h

/-! ## Inside a call -/

/-- The call of the pair runs, on a stack of the given height, and the context worklist is as it was
when it began. -/
structure InCall (M : Module) (cf : Context × FuncId) (height : Nat)
    (contextWork : WorkList (Context × FuncId)) (e : Engine RangeValue) : Prop where
  once : EnteredOnce M e
  running : ∃ above below, e.active = above ++ cf :: below ∧ below.length = height
  unchanged : e.contextWork = contextWork

variable {cf : Context × FuncId} {height : Nat} {cw : WorkList (Context × FuncId)}

/-- A step inside the call: the callers of the pair change where the pair is called again. -/
theorem InCall.step (h : InCall M cf height cw e)
    (hstep : e.step M (rangePolicy M DL) usePC rpot = some e') (hin : height < e.stack.length)
    (hin' : height < e'.stack.length) : InCall M cf height cw e' ∧
      ∀ c, c ∈ e'.callersOf cf ↔ c ∈ e.callersOf cf ∨ Calling M e cf c := by
  obtain ⟨above, below, hact, hlen⟩ := h.running
  obtain ⟨fr, rest, hs⟩ : ∃ fr rest, e.stack = fr :: rest :=
    List.exists_cons_of_length_pos (Nat.lt_of_le_of_lt (Nat.zero_le _) hin)
  have hm := step_move hstep
  have hnested := h.once.nested
  have hfr : fr.InModule M := hnested.frames fr (hs ▸ List.mem_cons_self)
  have hact' : fr.pair :: rest.map Frame.pair = above ++ cf :: below := by
    rw [← hact, hnested.active, hs, List.map_cons]
  -- a step that leaves the pair on the stack, and does not return from it
  have hcallers : (∀ c, ¬ Returning e cf c) →
      (∀ c, Calling M e cf c → e'.stack.length = e.stack.length) →
      ∀ c, c ∈ e'.callersOf cf ↔ c ∈ e.callersOf cf ∨ Calling M e cf c := by
    intro hret hcall c
    rw [mem_callersOf_move hnested hm]
    unfold Recording
    have := hret c
    have := hcall c
    tauto
  have hmem : cf ∈ e.active := by
    rw [hact]
    exact List.mem_append_right _ List.mem_cons_self
  rcases step_running hs hfr hstep with ⟨hr, hw, hret⟩ | ⟨fr', hp⟩ | ⟨callee, he⟩
  · have hpop : e'.active = rest.map Frame.pair :=
      (h.once.step hstep).nested.active.trans hret.stack.map_pair
    have hheight : e'.stack.length = rest.length := by
      rw [← List.length_map (f := Frame.pair), hret.stack.map_pair, List.length_map]
    cases above with
    | nil =>
        -- the pair itself returns, to the height it was called at
        obtain ⟨-, hbelow⟩ := List.cons.inj hact'
        rw [← hbelow, List.length_map] at hlen
        omega
    | cons x above =>
        obtain ⟨rfl, hrest⟩ := List.cons.inj hact'
        refine ⟨⟨h.once.step hstep, ⟨above, below, hpop.trans hrest, hlen⟩,
          hret.contextWork.trans h.unchanged⟩, hcallers ?_ ?_⟩
        · rintro c ⟨fr', caller, rest', hs', -, -, rfl, -⟩
          obtain ⟨rfl, -⟩ := List.cons.inj (hs.symm.trans hs')
          have hnodup := hnested.nodup
          rw [hact] at hnodup
          exact (List.nodup_cons.mp hnodup).1 (List.mem_append_right _ List.mem_cons_self)
        · intro c hcall
          exact absurd hcall (not_calling hs (by simp [hr]) cf c)
  · have hheight : e'.stack.length = e.stack.length := by
      rw [hp.stack, hs]
      rfl
    refine ⟨⟨h.once.step hstep, ⟨above, below, hp.active.trans hact, hlen⟩,
      hp.contextWork.trans h.unchanged⟩, hcallers (fun c hret => ?_) fun _ _ => hheight⟩
    have := length_of_returning hm hret
    omega
  · obtain ⟨run, i, todo, args, s, hr, ht, hc, hctx, hstack⟩ := he.stack
    refine ⟨⟨h.once.step hstep, ⟨callee.pair :: above, below, ?_, hlen⟩,
      he.contextWork.trans h.unchanged⟩, hcallers (fun c hret => ?_) fun c hcall => ?_⟩
    · rw [he.active, hact]
      rfl
    · have := length_of_returning hm hret
      rw [hstack, hs] at this
      simp only [List.length_cons] at this
      omega
    · -- what is entered was not running
      obtain ⟨callee', args', hc', rfl, -⟩ := (calling_iff hs hr ht).mp hcall
      obtain ⟨hcallee, -⟩ := Prod.mk.inj (Option.some.inj (hc.symm.trans hc'))
      refine absurd ?_ he.fresh
      have hpair : callee.pair = (some i.id, callee'.id) := by
        rw [← hcallee, ← hctx]
        rfl
      rw [hpair]
      exact hmem

/-- A run inside the call keeps the callers of the pair. -/
theorem InCall.run {e₁ e₂ : Engine RangeValue} (h : InCall M cf height cw e₁)
    (hrun : Run (Engine.step M (rangePolicy M DL) usePC rpot)
      (fun e => height < e.stack.length) e₁ e₂) (hin : height < e₂.stack.length) :
    InCall M cf height cw e₂ ∧ e₁.callersOf cf ⊆ e₂.callersOf cf := by
  induction hrun with
  | refl => exact ⟨h, List.Subset.refl _⟩
  | tail _ hok hstep ih =>
      obtain ⟨ht, hsub⟩ := ih hok
      obtain ⟨hu, hcallers⟩ := ht.step hstep hok hin
      exact ⟨hu, fun c hc => (hcallers c).mpr (.inl (hsub hc))⟩

/-- A caller recorded during the call called the pair in one of its steps. -/
theorem InCall.exists_calling {e₁ e₂ : Engine RangeValue} (h : InCall M cf height cw e₁)
    (hrun : Run (Engine.step M (rangePolicy M DL) usePC rpot)
      (fun e => height < e.stack.length) e₁ e₂) (hin : height < e₂.stack.length)
    {c : Context × FuncId} (hc : c ∈ e₂.callersOf cf) : c ∈ e₁.callersOf cf ∨
      ∃ a b, Run (Engine.step M (rangePolicy M DL) usePC rpot)
          (fun e => height < e.stack.length) e₁ a ∧ height < a.stack.length ∧
        a.step M (rangePolicy M DL) usePC rpot = some b ∧
        Run (Engine.step M (rangePolicy M DL) usePC rpot)
          (fun e => height < e.stack.length) b e₂ ∧ Calling M a cf c := by
  induction hrun with
  | refl => exact .inl hc
  | tail hrun hok hstep ih =>
      obtain ⟨-, hcallers⟩ := (h.run hrun hok).1.step hstep hok hin
      rcases (hcallers c).mp hc with hc | hcall
      · rcases ih hok hc with hc | ⟨a, b, h1, h2, h3, h4, h5⟩
        · exact .inl hc
        · exact .inr ⟨a, b, h1, h2, h3, h4.tail hok hstep, h5⟩
      · exact .inr ⟨_, _, hrun, hok, hstep, .refl _, hcall⟩

/-! ## The results change -/

/-- A key of the second results only makes them differ. -/
theorem resultsEq_eq_false {V : Type} {P : Policy V} {r r' : DataflowResult V} {k : Value}
    (hsub : ∀ k, r.has k → r'.has k) (hk : ¬ r.has k) (hk' : r'.has k) :
    resultsEq P r r' = false := by
  have hkeys : ∀ k', k' ∈ r.entries.map Sigma.fst → k' ∈ (r'.entries.map Sigma.fst).erase k := by
    intro k' hmem
    obtain ⟨x, hx, rfl⟩ := List.mem_map.mp hmem
    have hhas : r.has x.1 := FMap.mem_keys_iff_has.mp ⟨x, hx, rfl⟩
    obtain ⟨y, hy, heq⟩ := FMap.mem_keys_iff_has.mpr (hsub _ hhas)
    have hne : x.1 ≠ k := fun h => hk (h ▸ hhas)
    refine (List.mem_erase_of_ne hne).mpr ?_
    exact heq ▸ List.mem_map_of_mem hy
  obtain ⟨x, hx, hxk⟩ := FMap.mem_keys_iff_has.mpr hk'
  have hmem : k ∈ r'.entries.map Sigma.fst := hxk ▸ List.mem_map_of_mem hx
  have hnodup : (r.entries.map Sigma.fst).Nodup := r.nodupKeys
  have hle := (List.subperm_of_subset hnodup hkeys).length_le
  rw [List.length_erase_of_mem hmem, List.length_map, List.length_map] at hle
  have hpos : 0 < r'.entries.length := List.length_pos_of_mem hx
  have hsize : (r.size == r'.size) = false := by
    rw [beq_eq_false_iff_ne]
    unfold FMap.size
    omega
  unfold resultsEq
  rw [hsize, Bool.false_and]

/-- A step that makes the stack higher takes an entry point, or enters the callee of a call whose
pair is not running and whose summary is to be updated. -/
theorem enter_of_deeper {e₀ e₁ : Engine RangeValue}
    (hm : Move M (rangePolicy M DL) usePC rpot e₀ e₁)
    (hdeep : e₁.stack.length = e₀.stack.length + 1) :
    (e₀.stack = [] ∧ ∃ c f fn cw, e₀.contextWork.take = some ((c, f), cw) ∧
      e₁ = Engine.enter rpot { e₀ with contextWork := cw } fn c) ∨
    ∃ fr rest run i callee args, e₀.stack = fr :: rest ∧
      calledDefinition M i = some (callee, args) ∧ (some i.id, callee.id) ∉ e₀.active ∧
      (passedTo (rangePolicy M DL) e₀ run i callee args).2.2 = true ∧
      e₁ = Engine.enter rpot { Engine.passed (rangePolicy M DL) e₀ run i callee args with
        stack := { fr with
          run := some { run with
            state := (passedTo (rangePolicy M DL) e₀ run i callee args).1 } } :: rest }
        callee (some i.id) := by
  cases hm with
  | @enter c f fn cw hs hw hf => exact .inl ⟨hs, c, f, fn, cw, hw, rfl⟩
  | drop hs hw hf => exact absurd hdeep (Nat.succ_ne_self _).symm
  | @finish fr rest hs hr hw =>
      have hmap := congrArg List.length (returned_finish e₀ fr rest).stack.map_pair
      rw [List.length_map, List.length_map] at hmap
      rw [hmap, hs, List.length_cons] at hdeep
      omega
  | @takeBlock fr rest bb work hs hr hw =>
      rcases takeBlock_cases M (rangePolicy M DL) usePC e₀ fr rest bb work with
        ⟨-, heq⟩ | ⟨b, -, -, -, heq⟩ | ⟨b, -, -, heq⟩
      all_goals
        rw [heq, hs] at hdeep
        exact absurd hdeep (Nat.succ_ne_self _).symm
  | @stepInst fr rest run i todo hs hr ht =>
      rcases stepInst_cases M (rangePolicy M DL) rpot e₀ fr rest run i todo with
        ⟨-, heq⟩ | ⟨callee, args, hc, hact, hupd, heq⟩ | ⟨callee, args, hc, -, heq⟩
      · rw [heq, hs] at hdeep
        exact absurd hdeep (Nat.succ_ne_self _).symm
      · exact .inr ⟨fr, rest, run, i, callee, args, hs, hc, hact, hupd, heq⟩
      · rw [heq, hs] at hdeep
        exact absurd hdeep (Nat.succ_ne_self _).symm
  | @endBlock fr rest run hs hr ht =>
      rw [endBlock_eq] at hdeep
      split_ifs at hdeep
      all_goals
        rw [hs] at hdeep
        exact absurd hdeep (Nat.succ_ne_self _).symm

/-- A block that can be reached is there. -/
theorem exists_block (hM : M.WF) {f : Function} (hf : f ∈ M.funcs) {b : BlockId}
    (h : CFGReachable f b) : ∃ blk, f.block? b = some blk := by
  have hmem : ∃ blk ∈ f.blocks, blk.id = b := by
    cases h with
    | entry heq => exact ⟨_, heq ▸ List.mem_cons_self, rfl⟩
    | succ _ hb hs => exact hM.targets f hf _ hb _ hs
  obtain ⟨blk, hblk, rfl⟩ := hmem
  exact ⟨blk, hM.block?_id hf hblk⟩

/-- What is entered has a body. -/
theorem blocks_of_calledDefinition {i : Inst} {callee : Function} {args : List Value}
    (h : calledDefinition M i = some (callee, args)) : ∃ b bs, callee.blocks = b :: bs := by
  unfold calledDefinition at h
  split at h
  · split at h
    · split_ifs at h with hdecl
      simp only [Option.some.injEq, Prod.mk.injEq] at h
      obtain ⟨rfl, -⟩ := h
      cases hb : Function.blocks _ with
      | nil => exact absurd (List.isEmpty_iff.mpr hb) hdecl
      | cons b bs => exact ⟨b, bs, rfl⟩
    · cases h
  · cases h

/-- Taking a block of the function gives it a state. -/
theorem takeBlock_has {bb : BlockId} {blk : Block} (hb : fr.func.block? bb = some blk)
    (work : WorkList BlockId) :
    (e.takeBlock M (rangePolicy M DL) usePC fr rest bb work).stack.length = rest.length + 1 ∧
      ((e.takeBlock M (rangePolicy M DL) usePC fr rest bb work).results fr.pair).has
        (.block bb) := by
  have htouched : (touched e fr bb).has (.block bb) :=
    FMap.has_touch.mpr (.inr (FMap.has_touch.mpr (.inl rfl)))
  rcases takeBlock_cases M (rangePolicy M DL) usePC e fr rest bb work with
    ⟨hnone, -⟩ | ⟨b, -, -, -, heq⟩ | ⟨b, -, -, heq⟩
  · cases hb.symm.trans hnone
  · rw [heq]
    refine ⟨rfl, ?_⟩
    show ((e.setResults fr.pair _).results fr.pair).has _
    rw [results_setResults_self]
    exact htouched
  · rw [heq]
    refine ⟨rfl, ?_⟩
    show ((e.setResults fr.pair _).results fr.pair).has _
    rw [results_setResults_self]
    exact FMap.has_set_self ..

/-- Keys stay along a run. -/
theorem EnteredOnce.has_run {ok : Engine RangeValue → Prop} {e₁ e₂ : Engine RangeValue}
    (h : EnteredOnce M e₁) (hrun : Run (Engine.step M (rangePolicy M DL) usePC rpot) ok e₁ e₂)
    {k : Value} (hk : (e₁.results cf).has k) : (e₂.results cf).has k := by
  have hinv := hrun.invariant (P := fun e => EnteredOnce M e ∧ (e.results cf).has k) ⟨h, hk⟩
    fun a b ha _ hstep => ⟨ha.1.step hstep,
      (keysGrow_move ha.1.nested (step_move hstep)).kept cf k ha.2⟩
  exact hinv.2

/-- **Every analysis of a callee changes its results**: the states of its blocks are new. -/
theorem results_change (hM : M.WF) (hrpo : ReversePostOrder M rpot) {e₀ e₁ e₂ : Engine RangeValue}
    (h₀ : EnteredOnce M e₀) (hcall : Call (Engine.step M (rangePolicy M DL) usePC rpot) e₀ e₁ e₂)
    (hne : e₀.stack ≠ []) (hs : e₁.stack = fr :: rest) :
    e₁.callersOf fr.pair = [] ∧
      resultsEq (rangePolicy M DL) (e₁.results fr.pair) (e₂.results fr.pair) = false := by
  rcases enter_of_deeper (step_move hcall.enters) hcall.deeper with
    ⟨hnil, -⟩ | ⟨fr', rest', run, i, callee, args, -, hc, hact, hupd, heq⟩
  · exact absurd hnil hne
  obtain ⟨hfr, -⟩ := List.cons.inj (hs.symm.trans (congrArg Engine.stack heq))
  have hpair : fr.pair = (some i.id, callee.id) := by rw [hfr]; rfl
  have hcallers := h₀.callersOf_nil hupd
  have hcallers₁ : e₁.callersOf (some i.id, callee.id) = [] := by
    rw [heq]
    exact hcallers
  -- no block of the callee has a state yet
  have hnew : ∀ b, ¬ (e₁.results (some i.id, callee.id)).has (.block b) := by
    intro b hk
    rw [heq, results_enter, if_neg fun h => h.2 (has_passed ..)] at hk
    have hk : ((Engine.passed (rangePolicy M DL) e₀ run i callee args).results
      (some i.id, callee.id)).has (.block b) := hk
    rcases (writes_passed (rangePolicy M DL) e₀ run i callee args).has hk with hk | hmem
    · rcases h₀.blocks _ b hk with hnone | hmem | hne
      · cases hnone
      · exact hact hmem
      · exact hne hcallers
    · simp at hmem
  -- the first block taken
  have hmem : callee ∈ M.funcs := calledDefinition_mem hc
  obtain ⟨b, bs, hblocks⟩ := blocks_of_calledDefinition hc
  obtain ⟨bb, tl, hrpot⟩ : ∃ bb tl, rpot callee.id = bb :: tl := by
    have hin : b.id ∈ rpot callee.id := (hrpo callee hmem b.id).mpr (.entry hblocks)
    exact List.exists_cons_of_length_pos (List.length_pos_of_mem hin)
  obtain ⟨blk, hblk⟩ := exists_block hM hmem
    ((hrpo callee hmem bb).mp (hrpot ▸ List.mem_cons_self))
  have hblk' : fr.func.block? bb = some blk := by
    rw [hfr]
    exact hblk
  have hwork : ∃ work, fr.work.take = some (bb, work) := by
    rw [hfr, hrpot]
    exact ⟨_, rfl⟩
  obtain ⟨work, hwork⟩ := hwork
  have hstep₁ : e₁.step M (rangePolicy M DL) usePC rpot =
      some (e₁.takeBlock M (rangePolicy M DL) usePC fr rest bb work) := by
    have hrun : fr.run = none := by rw [hfr]
    unfold Engine.step
    rw [hs]
    simp only [hrun, hwork]
  obtain ⟨hlen, hkey⟩ : (e₁.takeBlock M (rangePolicy M DL) usePC fr rest bb work).stack.length =
        rest.length + 1 ∧
      ((e₁.takeBlock M (rangePolicy M DL) usePC fr rest bb work).results fr.pair).has
        (.block bb) := takeBlock_has hblk' work
  have h₁ := h₀.step hcall.enters
  refine ⟨hpair ▸ hcallers₁, resultsEq_eq_false (k := .block bb) (fun k hk => ?_) ?_ ?_⟩
  · exact h₁.has_run hcall.inside hk
  · exact hpair ▸ hnew bb
  · rcases hcall.inside.eq_or_head with rfl | ⟨u, -, hstep, hrun⟩
    · -- the call does not return from where it starts
      obtain ⟨e₃, hret, hheight, hheight'⟩ := hcall.returns
      obtain rfl := Option.some.inj (hstep₁.symm.trans hret)
      rw [hs, List.length_cons] at hheight'
      omega
    · obtain rfl := Option.some.inj (hstep₁.symm.trans hstep)
      exact (h₁.step hstep₁).has_run hrun hkey

/-- **Callers are queued again as they should be exactly when the pair is not called while it
runs**, calls by pairs on the context worklist apart. -/
theorem requeued_iff {entryPoints : List FuncId} {e₀ e₁ e₂ : Engine RangeValue} (hM : M.WF)
    (hrpo : ReversePostOrder M rpot)
    (hrun : Run (Engine.step M (rangePolicy M DL) usePC rpot) (fun _ => True)
      (Engine.initial entryPoints) e₀)
    (hcall : Call (Engine.step M (rangePolicy M DL) usePC rpot) e₀ e₁ e₂)
    (hs : e₁.stack = fr :: rest) :
    Requeued (rangePolicy M DL) fr.pair e₁ e₂ ↔
      ∀ a, Passes (Engine.step M (rangePolicy M DL) usePC rpot) e₀ e₁ e₂ a →
        CalledByWaiting M fr.pair a := by
  have h₀ : EnteredOnce M e₀ := enteredOnce_run hrun
  have h₁ := h₀.step hcall.enters
  have hact : e₁.active = fr.pair :: rest.map Frame.pair := by
    rw [h₁.nested.active, hs, List.map_cons]
  have hheight : rest.length = e₀.stack.length := by
    have := hcall.deeper
    rw [hs, List.length_cons] at this
    omega
  have hin₁ : InCall M fr.pair e₀.stack.length e₁.contextWork e₁ :=
    ⟨h₁, ⟨[], rest.map Frame.pair, hact, by rw [List.length_map, hheight]⟩, rfl⟩
  obtain ⟨e₃, -, -, hheight₂⟩ := hcall.returns
  have hlt : e₀.stack.length < e₂.stack.length := by omega
  obtain ⟨hin₂, -⟩ := hin₁.run hcall.inside hlt
  unfold Requeued
  rw [updateResults_eq]
  by_cases hne : e₀.stack = []
  · -- an entry point has no recorded callers, and no call calls it
    have hnone : fr.pair.1 = none := by
      refine h₁.bottom fr.pair ?_
      rw [hne, List.length_nil] at hheight
      rw [hact, List.length_eq_zero_iff.mp hheight]
      rfl
    have hcallers : e₂.callersOf fr.pair = [] := by
      by_contra hcallers
      exact (hin₂.once.recorded _ hcallers).1 hnone
    constructor
    · rintro - a - c ⟨_, _, _, i, _, callee, _, -, -, -, -, heq, -⟩
      rw [heq] at hnone
      cases hnone
    · intro _ _ c hc
      rw [hcallers] at hc
      cases hc
  · obtain ⟨hcallers, hchange⟩ := results_change hM hrpo h₀ hcall hne hs
    constructor
    · intro hreq a ha c hcalling
      obtain ⟨b, hstep, hrun'⟩ := ha.onward
      obtain ⟨hina, -⟩ := hin₁.run ha.reached ha.higher
      have hhigher : e₀.stack.length < b.stack.length := by
        rcases hrun'.eq_or_head with rfl | ⟨_, hok, -⟩
        · exact hlt
        · exact hok
      obtain ⟨hinb, hcb⟩ := hina.step hstep ha.higher hhigher
      obtain ⟨-, hsub⟩ := hinb.run hrun' hlt
      have hmem := hreq hchange c (hsub ((hcb c).mpr (.inr hcalling)))
      rwa [hina.unchanged, ← hin₂.unchanged]
    · intro hwait _ c hc
      rcases hin₁.exists_calling hcall.inside hlt hc with hc | ⟨a, b, h1, h2, h3, h4, h5⟩
      · rw [hcallers] at hc
        cases hc
      · have hmem := hwait a ⟨h1, h2, b, h3, h4⟩ c h5
        obtain ⟨hina, -⟩ := hin₁.run h1 h2
        rwa [hin₂.unchanged, ← hina.unchanged]

end Once

end Engine

/-! ## A function that calls itself -/

/-- `call void @f()`, then `ret void`. -/
def callAndReturnBlock (b : BlockId) (call ret : InstId) : Block :=
  ⟨b, [⟨call, .void, .call (.direct 1) []⟩, ⟨ret, .void, .ret none⟩]⟩

def callAndReturn (f : FuncId) (name : String) (call ret : InstId) : Function :=
  ⟨f, name, [], [callAndReturnBlock f call ret]⟩

/-- `main` calls `f`, which calls itself. -/
def recursiveModule : Module where
  structs := fun _ => []
  globals := []
  funcs := [callAndReturn 0 "main" 0 1, callAndReturn 1 "f" 2 3]

def recursiveStep : Engine RangeValue → Option (Engine RangeValue) :=
  Engine.step recursiveModule (rangePolicy recursiveModule structlessLayout) false fun f => [f]

def recursiveState (n : Nat) : Engine RangeValue := stepN recursiveStep n (Engine.initial [0])

theorem recursiveModule_wf : recursiveModule.WF where
  funcs_nodup := by decide
  blocks_nodup := by decide
  insts_nodup := by decide
  terminated := Module.terminated_of_last (by decide)
  targets := by
    simp [recursiveModule, callAndReturn, callAndReturnBlock, Block.successors, Block.terminator,
      InstKind.successors]
  operands := Module.operands_of_isStore_eq_false (by decide)

theorem recursiveModule_rpo : ReversePostOrder recursiveModule fun f => [f] := by
  intro f hf b
  rw [List.mem_singleton]
  simp only [recursiveModule, List.mem_cons, List.not_mem_nil, or_false] at hf
  rcases hf with rfl | rfl
  · exact (cfgReachable_single (b := callAndReturnBlock 0 0 1) rfl rfl b).symm
  · exact (cfgReachable_single (b := callAndReturnBlock 1 2 3) rfl rfl b).symm

/-- The call of `f` in `main` ends as it should: the pair is not called again, since `f` calls
itself at another place. -/
theorem first_call_not_repeated :
    Engine.Call recursiveStep (recursiveState 2) (recursiveState 3)
        (stepN recursiveStep 9 (recursiveState 3)) ∧
      ∀ a, Engine.Passes recursiveStep (recursiveState 2) (recursiveState 3)
          (stepN recursiveStep 9 (recursiveState 3)) a →
        Engine.CalledByWaiting recursiveModule (some 0, 1) a := by
  have hcall : Engine.Call recursiveStep (recursiveState 2) (recursiveState 3)
      (stepN recursiveStep 9 (recursiveState 3)) :=
    ⟨rfl, by decide, run_stepN_of 9 _ (by decide), _, rfl, by decide, by decide⟩
  refine ⟨hcall, (Engine.requeued_iff recursiveModule_wf recursiveModule_rpo
    (run_stepN recursiveStep 2 _) hcall rfl).mp ?_⟩
  unfold Engine.Requeued
  decide

/-- The call of `f` in `f` records itself as a caller, which is not queued again although the
results are new. -/
theorem recursive_caller_not_requeued :
    recursiveModule.WF ∧ ReversePostOrder recursiveModule (fun f => [f]) ∧
      Run recursiveStep (fun _ => True) (Engine.initial [0]) (recursiveState 4) ∧
      Engine.Call recursiveStep (recursiveState 4) (recursiveState 5)
        (stepN recursiveStep 4 (recursiveState 5)) ∧
      (∃ fr rest, (recursiveState 5).stack = fr :: rest ∧ fr.pair = (some 2, 1)) ∧
      ¬ Engine.Requeued (rangePolicy recursiveModule structlessLayout) (some 2, 1)
        (recursiveState 5) (stepN recursiveStep 4 (recursiveState 5)) := by
  refine ⟨recursiveModule_wf, recursiveModule_rpo, run_stepN recursiveStep 4 _,
    ⟨rfl, by decide, run_stepN_of 4 _ (by decide), _, rfl, by decide, by decide⟩,
    ⟨_, _, rfl, rfl⟩, ?_⟩
  unfold Engine.Requeued
  decide

end MSV
