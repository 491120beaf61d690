import MSV.Dataflow.Engine

/-!
# The moves of the engine

What one step of the dataflow engine can do, said once: `Move` lists the steps with the condition
each is taken under, and the lemmas below say which keys of which results a step writes.
-/

namespace MSV

namespace Engine

variable {V : Type} [Inhabited V] {M : Module} {P : Policy V} {usePC : Bool}
  {rpot : FuncId → List BlockId}

/-! ## The comparison of the results -/

omit [Inhabited V] in
theorem stateEq_self (s : AbstractState V) : stateEq P s s = true := by
  unfold stateEq
  rw [beq_self_eq_true, Bool.true_and, List.all_eq_true]
  intro e he
  rw [FMap.find_of_mem he]
  exact P.beq_refl e.2

omit [Inhabited V] in
theorem resultsEq_self (r : DataflowResult V) : resultsEq P r r = true := by
  unfold resultsEq
  rw [beq_self_eq_true, Bool.true_and, List.all_eq_true]
  intro e he
  rw [FMap.find_of_mem he]
  exact stateEq_self e.2

omit [Inhabited V] in
/-- The results are compared with themselves, so the update never happens. -/
theorem updateResults_eq (e : Engine V) (cf : Context × FuncId) : e.updateResults P cf = e := by
  unfold updateResults
  rw [if_pos (resultsEq_self _)]

/-! ## The moves -/

/-- The steps of the engine. -/
inductive Move (M : Module) (P : Policy V) (usePC : Bool) (rpot : FuncId → List BlockId) :
    Engine V → Engine V → Prop
  | enter {e : Engine V} {c : Context} {f : FuncId} {fn : Function}
      {cw : WorkList (Context × FuncId)} (hs : e.stack = [])
      (hw : e.contextWork.take = some ((c, f), cw)) (hf : M.func? f = some fn) :
      Move M P usePC rpot e (Engine.enter rpot { e with contextWork := cw } fn c)
  | drop {e : Engine V} {c : Context} {f : FuncId} {cw : WorkList (Context × FuncId)}
      (hs : e.stack = []) (hw : e.contextWork.take = some ((c, f), cw)) (hf : M.func? f = none) :
      Move M P usePC rpot e { e with contextWork := cw }
  | finish {e : Engine V} {fr : Frame V} {rest : List (Frame V)} (hs : e.stack = fr :: rest)
      (hr : fr.run = none) (hw : fr.work.take = none) : Move M P usePC rpot e (e.finish fr rest)
  | takeBlock {e : Engine V} {fr : Frame V} {rest : List (Frame V)} {bb : BlockId}
      {work : WorkList BlockId} (hs : e.stack = fr :: rest) (hr : fr.run = none)
      (hw : fr.work.take = some (bb, work)) :
      Move M P usePC rpot e (e.takeBlock M P usePC fr rest bb work)
  | stepInst {e : Engine V} {fr : Frame V} {rest : List (Frame V)} {run : BlockRun V} {i : Inst}
      {todo : List Inst} (hs : e.stack = fr :: rest) (hr : fr.run = some run)
      (ht : run.todo = i :: todo) : Move M P usePC rpot e (e.stepInst M P rpot fr rest run i todo)
  | endBlock {e : Engine V} {fr : Frame V} {rest : List (Frame V)} {run : BlockRun V}
      (hs : e.stack = fr :: rest) (hr : fr.run = some run) (ht : run.todo = []) :
      Move M P usePC rpot e (e.endBlock P fr rest run)

theorem step_move {e e' : Engine V} (h : e.step M P usePC rpot = some e') :
    Move M P usePC rpot e e' := by
  unfold step at h
  split at h
  · rename_i hs
    split at h
    · cases h
    · rename_i c f cw hw
      split at h
      · rename_i fn hf
        obtain rfl := Option.some.inj h
        exact .enter hs hw hf
      · rename_i hf
        obtain rfl := Option.some.inj h
        exact .drop hs hw hf
  · rename_i fr rest hs
    split at h
    · rename_i hr
      split at h
      · rename_i hw
        rw [updateResults_eq] at h
        obtain rfl := Option.some.inj h
        exact .finish hs hr hw
      · rename_i bb work hw
        obtain rfl := Option.some.inj h
        exact .takeBlock hs hr hw
    · rename_i run hr
      split at h
      · rename_i i todo ht
        obtain rfl := Option.some.inj h
        exact .stepInst hs hr ht
      · rename_i ht
        obtain rfl := Option.some.inj h
        exact .endBlock hs hr ht

/-- The analysis ends when nothing runs and nothing waits. -/
theorem step_eq_none {e : Engine V} (h : e.step M P usePC rpot = none) :
    e.stack = [] ∧ e.contextWork.take = none := by
  unfold step at h
  split at h
  · rename_i hs
    split at h
    · rename_i hw
      exact ⟨hs, hw⟩
    · split at h <;> cases h
  · split at h
    · split at h <;> cases h
    · split at h <;> cases h

end Engine

theorem WorkList.take_eq_none {α : Type*} [DecidableEq α] {w : WorkList α}
    (h : w.take = none) : w.work = [] := by
  unfold take at h
  split at h
  · assumption
  · cases h

theorem WorkList.take_eq_some {α : Type*} [DecidableEq α] {w w' : WorkList α} {a : α}
    (h : w.take = some (a, w')) : w.work = a :: w'.work ∧ w'.inList = w.inList.filter (· ≠ a) := by
  unfold take at h
  split at h
  · cases h
  · rename_i x rest hw
    simp only [Option.some.injEq, Prod.mk.injEq] at h
    obtain ⟨rfl, rfl⟩ := h
    exact ⟨hw, rfl⟩

/-- What the set holds is queued, also after `take`. -/
theorem WorkList.inList_of_take {α : Type*} [DecidableEq α] {w w' : WorkList α} {a : α}
    (h : w.inList ⊆ w.work) (hw : w.take = some (a, w')) : w'.inList ⊆ w'.work := by
  obtain ⟨hwork, hinList⟩ := take_eq_some hw
  intro x hx
  rw [hinList, List.mem_filter] at hx
  have hmem := h hx.1
  rw [hwork] at hmem
  exact (List.mem_cons.mp hmem).resolve_left (by simpa using hx.2)

theorem WorkList.mem_add {α : Type*} [DecidableEq α] (w : WorkList α) (a x : α)
    (h : x ∈ (w.add a).work) : x ∈ w.work ∨ x = a := by
  unfold add at h
  split_ifs at h
  · exact Or.inl h
  · simpa using h

theorem WorkList.subset_add {α : Type*} [DecidableEq α] (w : WorkList α) (a : α) :
    w.work ⊆ (w.add a).work := by
  unfold add
  split_ifs
  · exact List.Subset.refl _
  · exact List.subset_append_left _ _

namespace Engine

/-! ## What a step writes -/

section Results

variable {V : Type}

theorem results_setResults (e : Engine V) (cf cf' : Context × FuncId) (r : DataflowResult V) :
    (e.setResults cf r).results cf' = if cf' = cf then r else e.results cf' := by
  unfold results setResults
  rw [FMap.get_set]

@[simp] theorem results_setResults_self (e : Engine V) (cf : Context × FuncId)
    (r : DataflowResult V) : (e.setResults cf r).results cf = r := by
  rw [results_setResults, if_pos rfl]

theorem find_recordState_ne (i : Inst) (rest : List Inst) (s : AbstractState V)
    (r : DataflowResult V) {k : Value} (hk : k ≠ .inst i.id) :
    (recordState i rest s r).find k = r.find k := by
  cases rest <;> exact FMap.find_set_ne _ _ hk

theorem has_recordState (i : Inst) (rest : List Inst) (s : AbstractState V)
    (r : DataflowResult V) : (recordState i rest s r).has (.inst i.id) := by
  cases rest <;> exact FMap.has_set_self ..

/-- A place in the results. -/
abbrev Place := (Context × FuncId) × Value

/-- The results keep their keys, and change in the listed places only. -/
structure Writes (places : List Place) (e e' : Engine V) : Prop where
  grows : ∀ cf k, (e.results cf).has k → (e'.results cf).has k
  same : ∀ cf k, (cf, k) ∉ places → (e'.results cf).find k = (e.results cf).find k

variable {e e' e'' : Engine V} {l l' : List Place}

theorem Writes.rfl (h : e'.allResults = e.allResults) : Writes l e e' := by
  have hr : ∀ cf, e'.results cf = e.results cf := fun cf => by unfold results; rw [h]
  exact ⟨fun cf k hk => hr cf ▸ hk, fun cf k _ => by rw [hr cf]⟩

theorem Writes.trans (h : Writes l e e') (h' : Writes l' e' e'') : Writes (l ++ l') e e'' := by
  refine ⟨fun cf k hk => h'.grows cf k (h.grows cf k hk), fun cf k hk => ?_⟩
  rw [List.mem_append, not_or] at hk
  rw [h'.same cf k hk.2, h.same cf k hk.1]

/-- Only the results count. -/
theorem Writes.congr (h : Writes l e e') (he : e''.allResults = e'.allResults) :
    Writes l e e'' := by
  simpa using h.trans (Writes.rfl (l := []) he)

theorem Writes.mono (h : Writes l e e') (hl : l ⊆ l') : Writes l' e e' :=
  ⟨h.grows, fun cf k hk => h.same cf k fun hmem => hk (hl hmem)⟩

/-- A new key is one of those written. -/
theorem Writes.has (h : Writes l e e') {cf : Context × FuncId} {k : Value}
    (hk : (e'.results cf).has k) : (e.results cf).has k ∨ (cf, k) ∈ l := by
  by_cases hmem : (cf, k) ∈ l
  · exact Or.inr hmem
  · rw [FMap.has_iff_find, h.same cf k hmem, ← FMap.has_iff_find] at hk
    exact Or.inl hk

theorem Writes.get (h : Writes l e e') {cf : Context × FuncId} {k : Value} (hk : (cf, k) ∉ l) :
    (e'.results cf).get k = (e.results cf).get k := by
  unfold FMap.get
  rw [h.same cf k hk]

/-- Writing one key of one pair's results. -/
theorem writes_set (e : Engine V) (cf : Context × FuncId) (k : Value) (s : AbstractState V) :
    Writes [(cf, k)] e (e.setResults cf ((e.results cf).set k s)) := by
  constructor
  · intro cf' k' hk
    rw [results_setResults]
    split_ifs with hcf
    · exact FMap.has_set_of_has _ (hcf ▸ hk)
    · exact hk
  · intro cf' k' hk
    rw [results_setResults]
    split_ifs with hcf
    · rw [hcf]
      refine FMap.find_set_ne _ _ fun hkk => hk ?_
      rw [hcf, hkk]
      exact List.mem_singleton_self _
    · exact Eq.refl _

theorem writes_recordState (e : Engine V) (cf : Context × FuncId) (i : Inst) (rest : List Inst)
    (s : AbstractState V) :
    Writes [(cf, .inst i.id)] e (e.setResults cf (recordState i rest s (e.results cf))) := by
  cases rest <;> exact writes_set ..

end Results

section Writes

variable {V : Type} [Inhabited V] {M : Module} {P : Policy V} {usePC : Bool}
  {rpot : FuncId → List BlockId} {e : Engine V} {fr : Frame V} {rest : List (Frame V)}

omit [Inhabited V] in
theorem writes_advance (e : Engine V) (fr : Frame V) (rest : List (Frame V))
    (run : BlockRun V) (i : Inst) (todo : List Inst) (s : AbstractState V) :
    Writes [((fr.context, fr.func.id), .inst i.id)] e (e.advance fr rest run i todo s) :=
  (writes_recordState e (fr.context, fr.func.id) i todo s).congr rfl

omit [Inhabited V] in
theorem has_advance (e : Engine V) (fr : Frame V) (rest : List (Frame V))
    (run : BlockRun V) (i : Inst) (todo : List Inst) (s : AbstractState V) :
    ((e.advance fr rest run i todo s).results (fr.context, fr.func.id)).has (.inst i.id) := by
  unfold advance
  show ((Engine.setResults e _ _).results _).has _
  rw [results_setResults_self]
  exact has_recordState ..

theorem writes_callDone (e : Engine V) (fr : Frame V) (rest : List (Frame V))
    (run : BlockRun V) (i : Inst) (todo : List Inst) (callee : FuncId)
    (s : AbstractState V) :
    Writes [((some i.id, callee), .func callee), ((fr.context, fr.func.id), .inst i.id)] e
      (e.callDone fr rest run i todo callee s) := by
  refine Writes.trans (l := [((some i.id, callee), .func callee)]) ?_
    (writes_advance _ fr rest run i todo _)
  exact (writes_set e (some i.id, callee) (.func callee) _).congr rfl

theorem has_callDone (e : Engine V) (fr : Frame V) (rest : List (Frame V))
    (run : BlockRun V) (i : Inst) (todo : List Inst) (callee : FuncId)
    (s : AbstractState V) :
    ((e.callDone fr rest run i todo callee s).results (some i.id, callee)).has (.func callee) ∧
      ((e.callDone fr rest run i todo callee s).results (fr.context, fr.func.id)).has
        (.inst i.id) := by
  unfold callDone
  constructor
  · refine (writes_advance _ fr rest run i todo _).grows _ _ ?_
    show ((Engine.setResults e _ _).results _).has _
    rw [results_setResults_self]
    exact FMap.has_set_self ..
  · exact has_advance _ fr rest run i todo _

/-- The results a block is taken with: the two keys are there. -/
def touched (e : Engine V) (fr : Frame V) (bb : BlockId) : DataflowResult V :=
  ((e.results (fr.context, fr.func.id)).touch (.block bb)).touch (.func fr.func.id)

/-- The exit state of a block. -/
def exitState (r : DataflowResult V) (b : Block) : AbstractState V :=
  match b.terminator with
  | some t => r.get (.inst t.id)
  | none => ∅

/-- Taking a block: there is none of that name, its entry state is the old one, or it starts. -/
theorem takeBlock_cases (M : Module) (P : Policy V) (usePC : Bool) (e : Engine V) (fr : Frame V)
    (rest : List (Frame V)) (bb : BlockId) (work : WorkList BlockId) :
    (fr.func.block? bb = none ∧
      e.takeBlock M P usePC fr rest bb work =
        { e with stack := { fr with work := work } :: rest }) ∨
    (∃ b, fr.func.block? bb = some b ∧
      stateEq P (entryState M P usePC fr.func bb (touched e fr bb))
        ((touched e fr bb).get (.block bb)) = true ∧
      (entryState M P usePC fr.func bb (touched e fr bb)).isEmpty = false ∧
      e.takeBlock M P usePC fr rest bb work =
        { e.setResults (fr.context, fr.func.id) (touched e fr bb) with
          stack := { fr with work := work } :: rest }) ∨
    (∃ b, fr.func.block? bb = some b ∧
      (stateEq P (entryState M P usePC fr.func bb (touched e fr bb))
          ((touched e fr bb).get (.block bb)) = true →
        (entryState M P usePC fr.func bb (touched e fr bb)).isEmpty = true) ∧
      e.takeBlock M P usePC fr rest bb work =
        { e.setResults (fr.context, fr.func.id) ((touched e fr bb).set (.block bb)
            (entryState M P usePC fr.func bb (touched e fr bb))) with
          stack := { fr with
            work := work
            run := some ⟨b, exitState (touched e fr bb) b,
              entryState M P usePC fr.func bb (touched e fr bb), b.insts⟩ } :: rest }) := by
  cases hb : fr.func.block? bb with
  | none =>
      refine Or.inl ⟨Eq.refl _, ?_⟩
      unfold takeBlock
      rw [hb]
  | some b =>
      by_cases hskip : (stateEq P (entryState M P usePC fr.func bb (touched e fr bb))
          ((touched e fr bb).get (.block bb)) &&
            !(entryState M P usePC fr.func bb (touched e fr bb)).isEmpty) = true
      · refine Or.inr (Or.inl ⟨b, Eq.refl _, ?_, ?_, ?_⟩)
        · exact (Bool.and_eq_true_iff.mp hskip).1
        · simpa using (Bool.and_eq_true_iff.mp hskip).2
        · unfold takeBlock
          rw [hb]
          exact if_pos hskip
      · refine Or.inr (Or.inr ⟨b, Eq.refl _, ?_, ?_⟩)
        · intro heq
          rw [heq, Bool.true_and] at hskip
          simpa using hskip
        · unfold takeBlock
          rw [hb]
          exact if_neg hskip

omit [Inhabited V] in
/-- Writing the two keys of a taken block. -/
theorem writes_touched (bb : BlockId) {r : DataflowResult V}
    (hgrow : ∀ k, (touched e fr bb).has k → r.has k)
    (hsame : ∀ k, k ≠ .block bb → r.find k = (touched e fr bb).find k) :
    Writes [((fr.context, fr.func.id), .block bb), ((fr.context, fr.func.id), .func fr.func.id)] e
      (e.setResults (fr.context, fr.func.id) r) := by
  constructor
  · intro cf k hk
    rw [results_setResults]
    split_ifs with hcf
    · refine hgrow k (FMap.has_touch.mpr (Or.inr (FMap.has_touch.mpr (Or.inr ?_))))
      exact hcf ▸ hk
    · exact hk
  · intro cf k hk
    rw [results_setResults]
    split_ifs with hcf
    · subst hcf
      simp only [List.mem_cons, Prod.mk.injEq, true_and, List.not_mem_nil, or_false, not_or] at hk
      rw [hsame k hk.1]
      unfold touched
      rw [FMap.find_touch, if_neg hk.2, FMap.find_touch, if_neg hk.1]
    · exact Eq.refl _

theorem writes_takeBlock (M : Module) (P : Policy V) (usePC : Bool) (e : Engine V) (fr : Frame V)
    (rest : List (Frame V)) (bb : BlockId) (work : WorkList BlockId) :
    Writes [((fr.context, fr.func.id), .block bb), ((fr.context, fr.func.id), .func fr.func.id)] e
      (e.takeBlock M P usePC fr rest bb work) := by
  rcases takeBlock_cases M P usePC e fr rest bb work with
    ⟨-, h⟩ | ⟨b, -, -, -, h⟩ | ⟨b, -, -, h⟩
  · rw [h]
    exact Writes.rfl (Eq.refl _)
  · rw [h]
    exact (writes_touched bb (fun k hk => hk) fun k _ => Eq.refl _).congr (Eq.refl _)
  · rw [h]
    exact (writes_touched bb (fun k hk => FMap.has_set_of_has _ hk)
      fun k hk => FMap.find_set_ne _ _ hk).congr (Eq.refl _)

/-- The results after the end of a block: a return is merged into the summary. -/
def afterBlock (P : Policy V) (fr : Frame V) (run : BlockRun V) (e : Engine V) : Engine V :=
  match run.block.terminator with
  | some ⟨_, _, .ret v⟩ =>
      let results := e.results (fr.context, fr.func.id)
      let summary := results.get (.func fr.func.id)
      let returned := match v with
        | some v => run.state.get v
        | none => default
      e.setResults (fr.context, fr.func.id) (results.set (.func fr.func.id)
        (summary.set (.func fr.func.id) (P.meet [summary.get (.func fr.func.id), returned])))
  | _ => e

/-- The frame after a block whose exit state changed. -/
def requeued (fr : Frame V) (run : BlockRun V) : Frame V :=
  { fr with
    work := (requeue run.block.successors fr.work fr.blackmap).1
    blackmap := (requeue run.block.successors fr.work fr.blackmap).2
    run := none }

theorem endBlock_eq (run : BlockRun V) : e.endBlock P fr rest run =
    if stateEq P run.state run.oldExit then { e with stack := { fr with run := none } :: rest }
    else { afterBlock P fr run e with stack := requeued fr run :: rest } := by
  by_cases h : stateEq P run.state run.oldExit = true
  · rw [if_pos h]
    exact if_pos h
  · rw [if_neg h]
    exact if_neg h

theorem writes_afterBlock (run : BlockRun V) :
    Writes [((fr.context, fr.func.id), .func fr.func.id)] e (afterBlock P fr run e) := by
  unfold afterBlock
  split
  · exact writes_set ..
  · exact Writes.rfl (Eq.refl _)

theorem writes_endBlock (P : Policy V) (e : Engine V) (fr : Frame V) (rest : List (Frame V))
    (run : BlockRun V) :
    Writes [((fr.context, fr.func.id), .func fr.func.id)] e (e.endBlock P fr rest run) := by
  rw [endBlock_eq]
  split_ifs
  · exact Writes.rfl (Eq.refl _)
  · exact (writes_afterBlock run).congr (Eq.refl _)

/-- The keys an entered function gets. -/
def ownKeys (f : Function) : List Value :=
  f.blocks.map (fun b => .block b.id) ++ f.insts.map fun i => .inst i.id

/-- The results of an entered function, before anything is processed. -/
def freshResults (f : Function) (r : DataflowResult V) : DataflowResult V :=
  f.insts.foldl (fun r i => r.touch (.inst i.id))
    (f.blocks.foldl (fun r b => r.touch (.block b.id)) r)

omit [Inhabited V] in
theorem has_freshResults (f : Function) (r : DataflowResult V) (k : Value) :
    (freshResults f r).has k ↔ r.has k ∨ k ∈ ownKeys f := by
  unfold freshResults ownKeys
  rw [FMap.has_foldl (P := fun i : Inst => k = .inst i.id) fun m x => by
      rw [FMap.has_touch, or_comm],
    FMap.has_foldl (P := fun b : Block => k = .block b.id) fun m x => by
      rw [FMap.has_touch, or_comm]]
  simp only [List.mem_append, List.mem_map, or_assoc, eq_comm]

omit [Inhabited V] in
theorem get_freshResults (f : Function) (r : DataflowResult V) (k : Value) :
    (freshResults f r).get k = r.get k := by
  have hfold : ∀ {ι : Type} (g : ι → Value) (l : List ι) (r : DataflowResult V),
      (l.foldl (fun r x => r.touch (g x)) r).get k = r.get k := by
    intro ι g l
    induction l with
    | nil => exact fun _ => Eq.refl _
    | cons x l ih =>
        intro r
        rw [List.foldl_cons, ih, FMap.get_touch]
  unfold freshResults
  rw [hfold (fun i : Inst => .inst i.id), hfold (fun b : Block => .block b.id)]

omit [Inhabited V] in
theorem results_enter (e : Engine V) (f : Function) (c : Context) (cf : Context × FuncId) :
    (e.enter rpot f c).results cf =
      if cf = (c, f.id) ∧ ¬ (e.results cf).has (.func f.id) then freshResults f (e.results cf)
      else e.results cf := by
  have hset : (e.enter rpot f c).results cf = (e.setResults (c, f.id)
      (if (e.results (c, f.id)).has (.func f.id) then e.results (c, f.id)
        else freshResults f (e.results (c, f.id)))).results cf := Eq.refl _
  rw [hset, results_setResults]
  by_cases hcf : cf = (c, f.id)
  · rw [if_pos hcf, hcf]
    by_cases hk : (e.results (c, f.id)).has (.func f.id)
    · rw [if_pos hk, if_neg fun h => h.2 hk]
    · rw [if_neg hk, if_pos ⟨Eq.refl _, hk⟩]
  · rw [if_neg hcf, if_neg fun h => hcf h.1]

omit [Inhabited V] in
theorem get_enter (e : Engine V) (f : Function) (c : Context) (cf : Context × FuncId) (k : Value) :
    ((e.enter rpot f c).results cf).get k = (e.results cf).get k := by
  rw [results_enter]
  split_ifs
  · exact get_freshResults ..
  · exact Eq.refl _

/-! ## Calls -/

/-- What passing the arguments of call `i` to `callee` gives: the state, the summary, and whether
the callee must be analyzed. -/
def passedTo (P : Policy V) (e : Engine V) (run : BlockRun V) (i : Inst) (callee : Function)
    (args : List Value) : AbstractState V × AbstractState V × Bool :=
  passArguments P callee.id (args.take callee.params.length) 0 run.state
    ((e.results (some i.id, callee.id)).get (.func callee.id))
    (((e.results (some i.id, callee.id)).get (.func callee.id)).size == 0)

/-- The engine with the callee's summary updated. -/
def passed (P : Policy V) (e : Engine V) (run : BlockRun V) (i : Inst) (callee : Function)
    (args : List Value) : Engine V :=
  e.setResults (some i.id, callee.id) ((e.results (some i.id, callee.id)).set (.func callee.id)
    (passedTo P e run i callee args).2.1)

/-- An instruction is transferred; or it is an analyzable call, and the callee is entered or its
summary used as it is. -/
theorem stepInst_cases (M : Module) (P : Policy V) (rpot : FuncId → List BlockId) (e : Engine V)
    (fr : Frame V) (rest : List (Frame V)) (run : BlockRun V) (i : Inst) (todo : List Inst) :
    (calledDefinition M i = none ∧ e.stepInst M P rpot fr rest run i todo =
      e.advance fr rest run i todo (applyTransfer P i run.state)) ∨
    (∃ callee args, calledDefinition M i = some (callee, args) ∧
      (some i.id, callee.id) ∉ e.active ∧ (passedTo P e run i callee args).2.2 = true ∧
      e.stepInst M P rpot fr rest run i todo =
        Engine.enter rpot { passed P e run i callee args with
          stack := { fr with
            run := some { run with state := (passedTo P e run i callee args).1 } } :: rest }
          callee (some i.id)) ∨
    (∃ callee args, calledDefinition M i = some (callee, args) ∧
      ((some i.id, callee.id) ∈ e.active ∨ (passedTo P e run i callee args).2.2 = false) ∧
      e.stepInst M P rpot fr rest run i todo =
        (passed P e run i callee args).callDone fr rest run i todo callee.id
          (passedTo P e run i callee args).1) := by
  cases hc : calledDefinition M i with
  | none =>
      refine Or.inl ⟨Eq.refl _, ?_⟩
      unfold stepInst
      rw [hc]
  | some ca =>
      obtain ⟨callee, args⟩ := ca
      by_cases henter : (some i.id, callee.id) ∉ e.active ∧
          (passedTo P e run i callee args).2.2 = true
      · refine Or.inr (Or.inl ⟨callee, args, Eq.refl _, henter.1, henter.2, ?_⟩)
        unfold stepInst
        rw [hc]
        exact if_pos henter
      · refine Or.inr (Or.inr ⟨callee, args, Eq.refl _, ?_, ?_⟩)
        · by_cases hact : (some i.id, callee.id) ∈ e.active
          · exact Or.inl hact
          · refine Or.inr ?_
            rw [← Bool.not_eq_true]
            exact fun h => henter ⟨hact, h⟩
        · unfold stepInst
          rw [hc]
          exact if_neg henter

theorem writes_passed (P : Policy V) (e : Engine V) (run : BlockRun V) (i : Inst)
    (callee : Function) (args : List Value) :
    Writes [((some i.id, callee.id), .func callee.id)] e (passed P e run i callee args) :=
  writes_set ..

theorem has_passed (P : Policy V) (e : Engine V) (run : BlockRun V) (i : Inst)
    (callee : Function) (args : List Value) :
    ((passed P e run i callee args).results (some i.id, callee.id)).has (.func callee.id) := by
  unfold passed
  rw [results_setResults_self]
  exact FMap.has_set_self ..

omit [Inhabited V] in
/-- A callee whose summary is there gets no new keys when it is entered. -/
theorem writes_enter (e : Engine V) {f : Function} {c : Context}
    (h : (e.results (c, f.id)).has (.func f.id)) : Writes [] e (e.enter rpot f c) := by
  have hr : ∀ cf, (e.enter rpot f c).results cf = e.results cf := by
    intro cf
    rw [results_enter, if_neg]
    rintro ⟨rfl, hnot⟩
    exact hnot h
  exact ⟨fun cf k hk => (hr cf).symm ▸ hk, fun cf k _ => by rw [hr cf]⟩

/-- The end of a frame: the analysis of an entry point is over, or the caller goes on. -/
theorem finish_cases (e : Engine V) (fr : Frame V) (rest : List (Frame V)) :
    (rest = [] ∧ (e.finish fr rest).stack = [] ∧ (e.finish fr rest).allResults = e.allResults) ∨
    (∃ caller rest', rest = caller :: rest' ∧
      (∀ run i todo, caller.run = some run → run.todo = i :: todo → e.finish fr rest =
        ({ e with
            active := e.active.filter (· ≠ (fr.context, fr.func.id))
            stack := rest } : Engine V).callDone caller rest' run i todo fr.func.id
              run.state)) := by
  cases rest with
  | nil => exact Or.inl ⟨Eq.refl _, Eq.refl _, Eq.refl _⟩
  | cons caller rest' =>
      refine Or.inr ⟨caller, rest', Eq.refl _, fun run i todo hrun htodo => ?_⟩
      unfold finish
      simp only [hrun, htodo]

end Writes

end Engine

end MSV
