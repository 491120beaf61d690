import MSV.Dataflow.Moves

/-!
# What the engine visits

The analysis starts at an entry function and enters a function at a direct call. An instruction is
a key of some results in the end exactly when it is in the entry function, whose keys are created
at the start, or in a block that can be reached inside a function that is called, by a chain of
direct calls in reachable blocks, from the entry function.

**Theorem (`visited_iff`).** This holds at the end of every run.

The invariant (`Covers`) says of every pair whose summary was created that it is on the stack or
completely processed, and of every running pair that each of its blocks is waiting, running or
processed.
-/

namespace MSV

/-- The blocks that can be reached from the entry block of a function. -/
inductive CFGReachable (f : Function) : BlockId → Prop
  | entry {b : Block} {bs : List Block} (h : f.blocks = b :: bs) : CFGReachable f b.id
  | succ {b : Block} {s : BlockId} (h : CFGReachable f b.id) (hb : b ∈ f.blocks)
      (hs : s ∈ b.successors) : CFGReachable f s

/-- `ReversePostOrderTraversal` lists the blocks that can be reached. -/
def ReversePostOrder (M : Module) (rpot : FuncId → List BlockId) : Prop :=
  ∀ f ∈ M.funcs, ∀ b, b ∈ rpot f.id ↔ CFGReachable f b

/-- The functions called, by direct calls in reachable blocks, from the entry function. -/
inductive Called (M : Module) (entry : Function) : Function → Prop
  | entry : Called M entry entry
  | call {f g : Function} {b : Block} {i : Inst} {args : List Value} (hf : Called M entry f)
      (hb : b ∈ f.blocks) (hr : CFGReachable f b.id) (hi : i ∈ b.insts)
      (hc : calledDefinition M i = some (g, args)) : Called M entry g

/-- Instruction `j` of function `f` gets a state. -/
def Visited (M : Module) (entry f : Function) (j : InstId) : Prop :=
  (f = entry ∧ ∃ i ∈ f.insts, i.id = j) ∨
    Called M entry f ∧ ∃ b ∈ f.blocks, CFGReachable f b.id ∧ ∃ i ∈ b.insts, i.id = j

/-- The (context, function) pair of a frame. -/
def Frame.pair {V : Type} (fr : Frame V) : Context × FuncId := (fr.context, fr.func.id)

namespace Engine

section Invariant

variable {V : Type} {M : Module} {rpot : FuncId → List BlockId} {entry : Function}

/-- The instruction has a state, and the function it calls has a summary. -/
structure InstDone (M : Module) (e : Engine V) (c : Context) (f : Function) (i : Inst) : Prop where
  key : (e.results (c, f.id)).has (.inst i.id)
  callee : ∀ g args, calledDefinition M i = some (g, args) →
    (e.results (some i.id, g.id)).has (.func g.id)

def BlockDone (M : Module) (e : Engine V) (c : Context) (f : Function) (b : BlockId) : Prop :=
  ∀ blk, f.block? b = some blk → ∀ i ∈ blk.insts, InstDone M e c f i

/-- The pair is completely processed. -/
def Done (M : Module) (rpot : FuncId → List BlockId) (e : Engine V) (c : Context) (f : Function) :
    Prop :=
  ∀ b ∈ rpot f.id, BlockDone M e c f b

/-- The pair is being analyzed. -/
def OnStack (s : List (Frame V)) (c : Context) (f : Function) : Prop :=
  ∃ fr ∈ s, fr.context = c ∧ fr.func = f

/-- A block of the pair is being processed. -/
def Running (s : List (Frame V)) (c : Context) (f : Function) (b : BlockId) : Prop :=
  ∃ fr ∈ s, fr.context = c ∧ fr.func = f ∧ ∃ run, fr.run = some run ∧ run.block.id = b

/-- A frame with another one above it waits at the call that entered that one. -/
def Waiting (M : Module) : List (Frame V) → Prop
  | fr :: caller :: rest =>
      (∃ run i todo args, caller.run = some run ∧ run.todo = i :: todo ∧
        calledDefinition M i = some (fr.func, args) ∧ fr.context = some i.id) ∧
      Waiting M (caller :: rest)
  | _ => True

/-- The invariant of one frame. -/
structure FrameOK (M : Module) (entry : Function) (rpot : FuncId → List BlockId) (e : Engine V)
    (fr : Frame V) : Prop where
  called : Called M entry fr.func
  work : ∀ b ∈ fr.work.work, CFGReachable fr.func b
  run : ∀ run, fr.run = some run → run.block ∈ fr.func.blocks ∧ CFGReachable fr.func run.block.id ∧
    ∃ done, run.block.insts = done ++ run.todo ∧ ∀ i ∈ done, InstDone M e fr.context fr.func i
  pending : ∀ b ∈ rpot fr.func.id, b ∈ fr.work.work ∨ BlockDone M e fr.context fr.func b ∨
    ∃ run, fr.run = some run ∧ run.block.id = b

/-- The invariant of the engine, once the entry function has been entered. -/
structure Covers (M : Module) (entry : Function) (rpot : FuncId → List BlockId) (e : Engine V) :
    Prop where
  contexts : e.contextWork.work = []
  active : ∀ cf, cf ∈ e.active ↔ ∃ fr ∈ e.stack, fr.pair = cf
  distinct : (e.stack.map Frame.pair).Nodup
  waiting : Waiting M e.stack
  frames : ∀ fr ∈ e.stack, FrameOK M entry rpot e fr
  /-- A pair with a summary is running or processed. -/
  settled : ∀ f ∈ M.funcs, ∀ c, (e.results (c, f.id)).has (.func f.id) →
    OnStack e.stack c f ∨ Done M rpot e c f
  /-- A block with an entry state is running or processed. -/
  started : ∀ f ∈ M.funcs, ∀ c b, ((e.results (c, f.id)).get (.block b)).isEmpty = false →
    Running e.stack c f b ∨ BlockDone M e c f b
  keys : ∀ cf j, (e.results cf).has (.inst j) → ∃ f ∈ M.funcs, f.id = cf.2 ∧ Visited M entry f j
  entryDone : OnStack e.stack none entry ∨ Done M rpot e none entry
  entryKeys : ∀ i ∈ entry.insts, (e.results (none, entry.id)).has (.inst i.id)

/-- What a step enters in the results at `places` is on the stack or processed after it, and belongs
to a function that is visited. -/
structure Accounted (M : Module) (entry : Function) (rpot : FuncId → List BlockId)
    (places : List Place) (e : Engine V) : Prop where
  func : ∀ f ∈ M.funcs, ∀ c, ((c, f.id), .func f.id) ∈ places →
    OnStack e.stack c f ∨ Done M rpot e c f
  block : ∀ f ∈ M.funcs, ∀ c b, ((c, f.id), .block b) ∈ places →
    ((e.results (c, f.id)).get (.block b)).isEmpty = false →
    Running e.stack c f b ∨ BlockDone M e c f b
  inst : ∀ cf j, (cf, .inst j) ∈ places → ∃ f ∈ M.funcs, f.id = cf.2 ∧ Visited M entry f j

theorem Accounted.nil {M : Module} {entry : Function} {rpot : FuncId → List BlockId}
    {e : Engine V} : Accounted M entry rpot [] e :=
  ⟨by simp, by simp, by simp⟩

/-! ## States that grow -/

section Grow

variable {e e' : Engine V} {places : List Place} (hW : Writes places e e')

include hW

theorem InstDone.grow {c : Context} {f : Function} {i : Inst} (h : InstDone M e c f i) :
    InstDone M e' c f i :=
  ⟨hW.grows _ _ h.key, fun g args hg => hW.grows _ _ (h.callee g args hg)⟩

theorem BlockDone.grow {c : Context} {f : Function} {b : BlockId} (h : BlockDone M e c f b) :
    BlockDone M e' c f b :=
  fun blk hb i hi => (h blk hb i hi).grow hW

theorem Done.grow {c : Context} {f : Function} (h : Done M rpot e c f) : Done M rpot e' c f :=
  fun b hb => (h b hb).grow hW

theorem FrameOK.grow {fr : Frame V} (h : FrameOK M entry rpot e fr) :
    FrameOK M entry rpot e' fr where
  called := h.called
  work := h.work
  run := by
    intro run hrun
    obtain ⟨hb, hr, done, heq, hdone⟩ := h.run run hrun
    exact ⟨hb, hr, done, heq, fun i hi => (hdone i hi).grow hW⟩
  pending := fun b hb => (h.pending b hb).imp_right (Or.imp_left fun hd => BlockDone.grow hW hd)

/-- A step keeps the invariant when it keeps what is on the stack, up to what is processed. -/
theorem Covers.step (h : Covers M entry rpot e) (hcw : e'.contextWork = e.contextWork)
    (hact : ∀ cf, cf ∈ e'.active ↔ ∃ fr ∈ e'.stack, fr.pair = cf)
    (hdistinct : (e'.stack.map Frame.pair).Nodup)
    (hwait : Waiting M e'.stack) (hframes : ∀ fr ∈ e'.stack, FrameOK M entry rpot e' fr)
    (hon : ∀ c f, OnStack e.stack c f → OnStack e'.stack c f ∨ Done M rpot e' c f)
    (hrun : ∀ c f b, Running e.stack c f b → Running e'.stack c f b ∨ BlockDone M e' c f b)
    (hplaces : Accounted M entry rpot places e') :
    Covers M entry rpot e' where
  contexts := hcw ▸ h.contexts
  active := hact
  distinct := hdistinct
  waiting := hwait
  frames := hframes
  settled := by
    intro f hf c hk
    rcases hW.has hk with hk | hk
    · rcases h.settled f hf c hk with hs | hd
      · exact hon c f hs
      · exact Or.inr (hd.grow hW)
    · exact hplaces.func f hf c hk
  started := by
    intro f hf c b hne
    by_cases hp : ((c, f.id), .block b) ∈ places
    · exact hplaces.block f hf c b hp hne
    · rw [hW.get hp] at hne
      rcases h.started f hf c b hne with hr | hd
      · exact hrun c f b hr
      · exact Or.inr (hd.grow hW)
  keys := by
    intro cf j hk
    rcases hW.has hk with hk | hk
    · exact h.keys cf j hk
    · exact hplaces.inst cf j hk
  entryDone := by
    rcases h.entryDone with hs | hd
    · exact hon none entry hs
    · exact Or.inr (hd.grow hW)
  entryKeys := fun i hi => hW.grows _ _ (h.entryKeys i hi)

end Grow

end Invariant

end Engine

/-! ## Functions and blocks of a well-formed module -/

section WellFormed

variable {M : Module} {entry f g : Function}

theorem calledDefinition_mem {i : Inst} {args : List Value}
    (h : calledDefinition M i = some (g, args)) : g ∈ M.funcs := by
  unfold calledDefinition at h
  split at h
  · split at h
    · rename_i fn hfn
      split_ifs at h
      simp only [Option.some.injEq, Prod.mk.injEq] at h
      rw [← h.1]
      obtain ⟨x, -, hx⟩ := Option.bind_eq_some_iff.mp hfn
      exact List.mem_of_find?_eq_some hx
    · cases h
  · cases h

theorem Called.mem (he : entry ∈ M.funcs) (h : Called M entry f) : f ∈ M.funcs := by
  cases h with
  | entry => exact he
  | call _ _ _ _ hc => exact calledDefinition_mem hc

variable (hM : M.WF)

include hM

theorem Module.WF.func_eq (hf : f ∈ M.funcs) (hg : g ∈ M.funcs) (h : f.id = g.id) : f = g :=
  List.inj_on_of_nodup_map hM.funcs_nodup hf hg h

theorem Module.WF.block_eq (hf : f ∈ M.funcs) {b : Block} (hb : b ∈ f.blocks) {blk : Block}
    (h : f.block? b.id = some blk) : blk = b := by
  have hmem : ∀ x ∈ f.blocks, x ∈ M.blocks := fun x hx => List.mem_flatMap.mpr ⟨f, hf, hx⟩
  refine List.inj_on_of_nodup_map hM.blocks_nodup (hmem blk (List.mem_of_find?_eq_some h))
    (hmem b hb) ?_
  simpa using List.find?_some h

theorem Module.WF.func?_id (hf : f ∈ M.funcs) : M.func? f.id = some f := by
  cases h : M.func? f.id with
  | none =>
      have := List.find?_eq_none.mp h f hf
      simp at this
  | some g => rw [hM.func_eq (List.mem_of_find?_eq_some h) hf (by simpa using List.find?_some h)]

theorem Module.WF.block?_id (hf : f ∈ M.funcs) {b : Block} (hb : b ∈ f.blocks) :
    f.block? b.id = some b := by
  cases h : f.block? b.id with
  | none =>
      have := List.find?_eq_none.mp h b hb
      simp at this
  | some blk => rw [hM.block_eq hf hb h]

variable {c c' : Context} {bb x : BlockId}

/-- Of the places that are written when a block is taken, one is a summary. -/
theorem Module.WF.func_of_taken (hf : f ∈ M.funcs) (hg : g ∈ M.funcs)
    (h : ((c, f.id), Value.func f.id) ∈ [((c', g.id), .block bb), ((c', g.id), .func g.id)]) :
    c' = c ∧ g = f := by
  simp only [List.mem_cons, Prod.mk.injEq, reduceCtorEq, and_false, List.not_mem_nil, or_false,
    false_or] at h
  exact ⟨h.1.1.symm, (hM.func_eq hf hg h.1.2).symm⟩

/-- The other one is the entry of the block. -/
theorem Module.WF.block_of_taken (hf : f ∈ M.funcs) (hg : g ∈ M.funcs)
    (h : ((c, f.id), Value.block x) ∈ [((c', g.id), .block bb), ((c', g.id), .func g.id)]) :
    c' = c ∧ g = f ∧ bb = x := by
  simp only [List.mem_cons, Prod.mk.injEq, Value.block.injEq, reduceCtorEq, and_false,
    List.not_mem_nil, or_false] at h
  exact ⟨h.1.1.symm, (hM.func_eq hf hg h.1.2).symm, h.2.symm⟩

end WellFormed

/-! ## Requeueing -/

theorem mem_requeue {ss : List BlockId} {w : WorkList BlockId} {m : FMap BlockId Nat} {x : BlockId}
    (h : x ∈ (requeue ss w m).1.work) : x ∈ w.work ∨ x ∈ ss := by
  induction ss generalizing w m with
  | nil => exact Or.inl h
  | cons s ss ih =>
      unfold requeue at h
      split_ifs at h
      · exact Or.inl h
      · rcases ih h with h | h
        · rcases w.mem_add s x h with h | rfl
          · exact Or.inl h
          · exact Or.inr List.mem_cons_self
        · exact Or.inr (List.mem_cons_of_mem _ h)

theorem subset_requeue (ss : List BlockId) (w : WorkList BlockId) (m : FMap BlockId Nat) :
    w.work ⊆ (requeue ss w m).1.work := by
  induction ss generalizing w m with
  | nil => exact List.Subset.refl _
  | cons s ss ih =>
      unfold requeue
      split_ifs
      · exact List.Subset.refl _
      · exact List.Subset.trans (w.subset_add s) (ih _ _)

/-! ## The moves keep the invariant -/

namespace Engine

section Moves

variable {V : Type} [Inhabited V] {M : Module} {P : Policy V} {usePC : Bool}
  {rpot : FuncId → List BlockId} {entry : Function} {e : Engine V} {fr fr' : Frame V}
  {rest : List (Frame V)}

omit [Inhabited V] in
/-- The top frame is replaced by one of the same pair. -/
theorem onStack_cons (fr : Frame V) {c : Context} {f : Function} (hc : fr'.context = fr.context)
    (hf : fr'.func = fr.func) (h : OnStack (fr :: rest) c f) : OnStack (fr' :: rest) c f := by
  obtain ⟨x, hx, h1, h2⟩ := h
  rcases List.mem_cons.mp hx with rfl | hx
  · exact ⟨fr', by simp, hc.trans h1, hf.trans h2⟩
  · exact ⟨x, by simp [hx], h1, h2⟩

omit [Inhabited V] in
theorem pair_eq (hc : fr'.context = fr.context) (hf : fr'.func = fr.func) : fr'.pair = fr.pair := by
  unfold Frame.pair
  rw [hc, hf]

omit [Inhabited V] in
theorem exists_pair_cons (h : fr'.pair = fr.pair) (cf : Context × FuncId) :
    (∃ x ∈ fr :: rest, x.pair = cf) ↔ ∃ x ∈ fr' :: rest, x.pair = cf := by
  simp [h]

omit [Inhabited V] in
/-- The waiting frames do not look at the worklist and the run of the top frame. -/
theorem waiting_cons (fr : Frame V) (hc : fr'.context = fr.context) (hf : fr'.func = fr.func)
    (h : Waiting M (fr :: rest)) : Waiting M (fr' :: rest) := by
  cases rest with
  | nil => trivial
  | cons caller rest =>
      obtain ⟨⟨run, i, todo, args, h1, h2, h3, h4⟩, hw⟩ := h
      exact ⟨⟨run, i, todo, args, h1, h2, hf ▸ h3, hc.trans h4⟩, hw⟩

omit [Inhabited V] in
/-- A step that works on the top frame only. -/
theorem Covers.top {e' : Engine V} {places : List Place} (h : Covers M entry rpot e)
    (hs : e.stack = fr :: rest) (hW : Writes places e e')
    (hcw : e'.contextWork = e.contextWork) (hact : e'.active = e.active)
    (hs' : e'.stack = fr' :: rest) (hc : fr'.context = fr.context) (hf : fr'.func = fr.func)
    (hframe : FrameOK M entry rpot e' fr')
    (hrun : ∀ run, fr.run = some run → (∃ run', fr'.run = some run' ∧ run'.block = run.block) ∨
      BlockDone M e' fr.context fr.func run.block.id)
    (hplaces : Accounted M entry rpot places e') :
    Covers M entry rpot e' := by
  have hpair := pair_eq hc hf
  refine h.step hW hcw ?_ ?_ ?_ ?_ ?_ ?_ hplaces
  · intro cf
    rw [hact, hs', h.active cf, hs]
    exact exists_pair_cons hpair cf
  · have hd := h.distinct
    rw [hs, List.map_cons] at hd
    rw [hs', List.map_cons, hpair]
    exact hd
  · have hw := h.waiting
    rw [hs] at hw
    rw [hs']
    exact waiting_cons fr hc hf hw
  · intro x hx
    rw [hs'] at hx
    rcases List.mem_cons.mp hx with rfl | hx
    · exact hframe
    · exact (h.frames x (by rw [hs]; simp [hx])).grow hW
  · intro c f hon
    rw [hs] at hon
    rw [hs']
    exact Or.inl (onStack_cons fr hc hf hon)
  · rintro c f b ⟨x, hx, h1, h2, run, hr, hb⟩
    rw [hs] at hx
    rw [hs']
    rcases List.mem_cons.mp hx with rfl | hx
    · rcases hrun run hr with ⟨run', hr', hb'⟩ | hd
      · exact Or.inl ⟨fr', by simp, hc.trans h1, hf.trans h2, run', hr', by rw [hb', hb]⟩
      · exact Or.inr (by rw [← h1, ← h2, ← hb]; exact hd)
    · exact Or.inl ⟨x, by simp [hx], h1, h2, run, hr, hb⟩

omit [Inhabited V] in
/-- The frame of a block that only got a new state. -/
theorem FrameOK.setState (h : FrameOK M entry rpot e fr) {run : BlockRun V}
    (hr : fr.run = some run) (s : AbstractState V) :
    FrameOK M entry rpot e { fr with run := some { run with state := s } } where
  called := h.called
  work := h.work
  run := by
    intro run' hr'
    obtain rfl := Option.some.inj hr'
    exact h.run run hr
  pending := by
    intro b hb
    rcases h.pending b hb with hw | hd | ⟨run', hr', hid⟩
    · exact Or.inl hw
    · exact Or.inr (Or.inl hd)
    · obtain rfl := Option.some.inj (hr.symm.trans hr')
      exact Or.inr (Or.inr ⟨_, Eq.refl _, hid⟩)

omit [Inhabited V] in
/-- A step that puts a new frame on the stack; the one below waits at its call. -/
theorem Covers.push {e' : Engine V} {places : List Place} {new : Frame V} {run : BlockRun V}
    {s : AbstractState V} {i : Inst} {todo : List Inst} {args : List Value}
    (h : Covers M entry rpot e) (hs : e.stack = fr :: rest) (hW : Writes places e e')
    (hcw : e'.contextWork = e.contextWork) (hact : e'.active = new.pair :: e.active)
    (hs' : e'.stack = new :: { fr with run := some { run with state := s } } :: rest)
    (hr : fr.run = some run) (ht : run.todo = i :: todo)
    (hc : calledDefinition M i = some (new.func, args)) (hcontext : new.context = some i.id)
    (hnew : new.pair ∉ e.active) (hframe : FrameOK M entry rpot e' new)
    (hplaces : Accounted M entry rpot places e') :
    Covers M entry rpot e' := by
  have hactive : ∀ cf, cf ∈ e.active ↔ ∃ x ∈ fr :: rest, x.pair = cf := hs ▸ h.active
  refine h.step hW hcw ?_ ?_ ?_ ?_ ?_ ?_ hplaces
  · intro cf
    rw [hact, hs', List.mem_cons, hactive]
    simp only [List.exists_mem_cons_iff]
    exact or_congr eq_comm Iff.rfl
  · have hd := h.distinct
    rw [hs, List.map_cons] at hd
    rw [hs', List.map_cons, List.map_cons, List.nodup_cons]
    refine ⟨fun hin => hnew ((hactive _).mpr ?_), hd⟩
    rcases List.mem_cons.mp hin with hin | hin
    · exact ⟨fr, List.mem_cons_self, hin.symm⟩
    · obtain ⟨x, hx, hp⟩ := List.mem_map.mp hin
      exact ⟨x, List.mem_cons_of_mem _ hx, hp⟩
  · have hwait := h.waiting
    rw [hs] at hwait
    rw [hs']
    exact ⟨⟨_, i, todo, args, Eq.refl _, ht, hc, hcontext⟩,
      waiting_cons fr (Eq.refl _) (Eq.refl _) hwait⟩
  · intro x hx
    rw [hs'] at hx
    rcases List.mem_cons.mp hx with rfl | hx
    · exact hframe
    · rcases List.mem_cons.mp hx with rfl | hx
      · exact ((h.frames fr (by rw [hs]; simp)).grow hW).setState hr s
      · exact (h.frames x (by rw [hs]; simp [hx])).grow hW
  · intro c f hon
    rw [hs] at hon
    rw [hs']
    have hon' : OnStack ({ fr with run := some { run with state := s } } :: rest) c f :=
      onStack_cons fr (Eq.refl _) (Eq.refl _) hon
    obtain ⟨x, hx, h1, h2⟩ := hon'
    exact Or.inl ⟨x, List.mem_cons_of_mem _ hx, h1, h2⟩
  · rintro c f b ⟨x, hx, h1, h2, run', hr', hid⟩
    rw [hs] at hx
    rw [hs']
    rcases List.mem_cons.mp hx with rfl | hx
    · obtain rfl := Option.some.inj (hr.symm.trans hr')
      exact Or.inl ⟨_, List.mem_cons_of_mem _ List.mem_cons_self, h1, h2, _, Eq.refl _, hid⟩
    · exact Or.inl ⟨x, List.mem_cons_of_mem _ (List.mem_cons_of_mem _ hx), h1, h2, run', hr', hid⟩

variable (hM : M.WF) (he : entry ∈ M.funcs)

include hM he

omit [Inhabited V] hM he in
/-- Two frames of one pair are one. -/
theorem Covers.not_running (h : Covers M entry rpot e) (hs : e.stack = fr :: rest)
    (hr : fr.run = none) {b : BlockId} : ¬ Running e.stack fr.context fr.func b := by
  rintro ⟨x, hx, h1, h2, run, hrun, -⟩
  have : x = fr := List.inj_on_of_nodup_map h.distinct hx (by simp [hs]) (pair_eq h1 h2)
  rw [this, hr] at hrun
  cases hrun

omit [Inhabited V] hM he in
theorem isEmpty_of_stateEq {s t : AbstractState V} (h : stateEq P s t = true)
    (hs : s.isEmpty = false) : t.isEmpty = false := by
  have hsize : s.size = t.size := by
    simp only [stateEq, Bool.and_eq_true, beq_iff_eq] at h
    exact h.1
  unfold FMap.size at hsize
  unfold FMap.isEmpty at hs ⊢
  rw [List.isEmpty_eq_false_iff] at hs ⊢
  intro ht
  rw [ht, List.length_nil, List.length_eq_zero_iff] at hsize
  exact hs hsize

omit [Inhabited V] hM he in
theorem get_touched (bb : BlockId) (k : Value) :
    (touched e fr bb).get k = (e.results (fr.context, fr.func.id)).get k := by
  unfold touched
  rw [FMap.get_touch, FMap.get_touch]

theorem Covers.takeBlock (h : Covers M entry rpot e) (hs : e.stack = fr :: rest)
    (hr : fr.run = none) {bb : BlockId} {work : WorkList BlockId}
    (hw : fr.work.take = some (bb, work)) :
    Covers M entry rpot (e.takeBlock M P usePC fr rest bb work) := by
  have hfr := h.frames fr (by rw [hs]; simp)
  obtain ⟨hwork, -⟩ := WorkList.take_eq_some hw
  have hbb : CFGReachable fr.func bb := hfr.work bb (by rw [hwork]; simp)
  have hrest : ∀ b ∈ work.work, CFGReachable fr.func b :=
    fun b hb => hfr.work b (by rw [hwork]; simp [hb])
  have hW := writes_takeBlock M P usePC e fr rest bb work
  have hnorun : ∀ run, fr.run ≠ some run := by simp [hr]
  -- the blocks other than the one taken are where they were
  have hother : ∀ (e' : Engine V) {l : List Place}, Writes l e e' → ∀ b ∈ rpot fr.func.id, b ≠ bb →
      b ∈ work.work ∨ BlockDone M e' fr.context fr.func b := by
    intro e' l hW b hb hne
    rcases hfr.pending b hb with hp | hp | ⟨run, hrun, -⟩
    · rw [hwork] at hp
      exact Or.inl ((List.mem_cons.mp hp).resolve_left hne)
    · exact Or.inr (BlockDone.grow hW hp)
    · exact absurd hrun (hnorun run)
  rcases takeBlock_cases M P usePC e fr rest bb work with
    ⟨hb, heq⟩ | ⟨b, hb, hsame, hne, heq⟩ | ⟨b, hb, -, heq⟩
  · rw [heq]
    refine h.top hs (Writes.rfl (l := []) (Eq.refl _)) (Eq.refl _) (Eq.refl _) (Eq.refl _)
      (Eq.refl _) (Eq.refl _) ?_ ?_ .nil
    · refine ⟨hfr.called, hrest, fun run hrun => absurd hrun (hnorun run), fun x hx => ?_⟩
      by_cases hxb : x = bb
      · refine Or.inr (Or.inl fun blk hblk => ?_)
        rw [hxb] at hblk
        cases hb.symm.trans hblk
      · exact (hother { e with stack := { fr with work := work } :: rest }
          (Writes.rfl (l := []) (Eq.refl _)) x hx hxb).imp_right Or.inl
    · exact fun run hrun => absurd hrun (hnorun run)
  · -- the entry state has not changed, so the block was processed before
    have hprocessed : BlockDone M e fr.context fr.func bb := by
      have hstarted := isEmpty_of_stateEq hsame hne
      rw [get_touched] at hstarted
      exact (h.started fr.func (hfr.called.mem he) fr.context bb hstarted).resolve_left
        (h.not_running hs hr)
    rw [heq] at hW ⊢
    refine h.top hs hW (Eq.refl _) (Eq.refl _) (Eq.refl _) (Eq.refl _) (Eq.refl _) ?_ ?_
      ⟨?_, ?_, ?_⟩
    · refine ⟨hfr.called, hrest, fun run hrun => absurd hrun (hnorun run), fun x hx => ?_⟩
      by_cases hxb : x = bb
      · exact Or.inr (Or.inl (hxb ▸ BlockDone.grow hW hprocessed))
      · exact (hother _ hW x hx hxb).imp_right Or.inl
    · exact fun run hrun => absurd hrun (hnorun run)
    · intro f hf c hp
      obtain ⟨rfl, rfl⟩ := hM.func_of_taken hf (hfr.called.mem he) hp
      exact Or.inl ⟨_, List.mem_cons_self, Eq.refl _, Eq.refl _⟩
    · intro f hf c x hp _
      obtain ⟨rfl, rfl, rfl⟩ := hM.block_of_taken hf (hfr.called.mem he) hp
      exact Or.inr (BlockDone.grow hW hprocessed)
    · simp
  · have hmem := List.mem_of_find?_eq_some hb
    have hid : b.id = bb := by simpa using List.find?_some hb
    rw [heq] at hW ⊢
    refine h.top hs hW (Eq.refl _) (Eq.refl _) (Eq.refl _) (Eq.refl _) (Eq.refl _) ?_ ?_
      ⟨?_, ?_, ?_⟩
    · refine ⟨hfr.called, hrest, ?_, fun x hx => ?_⟩
      · intro run hrun
        obtain rfl := Option.some.inj hrun
        exact ⟨hmem, hid ▸ hbb, [], Eq.refl _, by simp⟩
      · by_cases hxb : x = bb
        · exact Or.inr (Or.inr ⟨_, Eq.refl _, hid.trans hxb.symm⟩)
        · exact (hother _ hW x hx hxb).imp_right Or.inl
    · exact fun run hrun => absurd hrun (hnorun run)
    · intro f hf c hp
      obtain ⟨rfl, rfl⟩ := hM.func_of_taken hf (hfr.called.mem he) hp
      exact Or.inl ⟨_, List.mem_cons_self, Eq.refl _, Eq.refl _⟩
    · intro f hf c x hp _
      obtain ⟨rfl, rfl, rfl⟩ := hM.block_of_taken hf (hfr.called.mem he) hp
      exact Or.inl ⟨_, List.mem_cons_self, Eq.refl _, Eq.refl _, _, Eq.refl _, hid⟩
    · simp

theorem Covers.endBlock (h : Covers M entry rpot e) (hs : e.stack = fr :: rest)
    {run : BlockRun V} (hr : fr.run = some run) (ht : run.todo = []) :
    Covers M entry rpot (e.endBlock P fr rest run) := by
  have hfr := h.frames fr (by rw [hs]; simp)
  have hmem := hfr.called.mem he
  have hW := writes_endBlock P e fr rest run
  obtain ⟨hb, hreach, done, hdone, hinsts⟩ := hfr.run run hr
  rw [ht, List.append_nil] at hdone
  have hblock : BlockDone M (e.endBlock P fr rest run) fr.context fr.func run.block.id := by
    intro blk hblk i hi
    rw [hM.block_eq hmem hb hblk, hdone] at hi
    exact (hinsts i hi).grow hW
  have hpending : ∀ b ∈ rpot fr.func.id, b ∈ fr.work.work ∨
      BlockDone M (e.endBlock P fr rest run) fr.context fr.func b := by
    intro b hb'
    rcases hfr.pending b hb' with hp | hp | ⟨run', hr', hid⟩
    · exact Or.inl hp
    · exact Or.inr (BlockDone.grow hW hp)
    · obtain rfl := Option.some.inj (hr.symm.trans hr')
      exact Or.inr (hid ▸ hblock)
  have hstay : ∀ fr' : Frame V, (e.endBlock P fr rest run).stack = fr' :: rest →
      (e.endBlock P fr rest run).contextWork = e.contextWork →
      (e.endBlock P fr rest run).active = e.active →
      fr'.context = fr.context → fr'.func = fr.func →
      FrameOK M entry rpot (e.endBlock P fr rest run) fr' →
      Covers M entry rpot (e.endBlock P fr rest run) := by
    intro fr' hs' hcw hact hc hf hframe
    refine h.top hs hW hcw hact hs' hc hf hframe ?_ ⟨?_, ?_, ?_⟩
    · intro run' hr'
      obtain rfl := Option.some.inj (hr.symm.trans hr')
      exact Or.inr hblock
    · intro f hf' c hp
      simp only [List.mem_singleton, Prod.mk.injEq] at hp
      rw [hs']
      exact Or.inl ⟨fr', List.mem_cons_self, hc.trans hp.1.1.symm,
        hf.trans (hM.func_eq hf' hmem hp.1.2).symm⟩
    · simp
    · simp
  rw [endBlock_eq] at hstay hpending ⊢
  split_ifs at hstay hpending ⊢
  · refine hstay _ (Eq.refl _) (Eq.refl _) (Eq.refl _) (Eq.refl _) (Eq.refl _) ?_
    refine ⟨hfr.called, hfr.work, fun run' hrun' => (by cases hrun'), fun b hb' => ?_⟩
    exact (hpending b hb').imp_right Or.inl
  · have hafter : (afterBlock P fr run e).contextWork = e.contextWork ∧
        (afterBlock P fr run e).active = e.active := by
      unfold afterBlock
      split <;> exact ⟨Eq.refl _, Eq.refl _⟩
    refine hstay (requeued fr run) (Eq.refl _) hafter.1 hafter.2 (Eq.refl _) (Eq.refl _) ?_
    refine ⟨hfr.called, fun b hb' => ?_, fun run' hrun' => (by cases hrun'), fun b hb' => ?_⟩
    · rcases mem_requeue hb' with hw | hsucc
      · exact hfr.work b hw
      · exact hreach.succ hb hsucc
    · rcases hpending b hb' with hw | hd
      · exact Or.inl (subset_requeue _ _ _ hw)
      · exact Or.inr (Or.inl hd)

omit [Inhabited V] hM he in
/-- The frame that waited or worked at instruction `i` goes on behind it. -/
theorem FrameOK.advance {e' : Engine V} {places : List Place} (h : FrameOK M entry rpot e fr)
    (hW : Writes places e e') {run : BlockRun V} (hr : fr.run = some run) {i : Inst}
    {todo : List Inst} (ht : run.todo = i :: todo) (hi : InstDone M e' fr.context fr.func i)
    (s : AbstractState V) :
    FrameOK M entry rpot e' { fr with run := some { run with state := s, todo := todo } } := by
  obtain ⟨hb, hreach, done, hdone, hinsts⟩ := h.run run hr
  refine ⟨h.called, h.work, ?_, fun b hb' => ?_⟩
  · intro run' hr'
    obtain rfl := Option.some.inj hr'
    refine ⟨hb, hreach, done ++ [i], by rw [hdone, ht]; simp, fun x hx => ?_⟩
    rcases List.mem_append.mp hx with hx | hx
    · exact (hinsts x hx).grow hW
    · rw [List.mem_singleton.mp hx]
      exact hi
  · rcases h.pending b hb' with hp | hp | ⟨run', hr', hid⟩
    · exact Or.inl hp
    · exact Or.inr (Or.inl (BlockDone.grow hW hp))
    · obtain rfl := Option.some.inj (hr.symm.trans hr')
      exact Or.inr (Or.inr ⟨_, Eq.refl _, hid⟩)

omit [Inhabited V] hM he in
/-- The instruction a frame is at is one that is visited. -/
theorem FrameOK.visited (h : FrameOK M entry rpot e fr) {run : BlockRun V}
    (hr : fr.run = some run) {i : Inst} {todo : List Inst} (ht : run.todo = i :: todo) :
    Visited M entry fr.func i.id := by
  obtain ⟨hb, hreach, done, hdone, -⟩ := h.run run hr
  exact Or.inr ⟨h.called, run.block, hb, hreach, i, by rw [hdone, ht]; simp, Eq.refl _⟩

omit hM he in
/-- Passing arguments never takes back that the callee must be analyzed. -/
theorem passArguments_updated (f : FuncId) (vs : List Value) (n : Nat) (s t : AbstractState V) :
    (passArguments P f vs n s t true).2.2 = true := by
  induction vs generalizing n s t with
  | nil => exact Eq.refl _
  | cons v vs ih =>
      show (passArguments P f vs (n + 1) _ _ (true || _)).2.2 = true
      rw [Bool.true_or]
      exact ih ..

omit hM he in
/-- A callee whose analysis is not needed has a summary already. -/
theorem has_summary {run : BlockRun V} {i : Inst} {callee : Function} {args : List Value}
    (h : (passedTo P e run i callee args).2.2 = false) :
    (e.results (some i.id, callee.id)).has (.func callee.id) := by
  by_contra hnot
  rw [FMap.not_has_iff_find] at hnot
  have hget : (e.results (some i.id, callee.id)).get (.func callee.id) = ∅ := by
    unfold FMap.get
    rw [hnot]
    exact Eq.refl _
  unfold passedTo at h
  rw [hget] at h
  rw [show (FMap.size (∅ : AbstractState V) == 0) = true from Eq.refl _,
    passArguments_updated] at h
  cases h

omit hM he in
theorem instDone_callDone {run : BlockRun V} {i : Inst} {todo : List Inst} {callee : Function}
    {args : List Value} (hc : calledDefinition M i = some (callee, args)) (s : AbstractState V) :
    InstDone M (e.callDone fr rest run i todo callee.id s) fr.context fr.func i := by
  obtain ⟨hfunc, hinst⟩ := has_callDone e fr rest run i todo callee.id s
  refine ⟨hinst, fun g args' hg => ?_⟩
  obtain ⟨rfl, -⟩ := Prod.mk.inj (Option.some.inj (hc.symm.trans hg))
  exact hfunc

theorem Covers.stepInst (hrpo : ReversePostOrder M rpot) (h : Covers M entry rpot e)
    (hs : e.stack = fr :: rest) {run : BlockRun V} (hr : fr.run = some run) {i : Inst}
    {todo : List Inst} (ht : run.todo = i :: todo) :
    Covers M entry rpot (e.stepInst M P rpot fr rest run i todo) := by
  have hfr := h.frames fr (by rw [hs]; simp)
  have hmem := hfr.called.mem he
  have hvisited := hfr.visited hr ht
  have hrun : ∀ (s : AbstractState V) (e' : Engine V) (run' : BlockRun V), fr.run = some run' →
      (∃ run'', some { run with state := s, todo := todo } = some run'' ∧
        run''.block = run'.block) ∨ BlockDone M e' fr.context fr.func run'.block.id := by
    intro s e' run' hr'
    obtain rfl := Option.some.inj (hr.symm.trans hr')
    exact Or.inl ⟨_, Eq.refl _, Eq.refl _⟩
  rcases stepInst_cases M P rpot e fr rest run i todo with
    ⟨hc, heq⟩ | ⟨callee, args, hc, hact, hupd, heq⟩ | ⟨callee, args, hc, hact, heq⟩
  · have hW := writes_advance e fr rest run i todo (applyTransfer P i run.state)
    rw [heq]
    refine h.top hs hW (Eq.refl _) (Eq.refl _) (Eq.refl _) (Eq.refl _) (Eq.refl _) ?_ (hrun _ _)
      ⟨?_, ?_, ?_⟩
    · refine hfr.advance hW hr ht ⟨has_advance .., fun g args hg => ?_⟩ _
      rw [hc] at hg
      cases hg
    · simp
    · simp
    · intro cf j hp
      simp only [List.mem_singleton, Prod.mk.injEq, Value.inst.injEq] at hp
      obtain ⟨rfl, rfl⟩ := hp
      exact ⟨fr.func, hmem, Eq.refl _, hvisited⟩
  · -- the callee is entered: a new frame on the stack
    have hcallee := calledDefinition_mem hc
    obtain ⟨hb, hreach, done, hdone, -⟩ := hfr.run run hr
    have hcalled : Called M entry callee :=
      hfr.called.call hb hreach (by rw [hdone, ht]; simp : i ∈ run.block.insts) hc
    rw [heq]
    generalize hw : (passedTo P e run i callee args).1 = s at heq ⊢
    have hW : Writes [((some i.id, callee.id), .func callee.id)] e
        (Engine.enter rpot { passed P e run i callee args with
          stack := { fr with run := some { run with state := s } } :: rest } callee
          (some i.id)) := by
      have hpass : Writes [((some i.id, callee.id), .func callee.id)] e
          { passed P e run i callee args with
            stack := { fr with run := some { run with state := s } } :: rest } :=
        (writes_passed P e run i callee args).congr (Eq.refl _)
      exact hpass.trans (writes_enter _ (has_passed P e run i callee args))
    refine h.push hs hW (Eq.refl _) (Eq.refl _) (Eq.refl _) hr ht hc (Eq.refl _) hact ?_
      ⟨?_, ?_, ?_⟩
    · exact ⟨hcalled, fun b hb' => (hrpo callee hcallee b).mp hb',
        fun run' hrun' => (by cases hrun'), fun b hb' => Or.inl hb'⟩
    · intro f hf c hp
      simp only [List.mem_singleton, Prod.mk.injEq] at hp
      exact Or.inl ⟨_, List.mem_cons_self, hp.1.1.symm, (hM.func_eq hf hcallee hp.1.2).symm⟩
    · simp
    · simp
  · have hcallee := calledDefinition_mem hc
    have hW := (writes_passed P e run i callee args).trans
      (writes_callDone (passed P e run i callee args) fr rest run i todo callee.id
        (passedTo P e run i callee args).1)
    rw [heq]
    refine h.top hs hW (Eq.refl _) (Eq.refl _) (Eq.refl _) (Eq.refl _) (Eq.refl _) ?_ (hrun _ _)
      ⟨?_, ?_, ?_⟩
    · exact hfr.advance hW hr ht (instDone_callDone hc _) _
    · intro f hf c hp
      simp only [List.cons_append, List.nil_append, List.mem_cons, Prod.mk.injEq, reduceCtorEq,
        and_false, List.not_mem_nil, or_false, or_self] at hp
      obtain ⟨⟨rfl, hid⟩, -⟩ := hp
      obtain rfl := hM.func_eq hf hcallee hid
      have hold : OnStack e.stack (some i.id) f ∨ Done M rpot e (some i.id) f := by
        rcases hact with hact | hupd
        · obtain ⟨x, hx, hp⟩ := (h.active _).mp hact
          obtain ⟨h1, h2⟩ := Prod.mk.inj hp
          have hx' := (h.frames x hx).called.mem he
          exact Or.inl ⟨x, hx, h1, hM.func_eq hx' hf h2⟩
        · exact h.settled f hf _ (has_summary hupd)
      rcases hold with hon | hd
      · rw [hs] at hon
        exact Or.inl (onStack_cons fr (Eq.refl _) (Eq.refl _) hon)
      · exact Or.inr (hd.grow hW)
    · simp
    · intro cf j hp
      simp only [List.cons_append, List.nil_append, List.mem_cons, Prod.mk.injEq, reduceCtorEq,
        and_false, Value.inst.injEq, List.not_mem_nil, or_false, false_or] at hp
      obtain ⟨rfl, rfl⟩ := hp
      exact ⟨fr.func, hmem, Eq.refl _, hvisited⟩

omit [Inhabited V] hM he in
/-- A frame whose worklist is empty has processed everything. -/
theorem FrameOK.done (h : FrameOK M entry rpot e fr) (hr : fr.run = none)
    (hw : fr.work.work = []) : Done M rpot e fr.context fr.func := by
  intro b hb
  rcases h.pending b hb with hp | hp | ⟨run, hrun, -⟩
  · rw [hw] at hp
    cases hp
  · exact hp
  · rw [hr] at hrun
    cases hrun

omit [Inhabited V] hM he in
/-- The pairs that stay active are those of the frames below. -/
theorem Covers.active_pop (h : Covers M entry rpot e) (hs : e.stack = fr :: rest)
    (cf : Context × FuncId) : cf ∈ e.active.filter (· ≠ (fr.context, fr.func.id)) ↔
      ∃ x ∈ rest, x.pair = cf := by
  have hdistinct := h.distinct
  rw [hs, List.map_cons, List.nodup_cons] at hdistinct
  rw [List.mem_filter, h.active cf, hs]
  simp only [List.exists_mem_cons_iff, ne_eq, decide_not, Bool.not_eq_eq_eq_not, Bool.not_true,
    decide_eq_false_iff_not]
  constructor
  · rintro ⟨hp | hp, hne⟩
    · exact absurd hp.symm hne
    · exact hp
  · rintro ⟨x, hx, rfl⟩
    refine ⟨Or.inr ⟨x, hx, Eq.refl _⟩, fun hp => hdistinct.1 ?_⟩
    rw [show fr.pair = x.pair from hp.symm]
    exact List.mem_map_of_mem hx

theorem Covers.finish (h : Covers M entry rpot e) (hs : e.stack = fr :: rest) (hr : fr.run = none)
    (hw : fr.work.take = none) : Covers M entry rpot (e.finish fr rest) := by
  have hfr := h.frames fr (by rw [hs]; simp)
  have hdone := hfr.done hr (WorkList.take_eq_none hw)
  have hdistinct := h.distinct
  rw [hs, List.map_cons, List.nodup_cons] at hdistinct
  have hactive := h.active_pop hs
  rcases finish_cases e fr rest with ⟨rfl, -, -⟩ | ⟨caller, rest', rfl, hcall⟩
  · have hW : Writes [] e (e.finish fr []) := Writes.rfl (Eq.refl _)
    refine h.step hW (Eq.refl _) hactive (by exact List.nodup_nil) trivial ?_ ?_ ?_ .nil
    · intro x hx
      cases hx
    · rintro c f ⟨x, hx, h1, h2⟩
      rw [hs, List.mem_singleton] at hx
      subst hx h1 h2
      exact Or.inr (hdone.grow hW)
    · rintro c f b ⟨x, hx, -, -, run, hrun, -⟩
      rw [hs, List.mem_singleton] at hx
      rw [hx, hr] at hrun
      cases hrun
  · have hwait := h.waiting
    rw [hs] at hwait
    obtain ⟨⟨run, i, todo, args, hrun, htodo, hc, hctx⟩, hwait⟩ := hwait
    have hcaller := h.frames caller (by rw [hs]; simp)
    have hmem := hcaller.called.mem he
    rw [hcall run i todo hrun htodo]
    have hW := writes_callDone
      { e with
        active := e.active.filter (· ≠ (fr.context, fr.func.id))
        stack := caller :: rest' } caller rest' run i todo fr.func.id run.state
    have hpop : Writes [] e { e with
        active := e.active.filter (· ≠ (fr.context, fr.func.id))
        stack := caller :: rest' } := Writes.rfl (Eq.refl _)
    have hW' := hpop.trans hW
    refine h.step hW' (Eq.refl _) ?_ ?_ ?_ ?_ ?_ ?_ ⟨?_, ?_, ?_⟩
    · intro cf
      refine (hactive cf).trans ?_
      show _ ↔ ∃ x ∈ (_ : Frame V) :: rest', x.pair = cf
      exact exists_pair_cons (by exact Eq.refl caller.pair) cf
    · exact hdistinct.2
    · exact waiting_cons caller (Eq.refl _) (Eq.refl _) hwait
    · intro x hx
      rcases List.mem_cons.mp hx with rfl | hx
      · exact hcaller.advance hW' hrun htodo (instDone_callDone hc _) _
      · exact (h.frames x (by rw [hs]; simp [hx])).grow hW'
    · rintro c f ⟨x, hx, h1, h2⟩
      rw [hs] at hx
      rcases List.mem_cons.mp hx with rfl | hx
      · subst h1 h2
        exact Or.inr (hdone.grow hW')
      · exact Or.inl (onStack_cons caller (Eq.refl _) (Eq.refl _) ⟨x, hx, h1, h2⟩)
    · rintro c f b ⟨x, hx, h1, h2, run', hrun', hid⟩
      rw [hs] at hx
      rcases List.mem_cons.mp hx with rfl | hx
      · rw [hr] at hrun'
        cases hrun'
      · rcases List.mem_cons.mp hx with rfl | hx
        · obtain rfl := Option.some.inj (hrun.symm.trans hrun')
          exact Or.inl ⟨_, List.mem_cons_self, h1, h2, _, Eq.refl _, hid⟩
        · exact Or.inl ⟨x, List.mem_cons_of_mem _ hx, h1, h2, run', hrun', hid⟩
    · intro f hf c hp
      simp only [List.nil_append, List.mem_cons, Prod.mk.injEq, reduceCtorEq, and_false,
        List.not_mem_nil, or_false] at hp
      obtain ⟨⟨rfl, hid⟩, -⟩ := hp
      obtain rfl := hM.func_eq hf (hfr.called.mem he) hid
      rw [← hctx]
      exact Or.inr (hdone.grow hW')
    · simp
    · intro cf j hp
      simp only [List.nil_append, List.mem_cons, Prod.mk.injEq, reduceCtorEq, and_false,
        Value.inst.injEq, List.not_mem_nil, or_false, false_or] at hp
      obtain ⟨rfl, rfl⟩ := hp
      exact ⟨caller.func, hmem, Eq.refl _, hcaller.visited hrun htodo⟩

omit [Inhabited V] hM in
/-- The invariant holds once the entry function has been entered. -/
theorem covers_enter (hrpo : ReversePostOrder M rpot) {e : Engine V}
    (hr : e.allResults = ∅) (ha : e.active = []) (hs : e.stack = [])
    (hw : e.contextWork.work = []) : Covers M entry rpot (Engine.enter rpot e entry none) := by
  have hempty : ∀ cf, e.results cf = ∅ := fun cf => by
    unfold results
    rw [hr]
    exact Eq.refl _
  have hres : ∀ cf, (Engine.enter rpot e entry none).results cf =
      if cf = (none, entry.id) then freshResults entry ∅ else ∅ := by
    intro cf
    rw [results_enter, hempty]
    simp only [FMap.not_has_empty, not_false_eq_true, and_true]
  have hkeys : ∀ cf k, ((Engine.enter rpot e entry none).results cf).has k ↔
      cf = (none, entry.id) ∧ k ∈ ownKeys entry := by
    intro cf k
    rw [hres]
    split_ifs with hcf
    · rw [has_freshResults]
      simp [hcf]
    · simp [hcf]
  have hstack : (Engine.enter rpot e entry none).stack = [⟨none, entry, .ofList (rpot entry.id),
      (rpot entry.id).foldl (fun m b => m.set b 0) ∅, none⟩] := by
    show _ :: e.stack = _
    rw [hs]
  refine ⟨hw, ?_, ?_, ?_, ?_, ?_, ?_, ?_, ?_, ?_⟩
  · intro cf
    show cf ∈ (none, entry.id) :: e.active ↔ _
    rw [ha, hstack]
    simp [Frame.pair, eq_comm]
  · rw [hstack]
    simp
  · rw [hstack]
    trivial
  · intro x hx
    rw [hstack, List.mem_singleton] at hx
    subst hx
    exact ⟨.entry, fun b hb => (hrpo entry he b).mp hb, fun run hrun => (by cases hrun),
      fun b hb => Or.inl hb⟩
  · intro f _ c hk
    have hk' := ((hkeys _ _).mp hk).2
    simp [ownKeys] at hk'
  · intro f _ c b hne
    rw [get_enter, hempty] at hne
    cases hne
  · intro cf j hk
    obtain ⟨rfl, hk'⟩ := (hkeys _ _).mp hk
    refine ⟨entry, he, Eq.refl _, Or.inl ⟨Eq.refl _, ?_⟩⟩
    simpa [ownKeys] using hk'
  · rw [hstack]
    exact Or.inl ⟨_, List.mem_singleton_self _, Eq.refl _, Eq.refl _⟩
  · intro i hi
    refine (hkeys _ _).mpr ⟨Eq.refl _, ?_⟩
    unfold ownKeys
    exact List.mem_append_right _ (List.mem_map_of_mem hi)

/-- **Every step keeps the invariant.** -/
theorem Covers.move (hrpo : ReversePostOrder M rpot) {e' : Engine V} (h : Covers M entry rpot e)
    (hm : Move M P usePC rpot e e') : Covers M entry rpot e' := by
  have hnowork : e.contextWork.take = none := by
    unfold WorkList.take
    rw [h.contexts]
  cases hm with
  | enter _ hw _ => cases hnowork.symm.trans hw
  | drop _ hw _ => cases hnowork.symm.trans hw
  | finish hs hr hw => exact h.finish hM he hs hr hw
  | takeBlock hs hr hw => exact h.takeBlock hM he hs hr hw
  | stepInst hs hr ht => exact h.stepInst hM he hrpo hs hr ht
  | endBlock hs hr ht => exact h.endBlock hM he hs hr ht

/-- The first step of the analysis opens the entry function in the empty context. -/
theorem initial_step {e : Engine V}
    (h : Engine.step M P usePC rpot (Engine.initial [entry.id]) = some e) :
    ∃ a : Engine V, a.allResults = ∅ ∧ a.stack = [] ∧ a.active = [] ∧ a.contextWork.work = [] ∧
      e = Engine.enter rpot a entry none := by
  have hfind := hM.func?_id he
  cases step_move h with
  | @enter c f fn cw hs hw hf =>
      obtain ⟨hwork, -⟩ := WorkList.take_eq_some hw
      obtain ⟨⟨rfl, rfl⟩, hcw⟩ : ((none, entry.id) = (c, f)) ∧ [] = cw.work := by
        simpa [Engine.initial, WorkList.add] using hwork
      obtain rfl := Option.some.inj (hfind.symm.trans hf)
      exact ⟨_, Eq.refl _, Eq.refl _, Eq.refl _, hcw.symm, Eq.refl _⟩
  | @drop c f cw hs hw hf =>
      obtain ⟨hwork, -⟩ := WorkList.take_eq_some hw
      obtain ⟨⟨rfl, rfl⟩, hcw⟩ : ((none, entry.id) = (c, f)) ∧ [] = cw.work := by
        simpa [Engine.initial, WorkList.add] using hwork
      cases hfind.symm.trans hf
  | finish hs _ _ => cases hs
  | takeBlock hs _ _ => cases hs
  | stepInst hs _ _ => cases hs
  | endBlock hs _ _ => cases hs

/-- The invariant holds in every state of a run but the first. -/
theorem covers_run (hrpo : ReversePostOrder M rpot) {e : Engine V}
    (h : Run (Engine.step M P usePC rpot) (fun _ => True) (Engine.initial [entry.id]) e) :
    e = Engine.initial [entry.id] ∨ Covers M entry rpot e := by
  refine h.invariant (P := fun e => e = Engine.initial [entry.id] ∨ Covers M entry rpot e)
    (Or.inl (Eq.refl _)) ?_
  rintro a b (rfl | hcov) - hstep
  · obtain ⟨a, hr, hs, ha, hw, rfl⟩ := initial_step hM he hstep
    exact Or.inr (covers_enter he hrpo hr ha hs hw)
  · exact Or.inr (hcov.move hM he hrpo (step_move hstep))

/-- **What the engine visits.** At the end of a run, an instruction has a state in some context
exactly when it is in the entry function or in a reachable block of a called function. -/
theorem visited_iff (hrpo : ReversePostOrder M rpot) {e : Engine V}
    (h : Run (Engine.step M P usePC rpot) (fun _ => True) (Engine.initial [entry.id]) e)
    (hend : e.step M P usePC rpot = none) (j : InstId) :
    (∃ cf, (e.results cf).has (.inst j)) ↔ ∃ f ∈ M.funcs, Visited M entry f j := by
  obtain ⟨hs, hw⟩ := step_eq_none hend
  have hcov : Covers M entry rpot e := by
    refine (covers_run hM he hrpo h).resolve_left fun hinit => ?_
    rw [hinit] at hw
    cases hw
  -- called functions are completely processed
  have hcalled : ∀ f, Called M entry f → ∃ c, Done M rpot e c f := by
    intro f hf
    induction hf with
    | entry =>
        rcases hcov.entryDone with hon | hd
        · obtain ⟨x, hx, -⟩ := hon
          rw [hs] at hx
          cases hx
        · exact ⟨none, hd⟩
    | @call f g b i args hf hb hr hi hc ih =>
        obtain ⟨c, hd⟩ := ih
        have hmem := hf.mem he
        have hkey := (hd b.id ((hrpo f hmem b.id).mpr hr) b (hM.block?_id hmem hb) i hi).callee g
          args hc
        rcases hcov.settled g (calledDefinition_mem hc) _ hkey with hon | hd'
        · obtain ⟨x, hx, -⟩ := hon
          rw [hs] at hx
          cases hx
        · exact ⟨_, hd'⟩
  constructor
  · rintro ⟨cf, hk⟩
    obtain ⟨f, hf, -, hv⟩ := hcov.keys cf j hk
    exact ⟨f, hf, hv⟩
  · rintro ⟨f, hf, ⟨rfl, i, hi, rfl⟩ | ⟨hfc, b, hb, hr, i, hi, rfl⟩⟩
    · exact ⟨_, hcov.entryKeys i hi⟩
    · obtain ⟨c, hd⟩ := hcalled f hfc
      exact ⟨_, (hd b.id ((hrpo f hf b.id).mpr hr) b (hM.block?_id hf hb) i hi).key⟩

end Moves

end Engine

end MSV
