import MSV.Range.FixpointProof

/-!
# The last visit of a block

The engine visits a block as often as its entry state changes, and each visit writes over what the
one before has recorded. What is recorded when the worklist is empty is followed back here to one
visit of each block: the states before and behind each of its instructions.

**Theorem (`blocks_visited`).** When the worklist of a function is empty, every reachable block has
a visit that begins with its recorded entry state and ends with its recorded exit state, and whose
states have the constants that are recorded in between.

Behind an instruction only the keys that the next one mentions are recorded, and a key that the
state does not have is left as an earlier visit recorded it. It is no constant then: a constant
comes from the entry state or from an instruction, and both give the key to every later visit
(`RecordedOK`).
-/

namespace MSV

open Engine

/-! ## Visits -/

/-- What an instruction does to a state. A call gets any result, from any summary. -/
inductive InstStep (M : Module) (DL : DataLayout) (i : Inst) (s : RangeState) : RangeState → Prop
  | transfer (hc : calledDefinition M i = none) :
      InstStep M DL i s (applyTransfer (rangePolicy M DL) i s)
  | call {callee : Function} {args : List Value} (hc : calledDefinition M i = some (callee, args))
      (summary : RangeState) (upd : Bool) (result : RangeValue) :
      InstStep M DL i s ((passArguments (rangePolicy M DL) callee.id
        (args.take callee.params.length) 0 s summary upd).1.set (.inst i.id) result)

/-- A visit of a block that has come to `todo`: `states t` is the state where `t` is what is left
of the block. -/
structure VisitTo (M : Module) (DL : DataLayout) (r : RangeResult) (b : Block) (todo : List Inst)
    (states : List Inst → RangeState) : Prop where
  entry : states b.insts = r.get (.block b.id)
  step : ∀ i rest, i :: rest <:+ b.insts → todo <:+ rest →
    InstStep M DL i (states (i :: rest)) (states rest)
  recorded : ∀ i rest, i :: rest <:+ b.insts → todo <:+ rest → ∀ k x y,
    (r.get (.inst i.id)).find k = some (.constant x y) →
      (states rest).find k = some (.constant x y)

/-- A visit of a block from the recorded entry state to the recorded exit state. -/
structure VisitDone (M : Module) (DL : DataLayout) (r : RangeResult) (b : Block)
    (states : List Inst → RangeState) : Prop extends VisitTo M DL r b [] states where
  exit : states [] = exitState r b

/-- A block being processed, with state `s`. -/
structure RunVisit (M : Module) (DL : DataLayout) (r : RangeResult) (b : Block) (todo : List Inst)
    (s : RangeState) : Prop where
  visit : ∃ states, VisitTo M DL r b todo states ∧ states todo = s
  const : ∀ done, b.insts = done ++ todo → ∀ k x y, s.find k = some (.constant x y) →
    (r.get (.block b.id)).has k ∨ ∃ j ∈ done, WrittenBy M j k

/-- What is recorded behind an instruction: keys the next one mentions, and a constant under a key
that every visit of the block has there. -/
structure RecordedOK (M : Module) (f : Function) (r : RangeResult) : Prop where
  mention : ∀ b ∈ f.blocks, ∀ i next rest, i :: next :: rest <:+ b.insts → ∀ k,
    (r.get (.inst i.id)).has k → k ∈ .inst next.id :: next.kind.operands
  const : ∀ b ∈ f.blocks, ∀ done i rest, b.insts = done ++ i :: rest → ∀ k x y,
    (r.get (.inst i.id)).find k = some (.constant x y) →
      (r.get (.block b.id)).has k ∨ ∃ j ∈ done ++ [i], WrittenBy M j k

/-- The block is being processed, or was visited last as its recorded states say. -/
def LastVisited (M : Module) (DL : DataLayout) (r : RangeResult) (fr : Frame RangeValue)
    (b : Block) : Prop :=
  (∃ run, fr.run = some run ∧ run.block = b) ∨ ∃ states, VisitDone M DL r b states

/-- The blocks of a running pair. -/
structure FrameVisits (M : Module) (DL : DataLayout) (r : RangeResult) (fr : Frame RangeValue) :
    Prop where
  visited : ∀ b ∈ fr.func.blocks, (r.get (.block b.id)).isEmpty = false → LastVisited M DL r fr b
  work : ∀ b ∈ fr.func.blocks, CFGReachable fr.func b.id →
    b.id ∈ fr.work.work ∨ LastVisited M DL r fr b

/-- A frame that waits at a call has passed the arguments on to the state. -/
def ArgsGiven (M : Module) (DL : DataLayout) (run : BlockRun RangeValue) (s : RangeState) : Prop :=
  ∀ i rest callee args, run.todo = i :: rest → calledDefinition M i = some (callee, args) →
    ∃ summary upd, run.state = (passArguments (rangePolicy M DL) callee.id
      (args.take callee.params.length) 0 s summary upd).1

/-- The invariant of the engine, but for the block of the top frame. -/
structure StackVisits (M : Module) (DL : DataLayout) (e : Engine RangeValue) : Prop where
  recorded : ∀ c, ∀ f ∈ M.funcs, RecordedOK M f (e.results (c, f.id))
  frames : ∀ fr ∈ e.stack, FrameVisits M DL (e.results fr.pair) fr
  settled : ∀ c, ∀ f ∈ M.funcs, ¬ OnStack e.stack c f → ∀ b ∈ f.blocks,
    ((e.results (c, f.id)).get (.block b.id)).isEmpty = false →
      ∃ states, VisitDone M DL (e.results (c, f.id)) b states
  waiting : ∀ fr ∈ e.stack.tail, ∀ run, fr.run = some run → ∃ s,
    RunVisit M DL (e.results fr.pair) run.block run.todo s ∧ ArgsGiven M DL run s

/-- The invariant of the engine. -/
structure VisitInv (M : Module) (DL : DataLayout) (e : Engine RangeValue) : Prop
    extends StackVisits M DL e where
  run : ∀ fr rest run, e.stack = fr :: rest → fr.run = some run →
    RunVisit M DL (e.results fr.pair) run.block run.todo run.state

variable {M : Module} {DL : DataLayout} {usePC : Bool} {rpot : FuncId → List BlockId}
  {entry f : Function} {r r' : RangeResult} {b : Block} {states : List Inst → RangeState}

/-! ## Results with the same states of a block -/

section Congr

variable {todo : List Inst} (hblock : r'.get (.block b.id) = r.get (.block b.id))
  (hinst : ∀ i ∈ b.insts, r'.get (.inst i.id) = r.get (.inst i.id))

include hblock hinst

theorem VisitTo.congr (h : VisitTo M DL r b todo states) : VisitTo M DL r' b todo states where
  entry := h.entry.trans hblock.symm
  step := h.step
  recorded := by
    intro i rest hi ht k x y hk
    rw [hinst i (hi.subset List.mem_cons_self)] at hk
    exact h.recorded i rest hi ht k x y hk

theorem VisitDone.congr (h : VisitDone M DL r b states) : VisitDone M DL r' b states where
  toVisitTo := h.toVisitTo.congr hblock hinst
  exit := by
    rw [h.exit]
    unfold exitState
    cases ht : b.terminator with
    | none => rfl
    | some t => exact (hinst t (List.mem_of_getLast? ht)).symm

theorem RunVisit.congr {s : RangeState} (h : RunVisit M DL r b todo s) :
    RunVisit M DL r' b todo s where
  visit := by
    obtain ⟨states, hv, hs⟩ := h.visit
    exact ⟨states, hv.congr hblock hinst, hs⟩
  const := by
    rw [hblock]
    exact h.const

end Congr

section Same

variable (hsame : SameStates r r')

include hsame

theorem VisitDone.same (h : VisitDone M DL r b states) : VisitDone M DL r' b states :=
  h.congr (hsame.block b.id) fun i _ => hsame.inst i.id

theorem RunVisit.same {todo : List Inst} {s : RangeState} (h : RunVisit M DL r b todo s) :
    RunVisit M DL r' b todo s :=
  h.congr (hsame.block b.id) fun i _ => hsame.inst i.id

theorem LastVisited.same {fr : Frame RangeValue} (h : LastVisited M DL r fr b) :
    LastVisited M DL r' fr b :=
  h.imp_right fun ⟨states, hd⟩ => ⟨states, hd.same hsame⟩

end Same

theorem RecordedOK.congr (h : RecordedOK M f r) (hsame : SameStates r r') : RecordedOK M f r' where
  mention := by
    intro b hb i next rest hi k hk
    rw [hsame.inst] at hk
    exact h.mention b hb i next rest hi k hk
  const := by
    intro b hb done i rest hi k x y hk
    rw [hsame.inst] at hk
    rw [hsame.block]
    exact h.const b hb done i rest hi k x y hk

theorem FrameVisits.congr {fr : Frame RangeValue} (h : FrameVisits M DL r fr)
    (hsame : SameStates r r') : FrameVisits M DL r' fr where
  visited := by
    intro b hb hne
    rw [hsame.block] at hne
    exact (h.visited b hb hne).same hsame
  work := by
    intro b hb hreach
    exact (h.work b hb hreach).imp_right fun ht => ht.same hsame

/-! ## Recording a state -/

/-- Copying the entries of some keys. -/
theorem find_foldl_copy {g : RangeState → Value → RangeState} {s : RangeState}
    (hsome : ∀ r v x, s.find v = some x → g r v = r.set v x)
    (hnone : ∀ r v, s.find v = none → g r v = r) (vs : List Value) (old : RangeState) (k : Value) :
    (vs.foldl g old).find k = if k ∈ vs ∧ s.has k then s.find k else old.find k := by
  induction vs generalizing old with
  | nil => simp
  | cons v vs ih =>
      rw [List.foldl_cons, ih]
      cases hv : s.find v with
      | none =>
          rw [hnone old v hv]
          have hkv : s.has k → k ≠ v := by
            rintro hk rfl
            rw [FMap.has_iff_find, hv] at hk
            cases hk.choose_spec
          by_cases hk : s.has k
          · simp [hk, hkv hk]
          · simp [hk]
      | some x =>
          rw [hsome old v x hv, FMap.find_set]
          by_cases hkv : k = v
          · subst hkv
            simp [FMap.has_of_find hv, hv]
          · simp [hkv]

theorem find_recordState (i next : Inst) (rest : List Inst) (s : RangeState) (r : RangeResult)
    (k : Value) :
    ((recordState i (next :: rest) s r).get (.inst i.id)).find k =
      if k ∈ .inst next.id :: next.kind.operands ∧ s.has k then s.find k
      else (r.get (.inst i.id)).find k := by
  unfold recordState
  rw [FMap.get_set_self]
  refine find_foldl_copy (fun r v x hx => ?_) (fun r v hx => ?_) _ _ k
  · rw [hx]
  · rw [hx]

theorem suffix_step {α : Type*} {a : α} {t rest l : List α} (h : a :: t <:+ l) (h' : rest <:+ l)
    (ht : t <:+ rest) : rest = t ∨ a :: t <:+ rest := by
  rcases List.suffix_or_suffix_of_suffix h h' with hs | hs
  · exact .inr hs
  · rcases List.suffix_cons_iff.mp hs with rfl | hs
    · exact .inr List.suffix_rfl
    · exact .inl (hs.eq_of_length_le ht.length_le)

theorem head_of_suffix {α : Type*} {a b : α} {t l : List α} (h : a :: t <:+ l)
    (h' : b :: t <:+ l) : b = a := by
  rcases List.suffix_or_suffix_of_suffix h h' with hs | hs
  · exact (List.cons.inj (hs.eq_of_length (by simp))).1.symm
  · exact (List.cons.inj (hs.eq_of_length (by simp))).1

section Advance

variable {run : BlockRun RangeValue} {i : Inst} {todo done : List Inst} {s s₀ : RangeState}
  (hM : M.WF) (hf : f ∈ M.funcs) (hb : run.block ∈ f.blocks)
  (hdone : run.block.insts = done ++ run.todo) (ht : run.todo = i :: todo)
  (hr : RunOK M r run) (hs : WritesOnly (WrittenBy M i) run.state s)
  (h : Recorded r r' i todo s)

omit hM hf hb hdone ht hr hs h in
/-- An instruction writes its keys. -/
theorem InstStep.writes (hM : M.WF) (hi : i ∈ M.insts) (h : InstStep M DL i s₀ s) :
    WritesOnly (WrittenBy M i) s₀ s := by
  cases h with
  | transfer hc => exact applyTransfer_writes DL hM hi hc s₀
  | @call callee args hc summary upd result =>
      have hv : ∀ v ∈ args.take callee.params.length, ∀ val ptr,
          M.kindOf v ≠ some (.store val ptr) := fun v hv =>
        hM.operands i hi v (args_operands hc (List.mem_of_mem_take hv))
      have hargs := passArguments_writes DL callee.id hv 0 s₀ summary upd
      have := hargs.trans (.set _ (.inst i.id) result)
      unfold WrittenBy
      rw [hc]
      exact this

include hdone ht in
omit hM hf hb hr hs h in
theorem run_suffix : i :: todo <:+ run.block.insts := ⟨done, by rw [hdone, ht]⟩

include hM hf hb hdone ht in
omit hr hs h in
/-- The instruction is met once. -/
theorem todo_of_inst {j : Inst} {rest : List Inst} {b : Block} (hbf : b ∈ f.blocks)
    (hj : j :: rest <:+ b.insts) (hid : j.id = i.id) :
    b = run.block ∧ j = i ∧ rest = todo := by
  have hi : i ∈ run.block.insts := (run_suffix hdone ht).subset List.mem_cons_self
  have hjb : j ∈ b.insts := hj.subset List.mem_cons_self
  obtain rfl := hM.block_of_inst hf hbf hb hjb hi hid
  have hnd := hM.insts_nodup_of_block hf hb
  obtain rfl : j = i := List.inj_on_of_nodup_map hnd hjb hi hid
  have hndl : run.block.insts.Nodup := hnd.of_map
  refine ⟨rfl, rfl, ?_⟩
  rcases List.suffix_or_suffix_of_suffix hj (run_suffix hdone ht) with hs | hs
  · rcases List.suffix_cons_iff.mp hs with heq | hs
    · exact (List.cons.inj heq).2
    · have := hndl.sublist (run_suffix hdone ht).sublist
      exact absurd (hs.subset List.mem_cons_self) (List.nodup_cons.mp this).1
  · rcases List.suffix_cons_iff.mp hs with heq | hs
    · exact (List.cons.inj heq).2.symm
    · have := hndl.sublist hj.sublist
      exact absurd (hs.subset List.mem_cons_self) (List.nodup_cons.mp this).1

include hdone ht hr hs h hb in
omit hM hf in
/-- The constants that are recorded behind the instruction are in the state: what an earlier visit
has recorded and this one does not have is no constant. -/
theorem RecordedOK.const_self (hrec : RecordedOK M f r) {k : Value} {x y : APInt}
    (hk : (r'.get (.inst i.id)).find k = some (.constant x y)) :
    s.find k = some (.constant x y) := by
  have hinsts : run.block.insts = done ++ i :: todo := hdone.trans (congrArg _ ht)
  rw [h.self] at hk
  cases todo with
  | nil =>
      unfold recordState at hk
      rwa [FMap.get_set_self] at hk
  | cons next rest =>
      rw [find_recordState] at hk
      split_ifs at hk with hcase
      · exact hk
      · refine absurd ⟨?_, ?_⟩ hcase
        · exact hrec.mention _ hb i next rest (run_suffix hdone ht) k (FMap.has_of_find hk)
        · rcases hrec.const _ hb done i (next :: rest) hinsts k x y hk with hkey | ⟨j, hj, hw⟩
          · exact hs.keeps k (hr.keys k hkey)
          · rcases List.mem_append.mp hj with hj | hj
            · exact hs.keeps k (hr.written done hdone j hj k hw)
            · rw [List.mem_singleton.mp hj] at hw
              exact hs.writes k hw

include hM hf hb hdone ht in
omit hr hs in
/-- The states of the other instructions stay as they are recorded. -/
theorem Recorded.get_ne (h : Recorded r r' i todo s) {j : Inst} {rest : List Inst} {b : Block}
    (hbf : b ∈ f.blocks) (hj : j :: rest <:+ b.insts) (hne : b ≠ run.block ∨ rest ≠ todo) :
    r'.get (.inst j.id) = r.get (.inst j.id) := by
  refine h.inst j.id fun hid => ?_
  obtain ⟨hblock, -, hrest⟩ := todo_of_inst hM hf hb hdone ht hbf hj hid
  exact hne.elim (· hblock) (· hrest)

include hM hf hb hdone ht hr hs h in
/-- **An instruction goes on with the visit.** -/
theorem RunVisit.advance (hv : RunVisit M DL r run.block run.todo s₀)
    (hstep : InstStep M DL i s₀ s) (hrec : RecordedOK M f r) :
    RunVisit M DL r' run.block todo s where
  visit := by
    classical
    obtain ⟨states, hto, hlast⟩ := hv.visit
    have hsuffix := run_suffix hdone ht
    have hne : ∀ t, i :: todo <:+ t → t ≠ todo := by
      rintro t hi rfl
      exact absurd hi.length_le (by simp)
    refine ⟨fun t => if t = todo then s else states t, ⟨?_, ?_, ?_⟩, if_pos rfl⟩
    · show (if run.block.insts = todo then s else _) = _
      rw [if_neg (hne _ hsuffix), h.block]
      exact hto.entry
    · intro j rest hj htodo
      show InstStep M DL j (if j :: rest = todo then s else _) (if rest = todo then s else _)
      rw [if_neg (fun heq => absurd htodo.length_le (by rw [← heq]; simp))]
      by_cases hrest : rest = todo
      · subst hrest
        rw [if_pos rfl]
        rw [head_of_suffix hsuffix hj, ← ht, hlast]
        exact hstep
      · rw [if_neg hrest]
        refine hto.step j rest hj ?_
        rw [ht]
        exact (suffix_step hsuffix ((List.suffix_cons j rest).trans hj) htodo).resolve_left hrest
    · intro j rest hj htodo k x y hk
      show (if rest = todo then s else _).find k = _
      by_cases hrest : rest = todo
      · subst hrest
        rw [if_pos rfl]
        rw [head_of_suffix hsuffix hj] at hk
        exact hrec.const_self hb hdone ht hr hs h hk
      · rw [if_neg hrest]
        rw [h.get_ne hM hf hb hdone ht hb hj (.inr hrest)] at hk
        refine hto.recorded j rest hj ?_ k x y hk
        rw [ht]
        exact (suffix_step hsuffix ((List.suffix_cons j rest).trans hj) htodo).resolve_left hrest
  const := by
    intro done' hdone' k x y hk
    have hinsts : run.block.insts = (done ++ [i]) ++ todo := by
      rw [hdone, ht, List.append_assoc]
      rfl
    obtain rfl : done' = done ++ [i] := List.append_cancel_right (hdone'.symm.trans hinsts)
    rw [h.block]
    have hi : i ∈ M.insts := List.mem_flatMap.mpr ⟨f, hf, List.mem_flatMap.mpr
      ⟨run.block, hb, (run_suffix hdone ht).subset List.mem_cons_self⟩⟩
    rcases (hstep.writes hM hi).const k x y hk with hk | hk
    · refine (hv.const done hdone k x y hk).imp_right fun ⟨j, hj, hw⟩ => ⟨j, ?_, hw⟩
      exact List.mem_append_left _ hj
    · exact .inr ⟨i, by simp, hk⟩

include hM hf hb hdone ht h in
omit hr hs in
theorem RecordedOK.advance (hrec : RecordedOK M f r) (hv : RunVisit M DL r' run.block todo s) :
    RecordedOK M f r' where
  mention := by
    intro b hbf j next rest hj k hk
    by_cases hcase : b = run.block ∧ next :: rest = todo
    · obtain ⟨rfl, rfl⟩ := hcase
      obtain rfl := head_of_suffix (run_suffix hdone ht) hj
      rw [h.self, FMap.has_iff_find] at hk
      obtain ⟨x, hx⟩ := hk
      rw [find_recordState] at hx
      split_ifs at hx with hmem
      · exact hmem.1
      · exact hrec.mention _ hbf j next rest hj k (FMap.has_of_find hx)
    · rw [h.get_ne hM hf hb hdone ht hbf hj (not_and_or.mp hcase)] at hk
      exact hrec.mention b hbf j next rest hj k hk
  const := by
    intro b hbf done' j rest hj k x y hk
    have hsuffix : j :: rest <:+ b.insts := ⟨done', hj.symm⟩
    by_cases hcase : b = run.block ∧ rest = todo
    · obtain ⟨rfl, rfl⟩ := hcase
      obtain ⟨states, hto, hlast⟩ := hv.visit
      have hs := hto.recorded j rest hsuffix List.suffix_rfl k x y hk
      rw [hlast] at hs
      refine hv.const (done' ++ [j]) ?_ k x y hs
      rw [hj, List.append_assoc]
      rfl
    · rw [h.get_ne hM hf hb hdone ht hbf hsuffix (not_and_or.mp hcase)] at hk
      rw [h.block]
      exact hrec.const b hbf done' j rest hj k x y hk

include hM hf hb hdone ht h in
omit hr hs in
theorem LastVisited.advance {fr : Frame RangeValue} (hrun : fr.run = some run) {b : Block}
    (hbf : b ∈ f.blocks) (hb' : LastVisited M DL r fr b) :
    LastVisited M DL r' { fr with run := some { run with state := s, todo := todo } } b := by
  by_cases hbr : b = run.block
  · exact .inl ⟨_, rfl, hbr.symm⟩
  · rcases hb' with ⟨run', hrun', hrb⟩ | ⟨states, hd⟩
    · rw [hrun] at hrun'
      obtain rfl := Option.some.inj hrun'
      exact absurd hrb.symm hbr
    · refine .inr ⟨states, hd.congr (h.block b.id) fun j hj => ?_⟩
      obtain ⟨before, rest, hsplit⟩ := List.append_of_mem hj
      exact h.get_ne hM hf hb hdone ht hbf ⟨before, hsplit.symm⟩ (.inl hbr)

omit hf hb in
include hM hdone ht h in
omit hr hs in
theorem FrameVisits.advance {fr : Frame RangeValue} (hfr : FrameVisits M DL r fr)
    (hrun : fr.run = some run) (hf : fr.func ∈ M.funcs) (hb : run.block ∈ fr.func.blocks) :
    FrameVisits M DL r' { fr with run := some { run with state := s, todo := todo } } where
  visited := by
    intro b hbf hne
    rw [h.block] at hne
    exact (hfr.visited b hbf hne).advance hM hf hb hdone ht h hrun hbf
  work := by
    intro b hbf hreach
    exact (hfr.work b hbf hreach).imp_right fun hb' => hb'.advance hM hf hb hdone ht h hrun hbf

end Advance

/-! ## Taking a block -/

section Enter

variable {bb : BlockId} {s : RangeState}

theorem get_set_block_inst (j : InstId) :
    (r.set (.block bb) s).get (.inst j) = r.get (.inst j) := by
  rw [FMap.get_set, if_neg (by simp)]

theorem RecordedOK.set_block (h : RecordedOK M f r)
    (hkeep : ∀ k, (r.get (.block bb)).has k → s.has k) : RecordedOK M f (r.set (.block bb) s) where
  mention := by
    intro b hb i next rest hi k hk
    rw [get_set_block_inst] at hk
    exact h.mention b hb i next rest hi k hk
  const := by
    intro b hb done i rest hi k x y hk
    rw [get_set_block_inst] at hk
    refine (h.const b hb done i rest hi k x y hk).imp_left fun hkey => ?_
    rw [get_set_block]
    split_ifs with hbb
    · rw [hbb] at hkey
      exact hkeep k hkey
    · exact hkey

/-- A block that starts has come nowhere. -/
theorem RunVisit.start (b : Block) (s : RangeState) :
    RunVisit M DL (r.set (.block b.id) s) b b.insts s where
  visit := by
    refine ⟨fun _ => s, ⟨?_, fun i rest hi ht => ?_, fun i rest hi ht => ?_⟩, rfl⟩
    · rw [get_set_block, if_pos rfl]
    · exact absurd (hi.length_le.trans ht.length_le) (by simp)
    · exact absurd (hi.length_le.trans ht.length_le) (by simp)
  const := by
    intro done _ k x y hk
    left
    rw [get_set_block, if_pos rfl]
    exact FMap.has_of_find hk

theorem LastVisited.set_block {fr fr' : Frame RangeValue} (hrun : fr.run = none) (hb : b.id ≠ bb)
    (h : LastVisited M DL r fr b) : LastVisited M DL (r.set (.block bb) s) fr' b := by
  rcases h with ⟨run, hr, -⟩ | ⟨states, hd⟩
  · rw [hrun] at hr
    cases hr
  · refine .inr ⟨states, hd.congr ?_ fun i _ => get_set_block_inst i.id⟩
    rw [get_set_block, if_neg hb]

end Enter

/-! ## The moves keep the invariant -/

section Moves

variable {e e' : Engine RangeValue} {fr fr' : Frame RangeValue} {rest : List (Frame RangeValue)}
  (hM : M.WF)

include hM

/-- A step that works on the top frame only. -/
theorem StackVisits.top (h : StackVisits M DL e) (hs : e.stack = fr :: rest)
    (hmem : fr.func ∈ M.funcs) (hd : (e.stack.map Frame.pair).Nodup)
    (hs' : e'.stack = fr' :: rest) (hc : fr'.context = fr.context) (hf : fr'.func = fr.func)
    (hother : ∀ cf, cf ≠ fr.pair → SameStates (e.results cf) (e'.results cf))
    (hrec : RecordedOK M fr.func (e'.results fr.pair))
    (hfr : FrameVisits M DL (e'.results fr.pair) fr')
    (hrun : ∀ run, fr'.run = some run →
      RunVisit M DL (e'.results fr.pair) run.block run.todo run.state) : VisitInv M DL e' := by
  have hne : ∀ x ∈ rest, x.pair ≠ fr.pair := by
    intro x hx heq
    rw [hs, List.map_cons, List.nodup_cons] at hd
    exact hd.1 (heq ▸ List.mem_map_of_mem hx)
  refine ⟨⟨fun c f hf => ?_, fun x hx => ?_, fun c g hg hno b hb hempty => ?_,
    fun x hx run hr => ?_⟩, fun x rest' run hx hr => ?_⟩
  · by_cases hcf : (c, f.id) = fr.pair
    · obtain rfl := hM.func_eq hf hmem (Prod.mk.inj hcf).2
      rw [hcf]
      exact hrec
    · exact (h.recorded c f hf).congr (hother _ hcf)
  · rw [hs'] at hx
    rcases List.mem_cons.mp hx with rfl | hx
    · rw [pair_eq hc hf]
      exact hfr
    · exact (h.frames x (by rw [hs]; simp [hx])).congr (hother _ (hne x hx))
  · have hno' : ¬ OnStack e.stack c g := by
      intro hon
      rw [hs] at hon
      rw [hs'] at hno
      exact hno (onStack_cons fr hc hf hon)
    have hcf : (c, g.id) ≠ fr.pair := by
      intro hcf
      obtain rfl := hM.func_eq hg hmem (Prod.mk.inj hcf).2
      exact hno' ⟨fr, by rw [hs]; simp, (Prod.mk.inj hcf).1.symm, rfl⟩
    have hsame := hother _ hcf
    rw [hsame.block] at hempty
    obtain ⟨states, hd⟩ := h.settled c g hg hno' b hb hempty
    exact ⟨states, hd.same hsame⟩
  · rw [hs'] at hx
    have hsame := hother _ (hne x hx)
    obtain ⟨s, hv, ha⟩ := h.waiting x (by rw [hs]; exact hx) run hr
    exact ⟨s, hv.same hsame, ha⟩
  · rw [hs'] at hx
    obtain ⟨rfl, rfl⟩ := List.cons.inj hx
    rw [pair_eq hc hf]
    exact hrun run hr

omit hM in
/-- A frame that has no block leaves visited ones. -/
theorem StackVisits.pop (h : StackVisits M DL e) (hs : e.stack = fr :: rest) (hr : fr.run = none)
    (hs' : e'.stack = rest) (hres : ∀ cf, e'.results cf = e.results cf) : StackVisits M DL e' where
  recorded := by
    intro c f hf
    rw [hres]
    exact h.recorded c f hf
  frames := by
    intro x hx
    rw [hs'] at hx
    rw [hres]
    exact h.frames x (by rw [hs]; exact List.mem_cons_of_mem _ hx)
  settled := by
    intro c g hg hno b hb hne
    rw [hres] at hne ⊢
    rw [hs'] at hno
    by_cases hon : OnStack e.stack c g
    · obtain ⟨x, hx, rfl, rfl⟩ := hon
      rw [hs] at hx
      rcases List.mem_cons.mp hx with rfl | hx
      · rcases (h.frames x (by rw [hs]; simp)).visited b hb hne with ⟨run, hrun, -⟩ | hd
        · rw [hr] at hrun
          cases hrun
        · exact hd
      · exact absurd ⟨x, hx, rfl, rfl⟩ hno
    · exact h.settled c g hg hon b hb hne
  waiting := by
    intro x hx run hrun
    rw [hs'] at hx
    rw [hres]
    exact h.waiting x (by rw [hs]; exact List.mem_of_mem_tail hx) run hrun

/-- An instruction that is done goes on with the visit. -/
theorem StackVisits.advance (h : StackVisits M DL e) (hs : e.stack = fr :: rest)
    (hmem : fr.func ∈ M.funcs) (hd : (e.stack.map Frame.pair).Nodup) {run : BlockRun RangeValue}
    (hr : fr.run = some run) (hb : run.block ∈ fr.func.blocks) {done todo : List Inst} {i : Inst}
    (hdone : run.block.insts = done ++ run.todo) (ht : run.todo = i :: todo)
    (hrunok : RunOK M (e.results fr.pair) run) {s₀ s : RangeState}
    (hv : RunVisit M DL (e.results fr.pair) run.block run.todo s₀) (hstep : InstStep M DL i s₀ s)
    (hw : WritesOnly (WrittenBy M i) run.state s)
    (hs' : e'.stack = { fr with run := some { run with state := s, todo := todo } } :: rest)
    (hother : ∀ cf, cf ≠ fr.pair → SameStates (e.results cf) (e'.results cf))
    (hrec : Recorded (e.results fr.pair) (e'.results fr.pair) i todo s) : VisitInv M DL e' := by
  have hrecorded : RecordedOK M fr.func (e.results fr.pair) := h.recorded fr.context fr.func hmem
  have hvisit := hv.advance hM hmem hb hdone ht hrunok hw hrec hstep hrecorded
  refine h.top hM hs hmem hd hs' rfl rfl hother
    (hrecorded.advance hM hmem hb hdone ht hrec hvisit)
    ((h.frames fr (by rw [hs]; simp)).advance hM hdone ht hrec hr hmem hb) fun run' hrun' => ?_
  obtain rfl := Option.some.inj hrun'
  exact hvisit

omit hM in
theorem FrameVisits.setState {r : RangeResult} (h : FrameVisits M DL r fr)
    {run : BlockRun RangeValue} (hr : fr.run = some run) (s : RangeState) :
    FrameVisits M DL r { fr with run := some { run with state := s } } := by
  have hlast : ∀ b, LastVisited M DL r fr b →
      LastVisited M DL r { fr with run := some { run with state := s } } b := by
    refine fun b hb => hb.imp_left fun ⟨run', hrun', hblock⟩ => ?_
    obtain rfl := Option.some.inj (hr.symm.trans hrun')
    exact ⟨_, rfl, hblock⟩
  exact ⟨fun b hb hne => hlast b (h.visited b hb hne),
    fun b hb hreach => (h.work b hb hreach).imp_right (hlast b)⟩

omit hM in
/-- A function is entered with its blocks queued, and the frame that calls it waits. -/
theorem VisitInv.push (h : VisitInv M DL e) (hs : e.stack = fr :: rest)
    {run : BlockRun RangeValue} (hr : fr.run = some run) {s : RangeState}
    (hgiven : ArgsGiven M DL { run with state := s } run.state) {new : Frame RangeValue}
    (hcallee : new.func ∈ M.funcs) (hfresh : ¬ OnStack e.stack new.context new.func)
    (hnew : new.run = none) (hwork : ∀ b, CFGReachable new.func b → b ∈ new.work.work)
    (hs' : e'.stack = new :: { fr with run := some { run with state := s } } :: rest)
    (hsame : ∀ cf, SameStates (e.results cf) (e'.results cf)) : VisitInv M DL e' := by
  refine ⟨⟨fun c f hf => (h.recorded c f hf).congr (hsame _), fun x hx => ?_,
    fun c g hg hno b hb hne => ?_, fun x hx run' hr' => ?_⟩, fun x rest' run' hx hr' => ?_⟩
  · rw [hs'] at hx
    rcases List.mem_cons.mp hx with rfl | hx
    · refine ⟨fun b hb hne => ?_, fun b _ hreach => .inl (hwork b.id hreach)⟩
      rw [(hsame _).block] at hne
      obtain ⟨states, hd⟩ := h.settled x.context x.func hcallee hfresh b hb hne
      exact .inr ⟨states, hd.same (hsame _)⟩
    · rcases List.mem_cons.mp hx with rfl | hx
      · exact ((h.frames fr (by rw [hs]; simp)).congr (hsame fr.pair)).setState hr s
      · exact (h.frames x (by rw [hs]; simp [hx])).congr (hsame _)
  · rw [(hsame _).block] at hne
    have hno' : ¬ OnStack e.stack c g := by
      intro hon
      rw [hs] at hon
      rw [hs'] at hno
      have hon' : OnStack ({ fr with run := some { run with state := s } } :: rest) c g :=
        onStack_cons fr rfl rfl hon
      obtain ⟨x, hx, hcf⟩ := hon'
      exact hno ⟨x, List.mem_cons_of_mem _ hx, hcf⟩
    obtain ⟨states, hd⟩ := h.settled c g hg hno' b hb hne
    exact ⟨states, hd.same (hsame _)⟩
  · rw [hs'] at hx
    rcases List.mem_cons.mp hx with rfl | hx
    · obtain rfl := Option.some.inj hr'
      exact ⟨run.state, (h.run fr rest run hs hr).same (hsame fr.pair), hgiven⟩
    · obtain ⟨s', hv, ha⟩ := h.waiting x (by rw [hs]; exact hx) run' hr'
      exact ⟨s', hv.same (hsame _), ha⟩
  · rw [hs'] at hx
    obtain ⟨rfl, -⟩ := List.cons.inj hx
    rw [hnew] at hr'
    cases hr'

variable (he : entry ∈ M.funcs) (hcov : Covers M entry rpot e)

include he hcov

/-- Taking a block. -/
theorem VisitInv.takeBlock (h : VisitInv M DL e) (hs : e.stack = fr :: rest) (hr : fr.run = none)
    {bb : BlockId} {work : WorkList BlockId} (hw : fr.work.take = some (bb, work)) :
    VisitInv M DL (e.takeBlock M (rangePolicy M DL) usePC fr rest bb work) := by
  have hmem := (hcov.frames fr (by rw [hs]; simp)).called.mem he
  have hfr := h.frames fr (by rw [hs]; simp)
  have hrec : RecordedOK M fr.func (e.results fr.pair) := h.recorded fr.context fr.func hmem
  have hwork := (WorkList.take_eq_some hw).1
  have hsame := sameStates_touched e fr bb
  have hnorun : ∀ run, fr.run ≠ some run := by simp [hr]
  -- the other blocks that are reachable
  have hothers : ∀ b ∈ fr.func.blocks, CFGReachable fr.func b.id → b.id ≠ bb →
      b.id ∈ work.work ∨ LastVisited M DL (e.results fr.pair) fr b := by
    intro b hb hreach hne
    have := hfr.work b hb hreach
    rw [hwork] at this
    exact this.imp_left fun hx => (List.mem_cons.mp hx).resolve_left hne
  rcases takeBlock_cases M (rangePolicy M DL) usePC e fr rest bb work with
    ⟨hb, heq⟩ | ⟨b, hb, heqs, hne, heq⟩ | ⟨b, hb, -, heq⟩
  · refine h.top hM hs hmem hcov.distinct (congrArg Engine.stack heq) rfl rfl
      (fun cf hcf => results_takeBlock_other hcf) (by rw [heq]; exact hrec) ?_
      (fun run hrun => absurd hrun (hnorun run))
    rw [heq]
    refine ⟨hfr.visited, fun b' hb' hreach => hothers b' hb' hreach ?_⟩
    rintro rfl
    cases hb.symm.trans (hM.block?_id hmem hb')
  · have hres : (e.takeBlock M (rangePolicy M DL) usePC fr rest bb work).results fr.pair =
        touched e fr bb := by
      rw [heq]
      show (e.setResults fr.pair _).results _ = _
      rw [results_setResults_self]
    refine h.top hM hs hmem hcov.distinct (congrArg Engine.stack heq) rfl rfl
      (fun cf hcf => results_takeBlock_other hcf) (by rw [hres]; exact hrec.congr hsame) ?_
      (fun run hrun => absurd hrun (hnorun run))
    rw [hres]
    have hfr' : FrameVisits M DL (touched e fr bb) fr := hfr.congr hsame
    refine ⟨hfr'.visited, fun b' hb' hreach => ?_⟩
    by_cases hbb : b'.id = bb
    · -- an entry state that is not empty is that of an earlier visit
      refine .inr (hfr'.visited b' hb' ?_)
      rw [hbb]
      exact isEmpty_of_stateEq heqs hne
    · exact (hothers b' hb' hreach hbb).imp_right fun ht => ht.same hsame
  · have hid : b.id = bb := by simpa using List.find?_some hb
    have hblock : ∀ b' ∈ fr.func.blocks, b'.id = bb → b = b' := fun b' hb' hbb =>
      Option.some.inj (hb.symm.trans (hbb ▸ hM.block?_id hmem hb'))
    have hres : (e.takeBlock M (rangePolicy M DL) usePC fr rest bb work).results fr.pair =
        (touched e fr bb).set (.block bb)
          (entryState M (rangePolicy M DL) usePC fr.func bb (touched e fr bb)) := by
      rw [heq]
      show (e.setResults fr.pair _).results _ = _
      rw [results_setResults_self]
    refine h.top hM hs hmem hcov.distinct (congrArg Engine.stack heq) rfl rfl
      (fun cf hcf => results_takeBlock_other hcf) ?_ ?_ ?_
    · rw [hres]
      exact (hrec.congr hsame).set_block fun k hk => entryState_keeps hk
    · rw [hres]
      have hfr' : FrameVisits M DL (touched e fr bb) fr := hfr.congr hsame
      refine ⟨fun b' hb' hne => ?_, fun b' hb' hreach => ?_⟩
      · by_cases hbb : b'.id = bb
        · exact .inl ⟨_, rfl, hblock b' hb' hbb⟩
        · rw [get_set_block, if_neg hbb] at hne
          exact (hfr'.visited b' hb' hne).set_block hr hbb
      · by_cases hbb : b'.id = bb
        · exact .inr (.inl ⟨_, rfl, hblock b' hb' hbb⟩)
        · exact (hothers b' hb' hreach hbb).imp_right fun ht => (ht.same hsame).set_block hr hbb
    · intro run hrun
      obtain rfl := Option.some.inj hrun
      rw [hres, ← hid]
      exact RunVisit.start b _

/-- The end of a block. -/
theorem VisitInv.endBlock (h : VisitInv M DL e) (hedge : EdgeInv M DL usePC e)
    (hs : e.stack = fr :: rest) {run : BlockRun RangeValue} (hr : fr.run = some run)
    (ht : run.todo = []) :
    VisitInv M DL (e.endBlock (rangePolicy M DL) fr rest run) := by
  have hmem := (hcov.frames fr (by rw [hs]; simp)).called.mem he
  have hfr := h.frames fr (by rw [hs]; simp)
  have hrec : RecordedOK M fr.func (e.results fr.pair) := h.recorded fr.context fr.func hmem
  have hsame : ∀ cf, SameStates (e.results cf)
      ((e.endBlock (rangePolicy M DL) fr rest run).results cf) :=
    fun cf => sameStates_of_writes (writes_endBlock ..) (by simp) (by simp)
  -- the visit of the block is over
  have hdone : ∃ states, VisitDone M DL (e.results fr.pair) run.block states := by
    obtain ⟨states, hto, hlast⟩ := (h.run fr rest run hs hr).visit
    rw [ht] at hto hlast
    refine ⟨states, hto, ?_⟩
    rw [hlast, ((hedge.frames fr (by rw [hs]; simp)).run run hr).exit, if_pos ht]
  have hlast : ∀ b (fr' : Frame RangeValue), LastVisited M DL (e.results fr.pair) fr b →
      LastVisited M DL (e.results fr.pair) fr' b := by
    rintro b fr' (⟨run', hrun', rfl⟩ | hd)
    · rw [hr] at hrun'
      rw [← Option.some.inj hrun']
      exact .inr hdone
    · exact .inr hd
  by_cases heqs : stateEq (rangePolicy M DL) run.state run.oldExit = true
  · have hstack : (e.endBlock (rangePolicy M DL) fr rest run).stack =
        { fr with run := none } :: rest := by
      rw [endBlock_eq, if_pos heqs]
    refine h.top hM hs hmem hcov.distinct hstack rfl rfl (fun cf _ => hsame cf)
      (hrec.congr (hsame _)) (FrameVisits.congr ?_ (hsame _)) (fun run' hrun' => by cases hrun')
    exact ⟨fun b hb hne => hlast b _ (hfr.visited b hb hne),
      fun b hb hreach => (hfr.work b hb hreach).imp_right (hlast b _)⟩
  · have hstack : (e.endBlock (rangePolicy M DL) fr rest run).stack =
        requeued fr run :: rest := by
      rw [endBlock_eq, if_neg heqs]
    refine h.top hM hs hmem hcov.distinct hstack rfl rfl (fun cf _ => hsame cf)
      (hrec.congr (hsame _)) (FrameVisits.congr ?_ (hsame _)) (fun run' hrun' => by cases hrun')
    exact ⟨fun b hb hne => hlast b _ (hfr.visited b hb hne), fun b hb hreach =>
      (hfr.work b hb hreach).imp (fun hx => subset_requeue _ _ _ hx) (hlast b _)⟩

/-- An instruction. -/
theorem VisitInv.stepInst (hrpo : ReversePostOrder M rpot) (h : VisitInv M DL e)
    (hedge : EdgeInv M DL usePC e) (hs : e.stack = fr :: rest) {run : BlockRun RangeValue}
    (hr : fr.run = some run) {i : Inst} {todo : List Inst} (ht : run.todo = i :: todo) :
    VisitInv M DL (e.stepInst M (rangePolicy M DL) rpot fr rest run i todo) := by
  have hfrok := hcov.frames fr (by rw [hs]; simp)
  have hmem := hfrok.called.mem he
  obtain ⟨hb, -, done, hdone, -⟩ := hfrok.run run hr
  have hi : i ∈ M.insts := List.mem_flatMap.mpr ⟨fr.func, hmem, List.mem_flatMap.mpr
    ⟨run.block, hb, (run_suffix hdone ht).subset List.mem_cons_self⟩⟩
  have hrunok := (hedge.frames fr (by rw [hs]; simp)).run run hr
  have hvisit := h.run fr rest run hs hr
  rcases stepInst_cases M (rangePolicy M DL) rpot e fr rest run i todo with
    ⟨hc, heq⟩ | ⟨callee, args, hc, hact, -, heq⟩ | ⟨callee, args, hc, -, heq⟩
  · rw [heq]
    refine h.advance hM hs hmem hcov.distinct hr hb hdone ht hrunok hvisit (.transfer hc)
      (applyTransfer_writes DL hM hi hc run.state) rfl (fun cf hcf => ?_)
      (recorded_advance e fr rest run i todo _)
    refine sameStates_of_writes (writes_advance e fr rest run i todo _) (by simp) fun j hj => ?_
    simp only [List.mem_singleton, Prod.mk.injEq] at hj
    exact hcf hj.1
  · -- the callee is entered
    have hcallee := calledDefinition_mem hc
    have hsame : ∀ cf, SameStates (e.results cf)
        ((Engine.passed (rangePolicy M DL) e run i callee args).results cf) :=
      fun cf => sameStates_of_writes (writes_passed (rangePolicy M DL) e run i callee args)
        (by simp) (by simp)
    have hgiven : ArgsGiven M DL { run with
        state := (passedTo (rangePolicy M DL) e run i callee args).1 } run.state := by
      intro i' todo' callee' args' htodo' hc'
      obtain ⟨rfl, -⟩ := List.cons.inj (ht.symm.trans htodo')
      obtain ⟨rfl, rfl⟩ := Prod.mk.inj (Option.some.inj (hc.symm.trans hc'))
      exact ⟨_, _, rfl⟩
    rw [heq]
    generalize (passedTo (rangePolicy M DL) e run i callee args).1 = s at *
    generalize Engine.passed (rangePolicy M DL) e run i callee args = e1 at *
    have hfresh : ¬ OnStack e.stack (some i.id) callee := by
      rintro ⟨x, hx, hxc, hxf⟩
      exact hact ((hcov.active _).mpr ⟨x, hx, by rw [← hxc, ← hxf]; rfl⟩)
    refine h.push hs hr hgiven hcallee hfresh rfl (fun b => (hrpo callee hcallee b).mpr) rfl
      fun cf => ⟨fun b => ?_, fun j => ?_⟩
    · exact (get_enter ..).trans ((hsame cf).block b)
    · exact (get_enter ..).trans ((hsame cf).inst j)
  · rw [heq]
    have hsame : ∀ cf, SameStates (e.results cf)
        ((Engine.passed (rangePolicy M DL) e run i callee args).results cf) :=
      fun cf => sameStates_of_writes (writes_passed (rangePolicy M DL) e run i callee args)
        (by simp) (by simp)
    obtain ⟨x, hrec, hstack⟩ := recorded_callDone
      (Engine.passed (rangePolicy M DL) e run i callee args) fr rest run i todo callee.id
      (passedTo (rangePolicy M DL) e run i callee args).1
    refine h.advance hM hs hmem hcov.distinct hr hb hdone ht hrunok hvisit (.call hc _ _ x)
      (writesOnly_call hM DL e hi hc run x) hstack (fun cf hcf => ?_)
      ⟨fun b => (hrec.block b).trans ((hsame _).block b),
        fun j hj => (hrec.inst j hj).trans ((hsame _).inst j),
        hrec.self.trans (get_recordState_congr ((hsame _).inst i.id))⟩
    refine sameStates_of_writes ((writes_passed (rangePolicy M DL) e run i callee args).trans
      (writes_callDone _ fr rest run i todo callee.id _)) (by simp) fun j hj => ?_
    simp only [List.cons_append, List.nil_append, List.mem_cons, Prod.mk.injEq, reduceCtorEq,
      and_false, List.not_mem_nil, or_false, false_or] at hj
    exact hcf hj.1

/-- The end of a function. -/
theorem VisitInv.finish (h : VisitInv M DL e) (hedge : EdgeInv M DL usePC e)
    (hs : e.stack = fr :: rest) (hr : fr.run = none) : VisitInv M DL (e.finish fr rest) := by
  rcases finish_cases e fr rest with ⟨rfl, hstack, hres⟩ | ⟨caller, rest', rfl, hcall⟩
  · have hres' : ∀ cf, (e.finish fr []).results cf = e.results cf := fun cf => by
      unfold results
      rw [hres]
    refine ⟨h.pop hs hr hstack hres', fun x rest' run hx _ => ?_⟩
    rw [hstack] at hx
    cases hx
  · have hwait := hcov.waiting
    rw [hs] at hwait
    obtain ⟨⟨run, i, todo, args, hrun, htodo, hc, -⟩, -⟩ := hwait
    have hcaller := hcov.frames caller (by rw [hs]; simp)
    have hmem := hcaller.called.mem he
    obtain ⟨hb, -, done, hdone, -⟩ := hcaller.run run hrun
    have hargs := hedge.passed caller (by rw [hs]; simp)
    have hd := hcov.distinct
    rw [hs, List.map_cons, List.nodup_cons] at hd
    -- the caller waited with the arguments, and gets the result
    obtain ⟨s, hv, hgiven⟩ := h.waiting caller (by rw [hs]; simp) run hrun
    obtain ⟨summary, upd, hstate⟩ := hgiven i todo fr.func args htodo hc
    rw [hcall run i todo hrun htodo]
    have hpop : StackVisits M DL { e with
        active := e.active.filter (· ≠ (fr.context, fr.func.id))
        stack := caller :: rest' } := h.pop hs hr rfl fun _ => rfl
    generalize hpopped : ({ e with
        active := e.active.filter (· ≠ (fr.context, fr.func.id))
        stack := caller :: rest' } : Engine RangeValue) = e1 at hpop ⊢
    have hs1 : e1.stack = caller :: rest' := by rw [← hpopped]
    have hres1 : ∀ cf, e1.results cf = e.results cf := fun cf => by rw [← hpopped]; rfl
    obtain ⟨x, hrec, hstack⟩ := recorded_callDone e1 caller rest' run i todo fr.func.id run.state
    have hstep : InstStep M DL i s (run.state.set (.inst i.id) x) := by
      rw [hstate]
      exact .call hc summary upd x
    refine hpop.advance hM hs1 hmem (by rw [hs1]; exact hd.2) hrun hb hdone htodo ?_ ?_ hstep
      (writesOnly_waited hc hargs hrun htodo x) hstack (fun cf hcf => ?_) hrec
    · rw [hres1]
      exact (hedge.frames caller (by rw [hs]; simp)).run run hrun
    · rw [hres1]
      exact hv
    · refine sameStates_of_writes (writes_callDone e1 caller rest' run i todo fr.func.id run.state)
        (by simp) fun j hj => ?_
      simp only [List.mem_cons, Prod.mk.injEq, reduceCtorEq, and_false, List.not_mem_nil, or_false,
        false_or] at hj
      exact hcf hj.1

/-- **Every step keeps the invariant.** -/
theorem VisitInv.move (hrpo : ReversePostOrder M rpot) (h : VisitInv M DL e)
    (hedge : EdgeInv M DL usePC e) (hm : Move M (rangePolicy M DL) usePC rpot e e') :
    VisitInv M DL e' := by
  have hnowork : e.contextWork.take = none := by
    unfold WorkList.take
    rw [hcov.contexts]
  cases hm with
  | enter _ hw _ => cases hnowork.symm.trans hw
  | drop _ hw _ => cases hnowork.symm.trans hw
  | finish hs hr _ => exact h.finish hM he hcov hedge hs hr
  | takeBlock hs hr hw => exact h.takeBlock hM he hcov hs hr hw
  | stepInst hs hr ht => exact h.stepInst hM he hcov hrpo hedge hs hr ht
  | endBlock hs hr ht => exact h.endBlock hM he hcov hedge hs hr ht

end Moves

theorem visitInv_enter (he : entry ∈ M.funcs) (hrpo : ReversePostOrder M rpot)
    {e : Engine RangeValue} (hr : e.allResults = ∅) (hs : e.stack = []) :
    VisitInv M DL (Engine.enter rpot e entry none) := by
  have hempty : ∀ cf k, ((Engine.enter rpot e entry none).results cf).get k = ∅ := by
    intro cf k
    rw [get_enter]
    unfold results
    rw [hr]
    rfl
  have hstack : (Engine.enter rpot e entry none).stack = [⟨none, entry, .ofList (rpot entry.id),
      (rpot entry.id).foldl (fun m b => m.set b 0) ∅, none⟩] := by
    show _ :: e.stack = _
    rw [hs]
  refine ⟨⟨fun c f _ => ⟨fun b _ i next rest _ k hk => ?_, fun b _ done i rest _ k x y hk => ?_⟩,
    fun fr hfr => ⟨fun b _ hne => ?_, fun b _ hreach => ?_⟩, fun c g _ _ b _ hne => ?_,
    fun fr hfr => ?_⟩, fun fr rest run hfr hrun => ?_⟩
  · rw [hempty] at hk
    cases hk
  · rw [hempty] at hk
    cases hk
  · rw [hempty] at hne
    cases hne
  · rw [hstack, List.mem_singleton] at hfr
    subst hfr
    exact .inl ((hrpo entry he b.id).mpr hreach)
  · rw [hempty] at hne
    cases hne
  · rw [hstack] at hfr
    cases hfr
  · rw [hstack] at hfr
    obtain ⟨rfl, -⟩ := List.cons.inj hfr
    cases hrun

/-- The invariant holds in every state of a run whose steps meet the condition. -/
theorem visitInv_run (hM : M.WF) (he : entry ∈ M.funcs) (hrpo : ReversePostOrder M rpot)
    {e : Engine RangeValue}
    (h : Run (Engine.step M (rangePolicy M DL) usePC rpot) (StepOK M DL usePC)
      (Engine.initial [entry.id]) e) :
    e = Engine.initial [entry.id] ∨ Covers M entry rpot e ∧ EdgeInv M DL usePC e ∧
      VisitInv M DL e := by
  refine h.invariant (P := fun e => e = Engine.initial [entry.id] ∨
    Covers M entry rpot e ∧ EdgeInv M DL usePC e ∧ VisitInv M DL e) (Or.inl rfl) ?_
  rintro a b (rfl | ⟨hcov, hedge, hinv⟩) hok hstep
  · obtain ⟨a, hr, hs, ha, hw, rfl⟩ := initial_step hM he hstep
    exact Or.inr ⟨covers_enter he hrpo hr ha hs hw, edgeInv_enter he hrpo hr hs,
      visitInv_enter he hrpo hr hs⟩
  · exact Or.inr ⟨hcov.move hM he hrpo (step_move hstep),
      hedge.move hM he hcov hrpo hok (step_move hstep),
      hinv.move hM he hcov hrpo hedge (step_move hstep)⟩

/-- **When the worklist of a function is empty, every reachable block has a visit** that its
recorded states are those of. -/
theorem blocks_visited (hM : M.WF) (he : entry ∈ M.funcs) (hrpo : ReversePostOrder M rpot)
    {e : Engine RangeValue} {fr : Frame RangeValue} {rest : List (Frame RangeValue)}
    (h : Run (Engine.step M (rangePolicy M DL) usePC rpot) (StepOK M DL usePC)
      (Engine.initial [entry.id]) e)
    (hs : e.stack = fr :: rest) (hrun : fr.run = none) (hw : fr.work.work = []) :
    ∀ b ∈ fr.func.blocks, CFGReachable fr.func b.id →
      ∃ states, VisitDone M DL (e.results fr.pair) b states := by
  intro b hb hreach
  rcases visitInv_run hM he hrpo h with rfl | ⟨-, -, hinv⟩
  · cases hs
  · rcases (hinv.frames fr (by rw [hs]; simp)).work b hb hreach with hq | ⟨run, hr, -⟩ | hd
    · rw [hw] at hq
      cases hq
    · rw [hrun] at hr
      cases hr
    · exact hd

end MSV
