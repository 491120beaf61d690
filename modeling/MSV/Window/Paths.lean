import MSV.Window.OutOfWindow

/-!
# Speculative paths

What the out-of-window analysis is about: paths that start where the processor may speculate, enter
the functions they call, return to the call that is pending or, with none pending, to any call of
the function, and count their instructions.

A configuration with the same place, fewer calls pending and a smaller count dominates: it can
answer every step (`PathStep.simulate`), since with nothing pending it may return anywhere.
-/

namespace MSV

variable {M : Module} (E : WindowEnv M)

/-- The function a call enters: one that is defined and not recursive. -/
def WindowEnv.entered (i : Inst) : Option Pos :=
  i.calledFunction.bind fun g => if E.isRecursive g then none else M.functionStart g

/-- Debug intrinsics are not counted. -/
def Module.weight (M : Module) (i : Inst) : Nat :=
  if i.calledFunction.any M.isDebugFunction then 0 else 1

/-- A terminator without successors. -/
def InstKind.returns (k : InstKind) : Bool := k.isTerminator && k.successors.isEmpty

/-- A place on a path, the calls that are pending and the instructions counted before it. -/
structure Config where
  pos : Pos
  pending : List Site
  count : Nat

namespace Config

/-- At the same place with fewer calls pending and a smaller count. -/
structure Dominates (d c : Config) : Prop where
  pos : d.pos = c.pos
  pending : d.pending <+: c.pending
  count : d.count ≤ c.count

theorem Dominates.refl (c : Config) : Dominates c c := ⟨rfl, List.prefix_rfl, le_rfl⟩

theorem Dominates.trans {a b c : Config} (h : Dominates a b) (h' : Dominates b c) :
    Dominates a c :=
  ⟨h.pos.trans h'.pos, h.pending.trans h'.pending, h.count.trans h'.count⟩

end Config

/-- One instruction of a path. -/
inductive PathStep : Config → Config → Prop
  /-- An instruction that is stepped over. -/
  | stepOver {p : Pos} {i : Inst} {rest : List Inst} {k : List Site} {n : Nat}
      (hp : p.todo = i :: rest) (hstay : E.entered i = none)
      (hterm : i.kind.isTerminator = false) :
      PathStep ⟨p, k, n⟩ ⟨{ p with todo := rest }, k, n + M.weight i⟩
  /-- A call that is entered. -/
  | enter {p : Pos} {i : Inst} {rest : List Inst} {k : List Site} {n : Nat} {q : Pos}
      (hp : p.todo = i :: rest) (henter : E.entered i = some q) :
      PathStep ⟨p, k, n⟩ ⟨q, ⟨p.func, p.block, i⟩ :: k, n + 1⟩
  /-- An edge to a block of the function. -/
  | branch {p : Pos} {i : Inst} {rest : List Inst} {k : List Site} {n : Nat} {s : BlockId}
      {q : Pos} (hp : p.todo = i :: rest) (hstay : E.entered i = none)
      (hs : s ∈ i.kind.successors) (hq : p.func.blockStart s = some q) :
      PathStep ⟨p, k, n⟩ ⟨q, k, n + 1⟩
  /-- A return to the call on top. -/
  | back {p : Pos} {i : Inst} {rest : List Inst} {s : Site} {k : List Site} {n : Nat} {q : Pos}
      (hp : p.todo = i :: rest) (hret : i.kind.returns = true) (hq : q ∈ s.landings) :
      PathStep ⟨p, s :: k, n⟩ ⟨q, k, n + 1⟩
  /-- A return with no call pending. -/
  | backAny {p : Pos} {i : Inst} {rest : List Inst} {s : Site} {n : Nat} {q : Pos}
      (hp : p.todo = i :: rest) (hret : i.kind.returns = true) (hs : s ∈ M.callSitesOf p.func.id)
      (hq : q ∈ s.landings) :
      PathStep ⟨p, [], n⟩ ⟨q, [], n + 1⟩

/-- Reached from the entry function by direct calls. -/
inductive CalledFromMain : Function → Prop
  | main : CalledFromMain E.mainFunction
  | call {f g : Function} {i : Inst} (hf : CalledFromMain f) (hi : i ∈ f.insts)
      (hg : i.calledFunction.bind M.func? = some g) : CalledFromMain g

/-- A conditional branch or a switch. -/
def InstKind.splits : InstKind → Bool
  | .condBr .. | .switch .. => true
  | _ => false

/-- The places of a function where speculation starts: the successors of a conditional branch, the
destinations of a switch, a recursive call, an indirect call. -/
inductive SourceOf (f : Function) : Pos → Prop
  | edge {b : Block} {t : Inst} {s : BlockId} {q : Pos} (hb : b ∈ f.blocks)
      (ht : b.terminator = some t) (hsplit : t.kind.splits = true) (hs : s ∈ t.kind.successors)
      (hq : f.blockStart s = some q) : SourceOf f q
  | call {b : Block} {done : List Inst} {i : Inst} {rest : List Inst} (hb : b ∈ f.blocks)
      (hi : b.insts = done ++ i :: rest) (hcall : Window.isSourceCall E i = true) :
      SourceOf f ⟨f, b, i :: rest⟩

/-! ## Recursion -/

/-- One edge of the call graph that the pass follows. -/
def WindowEnv.Calls (g h : FuncId) : Prop := h ∈ E.callees g

/-- `isRecursive` finds the functions on a cycle of the call graph. -/
theorem isRecursive_iff {f : Function} (hf : f ∈ M.funcs) :
    E.isRecursive f.id = true ↔ Relation.TransGen E.Calls f.id f.id := by
  have hmem : f.id ∈ M.funcs.map Function.id := List.mem_map_of_mem hf
  refine dfs_iff (fun u _ c hc => ?_) hmem
  unfold WindowEnv.callees at hc
  split_ifs at hc with hintrinsic
  · cases hc
  · obtain ⟨-, hstart⟩ := List.mem_filter.mp hc
    obtain ⟨q, hq⟩ := Option.isSome_iff_exists.mp hstart
    obtain ⟨g, hg, -⟩ := Option.bind_eq_some_iff.mp hq
    have hid : g.id = c := by simpa using List.find?_some hg
    exact List.mem_map.mpr ⟨g, List.mem_of_find?_eq_some hg, hid⟩

/-- A debug intrinsic is not recursive. -/
theorem not_isRecursive_of_debug {g : FuncId} (h : M.isDebugFunction g = true) :
    E.isRecursive g = false := by
  obtain ⟨f, hf, hname⟩ : ∃ f, M.func? g = some f ∧
      (f.isDeclaration && startswith f.name "llvm.dbg.") = true := by
    unfold Module.isDebugFunction at h
    cases hfind : M.func? g with
    | none =>
        rw [hfind] at h
        cases h
    | some f =>
        rw [hfind] at h
        exact ⟨f, rfl, h⟩
  have hdbg : "llvm.dbg.".toList <+: f.name.toList :=
    List.isPrefixOf_iff_prefix.mp (Bool.and_eq_true_iff.mp hname).2
  have hstart : "llvm.".toList <+: "llvm.dbg.".toList := by decide
  have hintrinsic : (M.func? g).any Function.isIntrinsic = true := by
    rw [hf]
    exact List.isPrefixOf_iff_prefix.mpr (hstart.trans hdbg)
  have hnone : E.callees g = [] := by
    unfold WindowEnv.callees
    rw [if_pos hintrinsic]
  unfold WindowEnv.isRecursive dfs
  rw [if_neg List.not_mem_nil, hnone]
  rfl

/-! ## Places in the module -/

/-- A place in a block of the module. -/
structure Pos.WF (M : Module) (p : Pos) : Prop where
  func : p.func ∈ M.funcs
  block : p.block ∈ p.func.blocks
  todo : p.todo <:+ p.block.insts

/-- A call in a block of the module. -/
structure Site.WF (M : Module) (s : Site) : Prop where
  func : s.func ∈ M.funcs
  block : s.block ∈ s.func.blocks
  inst : s.inst ∈ s.block.insts
  call : s.inst.kind.asCallBase.isSome = true

theorem Pos.WF.mem {p : Pos} (h : p.WF M) {i : Inst} {rest : List Inst} (hp : p.todo = i :: rest) :
    i ∈ p.block.insts := by
  apply h.todo.subset
  rw [hp]
  exact List.mem_cons_self

theorem Pos.WF.rest {p : Pos} (h : p.WF M) {i : Inst} {rest : List Inst}
    (hp : p.todo = i :: rest) : Pos.WF M { p with todo := rest } := by
  refine ⟨h.func, h.block, List.IsSuffix.trans ?_ h.todo⟩
  rw [hp]
  exact List.suffix_cons i rest

theorem blockStart_eq {f : Function} {s : BlockId} {q : Pos} (h : f.blockStart s = some q) :
    ∃ b ∈ f.blocks, q = Pos.start f b := by
  obtain ⟨b, hb, rfl⟩ := Option.map_eq_some_iff.mp h
  exact ⟨b, List.mem_of_find?_eq_some hb, rfl⟩

theorem functionStart_eq {g : FuncId} {q : Pos} (h : M.functionStart g = some q) :
    ∃ f ∈ M.funcs, f.id = g ∧ ∃ b ∈ f.blocks, q = Pos.start f b := by
  obtain ⟨f, hf, hstart⟩ := Option.bind_eq_some_iff.mp h
  obtain ⟨b, hb, rfl⟩ := Option.map_eq_some_iff.mp hstart
  have hid : f.id = g := by simpa using List.find?_some hf
  exact ⟨f, List.mem_of_find?_eq_some hf, hid, b, List.mem_of_mem_head? hb, rfl⟩

theorem wf_start {f : Function} (hf : f ∈ M.funcs) {b : Block} (hb : b ∈ f.blocks) :
    (Pos.start f b).WF M :=
  ⟨hf, hb, List.suffix_rfl⟩

theorem entered_eq {i : Inst} {q : Pos} (h : E.entered i = some q) :
    ∃ g, i.calledFunction = some g ∧ E.isRecursive g = false ∧ M.functionStart g = some q := by
  obtain ⟨g, hg, hstart⟩ := Option.bind_eq_some_iff.mp h
  split_ifs at hstart with hrec
  exact ⟨g, hg, Bool.not_eq_true _ ▸ hrec, hstart⟩

theorem asCallBase_of_calledFunction {i : Inst} {g : FuncId} (h : i.calledFunction = some g) :
    i.kind.asCallBase.isSome = true := by
  obtain ⟨c, hc, -⟩ := Option.bind_eq_some_iff.mp h
  rw [hc]
  rfl

theorem mem_callSitesOf {s : Site} {g : FuncId} :
    s ∈ M.callSitesOf g ↔ s.func ∈ M.funcs ∧ s.block ∈ s.func.blocks ∧ s.inst ∈ s.block.insts ∧
      s.inst.calledFunction = some g ∧ (M.functionStart g).isSome = true := by
  unfold Module.callSitesOf
  simp only [List.mem_flatMap, List.mem_map, List.mem_filter, Bool.and_eq_true, beq_iff_eq]
  constructor
  · rintro ⟨f, hf, b, hb, i, ⟨hi, hg, hstart⟩, rfl⟩
    exact ⟨hf, hb, hi, hg, hstart⟩
  · intro ⟨hf, hb, hi, hg, hstart⟩
    exact ⟨s.func, hf, s.block, hb, s.inst, ⟨hi, hg, hstart⟩, rfl⟩

theorem wf_of_mem_callSitesOf {s : Site} {g : FuncId} (h : s ∈ M.callSitesOf g) : s.WF M := by
  obtain ⟨hf, hb, hi, hg, -⟩ := mem_callSitesOf.mp h
  exact ⟨hf, hb, hi, asCallBase_of_calledFunction hg⟩

section Landing

variable (hM : M.WF)

include hM

/-- What is not a terminator has an instruction behind it. -/
theorem rest_ne_nil {p : Pos} (h : p.WF M) {i : Inst} {rest : List Inst} (hp : p.todo = i :: rest)
    (hi : i.kind.isTerminator = false) : rest ≠ [] := by
  rintro rfl
  obtain ⟨is, t, hinsts, hterm, -⟩ :=
    hM.terminated p.block (List.mem_flatMap.mpr ⟨p.func, h.func, h.block⟩)
  obtain ⟨done, hdone⟩ := h.todo
  rw [hp, hinsts] at hdone
  obtain ⟨-, hlast⟩ := List.append_inj' hdone rfl
  rw [List.singleton_inj.mp hlast, hterm] at hi
  cases hi

/-- A terminator is the last instruction of its block. -/
theorem rest_eq_nil {p : Pos} (h : p.WF M) {i : Inst} {rest : List Inst} (hp : p.todo = i :: rest)
    (hi : i.kind.isTerminator = true) : rest = [] ∧ p.block.terminator = some i := by
  obtain ⟨is, t, hinsts, hterm, hothers⟩ :=
    hM.terminated p.block (List.mem_flatMap.mpr ⟨p.func, h.func, h.block⟩)
  obtain ⟨done, hdone⟩ := h.todo
  rw [hp, hinsts] at hdone
  obtain rfl | ⟨x, last, rfl⟩ := List.eq_nil_or_concat rest
  · obtain ⟨-, hlast⟩ := List.append_inj' hdone rfl
    unfold Block.terminator
    rw [hinsts, List.getLast?_concat, List.singleton_inj.mp hlast]
    exact ⟨rfl, rfl⟩
  · rw [List.concat_eq_append, ← List.cons_append, ← List.append_assoc] at hdone
    obtain ⟨hinit, -⟩ := List.append_inj' hdone rfl
    have hmem : i ∈ is := by
      rw [← hinit]
      simp
    rw [hothers i hmem] at hi
    cases hi

theorem blockStart_ne_nil {f : Function} (hf : f ∈ M.funcs) {s : BlockId} {q : Pos}
    (hq : f.blockStart s = some q) : q.WF M ∧ q.todo ≠ [] := by
  obtain ⟨b, hb, rfl⟩ := blockStart_eq hq
  exact ⟨wf_start hf hb, hM.insts_ne_nil hf hb⟩

/-- The instructions behind a call. -/
theorem after_eq {s : Site} (h : s.WF M) {done rest : List Inst}
    (hsplit : s.block.insts = done ++ s.inst :: rest) : s.after = rest := by
  have hnodup := hM.insts_nodup_of_block h.func h.block
  have hdone : ∀ i ∈ done, (i.id != s.inst.id) = true := by
    intro i hi
    rw [hsplit, List.map_append, List.nodup_append] at hnodup
    have hne := hnodup.2.2 i.id (List.mem_map_of_mem hi) s.inst.id (by simp)
    simpa using hne
  unfold Site.after
  rw [hsplit, List.dropWhile_append_of_pos hdone, List.dropWhile_cons_of_neg (by simp)]
  rfl

/-- A call that is no invoke, at its place. -/
theorem after_of_call {s : Site} (h : s.WF M) (hterm : s.inst.kind.isTerminator = false) :
    Pos.WF M ⟨s.func, s.block, s.inst :: s.after⟩ ∧ s.after ≠ [] := by
  obtain ⟨done, rest, hsplit⟩ := List.append_of_mem h.inst
  rw [after_eq hM h hsplit]
  have hwf : Pos.WF M ⟨s.func, s.block, s.inst :: rest⟩ :=
    ⟨h.func, h.block, ⟨done, hsplit.symm⟩⟩
  exact ⟨hwf, rest_ne_nil hM hwf rfl hterm⟩

omit hM in
/-- A call is a terminator exactly when it is an invoke. -/
theorem invoke_or_not_terminator {k : InstKind} (h : k.asCallBase.isSome = true) :
    (∃ callee args normal unwind, k = .invoke callee args normal unwind) ∨
      k.isTerminator = false ∧
        ∀ callee args normal unwind, k ≠ .invoke callee args normal unwind := by
  cases k with
  | call callee args => exact .inr ⟨rfl, fun _ _ _ _ h => nomatch h⟩
  | invoke callee args normal unwind => exact .inl ⟨callee, args, normal, unwind, rfl⟩
  | _ => cases h

omit hM in
theorem landings_of_not_invoke {s : Site}
    (h : ∀ callee args normal unwind, s.inst.kind ≠ .invoke callee args normal unwind) :
    s.landings = [⟨s.func, s.block, s.after⟩] := by
  unfold Site.landings
  split
  · rename_i heq
    exact absurd heq (h _ _ _ _)
  · rfl

omit hM in
theorem mem_landings_of_invoke {s : Site} {callee : Callee} {args : List Value}
    {normal unwind : BlockId} (h : s.inst.kind = .invoke callee args normal unwind) {q : Pos} :
    q ∈ s.landings ↔ s.func.blockStart normal = some q ∨ s.func.blockStart unwind = some q := by
  unfold Site.landings
  rw [h]
  dsimp only
  by_cases hne : unwind ≠ normal
  · rw [if_pos hne, List.mem_append, Option.mem_toList, Option.mem_toList]
  · rw [if_neg hne, List.append_nil, Option.mem_toList, not_not.mp hne, or_self]

/-- A callee returns to an instruction of the caller. -/
theorem wf_of_mem_landings {s : Site} (h : s.WF M) {q : Pos} (hq : q ∈ s.landings) :
    q.WF M ∧ q.todo ≠ [] ∧ q.func = s.func := by
  obtain ⟨callee, args, normal, unwind, hk⟩ | ⟨hterm, hk⟩ := invoke_or_not_terminator h.call
  · have hstart : ∃ b, s.func.blockStart b = some q := by
      obtain hq | hq := (mem_landings_of_invoke hk).mp hq
      · exact ⟨normal, hq⟩
      · exact ⟨unwind, hq⟩
    obtain ⟨b, hb⟩ := hstart
    obtain ⟨hwf, hne⟩ := blockStart_ne_nil hM h.func hb
    obtain ⟨blk, -, rfl⟩ := blockStart_eq hb
    exact ⟨hwf, hne, rfl⟩
  · rw [landings_of_not_invoke hk, List.mem_singleton] at hq
    subst hq
    obtain ⟨hwf, hne⟩ := after_of_call hM h hterm
    exact ⟨hwf.rest rfl, hne, rfl⟩

theorem wf_of_entered {i : Inst} {q : Pos} (h : E.entered i = some q) :
    q.WF M ∧ q.todo ≠ [] := by
  obtain ⟨g, -, -, hstart⟩ := entered_eq E h
  obtain ⟨f, hf, -, b, hb, rfl⟩ := functionStart_eq hstart
  exact ⟨wf_start hf hb, hM.insts_ne_nil hf hb⟩

end Landing

/-! ## Domination -/

/-- The pending calls are calls of the functions they are to return from. -/
def Pending : Function → List Site → Prop
  | _, [] => True
  | f, s :: k => s ∈ M.callSitesOf f.id ∧ E.isRecursive f.id = false ∧ Pending s.func k

/-- A configuration on a path. -/
structure OnPath (c : Config) : Prop where
  wf : c.pos.WF M
  pending : Pending E c.pos.func c.pending

theorem OnPath.step (hM : M.WF) {c c' : Config} (h : OnPath E c) (hstep : PathStep E c c') :
    OnPath E c' := by
  cases hstep with
  | stepOver hp hstay hterm => exact ⟨h.wf.rest hp, h.pending⟩
  | @enter p i rest k n q hp henter =>
      refine ⟨(wf_of_entered E hM henter).1, ?_⟩
      obtain ⟨g, hg, hrec, hstart⟩ := entered_eq E henter
      have hsite : (⟨p.func, p.block, i⟩ : Site) ∈ M.callSitesOf g := by
        refine mem_callSitesOf.mpr ⟨h.wf.func, h.wf.block, h.wf.mem hp, hg, ?_⟩
        rw [hstart]
        rfl
      obtain ⟨f, -, rfl, b, -, rfl⟩ := functionStart_eq hstart
      exact ⟨hsite, hrec, h.pending⟩
  | @branch p i rest k n s q hp hstay hs hq =>
      refine ⟨(blockStart_ne_nil hM h.wf.func hq).1, ?_⟩
      obtain ⟨b, -, rfl⟩ := blockStart_eq hq
      exact h.pending
  | @back p i rest s k n q hp hret hq =>
      obtain ⟨hsite, -, hpending⟩ := h.pending
      obtain ⟨hwf, -, hfunc⟩ := wf_of_mem_landings hM (wf_of_mem_callSitesOf hsite) hq
      exact ⟨hwf, by rw [hfunc]; exact hpending⟩
  | backAny hp hret hs hq =>
      exact ⟨(wf_of_mem_landings hM (wf_of_mem_callSitesOf hs) hq).1, trivial⟩

/-- **A step of a dominated configuration is answered.** Where the dominating one has nothing
pending any more, it may return to the call the other one returns to. -/
theorem PathStep.simulate {d c c' : Config} (hc : OnPath E c) (hd : d.Dominates c)
    (hstep : PathStep E c c') : ∃ d', PathStep E d d' ∧ d'.Dominates c' := by
  obtain ⟨p, k, n⟩ := d
  obtain ⟨hpos, hpending, hcount⟩ := hd
  obtain rfl : p = c.pos := hpos
  cases hstep with
  | stepOver hp hstay hterm =>
      exact ⟨_, .stepOver hp hstay hterm, rfl, hpending, Nat.add_le_add_right hcount _⟩
  | enter hp henter =>
      exact ⟨_, .enter hp henter, rfl, (List.prefix_cons_inj _).mpr hpending,
        Nat.add_le_add_right hcount 1⟩
  | branch hp hstay hs hq =>
      exact ⟨_, .branch hp hstay hs hq, rfl, hpending, Nat.add_le_add_right hcount 1⟩
  | back hp hret hq =>
      cases k with
      | nil =>
          exact ⟨_, .backAny hp hret hc.pending.1 hq, rfl, List.nil_prefix,
            Nat.add_le_add_right hcount 1⟩
      | cons s' k =>
          obtain ⟨rfl, hrest⟩ := List.cons_prefix_cons.mp hpending
          exact ⟨_, .back hp hret hq, rfl, hrest, Nat.add_le_add_right hcount 1⟩
  | backAny hp hret hs hq =>
      obtain rfl := List.prefix_nil.mp hpending
      exact ⟨_, .backAny hp hret hs hq, rfl, List.prefix_rfl, Nat.add_le_add_right hcount 1⟩

theorem PathStep.count_le {c c' : Config} (h : PathStep E c c') : c.count ≤ c'.count := by
  cases h with
  | stepOver => exact Nat.le_add_right _ _
  | _ => exact Nat.le_succ _

end MSV
