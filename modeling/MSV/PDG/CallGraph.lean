import MSV.IR.Syntax
import MSV.Lib.PathSearch
import MSV.Lib.QueueSearch
import MSV.PDG.Graph

/-!
# The call graph

`PDGCallGraph` has a node for every function with a body. A call leads to the function it names, or,
where it names none, to the exported functions of a matching signature. Calls that may throw,
`invoke`, are not looked at. `computeTransitiveClosure` lists what a function may call, directly or
not, except through functions that print warnings; `computePaths` looks for a path of calls.

**Theorem (`mem_computeTransitiveClosure_iff`).** The closure of a function lists the functions that
may be active while it is, with no excluded function active between them, if every call
through a pointer calls one of its candidates.

**Theorem (`computePaths_spec`).** `computePaths` finds a single path without repetitions, and none
exactly if there is none.
-/

namespace MSV.CallGraph

/-! ## The program -/

/-- A call. `calledFunc` is what `getCalledFunc` finds. -/
structure CallSite where
  isInvoke : Bool
  calledFunc : Option FuncId
  resultTy : Ty
  argTys : List Ty
deriving DecidableEq

structure Func where
  id : FuncId
  name : String
  isDeclaration : Bool
  isVarArg : Bool
  returnTy : Ty
  params : List Ty
  calls : List CallSite
deriving DecidableEq

/-- A program, with the contents of the file of exported functions. -/
structure Program where
  funcs : List Func
  structName : StructId → String
  exportedFuncNames : List String

variable (P : Program)

namespace Program

/-- The functions with a body. -/
def defined : List Func := P.funcs.filter fun F => !F.isDeclaration

/-- The function has a node. -/
def hasNode (f : FuncId) : Bool := P.defined.any fun F => F.id == f

def nameOf (f : FuncId) : String := ((P.funcs.find? fun F => F.id == f).map Func.name).getD ""

end Program

/-! ## Names -/

/-- The place of the first dot from a position on. -/
def findDot (cs : List Char) (from' : Nat) : Option Nat :=
  ((cs.drop from').findIdx? fun c => c == '.').map fun i => from' + i

/-- Up to the first dot. -/
def stripFuncNameVersionNumber (s : String) : String :=
  match findDot s.toList 0 with
  | none => s
  | some pos => String.ofList (s.toList.take pos)

/-- Up to the second dot, not counting one at the start. -/
def stripVersionTag (s : String) : String :=
  match findDot s.toList 1 with
  | none => s
  | some pos =>
      match findDot s.toList (pos + 1) with
      | none => s
      | some pos => String.ofList (s.toList.take pos)

def excludeFuncNames : List String :=
  ["warn_slowpath_fmt", "netdev_warn", "netdev_err", "netdev_info", "dev_warn", "dev_err",
    "dev_info", "kasprintf", "kvasprintf", "copy_user_overflow"]

def isExcludeFunc (f : FuncId) : Bool :=
  excludeFuncNames.contains (stripFuncNameVersionNumber (P.nameOf f))

def isExportedFunc (F : Func) : Bool :=
  P.exportedFuncNames.contains (stripFuncNameVersionNumber F.name)

/-! ## Calls through pointers -/

/-- Linking may leave several copies of a struct type, so that their names are compared. -/
def isTypeEqual (t1 t2 : Ty) : Bool :=
  t1 == t2 ||
    match t1, t2 with
    | .ptr (.struct a), .ptr (.struct b) =>
        stripVersionTag (P.structName a) == stripVersionTag (P.structName b)
    | _, _ => false

def isFuncSignatureMatch (ci : CallSite) (F : Func) : Bool :=
  !F.isVarArg && ci.argTys.length == F.params.length && isTypeEqual P ci.resultTy F.returnTy &&
    (ci.argTys.zip F.params).all fun x => isTypeEqual P x.1 x.2

def getIndirectCallCandidates (ci : CallSite) : List FuncId :=
  (P.defined.filter fun F => isFuncSignatureMatch P ci F && isExportedFunc P F).map Func.id

/-! ## The graph -/

/-- The edges of a call. -/
def callEdges (F : Func) (ci : CallSite) : List (Edge FuncId) :=
  if ci.isInvoke then []
  else
    match ci.calledFunc with
    | some g => if P.hasNode g then [⟨F.id, g, .CALL⟩] else []
    | none =>
        ((getIndirectCallCandidates P ci).filter P.hasNode).map fun g => ⟨F.id, g, .IND_CALL⟩

def build : GenericGraph FuncId :=
  (GenericGraph.ofNodes (P.defined.map Func.id)).addNeighbors
    (P.defined.flatMap fun F => F.calls.flatMap (callEdges P F))

/-- The neighbours that are pushed. -/
def pruned (n : FuncId) : List FuncId :=
  ((build P).node n).outNeighbors.filter fun f => !isExcludeFunc P f

def computeTransitiveClosure (src : FuncId) : Option (List FuncId) :=
  QueueSearch.visited (pruned P) (build P).nodeSet src

def computePaths (src sink : FuncId) : List (List FuncId) :=
  PathSearch.paths (fun n => ((build P).node n).outNeighbors) sink (build P).nodeSet src

/-! ## Runs -/

/-- What a call may call. -/
def Target (ci : CallSite) (g : FuncId) : Prop :=
  match ci.calledFunc with
  | some f => g = f
  | none => g ∈ getIndirectCallCandidates P ci

/-- The functions that are active, the innermost first. Functions without a body come back at
once. -/
inductive Step : List FuncId → List FuncId → Prop
  | call {F : Func} {ci : CallSite} {g : FuncId} {rest : List FuncId} : F ∈ P.defined →
      ci ∈ F.calls → ci.isInvoke = false → Target P ci g → P.hasNode g = true →
      Step (F.id :: rest) (g :: F.id :: rest)
  | ret {f : FuncId} {rest : List FuncId} : Step (f :: rest) rest

/-- The functions that may be active while `src` is. -/
def Active (src : FuncId) : List FuncId → Prop := Relation.ReflTransGen (Step P) [src]

/-! ## Edges -/

variable {P}

theorem mem_callEdges {F : Func} {ci : CallSite} {a b : FuncId} :
    (∃ t, ⟨a, b, t⟩ ∈ callEdges P F ci) ↔
      a = F.id ∧ ci.isInvoke = false ∧ Target P ci b ∧ P.hasNode b = true := by
  unfold callEdges Target
  cases hinv : ci.isInvoke with
  | true => simp
  | false =>
    cases hfunc : ci.calledFunc with
    | some g =>
      by_cases hg : P.hasNode g = true
      · simp [hg]
        grind
      · simp [hg]
        grind
    | none =>
      simp
      grind

theorem mem_outNeighbors_build {a b : FuncId} : b ∈ ((build P).node a).outNeighbors ↔
    ∃ F ∈ P.defined, F.id = a ∧ ∃ ci ∈ F.calls, ci.isInvoke = false ∧ Target P ci b ∧
      P.hasNode b = true := by
  have hedges : ∀ e, e ∈ (build P).edges ↔
      ∃ F ∈ P.defined, ∃ ci ∈ F.calls, e ∈ callEdges P F ci := by
    intro e
    rw [build, GenericGraph.mem_edges_addNeighbors]
    simp [GenericGraph.ofNodes]
  rw [(build P).stores.out_any]
  simp only [hedges]
  constructor
  · rintro ⟨t, F, hF, ci, hci, he⟩
    obtain ⟨rfl, hinv, htarget, hnode⟩ := mem_callEdges.mp ⟨t, he⟩
    exact ⟨F, hF, rfl, ci, hci, hinv, htarget, hnode⟩
  · rintro ⟨F, hF, rfl, ci, hci, hinv, htarget, hnode⟩
    obtain ⟨t, he⟩ := mem_callEdges.mpr ⟨rfl, hinv, htarget, hnode⟩
    exact ⟨t, F, hF, ci, hci, he⟩

theorem outNeighbors_mem_nodeSet {a b : FuncId} (h : b ∈ ((build P).node a).outNeighbors) :
    a ∈ (build P).nodeSet ∧ b ∈ (build P).nodeSet := by
  obtain ⟨t, he⟩ := ((build P).stores.out_any a b).mp h
  exact (build P).stores.ends _ he

theorem mem_pruned {a b : FuncId} : b ∈ pruned P a ↔
    b ∈ ((build P).node a).outNeighbors ∧ isExcludeFunc P b = false := by
  simp [pruned]

/-! ## What may be active -/

/-- Functions that are reached without excluded ones may be active together. -/
theorem exists_active {src f : FuncId}
    (h : Relation.ReflTransGen (fun a b => b ∈ pruned P a) src f) :
    ∃ rest, Active P src (f :: rest) ∧ ∀ e ∈ (f :: rest).dropLast, isExcludeFunc P e = false := by
  induction h with
  | refl => exact ⟨[], .refl, fun e he => nomatch he⟩
  | @tail a b _ hab ih =>
    obtain ⟨rest, hactive, hexcl⟩ := ih
    obtain ⟨hout, hb⟩ := mem_pruned.mp hab
    obtain ⟨F, hF, rfl, ci, hci, hinv, htarget, hnode⟩ := mem_outNeighbors_build.mp hout
    refine ⟨F.id :: rest, hactive.tail (.call hF hci hinv htarget hnode), ?_⟩
    rw [List.dropLast_cons_of_ne_nil (List.cons_ne_nil _ _)]
    exact List.forall_mem_cons.mpr ⟨hb, hexcl⟩

/-- **A function that is active is reached by calls, from function to function.** -/
theorem reach_of_active {src : FuncId} {st : List FuncId} (h : Active P src st) :
    ∀ f rest, f :: rest <:+ st → (∀ e ∈ (f :: rest).dropLast, isExcludeFunc P e = false) →
      Relation.ReflTransGen (fun a b => b ∈ pruned P a) src f := by
  induction h with
  | refl =>
    intro f rest hsuf _
    obtain ⟨rfl, -⟩ : f = src ∧ rest = [] := by
      obtain h | h := List.suffix_cons_iff.mp hsuf
      · simpa using h
      · simp at h
    exact .refl
  | tail _ hstep ih =>
    intro f rest hsuf hexcl
    cases hstep with
    | @call F ci g st hF hci hinv htarget hnode =>
      obtain heq | hsuf := List.suffix_cons_iff.mp hsuf
      · obtain ⟨rfl, rfl⟩ := List.cons.inj heq
        rw [List.dropLast_cons_of_ne_nil (List.cons_ne_nil _ _)] at hexcl
        obtain ⟨hf, hexcl⟩ := List.forall_mem_cons.mp hexcl
        exact (ih F.id st List.suffix_rfl hexcl).tail (mem_pruned.mpr
          ⟨mem_outNeighbors_build.mpr ⟨F, hF, rfl, ci, hci, hinv, htarget, hnode⟩, hf⟩)
      · exact ih f rest hsuf hexcl
    | @ret f' _ => exact ih f rest (hsuf.trans (List.suffix_cons f' _)) hexcl

/-- **The closure lists what may be active, up to excluded functions.** -/
theorem mem_computeTransitiveClosure_iff (P : Program) (src : FuncId) :
    ∃ l, computeTransitiveClosure P src = some l ∧ l.Nodup ∧ ∀ f, f ∈ l ↔
      ∃ rest, Active P src (f :: rest) ∧
        ∀ e ∈ (f :: rest).dropLast, isExcludeFunc P e = false := by
  have hnodes : ∀ c, c ∉ (build P).nodeSet → pruned P c = [] := by
    intro c hc
    refine List.eq_nil_iff_forall_not_mem.mpr fun b hb => ?_
    exact hc (outNeighbors_mem_nodeSet (mem_pruned.mp hb).1).1
  obtain ⟨l, hl, hnodup, hmem⟩ := QueueSearch.visited_spec hnodes src
  refine ⟨l, hl, hnodup, fun f => ?_⟩
  rw [hmem]
  constructor
  · exact exists_active
  · rintro ⟨rest, hactive, hexcl⟩
    exact reach_of_active hactive f rest List.suffix_rfl hexcl

/-- **A path of calls is found if there is one.** -/
theorem computePaths_spec (P : Program) (src sink : FuncId) :
    (∃ p, computePaths P src sink = [p] ∧
        PathSearch.IsPath (fun n => ((build P).node n).outNeighbors) sink [] src p) ∨
      (computePaths P src sink = [] ∧
        ¬ Relation.ReflTransGen (fun a b => b ∈ ((build P).node a).outNeighbors) src sink) :=
  PathSearch.paths_spec (fun _ _ hb => (outNeighbors_mem_nodeSet hb).2) src

end MSV.CallGraph
