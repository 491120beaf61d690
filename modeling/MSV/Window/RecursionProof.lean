import MSV.Lib.FMap
import MSV.Window.Paths

/-!
# The recursion test

`isRecursive` keeps its answers in `recursionCache`. What the cache holds is what the search gives,
after any queries, so the model of the pass asks the search each time; and the search finds the
functions that are called again on a path through functions with a body.

**Theorem (`isRecursive_exact`).** After any queries, the answer for a function that is no intrinsic
is the one of the search, and it is true exactly when there is such a path.
-/

namespace MSV

variable {M : Module}

/-- Intrinsics have no body. -/
def Module.IntrinsicsDeclared (M : Module) : Prop :=
  ∀ f ∈ M.funcs, f.isIntrinsic = true → f.isDeclaration = true

namespace WindowEnv

variable (E : WindowEnv M)

/-- `isRecursive` with its cache. -/
def isRecursiveCached (recursionCache : FMap FuncId Bool) (g : FuncId) : Bool × FMap FuncId Bool :=
  match recursionCache.find g with
  | some answer => (answer, recursionCache)
  | none =>
      let result := E.isRecursive g
      (result, recursionCache.set g result)

/-- `recursionCache` after some queries. -/
def cacheAfter (queries : List FuncId) : FMap FuncId Bool :=
  queries.foldl (fun recursionCache g => (E.isRecursiveCached recursionCache g).2) ∅

/-- The cache holds what the search gives. -/
def CacheOK (recursionCache : FMap FuncId Bool) : Prop :=
  ∀ g answer, recursionCache.find g = some answer → answer = E.isRecursive g

/-- `g` calls `h`, which has a body. -/
def CallsDefined (g h : FuncId) : Prop := some h ∈ E.CG g ∧ (M.functionStart h).isSome = true

variable {E}

/-! ## The cache -/

theorem isRecursiveCached_fst {recursionCache : FMap FuncId Bool} (h : E.CacheOK recursionCache)
    (g : FuncId) : (E.isRecursiveCached recursionCache g).1 = E.isRecursive g := by
  unfold isRecursiveCached
  split
  · rename_i answer hfind
    exact h g answer hfind
  · rfl

/-- **A query keeps the cache right.** -/
theorem CacheOK.query {recursionCache : FMap FuncId Bool} (h : E.CacheOK recursionCache)
    (g : FuncId) : E.CacheOK (E.isRecursiveCached recursionCache g).2 := by
  unfold isRecursiveCached
  split
  · exact h
  · intro k answer hfind
    rw [FMap.find_set] at hfind
    split_ifs at hfind with hk
    · obtain rfl := Option.some.inj hfind
      rw [hk]
    · exact h k answer hfind

theorem cacheOK_cacheAfter (queries : List FuncId) : E.CacheOK (E.cacheAfter queries) := by
  have hrun : ∀ recursionCache, E.CacheOK recursionCache →
      E.CacheOK (queries.foldl
        (fun recursionCache g => (E.isRecursiveCached recursionCache g).2) recursionCache) := by
    induction queries with
    | nil => exact fun _ h => h
    | cons g queries ih => exact fun c h => ih _ (h.query g)
  exact hrun ∅ fun g answer hfind => by cases hfind

/-! ## The search -/

theorem not_isIntrinsic_of_functionStart (hM : M.IntrinsicsDeclared) {g : FuncId}
    (h : (M.functionStart g).isSome = true) : (M.func? g).any Function.isIntrinsic = false := by
  obtain ⟨q, hq⟩ := Option.isSome_iff_exists.mp h
  obtain ⟨f, hf, hstart⟩ := Option.bind_eq_some_iff.mp hq
  rw [hf, Option.any_some, ← Bool.not_eq_true]
  intro hintrinsic
  have hdecl := hM f (List.mem_of_find?_eq_some hf) hintrinsic
  rw [Function.isDeclaration, List.isEmpty_iff] at hdecl
  rw [hdecl] at hstart
  cases hstart

/-- Of a function that is no intrinsic the search follows the calls to functions with a body. -/
theorem calls_iff {g h : FuncId} (hg : (M.func? g).any Function.isIntrinsic = false) :
    E.Calls g h ↔ E.CallsDefined g h := by
  unfold Calls CallsDefined callees
  rw [if_neg (by rw [hg]; decide), List.mem_filter, List.mem_filterMap]
  simp

/-- The paths are the same. -/
theorem transGen_calls_iff (hM : M.IntrinsicsDeclared) {g h : FuncId}
    (hg : (M.func? g).any Function.isIntrinsic = false) :
    Relation.TransGen E.Calls g h ↔ Relation.TransGen E.CallsDefined g h := by
  -- a function that is called has a body, so that it is no intrinsic
  constructor
  · intro hpath
    have hboth : Relation.TransGen E.CallsDefined g h ∧ (M.functionStart h).isSome = true := by
      induction hpath with
      | single hcall =>
          have hdef := (calls_iff hg).mp hcall
          exact ⟨.single hdef, hdef.2⟩
      | tail _ hcall ih =>
          have hdef := (calls_iff (not_isIntrinsic_of_functionStart hM ih.2)).mp hcall
          exact ⟨ih.1.tail hdef, hdef.2⟩
    exact hboth.1
  · intro hpath
    have hboth : Relation.TransGen E.Calls g h ∧ (M.functionStart h).isSome = true := by
      induction hpath with
      | single hdef => exact ⟨.single ((calls_iff hg).mpr hdef), hdef.2⟩
      | tail _ hdef ih =>
          have hcall := (calls_iff (not_isIntrinsic_of_functionStart hM ih.2)).mpr hdef
          exact ⟨ih.1.tail hcall, hdef.2⟩
    exact hboth.1

end WindowEnv

open WindowEnv

/-- After any queries, the answer for a function that is no intrinsic is the one of the search, and
it is true exactly when a path of calls leads back to it through functions with a body. -/
theorem isRecursive_exact (hM : M.IntrinsicsDeclared) (E : WindowEnv M) (queries : List FuncId)
    {g : FuncId} {f : Function} (hf : M.func? g = some f) (hintrinsic : f.isIntrinsic = false) :
    (E.isRecursiveCached (E.cacheAfter queries) g).1 = E.isRecursive g ∧
      ((E.isRecursiveCached (E.cacheAfter queries) g).1 = true ↔
        Relation.TransGen E.CallsDefined g g) := by
  have hanswer := isRecursiveCached_fst (cacheOK_cacheAfter (E := E) queries) g
  have hid : f.id = g := by simpa using List.find?_some hf
  have hsearch := isRecursive_iff (E := E) (List.mem_of_find?_eq_some hf)
  rw [hid] at hsearch
  refine ⟨hanswer, ?_⟩
  rw [hanswer, hsearch]
  exact transGen_calls_iff hM (by rw [hf]; exact hintrinsic)

/-- `even` and `odd` call each other, and `main` calls `even` and something declared. -/
def parityModule : Module where
  structs := fun _ => []
  globals := []
  funcs :=
    [⟨0, "main", [], [⟨0, [⟨0, .int 32, .call (.direct 1) []⟩, ⟨1, .void, .call (.direct 3) []⟩,
      ⟨2, .void, .ret none⟩]⟩]⟩,
    ⟨1, "even", [], [⟨1, [⟨3, .int 32, .call (.direct 2) []⟩, ⟨4, .void, .ret none⟩]⟩]⟩,
    ⟨2, "odd", [], [⟨2, [⟨5, .int 32, .call (.direct 1) []⟩, ⟨6, .void, .ret none⟩]⟩]⟩,
    ⟨3, "llvm.trap", [], []⟩]

def parityEnv : WindowEnv parityModule where
  windowSize := 200
  CG := fun g => match g with
    | 0 => [some 1, some 3]
    | 1 => [some 2]
    | 2 => [none, some 1]
    | _ => []
  mainFunction := parityModule.funcs.head (List.cons_ne_nil _ _)
  main_mem := List.head_mem _
  functionCallSiteMap := parityModule.callSitesOf
  callSites_perm := fun _ => List.Perm.refl _

/-- `odd` is recursive, asked for after `main` and `even`, and `main` is not. -/
theorem odd_recursive :
    (parityEnv.isRecursiveCached (parityEnv.cacheAfter [0, 1]) 2).1 = true ∧
      ¬ Relation.TransGen parityEnv.CallsDefined 0 0 := by
  have hM : parityModule.IntrinsicsDeclared := by
    unfold Module.IntrinsicsDeclared
    decide
  have hodd : Relation.TransGen parityEnv.CallsDefined 2 2 :=
    .tail (.single (b := 1) ⟨by decide, by decide⟩) ⟨by decide, by decide⟩
  have hmain := (isRecursive_exact hM parityEnv [2] (g := 0) rfl (by decide)).2
  refine ⟨(isRecursive_exact hM parityEnv [0, 1] (g := 2) rfl (by decide)).2.mpr hodd, ?_⟩
  rw [← hmain]
  decide

end MSV
