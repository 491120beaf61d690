import MSV.IR.Syntax
import MSV.Lib.Explore
import MSV.Lib.Run

/-!
# The out-of-window analysis

`OutOfWindowPass` starts with every GEP of the module and takes out those that can run within
`windowSize` instructions of a place where the processor may speculate: the successors of a
conditional branch, the cases of a switch, a recursive call, an indirect call. `explore` walks from
such a place, into the functions it calls and back to their callers, with one step counter and one
call stack.

The recursion of `explore` is a list of tasks here. Nothing is done after a recursive call but to
put the counter and the stack back and to explore from another place, so what a call of `explore`
still has to do is a list, and its own calls go in front of it. The counter and the stack are the
ones every call shares.
-/

namespace MSV

/-- A call site: `const CallBase *`, with its parents. -/
structure Site where
  func : Function
  block : Block
  inst : Inst
deriving DecidableEq

/-- An iterator into a block: the instructions from there on. -/
structure Pos where
  func : Function
  block : Block
  todo : List Inst
deriving DecidableEq

namespace Pos

/-- `BB->begin()`. -/
def start (f : Function) (b : Block) : Pos := ⟨f, b, b.insts⟩

end Pos

/-- `getCalledFunction()` of a call or an invoke. -/
def Inst.calledFunction (i : Inst) : Option FuncId :=
  i.kind.asCallBase.bind fun c => c.1.getCalledFunction

/-- `startswith`. -/
def startswith (s pre : String) : Bool := pre.toList.isPrefixOf s.toList

/-- `F->isIntrinsic()`. -/
def Function.isIntrinsic (f : Function) : Bool := startswith f.name "llvm."

namespace Function

/-- The first instruction of a block of the function. -/
def blockStart (f : Function) (b : BlockId) : Option Pos := (f.block? b).map (Pos.start f)

end Function

namespace Module

variable (M : Module)

/-- `F->begin()->begin()`, if `F` is no declaration. -/
def functionStart (g : FuncId) : Option Pos :=
  (M.func? g).bind fun f => f.blocks.head?.map (Pos.start f)

/-- The calls of a function that is no declaration. -/
def callSitesOf (g : FuncId) : List Site :=
  M.funcs.flatMap fun f => f.blocks.flatMap fun b =>
    (b.insts.filter fun i => i.calledFunction == some g && (M.functionStart g).isSome).map
      (⟨f, b, ·⟩)

/-- A call of a debug intrinsic. -/
def isDebugFunction (g : FuncId) : Bool :=
  (M.func? g).any fun f => f.isDeclaration && startswith f.name "llvm.dbg."

end Module

namespace Site

/-- `++findInstructionIterator(callInst)`. -/
def after (s : Site) : List Inst := (s.block.insts.dropWhile fun i => i.id != s.inst.id).tail

/-- Where the callee returns to: behind the call, or the destinations of an invoke. -/
def landings (s : Site) : List Pos :=
  match s.inst.kind with
  | .invoke _ _ normal unwind =>
      (s.func.blockStart normal).toList ++
        if unwind ≠ normal then (s.func.blockStart unwind).toList else []
  | _ => [⟨s.func, s.block, s.after⟩]

end Site

/-- What the pass is given. -/
structure WindowEnv (M : Module) where
  /-- `-spec-window`. -/
  windowSize : Int
  /-- The called nodes of the call graph; a node without a function is `none`. -/
  CG : FuncId → List (Option FuncId)
  mainFunction : Function
  main_mem : mainFunction ∈ M.funcs
  /-- `functionCallSiteMap`: a set of pointers, in the order of their addresses. -/
  functionCallSiteMap : FuncId → List Site
  callSites_perm : ∀ g, (functionCallSiteMap g).Perm (M.callSitesOf g)

namespace WindowEnv

variable {M : Module} (E : WindowEnv M)

/-- The callees `dfs` goes on to. -/
def callees (g : FuncId) : List FuncId :=
  if (M.func? g).any Function.isIntrinsic then []
  else ((E.CG g).filterMap id).filter fun h => (M.functionStart h).isSome

/-- `isRecursive`, which is `dfs(&F, &F, CG, Visited)`. -/
def isRecursive (g : FuncId) : Bool :=
  (dfs E.callees g ((M.funcs.map Function.id).length + 1) g []).1

end WindowEnv

/-- What is left to do. -/
inductive Task where
  /-- `int step = 0; explore(inst, &step)`, from `analyzeFunction`. -/
  | start (p : Pos)
  | explore (p : Pos)
  /-- `*step = stepFreeze; callStack = oldCallStack`. -/
  | restore (step : Nat) (callStack : List Site)
  /-- `callStack.clear()`. -/
  | clear
  /-- Queue the functions that are called. -/
  | callees (f : Function)

/-- The state of the pass. The top of `callStack` is its head. -/
structure Window where
  functionsWillBeAnalyzed : List Function
  visitedFunctions : List FuncId
  OOWInstructions : List InstId
  callStack : List Site
  visitedInstructions : List (InstId × Nat)
  step : Nat
  /-- `inst` and `BB` of the running `explore`. -/
  cursor : Option Pos
  tasks : List Task

namespace Window

variable {M : Module} (E : WindowEnv M)

/-! ## `explore` -/

/-- `return`, with some tasks to do first. -/
def leave (w : Window) (ts : List Task) : Window :=
  { w with cursor := none, tasks := ts ++ w.tasks }

/-- A call of `explore`. -/
def enter (w : Window) (p : Pos) : Window :=
  match p.todo with
  | [] => w
  | i :: _ =>
      if (i.id, w.step) ∈ w.visitedInstructions then w
      else { w with
        visitedInstructions := (i.id, w.step) :: w.visitedInstructions
        cursor := some p }

/-- No successor, and the call stack is empty: go to every caller. -/
def toCallers (w : Window) (f : Function) : Window :=
  if E.isRecursive f.id then w.leave []
  else
    w.leave <| ((E.functionCallSiteMap f.id).filter fun s => !E.isRecursive s.func.id).flatMap
      fun s => s.landings.flatMap fun p => [.explore p, .restore w.step []]

/-- Both destinations of an invoke, the second with the counter and the stack as they are given. -/
def bothDestinations (f : Function) (normal unwind : BlockId) (step : Nat) (callStack : List Site) :
    List Task :=
  (f.blockStart normal).toList.map Task.explore ++ [Task.restore step callStack] ++
    if unwind ≠ normal then (f.blockStart unwind).toList.map Task.explore else []

/-- No successor, and the call stack is not empty: go to the call on top. -/
def toCallSite (w : Window) (s : Site) (rest : List Site) : Window :=
  match s.inst.kind with
  | .invoke _ _ normal unwind =>
      { w with callStack := rest }.leave (bothDestinations s.func normal unwind w.step rest)
  | _ => { w with cursor := some ⟨s.func, s.block, s.after⟩, callStack := rest }

def endOfFunction (w : Window) (f : Function) : Window :=
  match w.callStack with
  | [] => w.toCallers E f
  | s :: rest => w.toCallSite s rest

/-- `inst == BB->end()`. -/
def endOfBlock (w : Window) (p : Pos) : Window :=
  match p.block.terminator with
  | none => w.leave []
  | some t =>
      match t.kind with
      | .switch .. | .condBr .. => w.leave []
      | .invoke _ _ normal unwind =>
          if (t.calledFunction.bind M.functionStart).isNone then
            { w with step := w.step + 1 }.leave
              (bothDestinations p.func normal unwind w.step w.callStack)
          else w.endOfFunction E p.func
      | k =>
          match k.successors with
          | [s] => { w with cursor := p.func.blockStart s }
          | _ => w.endOfFunction E p.func

/-- An instruction that counts. -/
def count (w : Window) (p : Pos) (i : Inst) (rest : List Inst) : Window :=
  { w with
    OOWInstructions := w.OOWInstructions.filter (· != i.id)
    cursor := some { p with todo := rest }
    step := w.step + 1 }

/-- What a call does before it is counted, if it does something else. -/
def visit (w : Window) (p : Pos) (i : Inst) (rest : List Inst) : Window :=
  match i.calledFunction with
  | some g =>
      if E.isRecursive g then w.count p i rest
      else
        match M.functionStart g with
        | some q =>
            { w with
              cursor := some q
              step := w.step + 1
              callStack := ⟨p.func, p.block, i⟩ :: w.callStack }
        | none =>
            if M.isDebugFunction g then { w with cursor := some { p with todo := rest } }
            else w.count p i rest
  | none => w.count p i rest

/-- One turn of the loop of `explore`. -/
def turn (w : Window) (p : Pos) : Window :=
  if (w.step : Int) < E.windowSize then
    match p.todo with
    | [] => w.endOfBlock E p
    | i :: rest => w.visit E p i rest
  else w.leave []

/-! ## `analyzeFunction` and `runOnModule` -/

/-- A recursive call, or one without a called function, is treated as a branch. -/
def isSourceCall (i : Inst) : Bool :=
  i.kind.asCallBase.isSome && (i.calledFunction.all fun g => E.isRecursive g)

def callStarts (f : Function) (b : Block) : List Task :=
  b.insts.tails.flatMap fun todo =>
    match todo with
    | i :: _ => if isSourceCall E i then [.start ⟨f, b, todo⟩] else []
    | [] => []

/-- The destinations that are explored: a switch's cases, without its default. -/
def exploredDestinations : InstKind → List BlockId
  | .condBr _ t f => [t, f]
  | .switch _ _ cases => cases.map Prod.snd
  | _ => []

def branchStarts (f : Function) (b : Block) : List Task :=
  match b.terminator with
  | some t => (exploredDestinations t.kind).flatMap fun s =>
      (f.blockStart s).toList.flatMap fun p => [.start p, .clear]
  | none => []

def analyzeFunction (f : Function) : List Task :=
  if f.isDeclaration then []
  else f.blocks.flatMap (callStarts E f) ++ f.blocks.flatMap (branchStarts f)

/-- The called functions that have not been visited. -/
def queued (w : Window) (f : Function) : List Function :=
  f.insts.filterMap fun i =>
    (i.calledFunction.bind M.func?).filter fun g => g.id ∉ w.visitedFunctions

/-- One task. -/
def perform (w : Window) : Task → Window
  | .start p => { w with step := 0 }.enter p
  | .explore p => w.enter p
  | .restore n l => { w with step := n, callStack := l }
  | .clear => { w with callStack := [] }
  | .callees f =>
      { w with functionsWillBeAnalyzed := w.functionsWillBeAnalyzed ++ queued (M := M) w f }

/-- The next function of the queue. -/
def analyze (w : Window) (f : Function) (rest : List Function) : Window :=
  { w with
    functionsWillBeAnalyzed := rest
    visitedFunctions := f.id :: w.visitedFunctions
    tasks := analyzeFunction E f ++ [.callees f] }

def next (w : Window) : Option Window :=
  match w.cursor with
  | some p => some (w.turn E p)
  | none =>
      match w.tasks with
      | t :: ts => some (perform (M := M) { w with tasks := ts } t)
      | [] =>
          match w.functionsWillBeAnalyzed with
          | f :: rest => some (w.analyze E f rest)
          | [] => none

/-- All GEPs are out of the window at first. -/
def initial : Window where
  functionsWillBeAnalyzed := [E.mainFunction]
  visitedFunctions := []
  OOWInstructions := (M.insts.filter fun i => i.kind.isGEP).map Inst.id
  callStack := []
  visitedInstructions := []
  step := 0
  cursor := none
  tasks := []

end Window

end MSV
