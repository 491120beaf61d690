import MSV.Lib.FMap
import MSV.Lib.Run
import MSV.IR.Syntax

/-!
# The interprocedural dataflow engine

`ForwardDataflowAnalysis` of `DataflowAnalysis.h`, for any abstract domain. The source is a pair
of mutually recursive loops: a worklist of blocks for each (context, function) pair, which calls
itself at a call site. Here it is a machine whose stack holds one frame per running loop, so that
a statement about "every moment of the analysis" is one about the states of a run.

A step of the machine takes a pair off the context worklist, takes a block off the top frame's
worklist, processes one instruction of the current block, or ends the block or the frame.
-/

namespace MSV

/-! ## Worklists -/

/-- `WorkList`: a queue, and the set of elements believed to be in it. -/
structure WorkList (α : Type*) where
  inList : List α
  work : List α

namespace WorkList

variable {α : Type*} [DecidableEq α]

/-- The constructor from a range of elements. -/
def ofList (l : List α) : WorkList α := ⟨l, l⟩

/-- `add` consults the set but does not enter the element in it. -/
def add (w : WorkList α) (a : α) : WorkList α :=
  if a ∈ w.inList then w else { w with work := w.work ++ [a] }

/-- `take` returns the front of the queue. -/
def take (w : WorkList α) : Option (α × WorkList α) :=
  match w.work with
  | [] => none
  | a :: rest => some (a, ⟨w.inList.filter (· ≠ a), rest⟩)

end WorkList

/-- A call-site context; the analysis uses call strings of length one, and `none` at the entry. -/
abbrev Context := Option InstId

/-- `AbstractState`. -/
abbrev AbstractState (V : Type) := FMap Value V

/-- `DataflowResult`: a state for every block, every instruction and the function itself. -/
abbrev DataflowResult (V : Type) := FMap Value (AbstractState V)

/-- `AllResults`: the two nested maps of the source, as one keyed by the pair. -/
abbrev AllResults (V : Type) := FMap (Context × FuncId) (DataflowResult V)

instance {V : Type} : Inhabited (AbstractState V) := ⟨∅⟩

instance {V : Type} : Inhabited (DataflowResult V) := ⟨∅⟩

/-- The policy classes of the template: equality and operators of the abstract values, and the
transfer function of a value. -/
structure Policy (V : Type) where
  beq : V → V → Bool
  beq_refl : ∀ v, beq v v = true
  meetPair : V → V → V
  intersection : V → V → V
  getRangeForConditionalBranch : Pred → Option Nat → APInt → Bool → Bool → V
  transfer : Value → AbstractState V → AbstractState V

/-! ## Operations on states -/

section

variable {V : Type} [Inhabited V] (P : Policy V)

/-- `Meet::operator()`: a fold from a fresh abstract value. -/
def Policy.meet (values : List V) : V := values.foldl P.meetPair default

/-- `operator==` on abstract states. -/
def stateEq (s1 s2 : AbstractState V) : Bool :=
  s1.size == s2.size && s1.entries.all fun e =>
    match s2.find e.1 with
    | some v => P.beq v e.2
    | none => false

/-- `operator==` on results. -/
def resultsEq (r1 r2 : DataflowResult V) : Bool :=
  r1.size == r2.size && r1.entries.all fun e =>
    match r2.find e.1 with
    | some s => stateEq P s e.2
    | none => false

/-- `mergeInState`. With `balanced`, a key missing on either side becomes a fresh value. -/
def mergeInState (destination toMerge : AbstractState V) (balanced : Bool) : AbstractState V :=
  let destination := if balanced then
      FMap.foldInto (fun k _ v => if toMerge.has k then v else default) destination destination
    else destination
  FMap.foldInto (fun _ old v =>
    match old with
    | some o => P.meet [o, v]
    | none => if balanced then default else v) destination toMerge

/-- The loop over the predecessors: the first is copied, the others are merged balanced. -/
def mergePredecessors (exits : List (AbstractState V)) : AbstractState V :=
  match exits with
  | [] => ∅
  | e :: es => es.foldl (fun s e => mergeInState P s e true) (mergeInState P ∅ e false)

/-- `mergeStateFromPredecessors`: the block's old entry state, then the predecessors' exits. -/
def mergeStateFromPredecessors (oldEntry : AbstractState V) (exits : List (AbstractState V)) :
    AbstractState V :=
  mergeInState P (mergeInState P ∅ oldEntry false) (mergePredecessors P exits) false

/-- `meetOverPHI`. A value without a state is transferred first. -/
def meetOverPHI (incoming : List Value) (s : AbstractState V) : V × AbstractState V :=
  incoming.foldl (fun (acc : V × AbstractState V) v =>
    let s := if acc.2.has v then acc.2 else P.transfer v acc.2
    (P.meet [acc.1, s.get v], s)) (default, s)

/-- `applyTransfer`. -/
def applyTransfer (i : Inst) (s : AbstractState V) : AbstractState V :=
  match i.kind with
  | .phi incoming =>
      let (r, s) := meetOverPHI P incoming s
      s.set (.inst i.id) r
  | _ => P.transfer (.inst i.id) s

end

/-! ## The machine -/

/-- A block being processed: the exit state it had, the current state, what is left to do. -/
structure BlockRun (V : Type) where
  block : Block
  oldExit : AbstractState V
  state : AbstractState V
  todo : List Inst

/-- A running call of `computeForwardDataflow(f, context)`. -/
structure Frame (V : Type) where
  context : Context
  func : Function
  work : WorkList BlockId
  blackmap : FMap BlockId Nat
  run : Option (BlockRun V)

/-- The members of the analysis object, and the stack of running calls, innermost first. -/
structure Engine (V : Type) where
  allResults : AllResults V
  contextWork : WorkList (Context × FuncId)
  callers : FMap (Context × FuncId) (List (Context × FuncId))
  active : List (Context × FuncId)
  stack : List (Frame V)

section

variable {V : Type} [Inhabited V] (M : Module) (P : Policy V) (usePC : Bool)
  (rpot : FuncId → List BlockId)

/-- `isAnalyzableCall`: the called function, when the call is direct and it has a body. -/
def calledDefinition (i : Inst) : Option (Function × List Value) :=
  match i.kind.asCallBase with
  | some (callee, args) =>
      match callee.getCalledFunction.bind M.func? with
      | some f => if f.isDeclaration then none else some (f, args)
      | none => none
  | none => none

/-- `constrainValuesByCondition`: what the guard of a single-predecessor block says. -/
def constrainValuesByCondition (f : Function) (bb : BlockId) : AbstractState V :=
  match (f.getSinglePredecessor bb).bind Block.terminator with
  | some ⟨_, _, .condBr cond ifTrue _⟩ =>
      match M.kindOf cond with
      | some (.icmp pred op0 op1) =>
          let operand : Option (APInt × Value × Bool) :=
            if op0.isConstant && !op1.isConstant then op0.asConstInt.map fun c => (c, op1, false)
            else if op1.isConstant && !op0.isConstant then
              op1.asConstInt.map fun c => (c, op0, true)
            else none
          match operand with
          | some (c, variableOp, isVariableOpFirst) =>
              let opWidth := match M.typeOf op0 with
                | .int w => some w
                | _ => none
              let r := P.getRangeForConditionalBranch pred opWidth c (ifTrue == bb)
                isVariableOpFirst
              let s : AbstractState V := FMap.set ∅ variableOp r
              match M.kindOf variableOp with
              | some (.load ptr) =>
                  match M.kindOf (M.stripPointerCasts ptr) with
                  | some (.alloca ..) => s.set ptr r
                  | _ => s
              | _ => s
          | none => ∅
      | _ => ∅
  | _ => ∅

/-- The entry state computed for a block: old entry, predecessors, summary, and the guard. -/
def entryState (f : Function) (bb : BlockId) (results : DataflowResult V) : AbstractState V :=
  let exits := (f.predecessors bb).map fun p =>
    match p.terminator with
    | some t => results.get (.inst t.id)
    | none => ∅
  let state := mergeStateFromPredecessors P (results.get (.block bb)) exits
  let state := mergeInState P state (results.get (.func f.id)) false
  if usePC then
    FMap.foldInto (fun _ old v =>
      match old with
      | some o => P.intersection o v
      | none => v) state (constrainValuesByCondition M P f bb)
  else state

/-- Recording the state after instruction `i` of a block, `rest` being the instructions after it.
Only what the next instruction mentions is recorded, except at the terminator. -/
def recordState (i : Inst) (rest : List Inst) (state : AbstractState V)
    (results : DataflowResult V) : DataflowResult V :=
  match rest with
  | [] => results.set (.inst i.id) state
  | next :: _ =>
      results.set (.inst i.id) <|
        (.inst next.id :: next.kind.operands).foldl (fun r v =>
          match state.find v with
          | some a => r.set v a
          | none => r) (results.get (.inst i.id))

/-- The successor loop: it stops at the first block that was added more than 100 times. -/
def requeue : List BlockId → WorkList BlockId → FMap BlockId Nat →
    WorkList BlockId × FMap BlockId Nat
  | [], work, blackmap => (work, blackmap)
  | s :: ss, work, blackmap =>
      if blackmap.get s > 100 then (work, blackmap)
      else requeue ss (work.add s) (blackmap.set s (blackmap.get s + 1))

/-- The loop of `analyzeCall` over the arguments: the state, the summary, and `needsUpdate`. -/
def passArguments (f : FuncId) : List Value → Nat → AbstractState V → AbstractState V → Bool →
    AbstractState V × AbstractState V × Bool
  | [], _, state, summary, upd => (state, summary, upd)
  | v :: vs, n, state, summary, upd =>
      let state := if state.has v then state else P.transfer v state
      let arg := summary.get (.arg f n)
      let newState := P.meet [state.get v, arg]
      passArguments f vs (n + 1) state (summary.set (.arg f n) newState)
        (upd || !P.beq newState arg)

namespace Engine

/-- The results of a pair. -/
def results (e : Engine V) (cf : Context × FuncId) : DataflowResult V := e.allResults.get cf

def setResults (e : Engine V) (cf : Context × FuncId) (r : DataflowResult V) : Engine V :=
  { e with allResults := e.allResults.set cf r }

/-- Entering `computeForwardDataflow(f, context)`. The states are created at once, unless the
function already has a summary. -/
def enter (e : Engine V) (f : Function) (context : Context) : Engine V :=
  let results := e.results (context, f.id)
  let results := if results.has (.func f.id) then results else
    let results := f.blocks.foldl (fun r b => r.touch (.block b.id)) results
    f.insts.foldl (fun r i => r.touch (.inst i.id)) results
  let blackmap := (rpot f.id).foldl (fun m b => m.set b 0) (∅ : FMap BlockId Nat)
  { e.setResults (context, f.id) results with
    active := (context, f.id) :: e.active
    stack := ⟨context, f, .ofList (rpot f.id), blackmap, none⟩ :: e.stack }

/-- Taking a block: its entry state is recomputed, and the block is skipped when nothing changed. -/
def takeBlock (e : Engine V) (fr : Frame V) (rest : List (Frame V)) (bb : BlockId)
    (work : WorkList BlockId) : Engine V :=
  match fr.func.block? bb with
  | none => { e with stack := { fr with work := work } :: rest }
  | some b =>
      let cf := (fr.context, fr.func.id)
      let results := ((e.results cf).touch (.block bb)).touch (.func fr.func.id)
      let oldExit := match b.terminator with
        | some t => results.get (.inst t.id)
        | none => ∅
      let state := entryState M P usePC fr.func bb results
      if stateEq P state (results.get (.block bb)) && !state.isEmpty then
        { e.setResults cf results with stack := { fr with work := work } :: rest }
      else
        { e.setResults cf (results.set (.block bb) state) with
          stack := { fr with work := work, run := some ⟨b, oldExit, state, b.insts⟩ } :: rest }

/-- Storing the state after an instruction and moving on to the next one. -/
def advance (e : Engine V) (fr : Frame V) (rest : List (Frame V)) (run : BlockRun V) (i : Inst)
    (todo : List Inst) (state : AbstractState V) : Engine V :=
  let cf := (fr.context, fr.func.id)
  { e.setResults cf (recordState i todo state (e.results cf)) with
    stack := { fr with run := some { run with state := state, todo := todo } } :: rest }

/-- The end of `analyzeCall`: the call gets the callee's summary value. -/
def callDone (e : Engine V) (fr : Frame V) (rest : List (Frame V)) (run : BlockRun V) (i : Inst)
    (todo : List Inst) (callee : FuncId) (state : AbstractState V) : Engine V :=
  let toCall : Context × FuncId := (some i.id, callee)
  let result := ((e.results toCall).get (.func callee)).get (.func callee)
  let e := e.setResults toCall ((e.results toCall).set (.func callee)
    (((e.results toCall).get (.func callee)).touch (.func callee)))
  let cs := (e.callers.find toCall).getD []
  let caller := (fr.context, fr.func.id)
  { e with callers := e.callers.set toCall (if caller ∈ cs then cs else caller :: cs) }.advance
    fr rest run i todo (state.set (.inst i.id) result)

/-- Processing one instruction. At an analyzable call the arguments are merged into the callee's
summary; the callee is entered unless it is running or its summary did not change. -/
def stepInst (e : Engine V) (fr : Frame V) (rest : List (Frame V)) (run : BlockRun V) (i : Inst)
    (todo : List Inst) : Engine V :=
  match calledDefinition M i with
  | none => e.advance fr rest run i todo (applyTransfer P i run.state)
  | some (callee, args) =>
      let toCall : Context × FuncId := (some i.id, callee.id)
      let calledState := e.results toCall
      let summary := calledState.get (.func callee.id)
      let passed := passArguments P callee.id (args.take callee.params.length) 0 run.state summary
        (summary.size == 0)
      let e := e.setResults toCall (calledState.set (.func callee.id) passed.2.1)
      if toCall ∉ e.active ∧ passed.2.2 = true then
        { e with stack := { fr with run := some { run with state := passed.1 } } :: rest }.enter
          rpot callee (some i.id)
      else e.callDone fr rest run i todo callee.id passed.1

/-- The end of a block: successors are queued again when the exit state changed. -/
def endBlock (e : Engine V) (fr : Frame V) (rest : List (Frame V)) (run : BlockRun V) : Engine V :=
  if stateEq P run.state run.oldExit then
    { e with stack := { fr with run := none } :: rest }
  else
    let queued := requeue run.block.successors fr.work fr.blackmap
    let fr := { fr with work := queued.1, blackmap := queued.2, run := none }
    let cf := (fr.context, fr.func.id)
    let e := match run.block.terminator with
      | some ⟨_, _, .ret v⟩ =>
          let results := e.results cf
          let summary := results.get (.func fr.func.id)
          let returned := match v with
            | some v => run.state.get v
            | none => default
          e.setResults cf (results.set (.func fr.func.id)
            (summary.set (.func fr.func.id)
              (P.meet [summary.get (.func fr.func.id), returned])))
      | _ => e
    { e with stack := fr :: rest }

/-- The update of the overall results. `oldResults` is looked up after the loop, in the table the
loop has written to: it is the entry that `results` refers to. -/
def updateResults (e : Engine V) (cf : Context × FuncId) : Engine V :=
  let results := e.results cf
  let oldResults := e.results cf
  if resultsEq P oldResults results then e
  else
    { e.setResults cf results with
      contextWork := ((e.callers.find cf).getD []).foldl WorkList.add e.contextWork }

/-- The end of `computeForwardDataflow(f, context)`. The waiting caller, if any, resumes after its
call. -/
def finish (e : Engine V) (fr : Frame V) (rest : List (Frame V)) : Engine V :=
  let e := { e with active := e.active.filter (· ≠ (fr.context, fr.func.id)), stack := rest }
  match rest with
  | [] => e
  | caller :: rest' =>
      match caller.run with
      | some run =>
          match run.todo with
          | i :: todo => e.callDone caller rest' run i todo fr.func.id run.state
          | [] => e
      | none => e

/-- One step of the analysis. -/
def step (e : Engine V) : Option (Engine V) :=
  match e.stack with
  | [] =>
      match e.contextWork.take with
      | none => none
      | some ((context, f), cw) =>
          match M.func? f with
          | some f => some ({ e with contextWork := cw }.enter rpot f context)
          | none => some { e with contextWork := cw }
  | fr :: rest =>
      match fr.run with
      | none =>
          match fr.work.take with
          | none => some ((e.updateResults P (fr.context, fr.func.id)).finish fr rest)
          | some (bb, work) => some (e.takeBlock M P usePC fr rest bb work)
      | some run =>
          match run.todo with
          | i :: todo => some (e.stepInst M P rpot fr rest run i todo)
          | [] => some (e.endBlock P fr rest run)

/-- The analysis object for the given entry points. -/
def initial (entryPoints : List FuncId) : Engine V where
  allResults := ∅
  contextWork := entryPoints.foldl (fun w f => w.add (none, f)) ⟨[], []⟩
  callers := ∅
  active := []
  stack := []

end Engine

end

end MSV
