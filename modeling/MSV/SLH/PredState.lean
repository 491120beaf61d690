import Mathlib.Data.List.Sort
import MSV.SLH.ControlFlow

/-!
# The predicate state and the control flow

The pass keeps a predicate state in a register: zero as long as every branch went the way its
condition says, all ones from the first branch that did not. `collectBlockCondInfo` finds the
conditional branches of each block, and `tracePredStateThroughCFG` puts conditional moves on the
edges behind them, in a block of its own where the edge is not the only way into its target
(`splitEdge`). `hardenEdgesWithLFENCE` is the alternative that puts a fence behind every branch.
-/

namespace MSV.SLH

/-! ## PHIs in canonical form -/

/-- The positions of the operands whose block has been seen before. -/
def dupIndices (Preds : List Nat) : Nat → List (Reg × Nat) → List Nat
  | _, [] => []
  | i, (_, b) :: ops =>
      if b ∈ Preds then i :: dupIndices Preds (i + 1) ops
      else dupIndices (b :: Preds) (i + 1) ops

/-- The loop over the operands of a PHI; duplicates are removed from the back. -/
def PHI.canonicalize (phi : PHI) : PHI :=
  { phi with ops := (dupIndices [] 0 phi.ops).foldr (fun i ops => ops.eraseIdx i) phi.ops }

/-- `canonicalizePHIOperands`. -/
def canonicalizePHIOperands (F : MachineCFG) : MachineCFG :=
  { F with mbb := fun b => { F.mbb b with phis := (F.mbb b).phis.map PHI.canonicalize } }

/-! ## The conditions of a block -/

/-- `BlockCondInfo`; branches are given by their position among the terminators. -/
structure BlockCondInfo where
  MBB : Nat
  CondBrs : List Nat := []
  UncondBr : Option Nat := none
deriving DecidableEq

/-- The walk backwards through the terminators. -/
def walkTerminators : List (Terminator × Nat) → BlockCondInfo → BlockCondInfo
  | [], info => info
  | (.other, _) :: _, info => { info with CondBrs := [] }
  | (.jmp _, i) :: rest, info =>
      walkTerminators rest { info with CondBrs := [], UncondBr := some i }
  | (.indirect _, i) :: rest, info =>
      walkTerminators rest { info with CondBrs := [], UncondBr := some i }
  | (.jcc .., i) :: rest, info =>
      walkTerminators rest { info with CondBrs := info.CondBrs ++ [i] }

/-- The conditional branches of block `b`. -/
def blockCondInfo (F : MachineCFG) (b : Nat) : BlockCondInfo :=
  walkTerminators (F.mbb b).terms.zipIdx.reverse { MBB := b }

/-- `collectBlockCondInfo`. -/
def collectBlockCondInfo (F : MachineCFG) : List BlockCondInfo :=
  ((F.layout.filter fun b => 1 < (F.mbb b).succs.length).map (blockCondInfo F)).filter
    fun info => !info.CondBrs.isEmpty

/-! ## Splitting an edge -/

/-- The update of a PHI of the successor: `b` is replaced by the new block, when this was the last
edge from it, or the new block gets the same register. -/
def PHI.splitPred (b n : Nat) (last : Bool) (phi : PHI) : PHI :=
  match phi.ops.find? fun op => op.2 == b with
  | none => phi
  | some op =>
      if last then { phi with ops := phi.ops.replaceF fun op => if op.2 = b then some (op.1, n)
        else none }
      else { phi with ops := phi.ops ++ [(op.1, n)] }

/-- `splitEdge`, for the edge from `b` to `s` through the branch `Br`, or by falling through. The
result is the function, the new block, and the unconditional branch of `b`. -/
def splitEdge (F : MachineCFG) (b s : Nat) (SuccCount : Int) (Br UncondBr : Option Nat) :
    MachineCFG × Nat × Option Nat :=
  let n := F.fresh
  let layout := MachineCFG.insertAfter b n F.layout
  let last := SuccCount == 1
  let newMBB : MBB :=
    { terms := match Br with
        | some _ => if MachineCFG.nextIn layout n = some s then [] else [.jmp s]
        | none => []
      succs := [s]
      liveInEFLAGS := (F.mbb s).liveInEFLAGS
      inserted := true }
  -- With a branch in place of the fallthrough, `b` jumps to the block it fell through to.
  let fallthrough : Option Terminator :=
    match Br, UncondBr with
    | some _, none => (MachineCFG.nextIn layout n).map .jmp
    | _, _ => none
  let UncondBr := if fallthrough.isSome then some (F.mbb b).terms.length else UncondBr
  let F : MachineCFG :=
    { layout := layout, mbb := Function.update F.mbb n newMBB, fresh := n + 1 }
  let F := F.modify b fun m =>
    { m with
      terms := (match Br with
        | some i => m.terms.modify i (.setMBB n)
        | none => m.terms) ++ fallthrough.toList
      succs := if last then m.succs.replace s n else m.succs ++ [n] }
  let F := F.modify s fun m => { m with phis := m.phis.map (PHI.splitPred b n last) }
  (F, n, UncondBr)

/-! ## Tracing the state through the edges -/

/-- `BuildCheckingBlockForSuccAndConds`: the conditional moves go to the start of the successor,
if the edge is the only one into it, and else to a block on the edge. -/
def buildCheckingBlockForSuccAndConds (F : MachineCFG) (b s : Nat) (SuccCount : Int)
    (Br UncondBr : Option Nat) (Conds : List CondCode) : MachineCFG × Option Nat :=
  let r : MachineCFG × Nat × Option Nat :=
    if SuccCount = 1 ∧ (F.predecessors s).length = 1 then (F, s, UncondBr)
    else splitEdge F b s SuccCount Br UncondBr
  (r.1.modify r.2.1 fun m => { m with checks := Conds ++ m.checks, liveInEFLAGS := true }, r.2.2)

/-- What the loop over the conditional branches of a block changes. -/
structure CondLoop where
  cfg : MachineCFG
  SuccCounts : Nat → Int
  UncondBr : Option Nat
  UncondCodeSeq : List CondCode

/-- The body of the loop over the conditional branches. -/
def traceCondBr (b : Nat) (L : CondLoop) (CondBr : Nat) : CondLoop :=
  match (L.cfg.mbb b).terms[CondBr]? with
  | some (.jcc Cond Succ) =>
      let r := buildCheckingBlockForSuccAndConds L.cfg b Succ (L.SuccCounts Succ) (some CondBr)
        L.UncondBr [Cond.GetOppositeBranchCondition]
      { cfg := r.1
        SuccCounts := Function.update L.SuccCounts Succ (L.SuccCounts Succ - 1)
        UncondBr := r.2
        UncondCodeSeq := L.UncondCodeSeq ++ [Cond] }
  | _ => L

/-- The successor that is not conditional, unless the block ends in an indirect branch. -/
def uncondSucc (F : MachineCFG) (info : BlockCondInfo) : Option Nat :=
  match info.UncondBr with
  | some i =>
      match (F.mbb info.MBB).terms[i]? with
      | some (.jmp t) => some t
      | _ => none
  | none => F.layoutSucc info.MBB

/-- The number of edges to each successor. -/
def succCounts (F : MachineCFG) (info : BlockCondInfo) (t : Nat) : Int :=
  ((uncondSucc F info).toList ++
    info.CondBrs.filterMap fun i => ((F.mbb info.MBB).terms[i]?).bind Terminator.getMBB).count t

/-- The codes of the unconditional edge, sorted and unique. -/
def sortCodes (codes : List CondCode) : List CondCode :=
  (codes.mergeSort fun a b => a.toNat ≤ b.toNat).dedup

/-- The body of the loop over the blocks. -/
def traceBlock (F : MachineCFG) (info : BlockCondInfo) : MachineCFG :=
  let L := info.CondBrs.foldl (traceCondBr info.MBB)
    ⟨F, succCounts F info, info.UncondBr, []⟩
  match uncondSucc F info with
  | none => L.cfg
  | some u =>
      (buildCheckingBlockForSuccAndConds L.cfg info.MBB u 1 L.UncondBr L.UncondBr
        (sortCodes L.UncondCodeSeq)).1

/-- `tracePredStateThroughCFG`. -/
def tracePredStateThroughCFG (F : MachineCFG) (Infos : List BlockCondInfo) : MachineCFG :=
  Infos.foldl traceBlock F

/-- What `runOnMachineFunction` does with the control flow. -/
def traceCFG (F : MachineCFG) : MachineCFG :=
  tracePredStateThroughCFG (canonicalizePHIOperands F) (collectBlockCondInfo F)

/-! ## Fences on the edges -/

/-- A block whose successors get a fence: it has several, and its terminators start with a
branch. -/
def fencesSuccessors (m : MBB) : Bool :=
  1 < m.succs.length &&
    match m.terms.head? with
    | some t => t.isBranch
    | none => false

/-- `hardenEdgesWithLFENCE`. -/
def hardenEdgesWithLFENCE (F : MachineCFG) : MachineCFG :=
  let Blocks := ((F.layout.filter fun b => fencesSuccessors (F.mbb b)).flatMap
    fun b => (F.mbb b).succs.filter fun s => !(F.mbb s).isEHPad).dedup
  Blocks.foldl (fun F s => F.modify s fun m => { m with fenced := true }) F

end MSV.SLH
