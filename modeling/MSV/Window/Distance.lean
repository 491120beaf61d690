import MSV.Lib.Breadth
import MSV.Window.OutOfWindow

/-!
# The distance from a definition to a use

`isOutsideWindow` counts the instructions between a store and a GEP along the path by which a
breadth-first search finds the block of the GEP. The search adds the size of every block it comes
to, so the whole block of the GEP is counted, and the path has the fewest blocks, not the fewest
instructions. The loop that fills `OOWDSet` lets the first store to the address of an index decide.

**Theorem (`outside_window_iff`).** A store is outside the window only if every path is longer than
the window, if and only if this is so or the first path, with the block of the GEP, is not. A GEP is
put in `OOWDSet` only if every store to the address is outside the window, if and only if this is so
or the first one is not outside.
-/

namespace MSV

/-! ## The model -/

namespace Function

/-- `bb->size()`. -/
def blockSize (f : Function) (b : BlockId) : Nat :=
  ((f.block? b).map fun b => b.insts.length).getD 0

/-- The blocks, and where they branch to. -/
def blockIds (f : Function) : List BlockId :=
  f.blocks.map Block.id ++ f.blocks.flatMap Block.successors

end Function

/-- The position of an instruction. -/
def Block.offset (b : Block) (i : Inst) : Nat := (b.insts.findIdx? fun j => j.id == i.id).getD 0

namespace Module

variable (M : Module)

/-- The instructions, with their parents. -/
def sites : List Site := M.funcs.flatMap fun f => f.blocks.flatMap fun b => b.insts.map (⟨f, b, ·⟩)

/-- `memoryOpSet`. -/
def memoryOpSet : List Site := M.sites.filter fun s => s.inst.kind.isGEP

/-- The operand of a GEP that is taken for its index. -/
def indexOperand (gep : Inst) : Option Value :=
  match gep.kind with
  | .gep _ _ [index] => some index
  | .gep _ _ (_ :: index :: _) => some index
  | _ => none

/-- The address `indexLoad` loads from: the index, or what it is sign-extended from. -/
def loadedFrom (index : Value) : Option Value :=
  match M.kindOf index with
  | some (.load ptr) => some ptr
  | some (.cast .sext v) =>
      match M.kindOf v with
      | some (.load ptr) => some ptr
      | _ => none
  | _ => none

/-- `indexAddr`. -/
def indexAddr (gep : Inst) : Option Value :=
  match indexOperand gep with
  | none | some (.constInt _) => none
  | some index =>
      match M.loadedFrom index with
      | some (.inst id) => some (.inst id)
      | _ => none

end Module

/-- The size of the window, and the use lists. -/
structure DistanceEnv (M : Module) where
  windowSize : Int
  users : Value → List Site
  mem_users : ∀ v s, s ∈ users v ↔ s ∈ M.sites ∧ v ∈ s.inst.kind.operands

namespace DistanceEnv

variable {M : Module} (E : DistanceEnv M)

def isOutsideWindow (defInst use : Site) : Bool :=
  if defInst.block.id = use.block.id then
    decide ((use.block.offset use.inst : Int) - defInst.block.offset defInst.inst > E.windowSize)
  else
    let search : Option Nat := Breadth.result defInst.func.successors
      (fun dist succ => dist + defInst.func.blockSize succ) use.block.id defInst.func.blockIds
      defInst.block.id 0
    match search with
    | some dist =>
        let defBBSize : Int := defInst.block.insts.length
        decide (defBBSize - defInst.block.offset defInst.inst - 1 + dist +
          use.block.offset use.inst > E.windowSize)
    | none => true

/-- The loop over the users of the address, with the flag `alwaysOutside`. -/
def alwaysOutside (gep : Site) : List Site → Bool → Bool
  | [], flag => flag
  | addrUser :: rest, flag =>
      if addrUser.inst.kind.isStore then
        if E.isOutsideWindow addrUser gep then alwaysOutside gep rest true else flag
      else alwaysOutside gep rest flag

def OOWDSet : List Site :=
  M.memoryOpSet.filter fun gep =>
    match M.indexAddr gep.inst with
    | some addr => E.alwaysOutside gep (E.users addr) false
    | none => false

end DistanceEnv

/-! ## Paths -/

/-- A path from the block of the one to the block of the other, given by the blocks behind the first
one. -/
def CFGPath (defInst use : Site) (path : List BlockId) : Prop :=
  Breadth.IsPath defInst.func.successors defInst.block.id path use.block.id

/-- The one with the fewest blocks and, among those, the earliest successors. -/
def FirstCFGPath (defInst use : Site) (path : List BlockId) : Prop :=
  Breadth.IsFirst defInst.func.successors defInst.block.id path use.block.id

/-- How many instructions are executed between the two. -/
def between (defInst use : Site) (path : List BlockId) : Int :=
  (defInst.block.insts.length : Int) - defInst.block.offset defInst.inst - 1 +
    ((path.dropLast.map defInst.func.blockSize).sum : Nat) + use.block.offset use.inst

/-- A store to the address. -/
def StoreTo (M : Module) (addr : Value) (s : Site) : Prop :=
  s ∈ M.sites ∧ ∃ val, s.inst.kind = .store val addr

section

variable {M : Module} {E : DistanceEnv M} {defInst use : Site}

theorem mem_blockIds_of_mem_successors {f : Function} {b c : BlockId} (h : c ∈ f.successors b) :
    c ∈ f.blockIds := by
  unfold Function.successors at h
  cases hb : f.block? b with
  | none =>
      rw [hb] at h
      cases h
  | some block =>
      rw [hb] at h
      exact List.mem_append_right _
        (List.mem_flatMap.mpr ⟨block, List.mem_of_find?_eq_some hb, h⟩)

/-- What the search adds up along a path is the size of every block, the last one included. -/
theorem foldl_blockSize {path : List BlockId} (hne : defInst.block.id ≠ use.block.id)
    (h : CFGPath defInst use path) :
    path.foldl (fun dist succ => dist + defInst.func.blockSize succ) 0 =
      (path.dropLast.map defInst.func.blockSize).sum + defInst.func.blockSize use.block.id := by
  have hsum : ∀ (l : List BlockId) (n : Nat),
      l.foldl (fun dist succ => dist + defInst.func.blockSize succ) n =
        n + (l.map defInst.func.blockSize).sum := by
    intro l
    induction l with
    | nil => exact fun n => rfl
    | cons b l ih => exact fun n => by rw [List.foldl_cons, ih, List.map_cons, List.sum_cons,
        Nat.add_assoc]
  rw [hsum, Nat.zero_add]
  obtain rfl | ⟨path, b, rfl⟩ := path.eq_nil_or_concat
  · exact absurd h hne
  · rw [List.concat_eq_append] at h ⊢
    obtain ⟨-, -, -, rfl⟩ := Breadth.isPath_append.mp h
    simp

/-- Blocks apart, the distance is the one along the first path, and the size of the last block. -/
theorem isOutsideWindow_cases (hne : defInst.block.id ≠ use.block.id) :
    (∃ path, FirstCFGPath defInst use path ∧
      (E.isOutsideWindow defInst use = true ↔
        E.windowSize < between defInst use path + defInst.func.blockSize use.block.id)) ∨
    ∀ path, ¬ CFGPath defInst use path := by
  obtain ⟨path, hfirst, hresult⟩ | ⟨hnone, -⟩ :=
    @Breadth.result_cases _ _ _ defInst.func.successors
      (fun dist succ => dist + defInst.func.blockSize succ) use.block.id defInst.func.blockIds
      (fun _ _ => mem_blockIds_of_mem_successors) defInst.block.id 0
  · refine .inl ⟨path, hfirst, ?_⟩
    unfold DistanceEnv.isOutsideWindow between
    rw [if_neg hne, hresult, foldl_blockSize hne hfirst.path]
    simp only [decide_eq_true_iff]
    push_cast
    omega
  · exact .inr hnone

/-- **When a definition is outside the window only if it is on every path.** -/
theorem isOutsideWindow_sound_iff (hne : defInst.block.id ≠ use.block.id) :
    (E.isOutsideWindow defInst use = true →
        ∀ path, CFGPath defInst use path → E.windowSize < between defInst use path) ↔
      (∀ path, CFGPath defInst use path → E.windowSize < between defInst use path) ∨
        ∃ path, FirstCFGPath defInst use path ∧
          between defInst use path + defInst.func.blockSize use.block.id ≤ E.windowSize := by
  obtain ⟨path, hfirst, houtside⟩ | hnone := isOutsideWindow_cases (E := E) hne
  · rw [houtside]
    constructor
    · intro h
      by_cases hwindow : E.windowSize <
          between defInst use path + defInst.func.blockSize use.block.id
      · exact .inl (h hwindow)
      · exact .inr ⟨path, hfirst, Int.not_lt.mp hwindow⟩
    · rintro (hall | ⟨path', hfirst', hle⟩) hwindow
      · exact hall
      · obtain rfl := hfirst.unique hfirst'
        omega
  · have hall : ∀ path, CFGPath defInst use path → E.windowSize < between defInst use path :=
      fun path hpath => absurd hpath (hnone path)
    exact iff_of_true (fun _ => hall) (.inl hall)

/-! ## The loop over the stores -/

/-- The first store decides. -/
theorem alwaysOutside_iff {gep : Site} (l : List Site) :
    E.alwaysOutside gep l false = true ↔
      ∃ s, l.find? (fun s => s.inst.kind.isStore) = some s ∧ E.isOutsideWindow s gep = true := by
  -- the flag is not taken back
  have hflag : ∀ l : List Site, E.alwaysOutside gep l true = true := by
    intro l
    induction l with
    | nil => rfl
    | cons s l ih =>
        unfold DistanceEnv.alwaysOutside
        split_ifs
        · exact ih
        · rfl
        · exact ih
  induction l with
  | nil => simp [DistanceEnv.alwaysOutside]
  | cons s l ih =>
      unfold DistanceEnv.alwaysOutside
      cases hstore : s.inst.kind.isStore with
      | false => simpa [List.find?_cons, hstore] using ih
      | true =>
          cases hout : E.isOutsideWindow s gep with
          | false => simp [hstore, hout]
          | true => simp [hstore, hout, hflag]

theorem mem_OOWDSet {gep : Site} (hgep : gep ∈ M.memoryOpSet) {addr : Value}
    (haddr : M.indexAddr gep.inst = some addr) :
    gep ∈ E.OOWDSet ↔ ∃ s, (E.users addr).find? (fun s => s.inst.kind.isStore) = some s ∧
      E.isOutsideWindow s gep = true := by
  unfold DistanceEnv.OOWDSet
  rw [List.mem_filter, and_iff_right hgep, haddr]
  exact alwaysOutside_iff _

end

/-- A store is outside the window only if every path is longer, exactly when this is so or the first
path, with the size of the last block, is within the window; and a GEP is put in the set only if all
stores to the address of its index are outside, exactly when this is so or the first one is not. -/
theorem outside_window_iff {M : Module} (E : DistanceEnv M) :
    (∀ defInst use : Site, defInst.block.id ≠ use.block.id →
      ((E.isOutsideWindow defInst use = true →
          ∀ path, CFGPath defInst use path → E.windowSize < between defInst use path) ↔
        (∀ path, CFGPath defInst use path → E.windowSize < between defInst use path) ∨
          ∃ path, FirstCFGPath defInst use path ∧
            between defInst use path + defInst.func.blockSize use.block.id ≤ E.windowSize)) ∧
    ∀ gep ∈ M.memoryOpSet, ∀ addr, M.indexAddr gep.inst = some addr →
      ((gep ∈ E.OOWDSet → ∀ s, StoreTo M addr s → E.isOutsideWindow s gep = true) ↔
        (∀ s, StoreTo M addr s → E.isOutsideWindow s gep = true) ∨
          ∀ s, (E.users addr).find? (fun s => s.inst.kind.isStore) = some s →
            E.isOutsideWindow s gep = false) := by
  refine ⟨fun defInst use hne => isOutsideWindow_sound_iff hne, fun gep hgep addr haddr => ?_⟩
  rw [mem_OOWDSet hgep haddr]
  constructor
  · intro h
    by_cases hfirst : ∃ s, (E.users addr).find? (fun s => s.inst.kind.isStore) = some s ∧
        E.isOutsideWindow s gep = true
    · exact .inl (h hfirst)
    · push Not at hfirst
      exact .inr fun s hs => Bool.not_eq_true _ ▸ hfirst s hs
  · rintro (hall | hfirst) ⟨s, hs, houtside⟩
    · exact hall
    · rw [hfirst s hs] at houtside
      cases houtside

/-- A store to `%0` in the entry block, and one in the next before the GEP whose index is loaded
from it. -/
def nearModule : Module where
  structs := fun _ => []
  globals := []
  funcs := [⟨0, "main", [.ptr (.int 8), .int 32], [
    ⟨0, [⟨0, .ptr (.int 32), .alloca (.int 32) (.constInt (APInt.ofNat 32 1))⟩,
      ⟨1, .void, .store (.arg 0 1) (.inst 0)⟩,
      ⟨2, .void, .br 1⟩]⟩,
    ⟨1, [⟨3, .void, .store (.arg 0 1) (.inst 0)⟩,
      ⟨4, .int 32, .load (.inst 0)⟩,
      ⟨5, .ptr (.int 8), .gep (.int 8) (.arg 0 0) [.inst 4]⟩,
      ⟨6, .void, .ret none⟩]⟩]⟩]

def nearEnv : DistanceEnv nearModule where
  windowSize := 4
  users v := nearModule.sites.filter fun s => decide (v ∈ s.inst.kind.operands)
  mem_users v s := by simp

/-- The instruction of an identity. -/
def nearSite (id : InstId) : Option Site := nearModule.sites.find? fun s => s.inst.id == id

/-- Three instructions are between the first store and the GEP, and with the four of its block the
store is outside a window of four. The second store is inside, and the GEP is in the set. -/
theorem near_store_outside : ∃ first second gep, nearSite 1 = some first ∧
    nearSite 3 = some second ∧ nearSite 5 = some gep ∧
    ¬ (nearEnv.isOutsideWindow first gep = true →
      ∀ path, CFGPath first gep path → nearEnv.windowSize < between first gep path) ∧
    ¬ (gep ∈ nearEnv.OOWDSet →
      ∀ s, StoreTo nearModule (.inst 0) s → nearEnv.isOutsideWindow s gep = true) := by
  refine ⟨_, _, _, rfl, rfl, rfl, fun h => ?_, fun h => ?_⟩
  · have hpath := h (by decide) [1] ⟨by decide, rfl⟩
    exact absurd hpath (by decide)
  · have hsecond := h (by decide) ((nearSite 3).get rfl) ⟨by decide, _, rfl⟩
    exact absurd hsecond (by decide)

end MSV
