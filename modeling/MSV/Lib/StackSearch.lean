import MSV.Lib.Run
import MSV.Lib.Worklist
import Mathlib.Algebra.BigOperators.Group.Finset.Basic
import Mathlib.Algebra.Order.BigOperators.Group.Finset

/-!
# Search with a stack

A search for a target with a stack of nodes. A node is looked at when it is taken from the stack,
so that the stack may hold it several times, and the search stops at the target.

`found_run_iff` says that the search stops, and finds the target exactly when it can be reached.
While it goes on it is a search of `MSV.Lib.Worklist`, where everything matters and a node covers
itself only.
-/

namespace MSV

variable {V : Type*} [DecidableEq V]

/-- The state of a search. The top of the stack is its head. -/
structure StackSearch (V : Type*) where
  visited : List V
  stack : List V
  found : Bool

namespace StackSearch

variable (succ : V → List V) (target : V)

/-- Take a node from the stack. -/
def step (s : StackSearch V) : Option (StackSearch V) :=
  if s.found then none
  else
    match s.stack with
    | [] => none
    | c :: rest =>
        if c ∈ s.visited then some { s with stack := rest }
        else if c = target then some ⟨c :: s.visited, rest, true⟩
        else some ⟨c :: s.visited, succ c ++ rest, false⟩

/-- The search from `source` to its end, in a graph whose edges leave nodes of `nodes`. -/
def run (nodes : List V) (source : V) : StackSearch V :=
  stepN (step succ target) (1 + ∑ v ∈ nodes.toFinset, (succ v).length) ⟨[], [source], false⟩

variable {succ target}

theorem step_cases {s t : StackSearch V} (h : step succ target s = some t) :
    s.found = false ∧ ∃ c rest, s.stack = c :: rest ∧
      ((c ∈ s.visited ∧ t = ⟨s.visited, rest, false⟩) ∨
        (c ∉ s.visited ∧ c = target ∧ t = ⟨c :: s.visited, rest, true⟩) ∨
        (c ∉ s.visited ∧ c ≠ target ∧ t = ⟨c :: s.visited, succ c ++ rest, false⟩)) := by
  obtain ⟨visited, stack, found⟩ := s
  unfold step at h
  cases found with
  | true => cases h
  | false =>
      cases stack with
      | nil => cases h
      | cons c rest =>
          refine ⟨rfl, c, rest, rfl, ?_⟩
          simp only [Bool.false_eq_true, if_false] at h
          split_ifs at h with hc htarget
          · exact .inl ⟨hc, (Option.some.inj h).symm⟩
          · exact .inr (.inl ⟨hc, htarget, (Option.some.inj h).symm⟩)
          · exact .inr (.inr ⟨hc, htarget, (Option.some.inj h).symm⟩)

theorem step_eq_none {s : StackSearch V} (h : step succ target s = none) :
    s.found = true ∨ s.stack = [] := by
  unfold step at h
  split_ifs at h with hfound
  · exact .inl hfound
  · cases hs : s.stack with
    | nil => exact .inr rfl
    | cons c rest =>
        rw [hs] at h
        dsimp only at h
        split_ifs at h

/-! ## The search stops -/

/-- The stack, and what the nodes not visited can still put there. -/
def size (succ : V → List V) (nodes : List V) (s : StackSearch V) : Nat :=
  s.stack.length + ∑ v ∈ nodes.toFinset.filter (· ∉ s.visited), (succ v).length

theorem sum_visit {nodes visited : List V} {c : V} (hnodes : c ∉ nodes → succ c = [])
    (hc : c ∉ visited) :
    (succ c).length + ∑ v ∈ nodes.toFinset.filter (· ∉ c :: visited), (succ v).length ≤
      ∑ v ∈ nodes.toFinset.filter (· ∉ visited), (succ v).length := by
  have herase : nodes.toFinset.filter (· ∉ c :: visited) =
      (nodes.toFinset.filter (· ∉ visited)).erase c := by
    ext v
    simp only [Finset.mem_filter, Finset.mem_erase, List.mem_cons, not_or]
    tauto
  rw [herase]
  by_cases hmem : c ∈ nodes
  · rw [Finset.add_sum_erase _ (fun v => (succ v).length) (by simp [hmem, hc])]
  · rw [hnodes hmem, Finset.erase_eq_of_notMem (by simp [hmem])]
    simp

theorem size_step {nodes : List V} (hnodes : ∀ c, c ∉ nodes → succ c = []) {s t : StackSearch V}
    (h : step succ target s = some t) : size succ nodes t < size succ nodes s := by
  obtain ⟨-, c, rest, hstack, ⟨-, rfl⟩ | ⟨hc, -, rfl⟩ | ⟨hc, -, rfl⟩⟩ := step_cases h
  · simp [size, hstack]
  · have hsum := sum_visit (hnodes c) hc
    simp only [size, hstack, List.length_cons]
    omega
  · have hsum := sum_visit (hnodes c) hc
    simp only [size, hstack, List.length_cons, List.length_append]
    omega

theorem step_run {nodes : List V} (hnodes : ∀ c, c ∉ nodes → succ c = []) (source : V) :
    step succ target (run succ target nodes source) = none := by
  refine step_stepN_eq_none (P := fun _ => True)
    (fun a b _ hab => ⟨trivial, size_step hnodes hab⟩) _ _ trivial ?_
  simp [size]

/-! ## What it finds -/

/-- A step of the search without a target. -/
def Steps (succ : V → List V) : Worklist V → Worklist V → Prop :=
  Worklist.Step succ (fun _ => True) Eq

omit [DecidableEq V] in
theorem covering (succ : V → List V) :
    Worklist.Covering succ (fun _ => True) Eq (fun _ => True) where
  refl _ := rfl
  trans h h' := h.trans h'
  live _ _ := trivial
  back _ _ := trivial
  good _ _ := trivial
  answer _ h hc' := ⟨_, h ▸ hc', rfl⟩

/-- Found and reached, or still a search that has not met the target. -/
structure Inv (succ : V → List V) (target source : V) (s : StackSearch V) : Prop where
  found : s.found = true → Relation.ReflTransGen (fun a b => b ∈ succ a) source target
  searching : s.found = false → target ∉ s.visited ∧
    Relation.ReflTransGen (Steps succ) ⟨[], [], []⟩ ⟨s.stack, s.visited, [source]⟩

omit [DecidableEq V] in
theorem inv_start (source : V) : Inv succ target source ⟨[], [source], false⟩ where
  found h := nomatch h
  searching _ := ⟨List.not_mem_nil, .single (.root source)⟩

theorem Inv.step {source : V} {s t : StackSearch V} (h : Inv succ target source s)
    (hstep : step succ target s = some t) : Inv succ target source t := by
  obtain ⟨hfound, c, rest, hstack, ht⟩ := step_cases hstep
  obtain ⟨hnot, hsteps⟩ := h.searching hfound
  rw [hstack] at hsteps
  obtain ⟨hc, rfl⟩ | ⟨-, rfl, rfl⟩ | ⟨-, hne, rfl⟩ := ht
  · exact ⟨(fun h => nomatch h), fun _ => ⟨hnot, hsteps.tail (.skip fun _ => ⟨c, hc, rfl⟩)⟩⟩
  · obtain ⟨r, hr, hreach⟩ := (Worklist.traced_of_steps hsteps).todo c List.mem_cons_self
    obtain rfl := List.mem_singleton.mp hr
    exact ⟨fun _ => hreach, (fun h => nomatch h)⟩
  · refine ⟨(fun h => nomatch h), fun _ => ⟨?_, hsteps.tail (.visit trivial)⟩⟩
    exact List.not_mem_cons_of_ne_of_not_mem hne.symm hnot

/-- **The search finds the target exactly when it can be reached.** -/
theorem found_run_iff {nodes : List V} (hnodes : ∀ c, c ∉ nodes → succ c = []) (source : V) :
    (run succ target nodes source).found = true ↔
      Relation.ReflTransGen (fun a b => b ∈ succ a) source target := by
  have hinv : Inv succ target source (run succ target nodes source) :=
    (run_stepN _ _ _).invariant (inv_start source) fun _ _ ha _ hab => ha.step hab
  refine ⟨hinv.found, fun hreach => ?_⟩
  by_contra hfound
  obtain ⟨hnot, hsteps⟩ := hinv.searching (Bool.not_eq_true _ ▸ hfound)
  have hend := (step_eq_none (step_run hnodes source)).resolve_left hfound
  have hcomplete := Worklist.complete_of_steps (covering succ) (fun _ hc => by cases hc) hsteps
  obtain ⟨d, hd, rfl⟩ := Worklist.covered_of_reach (covering succ) hcomplete hend
    List.mem_cons_self trivial hreach trivial
  exact hnot hd

end StackSearch

end MSV
