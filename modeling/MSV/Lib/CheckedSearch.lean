import Mathlib.Data.Finset.Card
import Mathlib.Data.Finset.Dedup
import Mathlib.Logic.Relation

/-!
# Searches that give up

A search with a stack that looks at the edges of a node when it takes the node, puts the nodes
they lead to on the stack unless they have been there, and gives up at the first edge that fails.

**Theorem (`result_iff`).** The search ends, and it succeeds exactly if no edge fails of any node
that can be reached.
-/

namespace MSV

/-- What is done about an edge. -/
inductive Verdict (V : Type*) where
  | pass
  | fail
  | follow (v : V)
deriving DecidableEq

/-- The state of a search. The top of the stack is its head. -/
structure CheckedSearch (V : Type*) where
  visited : List V
  stack : List V

namespace CheckedSearch

variable {V : Type*} [DecidableEq V]

/-- Look at one edge. -/
def look (s : CheckedSearch V) : Verdict V → Option (CheckedSearch V)
  | .pass => some s
  | .fail => none
  | .follow v => some (if v ∈ s.visited then s else ⟨v :: s.visited, v :: s.stack⟩)

variable (edges : V → List (Verdict V))

/-- The search. It runs out of fuel only if there are more nodes than that. -/
def run : Nat → CheckedSearch V → Option Bool
  | 0, _ => none
  | fuel + 1, s =>
      match s.stack with
      | [] => some true
      | c :: rest =>
          match (edges c).foldlM look { s with stack := rest } with
          | none => some false
          | some t => run fuel t

/-- The search from `source`, where edges lead to nodes of `nodes`. -/
def result (nodes : List V) (source : V) : Option Bool :=
  run edges (nodes.length + 2) ⟨[], [source]⟩

/-- There is an edge from `a` to `b`. -/
def Edge (a b : V) : Prop := Verdict.follow b ∈ edges a

/-- No edge fails of what can be reached. -/
def Passes (source : V) : Prop :=
  ∀ v, Relation.ReflTransGen (Edge edges) source v → Verdict.fail ∉ edges v

variable {edges}

/-! ## One node -/

/-- The edges of a node, looked at without giving up. -/
def lookAll (s : CheckedSearch V) : List (Verdict V) → CheckedSearch V
  | [] => s
  | .follow v :: es =>
      lookAll (if v ∈ s.visited then s else ⟨v :: s.visited, v :: s.stack⟩) es
  | _ :: es => lookAll s es

theorem foldlM_look (es : List (Verdict V)) (s : CheckedSearch V) :
    es.foldlM look s = if .fail ∈ es then none else some (lookAll s es) := by
  induction es generalizing s with
  | nil => rfl
  | cons e es ih => cases e <;> simp [List.foldlM_cons, look, lookAll, ih]

theorem mem_visited_lookAll (es : List (Verdict V)) (s : CheckedSearch V) {v : V} :
    v ∈ (lookAll s es).visited ↔ v ∈ s.visited ∨ Verdict.follow v ∈ es := by
  induction es generalizing s with
  | nil => simp [lookAll]
  | cons e es ih =>
    cases e with
    | follow u =>
      by_cases hu : u ∈ s.visited
      · rw [lookAll, if_pos hu, ih]
        grind
      · rw [lookAll, if_neg hu, ih]
        grind
    | _ => simp [lookAll, ih]

theorem mem_stack_lookAll (es : List (Verdict V)) (s : CheckedSearch V) {v : V} :
    v ∈ (lookAll s es).stack ↔ v ∈ s.stack ∨ (Verdict.follow v ∈ es ∧ v ∉ s.visited) := by
  induction es generalizing s with
  | nil => simp [lookAll]
  | cons e es ih =>
    cases e with
    | follow u =>
      by_cases hu : u ∈ s.visited
      · rw [lookAll, if_pos hu, ih]
        grind
      · rw [lookAll, if_neg hu, ih]
        grind
    | _ => simp [lookAll, ih]

/-! ## The search ends -/

/-- The stack, and the nodes that have not been on it. -/
def size (nodes : List V) (s : CheckedSearch V) : Nat :=
  s.stack.length + (nodes.toFinset.filter (· ∉ s.visited)).card

theorem size_push {nodes : List V} {v : V} (hv : v ∈ nodes) {s : CheckedSearch V}
    (hnew : v ∉ s.visited) : size nodes ⟨v :: s.visited, v :: s.stack⟩ = size nodes s := by
  have herase : nodes.toFinset.filter (· ∉ v :: s.visited) =
      (nodes.toFinset.filter (· ∉ s.visited)).erase v := by
    ext u
    simp only [Finset.mem_filter, Finset.mem_erase, List.mem_cons, not_or]
    tauto
  have hmem : v ∈ nodes.toFinset.filter (· ∉ s.visited) := by simp [hv, hnew]
  have hpos := Finset.card_pos.mpr ⟨v, hmem⟩
  simp only [size, herase, Finset.card_erase_of_mem hmem, List.length_cons]
  omega

theorem size_lookAll {nodes : List V} (es : List (Verdict V))
    (hes : ∀ v, Verdict.follow v ∈ es → v ∈ nodes) (s : CheckedSearch V) :
    size nodes (lookAll s es) = size nodes s := by
  induction es generalizing s with
  | nil => rfl
  | cons e es ih =>
    have ih' := ih fun v hv => hes v (List.mem_cons_of_mem e hv)
    cases e with
    | follow u =>
      by_cases hu : u ∈ s.visited
      · rw [lookAll, if_pos hu, ih']
      · rw [lookAll, if_neg hu, ih', size_push (hes u List.mem_cons_self) hu]
    | _ => exact ih' s

/-! ## What the search has seen -/

/-- The nodes `done` have been taken from the stack. -/
structure Inv (edges : V → List (Verdict V)) (source : V) (s : CheckedSearch V) (done : List V) :
    Prop where
  reached : ∀ v ∈ s.stack ++ done, Relation.ReflTransGen (Edge edges) source v
  source_mem : source ∈ s.stack ++ done
  visited : ∀ v ∈ s.visited, v ∈ s.stack ++ done
  passed : ∀ v ∈ done, Verdict.fail ∉ edges v
  followed : ∀ v ∈ done, ∀ u, Edge edges v u → u ∈ s.visited

variable {source : V} {s : CheckedSearch V} {done : List V}

omit [DecidableEq V] in
theorem inv_start (source : V) : Inv edges source ⟨[], [source]⟩ [] where
  reached v hv := by
    obtain rfl : v = source := by simpa using hv
    exact .refl
  source_mem := by simp
  visited _ hv := nomatch hv
  passed _ hv := nomatch hv
  followed _ hv := nomatch hv

theorem Inv.step {c : V} {rest : List V} (h : Inv edges source s done) (hs : s.stack = c :: rest)
    (hpass : Verdict.fail ∉ edges c) :
    Inv edges source (lookAll { s with stack := rest } (edges c)) (c :: done) := by
  have hc : Relation.ReflTransGen (Edge edges) source c := h.reached c (by simp [hs])
  have hmem : ∀ v, v ∈ s.stack ++ done ↔ v = c ∨ v ∈ rest ∨ v ∈ done := by simp [hs]
  refine ⟨fun v hv => ?_, ?_, fun v hv => ?_, ?_, ?_⟩
  · obtain hv | hv := List.mem_append.mp hv
    · obtain hv | ⟨hv, -⟩ := (mem_stack_lookAll _ _).mp hv
      · exact h.reached v ((hmem v).mpr (.inr (.inl hv)))
      · exact hc.tail hv
    · obtain rfl | hv := List.mem_cons.mp hv
      · exact hc
      · exact h.reached v ((hmem v).mpr (.inr (.inr hv)))
  · have := (hmem source).mp h.source_mem
    simp only [List.mem_append, mem_stack_lookAll, List.mem_cons]
    tauto
  · simp only [List.mem_append, mem_stack_lookAll, List.mem_cons]
    obtain hv | hv := (mem_visited_lookAll _ _).mp hv
    · have := (hmem v).mp (h.visited v hv)
      tauto
    · by_cases hold : v ∈ s.visited
      · have := (hmem v).mp (h.visited v hold)
        tauto
      · exact .inl (.inr ⟨hv, hold⟩)
  · exact List.forall_mem_cons.mpr ⟨hpass, h.passed⟩
  · refine List.forall_mem_cons.mpr ⟨fun u hu => ?_, fun v hv u hu => ?_⟩
    · exact (mem_visited_lookAll _ _).mpr (.inr hu)
    · exact (mem_visited_lookAll _ _).mpr (.inl (h.followed v hv u hu))

omit [DecidableEq V] in
/-- With an empty stack, everything that is reached has been taken. -/
theorem Inv.passes (h : Inv edges source s done) (hs : s.stack = []) : Passes edges source := by
  have hdone : ∀ v, Relation.ReflTransGen (Edge edges) source v → v ∈ done := by
    intro v hv
    induction hv with
    | refl => simpa [hs] using h.source_mem
    | tail _ hedge ih => simpa [hs] using h.visited _ (h.followed _ ih _ hedge)
  exact fun v hv => h.passed v (hdone v hv)

theorem run_iff {nodes : List V} (hnodes : ∀ c v, Edge edges c v → v ∈ nodes) (fuel : Nat)
    (h : Inv edges source s done) (hfuel : size nodes s < fuel) :
    ∃ b, run edges fuel s = some b ∧ (b = true ↔ Passes edges source) := by
  induction fuel generalizing s done with
  | zero => omega
  | succ fuel ih =>
    rw [run]
    cases hs : s.stack with
    | nil => exact ⟨true, rfl, by simp [h.passes hs]⟩
    | cons c rest =>
      simp only [foldlM_look]
      by_cases hfail : Verdict.fail ∈ edges c
      · rw [if_pos hfail]
        have hnot : ¬ Passes edges source := fun hpass =>
          hpass c (h.reached c (by simp [hs])) hfail
        exact ⟨false, rfl, by simp [hnot]⟩
      · rw [if_neg hfail]
        have hsize := size_lookAll (edges c) (hnodes c) { s with stack := rest }
        refine ih (h.step hs hfail) ?_
        rw [hsize]
        simp only [size, hs, List.length_cons] at hfuel ⊢
        omega

variable (edges) in
/-- **The search ends, and succeeds if no edge fails of what can be reached.** -/
theorem result_iff (nodes : List V) (hnodes : ∀ c v, Edge edges c v → v ∈ nodes) (source : V) :
    ∃ b, result edges nodes source = some b ∧ (b = true ↔ Passes edges source) := by
  refine run_iff hnodes _ (inv_start source) ?_
  have hcard := (Finset.card_filter_le nodes.toFinset (· ∉ ([] : List V))).trans
    nodes.toFinset_card_le
  simp only [size, List.length_cons, List.length_nil]
  omega

end CheckedSearch

end MSV
