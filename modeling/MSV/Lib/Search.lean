import MSV.Lib.Run
import Mathlib.Data.Finset.Card
import Mathlib.Data.Finset.Dedup

/-!
# Worklist search

A search with a visited set and a queue. Taking a node from the queue has effects: some nodes are
propagated to, which puts them in the set and in the queue unless they are in the set already, and
some results are recorded. The search may start with nodes in the set that were never queued, and
with nodes in the queue that are not in the set.

`mem_visited_run` and `mem_out_run` say what the set and the results are at the end: what can be
reached from the queue without passing through a node that was in the set at the start.
-/

namespace MSV

variable {V E : Type*} [DecidableEq V]

/-- The state of a search. -/
structure Search (V E : Type*) where
  visited : List V
  queue : List V
  out : List E

namespace Search

/-- `if (visited.insert(v).second) queue.push(v)`. -/
def propagate (s : Search V E) (v : V) : Search V E :=
  if v ∈ s.visited then s else { s with visited := v :: s.visited, queue := s.queue ++ [v] }

/-- One effect: a node to propagate to, or a result. -/
def act (s : Search V E) : V ⊕ E → Search V E
  | .inl v => s.propagate v
  | .inr e => { s with out := e :: s.out }

variable (effects : V → List (V ⊕ E))

/-- Take a node from the queue. -/
def step (s : Search V E) : Option (Search V E) :=
  match s.queue with
  | [] => none
  | c :: rest => some ((effects c).foldl act { s with queue := rest })

/-- The search to its end, for effects that propagate to nodes of `nodes` only. -/
def run (nodes : List V) (s : Search V E) : Search V E :=
  stepN (step effects) (2 * nodes.length + s.queue.length) s

/-- Reached from `start` in one or more steps, without a node of `closed`. -/
inductive Reach (closed start : Set V) : V → Prop
  | first {c v : V} : c ∈ start → Sum.inl v ∈ effects c → v ∉ closed → Reach closed start v
  | next {c v : V} : Reach closed start c → Sum.inl v ∈ effects c → v ∉ closed →
      Reach closed start v

variable {effects}

/-! ## One step -/

theorem mem_visited_act {s : Search V E} {x : V ⊕ E} {v : V} :
    v ∈ (act s x).visited ↔ v ∈ s.visited ∨ Sum.inl v = x := by
  cases x with
  | inl w =>
      by_cases hw : w ∈ s.visited
      · have hv : v = w → v ∈ s.visited := fun h => h ▸ hw
        simp only [act, propagate, hw, if_true, Sum.inl.injEq]
        tauto
      · simp only [act, propagate, hw, if_false, List.mem_cons, Sum.inl.injEq]
        tauto
  | inr e => simp [act]

theorem mem_queue_act {s : Search V E} {x : V ⊕ E} {v : V} :
    v ∈ (act s x).queue ↔ v ∈ s.queue ∨ Sum.inl v = x ∧ v ∉ s.visited := by
  cases x with
  | inl w =>
      by_cases hw : w ∈ s.visited
      · have hv : v = w → v ∈ s.visited := fun h => h ▸ hw
        simp only [act, propagate, hw, if_true, Sum.inl.injEq]
        tauto
      · have hv : v = w → v ∉ s.visited := fun h => h ▸ hw
        simp only [act, propagate, hw, if_false, List.mem_append, List.mem_singleton,
          Sum.inl.injEq]
        tauto
  | inr e => simp [act]

theorem mem_out_act {s : Search V E} {x : V ⊕ E} {e : E} :
    e ∈ (act s x).out ↔ e ∈ s.out ∨ Sum.inr e = x := by
  cases x with
  | inl w => by_cases hw : w ∈ s.visited <;> simp [act, propagate, hw]
  | inr e' => simp [act, or_comm]

theorem mem_visited_foldl (l : List (V ⊕ E)) (s : Search V E) {v : V} :
    v ∈ (l.foldl act s).visited ↔ v ∈ s.visited ∨ Sum.inl v ∈ l := by
  induction l generalizing s with
  | nil => simp
  | cons x l ih => rw [List.foldl_cons, ih, mem_visited_act, List.mem_cons, or_assoc]

theorem mem_queue_foldl (l : List (V ⊕ E)) (s : Search V E) {v : V} :
    v ∈ (l.foldl act s).queue ↔ v ∈ s.queue ∨ Sum.inl v ∈ l ∧ v ∉ s.visited := by
  induction l generalizing s with
  | nil => simp
  | cons x l ih =>
      rw [List.foldl_cons, ih, mem_queue_act, mem_visited_act, List.mem_cons]
      tauto

theorem mem_out_foldl (l : List (V ⊕ E)) (s : Search V E) {e : E} :
    e ∈ (l.foldl act s).out ↔ e ∈ s.out ∨ Sum.inr e ∈ l := by
  induction l generalizing s with
  | nil => simp
  | cons x l ih => rw [List.foldl_cons, ih, mem_out_act, List.mem_cons, or_assoc]

/-! ## The end -/

/-- The nodes not visited, twice, and the queue. -/
def size (nodes : List V) (s : Search V E) : Nat :=
  2 * (nodes.toFinset.filter (· ∉ s.visited)).card + s.queue.length

theorem size_propagate {nodes : List V} {v : V} (hv : v ∈ nodes) (s : Search V E) :
    size nodes (s.propagate v) ≤ size nodes s := by
  unfold propagate
  split
  · exact le_rfl
  · rename_i hnot
    have hlt : (nodes.toFinset.filter (· ∉ v :: s.visited)).card <
        (nodes.toFinset.filter (· ∉ s.visited)).card := by
      apply Finset.card_lt_card
      rw [Finset.ssubset_iff_of_subset]
      · exact ⟨v, by simp [hv, hnot], by simp⟩
      · intro w hw
        simp only [Finset.mem_filter, List.mem_cons, not_or] at hw ⊢
        exact ⟨hw.1, hw.2.2⟩
    simp only [size, List.length_append, List.length_singleton]
    omega

theorem size_foldl {nodes : List V} (l : List (V ⊕ E)) (hl : ∀ v, Sum.inl v ∈ l → v ∈ nodes)
    (s : Search V E) : size nodes (l.foldl act s) ≤ size nodes s := by
  induction l generalizing s with
  | nil => exact le_rfl
  | cons x l ih =>
      refine (ih (fun v hv => hl v (List.mem_cons_of_mem _ hv)) _).trans ?_
      cases x with
      | inl v => exact size_propagate (hl v List.mem_cons_self) s
      | inr e => exact le_rfl

theorem size_step {nodes : List V} (hnodes : ∀ c v, Sum.inl v ∈ effects c → v ∈ nodes)
    {s t : Search V E} (h : step effects s = some t) : size nodes t < size nodes s := by
  unfold step at h
  cases hq : s.queue with
  | nil => rw [hq] at h; cases h
  | cons c rest =>
      rw [hq] at h
      obtain rfl := Option.some.inj h
      refine (size_foldl (effects c) (hnodes c) _).trans_lt ?_
      simp [size, hq]

theorem queue_run {nodes : List V} (hnodes : ∀ c v, Sum.inl v ∈ effects c → v ∈ nodes)
    (s : Search V E) : (run effects nodes s).queue = [] := by
  have hend : step effects (run effects nodes s) = none := by
    refine step_stepN_eq_none (P := fun _ => True)
      (fun a b _ hab => ⟨trivial, size_step hnodes hab⟩) _ s trivial ?_
    have hcard : (nodes.toFinset.filter (· ∉ s.visited)).card ≤ nodes.length :=
      (Finset.card_filter_le _ _).trans (List.toFinset_card_le _)
    unfold size
    omega
  unfold step at hend
  split at hend
  · assumption
  · cases hend

/-! ## What is visited -/

/-- Queued at the start, or reached. -/
def Taken (effects : V → List (V ⊕ E)) (s₀ : Search V E) (c : V) : Prop :=
  c ∈ s₀.queue ∨ Reach effects {v | v ∈ s₀.visited} {v | v ∈ s₀.queue} c

/-- What holds while the search goes on, from the state `s₀`. -/
structure Inv (effects : V → List (V ⊕ E)) (s₀ s : Search V E) : Prop where
  visited : ∀ v ∈ s.visited, v ∈ s₀.visited ∨
    Reach effects {v | v ∈ s₀.visited} {v | v ∈ s₀.queue} v
  kept : ∀ v ∈ s₀.visited, v ∈ s.visited
  queue : ∀ c ∈ s.queue, Taken effects s₀ c
  out : ∀ e ∈ s.out, e ∈ s₀.out ∨ ∃ c, Taken effects s₀ c ∧ Sum.inr e ∈ effects c
  out_kept : ∀ e ∈ s₀.out, e ∈ s.out
  /-- A node that was put in the queue is still there, or its effects have happened. -/
  done : ∀ c, c ∈ s₀.queue ∨ c ∈ s.visited ∧ c ∉ s₀.visited → c ∈ s.queue ∨
    (∀ v, Sum.inl v ∈ effects c → v ∈ s.visited) ∧ ∀ e, Sum.inr e ∈ effects c → e ∈ s.out

omit [DecidableEq V] in
theorem inv_self (s : Search V E) : Inv effects s s where
  visited _ h := Or.inl h
  kept _ h := h
  queue _ h := Or.inl h
  out _ h := Or.inl h
  out_kept _ h := h
  done c h := by
    obtain h | h := h
    · exact Or.inl h
    · exact absurd h.1 h.2

omit [DecidableEq V] in
theorem Taken.reach {s₀ : Search V E} {c v : V} (hc : Taken effects s₀ c)
    (hv : Sum.inl v ∈ effects c) (hnot : v ∉ s₀.visited) :
    Reach effects {v | v ∈ s₀.visited} {v | v ∈ s₀.queue} v := by
  obtain hc | hc := hc
  · exact .first hc hv hnot
  · exact .next hc hv hnot

theorem Inv.step {s₀ s t : Search V E} (h : Inv effects s₀ s) (hst : step effects s = some t) :
    Inv effects s₀ t := by
  unfold Search.step at hst
  cases hq : s.queue with
  | nil => rw [hq] at hst; cases hst
  | cons c rest =>
      rw [hq] at hst
      obtain rfl := Option.some.inj hst
      have hc : Taken effects s₀ c := h.queue c (by simp [hq])
      refine ⟨fun v hv => ?_, fun v hv => ?_, fun d hd => ?_, fun e he => ?_, fun e he => ?_,
        fun d hd => ?_⟩
      · obtain hv | hv := (mem_visited_foldl _ _).mp hv
        · exact h.visited v hv
        · by_cases hv₀ : v ∈ s₀.visited
          · exact Or.inl hv₀
          · exact Or.inr (hc.reach hv hv₀)
      · exact (mem_visited_foldl _ _).mpr (Or.inl (h.kept v hv))
      · obtain hd | ⟨hd, hnot⟩ := (mem_queue_foldl _ _).mp hd
        · exact h.queue d (by simp only [hq, List.mem_cons]; exact Or.inr hd)
        · exact Or.inr (hc.reach hd fun h₀ => hnot (h.kept d h₀))
      · obtain he | he := (mem_out_foldl _ _).mp he
        · exact h.out e he
        · exact Or.inr ⟨c, hc, he⟩
      · exact (mem_out_foldl _ _).mpr (Or.inl (h.out_kept e he))
      · by_cases hd' : d ∈ s₀.queue ∨ d ∈ s.visited ∧ d ∉ s₀.visited
        · obtain hdq | ⟨hv, ho⟩ := h.done d hd'
          · rw [hq, List.mem_cons] at hdq
            obtain rfl | hdq := hdq
            · -- the node taken just now
              exact Or.inr ⟨fun v hv => (mem_visited_foldl _ _).mpr (Or.inr hv),
                fun e he => (mem_out_foldl _ _).mpr (Or.inr he)⟩
            · exact Or.inl ((mem_queue_foldl _ _).mpr (Or.inl hdq))
          · exact Or.inr ⟨fun v hv' => (mem_visited_foldl _ _).mpr (Or.inl (hv v hv')),
              fun e he => (mem_out_foldl _ _).mpr (Or.inl (ho e he))⟩
        · -- a node visited in this step was put in the queue
          obtain hd | ⟨hd, hnot⟩ := hd
          · exact absurd (Or.inl hd) hd'
          · obtain hd | hd := (mem_visited_foldl _ _).mp hd
            · exact absurd (Or.inr ⟨hd, hnot⟩) hd'
            · exact Or.inl ((mem_queue_foldl _ _).mpr
                (Or.inr ⟨hd, fun hs => hd' (Or.inr ⟨hs, hnot⟩)⟩))

theorem inv_run {nodes : List V} (s : Search V E) : Inv effects s (run effects nodes s) :=
  (run_stepN (step effects) _ s).invariant (inv_self s) fun _ _ h _ hst => h.step hst

omit [DecidableEq V] in
theorem Reach.notMem {closed start : Set V} {v : V} (h : Reach effects closed start v) :
    v ∉ closed := by
  cases h with
  | first _ _ hnot => exact hnot
  | next _ _ hnot => exact hnot

variable {nodes : List V} (hnodes : ∀ c v, Sum.inl v ∈ effects c → v ∈ nodes)

include hnodes

/-- The visited nodes at the end. -/
theorem mem_visited_run (s : Search V E) {v : V} : v ∈ (run effects nodes s).visited ↔
    v ∈ s.visited ∨ Reach effects {v | v ∈ s.visited} {v | v ∈ s.queue} v := by
  have hinv : Inv effects s (run effects nodes s) := inv_run s
  have hdone : ∀ c, c ∈ s.queue ∨ c ∈ (run effects nodes s).visited ∧ c ∉ s.visited →
      ∀ v, Sum.inl v ∈ effects c → v ∈ (run effects nodes s).visited := by
    intro c hc
    obtain hq | h := hinv.done c hc
    · rw [queue_run hnodes] at hq
      cases hq
    · exact h.1
  constructor
  · exact hinv.visited v
  · intro h
    obtain h | h := h
    · exact hinv.kept v h
    · induction h with
      | first hc hv _ => exact hdone _ (Or.inl hc) _ hv
      | next hc hv _ ih =>
          exact hdone _ (Or.inr ⟨ih, hc.notMem⟩) _ hv

/-- The results at the end. -/
theorem mem_out_run (s : Search V E) {e : E} : e ∈ (run effects nodes s).out ↔
    e ∈ s.out ∨ ∃ c, Taken effects s c ∧ Sum.inr e ∈ effects c := by
  have hinv : Inv effects s (run effects nodes s) := inv_run s
  constructor
  · exact hinv.out e
  · intro h
    obtain h | ⟨c, hc, he⟩ := h
    · exact hinv.out_kept e h
    · have hc' : c ∈ s.queue ∨ c ∈ (run effects nodes s).visited ∧ c ∉ s.visited := by
        obtain hc | hc := hc
        · exact Or.inl hc
        · exact Or.inr ⟨(mem_visited_run hnodes s).mpr (Or.inr hc), hc.notMem⟩
      obtain hq | h := hinv.done c hc'
      · rw [queue_run hnodes] at hq
        cases hq
      · exact h.2 e he

/-! ## A search from one more node -/

omit hnodes

/-- The effects propagate from `c` to `v`. -/
def Edge (effects : V → List (V ⊕ E)) (c v : V) : Prop := Sum.inl v ∈ effects c

/-- The nodes taken by a search from `g`, when the visited ones are closed: what can be reached from
`g` and was not visited. -/
theorem taken_propagate {visited : List V}
    (hclosed : ∀ c ∈ visited, ∀ v, Edge effects c v → v ∈ visited) {g c : V} :
    Taken effects (propagate (⟨visited, [], []⟩ : Search V E) g) c ↔
      Relation.ReflTransGen (Edge effects) g c ∧ c ∉ visited := by
  have hstay : ∀ {a b : V}, a ∈ visited → Relation.ReflTransGen (Edge effects) a b →
      b ∈ visited := by
    intro a b ha hab
    induction hab with
    | refl => exact ha
    | tail _ hstep ih => exact hclosed _ ih _ hstep
  unfold propagate Taken
  split
  · rename_i hg
    constructor
    · intro h
      obtain h | h := h
      · cases h
      · exfalso
        induction h with
        | first hc _ _ => cases hc
        | next _ _ _ ih => exact ih
    · intro h
      exact absurd (hstay hg h.1) h.2
  · rename_i hg
    constructor
    · intro h
      obtain h | h := h
      · obtain rfl : c = g := by simpa using h
        exact ⟨.refl, hg⟩
      · refine ⟨?_, fun hc => h.notMem (List.mem_cons_of_mem _ hc)⟩
        induction h with
        | first hc hv _ =>
            obtain rfl : _ = g := by simpa using hc
            exact .single hv
        | next _ hv _ ih => exact ih.tail hv
    · intro h
      obtain ⟨hreach, hnot⟩ := h
      induction hreach with
      | refl => exact Or.inl (by simp)
      | @tail b c _ hstep ih =>
          have hb : b ∉ visited := fun hb => hnot (hclosed b hb c hstep)
          by_cases hc : c = g
          · subst hc
            exact Or.inl (by simp)
          · have hc' : c ∉ g :: visited := by simp [hc, hnot]
            obtain hb | hb := ih hb
            · exact Or.inr (.first hb hstep hc')
            · exact Or.inr (.next hb hstep hc')

include hnodes in
theorem mem_visited_propagate {visited : List V}
    (hclosed : ∀ c ∈ visited, ∀ v, Edge effects c v → v ∈ visited) {g v : V} :
    v ∈ (run effects nodes (propagate (⟨visited, [], []⟩ : Search V E) g)).visited ↔
      v ∈ visited ∨ Relation.ReflTransGen (Edge effects) g v := by
  rw [mem_visited_run hnodes]
  have htaken := taken_propagate hclosed (g := g) (c := v)
  unfold Taken at htaken
  unfold propagate at htaken ⊢
  split
  · rename_i hg
    rw [if_pos hg] at htaken
    simp only [List.not_mem_nil] at htaken ⊢
    grind
  · rename_i hg
    rw [if_neg hg] at htaken
    simp only [List.nil_append, List.mem_cons] at htaken ⊢
    grind

end Search

end MSV
