import MSV.Lib.StackSearch

/-!
# Search with a queue

A search that takes nodes from a queue and looks at each of them once, when it is taken, so that
the queue may hold it several times. The nodes are listed as they are looked at.

**Theorem (`visited_spec`).** The search ends, and lists every node that can be reached once.
-/

namespace MSV.QueueSearch

variable {V : Type*} [DecidableEq V] (succ : V → List V)

/-- The search. It runs out of fuel only if more than that is put in the queue. -/
def run : Nat → List V → List V → Option (List V)
  | 0, _, _ => none
  | _ + 1, [], seen => some seen
  | fuel + 1, n :: rest, seen =>
      if n ∈ seen then run fuel rest seen else run fuel (rest ++ succ n) (seen ++ [n])

/-- The search from `src`, in a graph whose edges leave these nodes. -/
def visited (nodes : List V) (src : V) : Option (List V) :=
  run succ (2 + ∑ v ∈ nodes.toFinset, (succ v).length) [src] []

variable {succ}

/-- What has been looked at is reached, and what follows it has been looked at or is waiting. -/
structure Inv (succ : V → List V) (src : V) (queue seen : List V) : Prop where
  reached : ∀ v ∈ queue ++ seen, Relation.ReflTransGen (fun a b => b ∈ succ a) src v
  source : src ∈ queue ++ seen
  closed : ∀ v ∈ seen, ∀ u ∈ succ v, u ∈ queue ++ seen
  nodup : seen.Nodup

variable {src n : V} {queue rest seen : List V}

omit [DecidableEq V] in
theorem inv_start (src : V) : Inv succ src [src] [] where
  reached v hv := by
    obtain rfl : v = src := by simpa using hv
    exact .refl
  source := by simp
  closed _ hv := nomatch hv
  nodup := .nil

omit [DecidableEq V] in
theorem Inv.skip (h : Inv succ src (n :: rest) seen) (hn : n ∈ seen) : Inv succ src rest seen := by
  have hmem : ∀ v, v ∈ n :: rest ++ seen → v ∈ rest ++ seen := by
    intro v hv
    simp only [List.cons_append, List.mem_cons, List.mem_append] at hv ⊢
    obtain rfl | hv := hv
    · exact .inr hn
    · exact hv
  exact
    { reached := fun v hv => h.reached v (List.mem_cons_of_mem n hv)
      source := hmem _ h.source
      closed := fun v hv u hu => hmem u (h.closed v hv u hu)
      nodup := h.nodup }

omit [DecidableEq V] in
theorem Inv.visit (h : Inv succ src (n :: rest) seen) (hn : n ∉ seen) :
    Inv succ src (rest ++ succ n) (seen ++ [n]) := by
  have hreach : Relation.ReflTransGen (fun a b => b ∈ succ a) src n := h.reached n (by simp)
  have hmem : ∀ v, v ∈ n :: rest ++ seen → v ∈ rest ++ succ n ++ (seen ++ [n]) := by
    intro v hv
    simp only [List.cons_append, List.mem_cons, List.mem_append, List.not_mem_nil, or_false]
      at hv ⊢
    tauto
  refine ⟨fun v hv => ?_, hmem _ h.source, fun v hv u hu => ?_, ?_⟩
  · simp only [List.mem_append, List.mem_cons, List.not_mem_nil, or_false] at hv
    obtain (hv | hv) | hv | rfl := hv
    · exact h.reached v (by simp [hv])
    · exact hreach.tail hv
    · exact h.reached v (by simp [hv])
    · exact hreach
  · obtain hv | hv := List.mem_append.mp hv
    · exact hmem u (h.closed v hv u hu)
    · obtain rfl := List.mem_singleton.mp hv
      simp [hu]
  · exact List.nodup_append.mpr ⟨h.nodup, List.nodup_singleton n, fun a ha b hb =>
      fun hab => hn (List.mem_singleton.mp hb ▸ hab ▸ ha)⟩

/-- The queue, and what the nodes not looked at can still put there. -/
def size (succ : V → List V) (nodes queue seen : List V) : Nat :=
  queue.length + ∑ v ∈ nodes.toFinset.filter (· ∉ seen), (succ v).length

variable (rest) in
theorem size_visit {nodes : List V} (hnodes : n ∉ nodes → succ n = []) (hn : n ∉ seen) :
    size succ nodes (rest ++ succ n) (seen ++ [n]) < size succ nodes (n :: rest) seen := by
  have hsum := StackSearch.sum_visit hnodes hn
  have hfilter : nodes.toFinset.filter (· ∉ seen ++ [n]) =
      nodes.toFinset.filter (· ∉ n :: seen) := by
    ext v
    simp only [Finset.mem_filter, List.mem_append, List.mem_cons, List.not_mem_nil, or_false]
    tauto
  simp only [size, hfilter, List.length_append, List.length_cons]
  omega

theorem run_spec {nodes : List V} (hnodes : ∀ c, c ∉ nodes → succ c = []) (fuel : Nat)
    (h : Inv succ src queue seen) (hfuel : size succ nodes queue seen < fuel) :
    ∃ l, run succ fuel queue seen = some l ∧ l.Nodup ∧
      ∀ v, v ∈ l ↔ Relation.ReflTransGen (fun a b => b ∈ succ a) src v := by
  induction fuel generalizing queue seen with
  | zero => omega
  | succ fuel ih =>
    cases queue with
    | nil =>
      refine ⟨seen, rfl, h.nodup, fun v => ⟨fun hv => h.reached v (by simpa using hv), fun hv => ?_⟩⟩
      induction hv with
      | refl => simpa using h.source
      | tail _ hu ih => simpa using h.closed _ ih _ hu
    | cons n rest =>
      rw [run]
      by_cases hn : n ∈ seen
      · rw [if_pos hn]
        refine ih (h.skip hn) ?_
        simp only [size, List.length_cons] at hfuel ⊢
        omega
      · rw [if_neg hn]
        have hless := size_visit rest (hnodes n) hn
        exact ih (h.visit hn) (by omega)

/-- **The search lists what can be reached.** -/
theorem visited_spec {nodes : List V} (hnodes : ∀ c, c ∉ nodes → succ c = []) (src : V) :
    ∃ l, visited succ nodes src = some l ∧ l.Nodup ∧
      ∀ v, v ∈ l ↔ Relation.ReflTransGen (fun a b => b ∈ succ a) src v := by
  refine run_spec hnodes _ (inv_start src) ?_
  simp [size]

end MSV.QueueSearch
