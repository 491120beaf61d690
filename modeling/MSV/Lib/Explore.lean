import Mathlib.Data.List.Basic
import Mathlib.Logic.Relation

/-!
# Exploration

Two ways to look through a graph.

A depth-first search for a target, with one visited set for the whole search and an exit as soon as
the target is met: `dfs_iff` says that it finds a cycle through the node it starts from exactly when
there is one.

An exploration that leaves out a node when it has seen one that does at least as much: if every step
of a node can be answered by the one that stands for it, nothing is lost (`dominated_of_reach`).
-/

namespace MSV

/-! ## Depth-first search -/

section DFS

variable {V : Type*} [DecidableEq V]

/-- Look at the nodes of a list in turn: stop at the target, and where `visit` finds it. -/
def dfsList (target : V) (visit : V → List V → Bool × List V) : List V → List V → Bool × List V
  | [], visited => (false, visited)
  | c :: cs, visited =>
      if c = target then (true, visited)
      else if (visit c visited).1 then visit c visited
      else dfsList target visit cs (visit c visited).2

/-- Depth-first search. No path without repetitions is longer than the fuel. -/
def dfs (succ : V → List V) (target : V) : Nat → V → List V → Bool × List V
  | 0, _, visited => (false, visited)
  | fuel + 1, v, visited =>
      if v ∈ visited then (false, visited)
      else dfsList target (dfs succ target fuel) (succ v) (v :: visited)

variable {succ : V → List V} {target : V}

theorem exists_of_dfsList {visit : V → List V → Bool × List V} (cs : List V) (visited : List V)
    (h : (dfsList target visit cs visited).1 = true) :
    ∃ c ∈ cs, c = target ∨ ∃ vis, (visit c vis).1 = true := by
  induction cs generalizing visited with
  | nil => cases h
  | cons c cs ih =>
      unfold dfsList at h
      by_cases hc : c = target
      · exact ⟨c, List.mem_cons_self, .inl hc⟩
      · rw [if_neg hc] at h
        by_cases hv : (visit c visited).1 = true
        · exact ⟨c, List.mem_cons_self, .inr ⟨visited, hv⟩⟩
        · rw [if_neg hv] at h
          obtain ⟨d, hd, hfound⟩ := ih _ h
          exact ⟨d, List.mem_cons_of_mem c hd, hfound⟩

/-- What is found can be reached. -/
theorem reach_of_dfs : ∀ (fuel : Nat) (v : V) (visited : List V),
    (dfs succ target fuel v visited).1 = true →
      Relation.TransGen (fun a b => b ∈ succ a) v target
  | 0, _, _, h => by cases h
  | fuel + 1, v, visited, h => by
    unfold dfs at h
    by_cases hv : v ∈ visited
    · rw [if_pos hv] at h
      cases h
    · rw [if_neg hv] at h
      obtain ⟨c, hc, rfl | ⟨vis, hvis⟩⟩ := exists_of_dfsList _ _ h
      · exact .single hc
      · exact .head hc (reach_of_dfs fuel c vis hvis)

/-- A search that found nothing from `vis` on leaves `vis'`: what it added has its successors in
there, and none is the target. -/
structure Missed (succ : V → List V) (target : V) (vis vis' : List V) : Prop where
  subset : vis ⊆ vis'
  closed : ∀ u ∈ vis', u ∉ vis → ∀ c ∈ succ u, c ∈ vis' ∧ c ≠ target

theorem Missed.trans {vis₁ vis₂ vis₃ : List V} (h : Missed succ target vis₁ vis₂)
    (h' : Missed succ target vis₂ vis₃) : Missed succ target vis₁ vis₃ := by
  refine ⟨List.Subset.trans h.subset h'.subset, fun u hu hnew c hc => ?_⟩
  by_cases hmid : u ∈ vis₂
  · obtain ⟨hmem, hne⟩ := h.closed u hmid hnew c hc
    exact ⟨h'.subset hmem, hne⟩
  · exact h'.closed u hu hmid c hc

/-- How many nodes have not been visited. -/
def unvisited (nodes visited : List V) : Nat := nodes.countP (· ∉ visited)

theorem unvisited_mono {nodes vis vis' : List V} (h : vis ⊆ vis') :
    unvisited nodes vis' ≤ unvisited nodes vis := by
  apply List.countP_mono_left
  intro x _ hx
  simp only [decide_eq_true_eq] at hx ⊢
  exact fun hmem => hx (h hmem)

theorem unvisited_cons {nodes vis : List V} {v : V} (hv : v ∈ nodes) (hnew : v ∉ vis) :
    unvisited nodes (v :: vis) < unvisited nodes vis := by
  induction nodes with
  | nil => cases hv
  | cons u nodes ih =>
      unfold unvisited at ih ⊢
      rw [List.countP_cons, List.countP_cons]
      have hle : unvisited nodes (v :: vis) ≤ unvisited nodes vis :=
        unvisited_mono (List.subset_cons_self v vis)
      unfold unvisited at hle
      by_cases huv : u = v
      · subst huv
        rw [if_neg (by simp), if_pos (by simpa using hnew)]
        omega
      · have hlt := ih ((List.mem_cons.mp hv).resolve_left (Ne.symm huv))
        have hsame : (decide (u ∉ v :: vis)) = decide (u ∉ vis) := by simp [huv]
        rw [hsame]
        omega

theorem missed_dfsList {nodes : List V} {visit : V → List V → Bool × List V} {fuel : Nat}
    (hvisit : ∀ c ∈ nodes, ∀ vis, unvisited nodes vis < fuel → (visit c vis).1 = false →
      Missed succ target vis (visit c vis).2 ∧ c ∈ (visit c vis).2)
    (cs : List V) (hcs : ∀ c ∈ cs, c ∈ nodes) (vis : List V) (hfuel : unvisited nodes vis < fuel)
    (h : (dfsList target visit cs vis).1 = false) :
    Missed succ target vis (dfsList target visit cs vis).2 ∧
      ∀ c ∈ cs, c ∈ (dfsList target visit cs vis).2 ∧ c ≠ target := by
  induction cs generalizing vis with
  | nil => exact ⟨⟨List.Subset.refl _, fun u hu hnew => absurd hu hnew⟩, fun c hc => nomatch hc⟩
  | cons c cs ih =>
      unfold dfsList at h ⊢
      by_cases hc : c = target
      · rw [if_pos hc] at h
        cases h
      · rw [if_neg hc] at h ⊢
        by_cases hv : (visit c vis).1 = true
        · rw [if_pos hv] at h
          exact absurd hv (by rw [h]; decide)
        · rw [if_neg hv] at h ⊢
          obtain ⟨hmiss, hmem⟩ := hvisit c (hcs c List.mem_cons_self) vis hfuel
            (Bool.not_eq_true _ ▸ hv)
          obtain ⟨hrest, hall⟩ := ih (fun d hd => hcs d (List.mem_cons_of_mem c hd)) _
            (Nat.lt_of_le_of_lt (unvisited_mono hmiss.subset) hfuel) h
          refine ⟨hmiss.trans hrest, fun d hd => ?_⟩
          obtain rfl | hd := List.mem_cons.mp hd
          · exact ⟨hrest.subset hmem, hc⟩
          · exact hall d hd

/-- With fuel for every node not visited yet, a search that finds nothing has looked everywhere. -/
theorem missed_dfs {nodes : List V} (hnodes : ∀ u ∈ nodes, ∀ c ∈ succ u, c ∈ nodes) :
    ∀ (fuel : Nat), ∀ v ∈ nodes, ∀ vis, unvisited nodes vis < fuel →
      (dfs succ target fuel v vis).1 = false →
      Missed succ target vis (dfs succ target fuel v vis).2 ∧ v ∈ (dfs succ target fuel v vis).2
  | 0, _, _, _, hfuel, _ => by omega
  | fuel + 1, v, hv, vis, hfuel, h => by
    unfold dfs at h ⊢
    by_cases hmem : v ∈ vis
    · rw [if_pos hmem]
      exact ⟨⟨List.Subset.refl _, fun u hu hnew => absurd hu hnew⟩, hmem⟩
    · rw [if_neg hmem] at h ⊢
      have hless := unvisited_cons hv hmem
      obtain ⟨hmiss, hall⟩ := missed_dfsList (missed_dfs hnodes fuel) (succ v) (hnodes v hv)
        (v :: vis) (by omega) h
      refine ⟨⟨fun u hu => hmiss.subset (List.mem_cons_of_mem v hu), fun u hu hnew c hc => ?_⟩,
        hmiss.subset List.mem_cons_self⟩
      by_cases huv : u = v
      · subst huv
        exact hall c hc
      · exact hmiss.closed u hu (by simp [huv, hnew]) c hc

/-- **A search for the node it starts from finds it when the node is on a cycle.** -/
theorem dfs_iff {nodes : List V} (hnodes : ∀ u ∈ nodes, ∀ c ∈ succ u, c ∈ nodes)
    (htarget : target ∈ nodes) :
    (dfs succ target (nodes.length + 1) target []).1 = true ↔
      Relation.TransGen (fun a b => b ∈ succ a) target target := by
  refine ⟨reach_of_dfs _ _ _, fun hcycle => ?_⟩
  by_contra hfound
  have hfuel : unvisited nodes [] < nodes.length + 1 :=
    Nat.lt_succ_of_le List.countP_le_length
  obtain ⟨hmiss, hmem⟩ := missed_dfs hnodes _ target htarget [] hfuel (Bool.not_eq_true _ ▸ hfound)
  have hinside : ∀ w, Relation.TransGen (fun a b => b ∈ succ a) target w →
      w ∈ (dfs succ target (nodes.length + 1) target []).2 ∧ w ≠ target := by
    intro w hw
    induction hw with
    | single hc => exact hmiss.closed _ hmem (List.not_mem_nil) _ hc
    | tail _ hc ih => exact hmiss.closed _ ih.1 (List.not_mem_nil) _ hc
  exact (hinside target hcycle).2 rfl

end DFS

/-! ## Exploration up to domination -/

section Domination

variable {C : Type*} {Next : C → C → Prop} (Dominates : C → C → Prop) (Good Live D : C → Prop)

/-- Whatever is reached while it is live is dominated by an explored configuration, if the
explored ones are closed up to domination. -/
theorem dominated_of_reach
    (hgood : ∀ c c', Good c → Next c c' → Good c')
    (hlive : ∀ c c', Next c c' → Live c' → Live c)
    (hdom : ∀ d c, Dominates d c → Live c → Live d)
    (htrans : ∀ a b c, Dominates a b → Dominates b c → Dominates a c)
    (hsim : ∀ d c c', Good c → Dominates d c → Next c c' → ∃ d', Next d d' ∧ Dominates d' c')
    (hclosed : ∀ d d', D d → Next d d' → Live d' → ∃ e, D e ∧ Dominates e d')
    {s c : C} (hs : Good s) (hstart : Live s → ∃ d, D d ∧ Dominates d s)
    (h : Relation.ReflTransGen Next s c) (hc : Live c) : ∃ d, D d ∧ Dominates d c := by
  have key : Good c ∧ ∃ d, D d ∧ Dominates d c := by
    induction h with
    | refl => exact ⟨hs, hstart hc⟩
    | tail _ hstep ih =>
        obtain ⟨hg, d, hd, hdc⟩ := ih (hlive _ _ hstep hc)
        obtain ⟨d', hnext, hdom'⟩ := hsim d _ _ hg hdc hstep
        obtain ⟨e, he, hed⟩ := hclosed d d' hd hnext (hdom _ _ hdom' hc)
        exact ⟨hgood _ _ hg hstep, e, he, htrans _ _ _ hed hdom'⟩
  exact key.2

end Domination

end MSV
