import Mathlib.Data.Finset.Card
import Mathlib.Data.Finset.Dedup
import Mathlib.Data.List.Chain
import Mathlib.Logic.Relation

/-!
# Search for one path

A depth-first search where every path carries the set of nodes it has visited, so that a node may
be looked at once for each path that leads to it. The search stops at the first path that ends at
the target.

**Theorem (`paths_spec`).** The search finds a path if there is one, and only one path; it has no
repetitions.
-/

namespace MSV.PathSearch

variable {V : Type*} [DecidableEq V]

/-- The paths found so far, and whether one was found. -/
abbrev Found (V : Type*) := List (List V) × Bool

variable (succ : V → List V) (sink : V)

/-- Visit a node, at the end of a path. No path without repetitions is longer than the fuel. -/
def visit : Nat → V → List V → List V → Found V → Found V
  | 0, _, _, _, st => st
  | fuel + 1, src, cur, visited, st =>
      if st.2 then st
      else if src ∈ visited then st
      else if src = sink then (st.1 ++ [cur ++ [src]], true)
      else (succ src).foldl (fun st n => visit fuel n (cur ++ [src]) (src :: visited) st) st

/-- The search from `src`, in a graph with these nodes. -/
def paths (nodes : List V) (src : V) : List (List V) :=
  (visit succ sink (nodes.length + 2) src [] [] ([], false)).1

variable {succ sink}

/-! ## Paths that avoid nodes -/

/-- An edge to a node not visited. -/
def Edge (succ : V → List V) (visited : List V) (a b : V) : Prop := b ∈ succ a ∧ b ∉ visited

/-- What can be reached without the nodes visited. -/
def Reach (succ : V → List V) (visited : List V) : V → V → Prop :=
  Relation.ReflTransGen (Edge succ visited)

omit [DecidableEq V] in
theorem reach_nil {a b : V} (h : Relation.ReflTransGen (fun a b => b ∈ succ a) a b) :
    Reach succ [] a b := by
  induction h with
  | refl => exact .refl
  | tail _ hb ih => exact ih.tail ⟨hb, List.not_mem_nil⟩

/-- A path may be cut at the last time it comes by a node. -/
theorem reach_cut {visited : List V} {src a : V} (hne : src ≠ sink)
    (h : Reach succ visited a sink) :
    Reach succ (src :: visited) a sink ∨
      ∃ n, Edge succ (src :: visited) src n ∧ Reach succ (src :: visited) n sink := by
  induction h using Relation.ReflTransGen.head_induction_on with
  | refl => exact .inl .refl
  | @head a b hab _ ih =>
    obtain hb | hlast := ih
    · by_cases hbs : b = src
      · subst hbs
        obtain heq | ⟨n, hn, hrest⟩ := Relation.ReflTransGen.cases_head hb
        · exact absurd heq hne
        · exact .inr ⟨n, hn, hrest⟩
      · exact .inl (.head ⟨hab.1, by simp [hbs, hab.2]⟩ hb)
    · exact .inr hlast

/-- The first step of a path that does not come back. -/
theorem exists_edge_of_reach {visited : List V} {src : V} (hne : src ≠ sink)
    (h : Reach succ visited src sink) :
    ∃ n, Edge succ (src :: visited) src n ∧ Reach succ (src :: visited) n sink := by
  obtain h | h := reach_cut hne h
  · obtain heq | ⟨n, hn, hrest⟩ := Relation.ReflTransGen.cases_head h
    · exact absurd heq hne
    · exact ⟨n, hn, hrest⟩
  · exact h

/-! ## What a visit finds -/

/-- A path from `src` to the sink without the nodes visited and without repetitions. -/
structure IsPath (succ : V → List V) (sink : V) (visited : List V) (src : V) (p : List V) :
    Prop where
  chain : p.IsChain fun a b => b ∈ succ a
  head : p.head? = some src
  last : p.getLast? = some sink
  nodup : p.Nodup
  avoids : ∀ v ∈ p, v ∉ visited

omit [DecidableEq V] in
theorem isPath_single {visited : List V} (h : sink ∉ visited) :
    IsPath succ sink visited sink [sink] where
  chain := .singleton _
  head := rfl
  last := rfl
  nodup := List.nodup_singleton _
  avoids _ hv := List.mem_singleton.mp hv ▸ h

omit [DecidableEq V] in
theorem IsPath.cons {visited p : List V} {src n : V} (h : IsPath succ sink (src :: visited) n p)
    (hn : n ∈ succ src) (hsrc : src ∉ visited) : IsPath succ sink visited src (src :: p) where
  chain := List.isChain_cons.mpr ⟨fun m hm => by
    obtain rfl : m = n := by simpa [h.head, eq_comm] using hm
    exact hn, h.chain⟩
  head := rfl
  last := by
    rw [List.getLast?_cons, h.last]
    rfl
  nodup := List.nodup_cons.mpr ⟨fun hmem => h.avoids src hmem List.mem_cons_self, h.nodup⟩
  avoids v hv := by
    obtain rfl | hv := List.mem_cons.mp hv
    · exact hsrc
    · exact fun hmem => h.avoids v hv (List.mem_cons_of_mem _ hmem)

/-- The nodes not visited. -/
def unvisited (nodes visited : List V) : Nat := (nodes.toFinset.filter (· ∉ visited)).card

theorem unvisited_cons {nodes visited : List V} {v : V} (hv : v ∈ nodes) (hnew : v ∉ visited) :
    unvisited nodes (v :: visited) < unvisited nodes visited := by
  refine Finset.card_lt_card (Finset.ssubset_iff_of_subset ?_ |>.mpr ⟨v, ?_, ?_⟩)
  · intro u hu
    simp only [Finset.mem_filter, List.mem_cons, not_or] at hu ⊢
    exact ⟨hu.1, hu.2.2⟩
  · simp [hv, hnew]
  · simp

/-- What a visit that starts with nothing found gives: one path that goes on from `cur`, or, if there
is none, nothing. -/
def Answers (succ : V → List V) (sink : V) (visited cur : List V) (Start : V → Prop)
    (found : List (List V)) (r : Found V) : Prop :=
  (r.2 = true ∧ ∃ n p, Start n ∧ IsPath succ sink visited n p ∧ r.1 = found ++ [cur ++ p]) ∨
    (r = (found, false) ∧ ∀ n, Start n → n ∉ visited → ¬ Reach succ visited n sink)

theorem visit_found (fuel : Nat) (src : V) (cur visited : List V) {st : Found V}
    (h : st.2 = true) : visit succ sink fuel src cur visited st = st := by
  cases fuel with
  | zero => rfl
  | succ fuel => rw [visit, if_pos h]

theorem foldl_visit_found (fuel : Nat) (cur visited : List V) (ns : List V) {st : Found V}
    (h : st.2 = true) :
    ns.foldl (fun st n => visit succ sink fuel n cur visited st) st = st := by
  induction ns with
  | nil => rfl
  | cons n ns ih => rw [List.foldl_cons, visit_found fuel n cur visited h, ih]

/-- The nodes of a list are visited until a path is found. -/
theorem foldl_answers {fuel : Nat} {cur visited : List V} (ns : List V)
    (hvisit : ∀ n ∈ ns, ∀ found, Answers succ sink visited cur (· = n) found
      (visit succ sink fuel n cur visited (found, false))) (found : List (List V)) :
    Answers succ sink visited cur (· ∈ ns) found
      (ns.foldl (fun st n => visit succ sink fuel n cur visited st) (found, false)) := by
  induction ns with
  | nil => exact .inr ⟨rfl, fun n hn => nomatch hn⟩
  | cons n ns ih =>
    rw [List.foldl_cons]
    obtain ⟨htrue, m, p, hm, hp, heq⟩ | ⟨heq, hnone⟩ := hvisit n List.mem_cons_self found
    · rw [foldl_visit_found fuel cur visited ns htrue]
      exact .inl ⟨htrue, m, p, List.mem_cons.mpr (.inl hm), hp, heq⟩
    · rw [heq]
      obtain ⟨htrue, m, p, hm, hp, heq'⟩ | ⟨heq', hnone'⟩ :=
        ih fun m hm => hvisit m (List.mem_cons_of_mem n hm)
      · exact .inl ⟨htrue, m, p, List.mem_cons_of_mem n hm, hp, heq'⟩
      · refine .inr ⟨heq', fun m hm => ?_⟩
        obtain rfl | hm := List.mem_cons.mp hm
        · exact hnone m rfl
        · exact hnone' m hm

variable (sink) in
/-- **A visit finds one path, if there is one that avoids the nodes visited.** -/
theorem visit_answers {nodes : List V} (hnodes : ∀ a, ∀ b ∈ succ a, b ∈ nodes) (fuel : Nat) {src : V}
    (hsrc : src ∈ nodes) (cur visited : List V) (hfuel : unvisited nodes visited < fuel)
    (found : List (List V)) :
    Answers succ sink visited cur (· = src) found
      (visit succ sink fuel src cur visited (found, false)) := by
  induction fuel generalizing src cur visited found with
  | zero => omega
  | succ fuel ih =>
    rw [visit, if_neg Bool.false_ne_true]
    by_cases hvis : src ∈ visited
    · rw [if_pos hvis]
      exact .inr ⟨rfl, fun n hn hnew => absurd (hn ▸ hvis) hnew⟩
    rw [if_neg hvis]
    by_cases hsink : src = sink
    · subst hsink
      rw [if_pos rfl]
      exact .inl ⟨rfl, src, [src], rfl, isPath_single hvis, rfl⟩
    rw [if_neg hsink]
    have hless := unvisited_cons hsrc hvis
    obtain ⟨htrue, n, p, hn, hp, heq⟩ | ⟨heq, hnone⟩ := foldl_answers (succ src)
      (fun n hn found => ih (hnodes src n hn) (cur ++ [src]) (src :: visited) (by omega) found) found
    · exact .inl ⟨htrue, src, src :: p, rfl, hp.cons hn hvis, by simpa using heq⟩
    · refine .inr ⟨heq, fun n hn _ hreach => ?_⟩
      subst hn
      obtain ⟨m, hm, hrest⟩ := exists_edge_of_reach hsink hreach
      exact hnone m hm.1 hm.2 hrest

/-- **The search finds one path without repetitions, or nothing if there is none.** -/
theorem paths_spec {nodes : List V} (hnodes : ∀ a, ∀ b ∈ succ a, b ∈ nodes) (src : V) :
    (∃ p, paths succ sink nodes src = [p] ∧ IsPath succ sink [] src p) ∨
      (paths succ sink nodes src = [] ∧
        ¬ Relation.ReflTransGen (fun a b => b ∈ succ a) src sink) := by
  have hcard : unvisited (src :: nodes) [] < nodes.length + 2 := by
    have hle := (Finset.card_filter_le (src :: nodes).toFinset (· ∉ ([] : List V))).trans
      (List.toFinset_card_le _)
    simp only [List.length_cons] at hle
    unfold unvisited
    omega
  obtain ⟨-, n, p, rfl, hp, heq⟩ | ⟨heq, hnone⟩ := visit_answers sink
    (fun a b hb => List.mem_cons_of_mem src (hnodes a b hb)) (nodes.length + 2)
    List.mem_cons_self [] [] hcard []
  · exact .inl ⟨p, by simpa [paths] using heq, hp⟩
  · refine .inr ⟨congrArg Prod.fst heq, fun hreach => ?_⟩
    exact hnone src rfl List.not_mem_nil (reach_nil hreach)

end MSV.PathSearch
