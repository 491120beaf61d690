import Mathlib.Data.List.Induction
import Mathlib.Data.List.Lex
import Mathlib.Data.Prod.Lex
import MSV.Lib.Explore
import MSV.Lib.Run

/-!
# Breadth-first search

A search for a target with a queue. Every node in the queue has a value, which is made from the one
of the node before it. A node is marked when it is put in the queue, and the search ends when the
target is taken from it.

`result_cases` says which value it ends with: the one made along the first of the paths to the
target, which has as few nodes as possible and takes the earliest successors among those.
-/

namespace MSV.Breadth

variable {V α : Type*} [DecidableEq V]

/-! ## Paths -/

/-- The nodes behind `s` on a path to `t`. -/
def IsPath (succ : V → List V) : V → List V → V → Prop
  | s, [], t => s = t
  | s, c :: l, t => c ∈ succ s ∧ IsPath succ c l t

/-- Which of the successors is taken, node by node. -/
def choices (succ : V → List V) : V → List V → List Nat
  | _, [] => []
  | s, c :: l => (succ s).idxOf c :: choices succ c l

/-- Shorter paths come first, and among those of one length the ones with earlier successors. -/
def rank (succ : V → List V) (s : V) (l : List V) : ℕ ×ₗ List ℕ :=
  toLex (l.length, choices succ s l)

/-- The first path. -/
structure IsFirst (succ : V → List V) (s : V) (l : List V) (t : V) : Prop where
  path : IsPath succ s l t
  least : ∀ l', IsPath succ s l' t → rank succ s l ≤ rank succ s l'

section Paths

variable {succ : V → List V} {s t u u' c c' : V} {l l' : List V}

omit [DecidableEq V] in
theorem isPath_append :
    IsPath succ s (l ++ [c]) t ↔ ∃ u, IsPath succ s l u ∧ c ∈ succ u ∧ c = t := by
  induction l generalizing s with
  | nil => simp [IsPath]
  | cons d l ih =>
      show d ∈ succ s ∧ IsPath succ d (l ++ [c]) t ↔
        ∃ u, (d ∈ succ s ∧ IsPath succ d l u) ∧ c ∈ succ u ∧ c = t
      simp only [ih, and_assoc, exists_and_left]

theorem length_choices (s : V) (l : List V) : (choices succ s l).length = l.length := by
  induction l generalizing s with
  | nil => rfl
  | cons c l ih => exact congrArg (· + 1) (ih c)

theorem choices_append (h : IsPath succ s l u) :
    choices succ s (l ++ [c]) = choices succ s l ++ [(succ u).idxOf c] := by
  induction l generalizing s with
  | nil =>
      obtain rfl : s = u := h
      rfl
  | cons d l ih => exact congrArg ((succ s).idxOf d :: ·) (ih h.2)

theorem rank_lt_iff : rank succ s l < rank succ s l' ↔
    l.length < l'.length ∨ l.length = l'.length ∧ choices succ s l < choices succ s l' :=
  Prod.Lex.toLex_lt_toLex

theorem rank_nil_le : rank succ s [] ≤ rank succ s l := by
  cases l with
  | nil => exact le_rfl
  | cons c l => exact (rank_lt_iff.mpr (.inl (by simp))).le

theorem rank_lt_append : rank succ s l < rank succ s (l ++ [c]) :=
  rank_lt_iff.mpr (.inl (by simp))

/-- What comes behind does not matter for lists of one length. -/
theorem append_lt_append {p q : List ℕ} (h : p.length = q.length) (hlt : p < q) (x y : List ℕ) :
    p ++ x < q ++ y := by
  induction p generalizing q with
  | nil =>
      obtain rfl := List.length_eq_zero_iff.mp h.symm
      exact absurd hlt (lt_irrefl _)
  | cons a p ih =>
      cases q with
      | nil => cases h
      | cons b q =>
          rw [List.cons_append, List.cons_append, List.cons_lt_cons_iff]
          obtain hab | ⟨hab, hpq⟩ := List.cons_lt_cons_iff.mp hlt
          · exact .inl hab
          · exact .inr ⟨hab, ih (Nat.succ.inj h) hpq⟩

theorem rank_append_lt (h : IsPath succ s l u) (h' : IsPath succ s l' u')
    (hlt : rank succ s l < rank succ s l') :
    rank succ s (l ++ [c]) < rank succ s (l' ++ [c']) := by
  rw [rank_lt_iff, choices_append h, choices_append h', List.length_append, List.length_append]
  obtain hlen | ⟨hlen, hchoices⟩ := rank_lt_iff.mp hlt
  · exact .inl (Nat.add_lt_add_right hlen 1)
  · refine .inr ⟨congrArg (· + 1) hlen, append_lt_append ?_ hchoices _ _⟩
    rw [length_choices, length_choices, hlen]

theorem rank_append_lt_of_idxOf (h : IsPath succ s l u)
    (hlt : (succ u).idxOf c < (succ u).idxOf c') :
    rank succ s (l ++ [c]) < rank succ s (l ++ [c']) := by
  rw [rank_lt_iff, choices_append h, choices_append h, List.length_append, List.length_append]
  exact .inr ⟨rfl, List.append_left_lt (List.cons_lt_cons_iff.mpr (.inl hlt))⟩

theorem rank_inj (h : IsPath succ s l t) (h' : IsPath succ s l' t)
    (heq : rank succ s l = rank succ s l') : l = l' := by
  have hchoices : choices succ s l = choices succ s l' :=
    congrArg (fun r => (ofLex r).2) heq
  clear heq
  induction l generalizing s l' with
  | nil =>
      cases l' with
      | nil => rfl
      | cons c' l' => cases hchoices
  | cons c l ih =>
      cases l' with
      | nil => cases hchoices
      | cons c' l' =>
          obtain ⟨hhead, htail⟩ := List.cons.inj hchoices
          obtain rfl := (List.idxOf_inj h.1).mp hhead
          rw [ih h.2 h'.2 htail]

theorem rank_append_le (h : IsPath succ s l u) (h' : IsPath succ s l' u)
    (hle : rank succ s l ≤ rank succ s l') :
    rank succ s (l ++ [c]) ≤ rank succ s (l' ++ [c]) := by
  obtain hlt | heq := hle.lt_or_eq
  · exact (rank_append_lt h h' hlt).le
  · rw [rank_inj h h' heq]

theorem IsFirst.unique (h : IsFirst succ s l t) (h' : IsFirst succ s l' t) : l = l' :=
  rank_inj h.path h'.path (le_antisymm (h.least l' h'.path) (h'.least l h.path))

end Paths

/-! ## The search -/

/-- The state of a search. -/
structure State (V α : Type*) where
  visited : List V
  queue : List (V × α)

variable (succ : V → List V) (next : α → V → α) (target : V)

/-- `if (visited.insert(c).second) q.push(c)`. -/
def push (a : α) (st : State V α) (c : V) : State V α :=
  if c ∈ st.visited then st else ⟨c :: st.visited, st.queue ++ [(c, next a c)]⟩

/-- Take a node from the queue. -/
def step (st : State V α) : Option (State V α) :=
  match st.queue with
  | [] => none
  | (v, a) :: rest =>
      if v = target then none
      else some ((succ v).foldl (push next a) { st with queue := rest })

/-- The search from `s` to its end, in a graph whose edges go to nodes of `nodes`. -/
def run (nodes : List V) (s : V) (a : α) : State V α :=
  stepN (step succ next target) (nodes.length + 1) ⟨[s], [(s, a)]⟩

/-- The value of the target, if it was met. -/
def result (nodes : List V) (s : V) (a : α) : Option α :=
  (run succ next target nodes s a).queue.head?.map Prod.snd

variable {succ next target}

theorem step_cases {st st' : State V α} (h : step succ next target st = some st') :
    ∃ v a rest, st.queue = (v, a) :: rest ∧ v ≠ target ∧
      st' = (succ v).foldl (push next a) ⟨st.visited, rest⟩ := by
  obtain ⟨visited, queue⟩ := st
  unfold step at h
  cases queue with
  | nil => cases h
  | cons e rest =>
      obtain ⟨v, a⟩ := e
      simp only at h
      split_ifs at h with hv
      exact ⟨v, a, rest, rfl, hv, (Option.some.inj h).symm⟩

theorem step_eq_none {st : State V α} (h : step succ next target st = none) :
    st.queue = [] ∨ ∃ a rest, st.queue = (target, a) :: rest := by
  obtain ⟨visited, queue⟩ := st
  unfold step at h
  cases queue with
  | nil => exact .inl rfl
  | cons e rest =>
      obtain ⟨v, a⟩ := e
      simp only at h
      split_ifs at h with hv
      subst hv
      exact .inr ⟨a, rest, rfl⟩

/-! ## It ends -/

/-- The nodes in the queue, and those that have not been there. -/
def size (nodes : List V) (st : State V α) : Nat :=
  st.queue.length + unvisited nodes st.visited

theorem size_push_le {nodes : List V} (a : α) (st : State V α) {c : V} (hc : c ∈ nodes) :
    size nodes (push next a st c) ≤ size nodes st := by
  unfold push
  split_ifs with hvis
  · exact le_rfl
  · have hless := unvisited_cons hc hvis
    simp only [size, List.length_append, List.length_singleton]
    omega

theorem size_foldl_le {nodes : List V} (a : α) (cs : List V) (hcs : ∀ c ∈ cs, c ∈ nodes)
    (st : State V α) : size nodes (cs.foldl (push next a) st) ≤ size nodes st := by
  induction cs generalizing st with
  | nil => exact le_rfl
  | cons c cs ih =>
      exact (ih (fun d hd => hcs d (List.mem_cons_of_mem c hd)) _).trans
        (size_push_le a st (hcs c List.mem_cons_self))

theorem size_step {nodes : List V} (hnodes : ∀ v, ∀ c ∈ succ v, c ∈ nodes) {st st' : State V α}
    (h : step succ next target st = some st') : size nodes st' < size nodes st := by
  obtain ⟨v, a, rest, hqueue, -, rfl⟩ := step_cases h
  refine (size_foldl_le a (succ v) (hnodes v) _).trans_lt ?_
  simp [size, hqueue]

theorem step_run {nodes : List V} (hnodes : ∀ v, ∀ c ∈ succ v, c ∈ nodes) (s : V) (a : α) :
    step succ next target (run succ next target nodes s a) = none := by
  refine step_stepN_eq_none (P := fun _ => True)
    (fun _ _ _ hab => ⟨trivial, size_step hnodes hab⟩) _ _ trivial ?_
  have hle : unvisited nodes [s] ≤ nodes.length := List.countP_le_length
  simp only [size, List.length_singleton]
  omega

/-! ## What it finds -/

section Found

variable {s : V} {a₀ : α}

/-- The nodes taken from the queue and the ones in it, with the paths they were found by.
`Looked d c` says that the successor `c` of a node that was taken has been looked at. -/
structure Inv (succ : V → List V) (next : α → V → α) (target s : V) (a₀ : α)
    (Looked : V × List V → V → Prop) (st : State V α) (done todo : List (V × List V)) : Prop where
  queue : st.queue = todo.map fun e => (e.1, e.2.foldl next a₀)
  visited : ∀ v, v ∈ st.visited ↔ ∃ e ∈ done ++ todo, e.1 = v
  path : ∀ e ∈ done ++ todo, IsPath succ s e.2 e.1
  sorted : (done ++ todo).Pairwise fun e e' => rank succ s e.2 < rank succ s e'.2
  found : ∀ e ∈ done ++ todo, e.2 = [] ∨
    ∃ d ∈ done, e.2 = d.2 ++ [e.1] ∧ Looked d e.1
  closed : ∀ d ∈ done, ∀ c ∈ succ d.1, Looked d c →
    ∃ e ∈ done ++ todo, e.1 = c ∧ rank succ s e.2 ≤ rank succ s (d.2 ++ [c])
  start : ∃ e ∈ done ++ todo, e.2 = []
  missed : ∀ d ∈ done, d.1 ≠ target

/-- Every successor has been looked at. -/
def All : V × List V → V → Prop := fun _ _ => True

/-- Of `d` only these. -/
def Only (d : V × List V) (pre : List V) : V × List V → V → Prop := fun d' c => d' = d → c ∈ pre

theorem inv_start : Inv succ next target s a₀ All ⟨[s], [(s, a₀)]⟩ [] [(s, [])] where
  queue := rfl
  visited v := by simp [eq_comm]
  path e he := by
    obtain rfl := List.mem_singleton.mp he
    rfl
  sorted := List.pairwise_singleton _ _
  found e he := by
    obtain rfl := List.mem_singleton.mp he
    exact .inl rfl
  closed d hd := nomatch hd
  start := ⟨_, List.mem_singleton.mpr rfl, rfl⟩
  missed d hd := nomatch hd

variable {st : State V α} {done todo : List (V × List V)} {d : V × List V} {pre : List V}

/-- The nodes taken before the last one were found before it. -/
theorem rank_lt_of_mem_done {Looked : V × List V → V → Prop}
    (h : Inv succ next target s a₀ Looked st (done ++ [d]) todo) {d' : V × List V}
    (hd' : d' ∈ done ++ [d]) (hne : d' ≠ d) : rank succ s d'.2 < rank succ s d.2 := by
  have hmem : d' ∈ done := (List.mem_append.mp hd').resolve_right fun hlast =>
    hne (List.mem_singleton.mp hlast)
  have hdone := (List.pairwise_append.mp h.sorted).1
  exact (List.pairwise_append.mp hdone).2.2 d' hmem d List.mem_cons_self

/-- A node of the queue becomes the last one taken. -/
theorem Inv.pop (h : Inv succ next target s a₀ All st done (d :: todo)) (htarget : d.1 ≠ target) :
    Inv succ next target s a₀ (Only d []) ⟨st.visited, todo.map fun e => (e.1, e.2.foldl next a₀)⟩
      (done ++ [d]) todo := by
  have happend : done ++ [d] ++ todo = done ++ d :: todo := by simp
  have hnot : ∀ d' ∈ done, d' ≠ d := by
    intro d' hd' heq
    have hlt := (List.pairwise_append.mp h.sorted).2.2 d' hd' d List.mem_cons_self
    rw [heq] at hlt
    exact lt_irrefl _ hlt
  refine ⟨rfl, ?_, ?_, ?_, fun e he => ?_, fun d' hd' c hc hlooked => ?_, ?_, fun d' hd' => ?_⟩
  · rw [happend]
    exact h.visited
  · rw [happend]
    exact h.path
  · rw [happend]
    exact h.sorted
  · rw [happend] at he
    obtain hnil | ⟨d', hd', heq, -⟩ := h.found e he
    · exact .inl hnil
    · exact .inr ⟨d', List.mem_append_left _ hd', heq, fun hdd => absurd hdd (hnot d' hd')⟩
  · rw [happend]
    obtain hd' | hd' := List.mem_append.mp hd'
    · exact h.closed d' hd' c hc trivial
    · cases hlooked (List.mem_singleton.mp hd')
  · rw [happend]
    exact h.start
  · obtain hd' | hd' := List.mem_append.mp hd'
    · exact h.missed d' hd'
    · rw [List.mem_singleton.mp hd']
      exact htarget

/-- A node has been found by a path before every one behind the last node taken, unless that is the
same path. -/
theorem Inv.rank_le (h : Inv succ next target s a₀ (Only d pre) st (done ++ [d]) todo)
    {e : V × List V} (he : e ∈ done ++ [d] ++ todo) :
    rank succ s e.2 ≤ rank succ s (d.2 ++ [e.1]) := by
  have hpath : ∀ d' ∈ done ++ [d], IsPath succ s d'.2 d'.1 := fun d' hd' =>
    h.path d' (List.mem_append_left _ hd')
  have hd : d ∈ done ++ [d] := List.mem_append_right _ List.mem_cons_self
  obtain hnil | ⟨d', hd', heq, -⟩ := h.found e he
  · rw [hnil]
    exact rank_nil_le
  · by_cases hdd : d' = d
    · rw [heq, hdd]
    · rw [heq]
      exact (rank_append_lt (hpath d' hd') (hpath d hd) (rank_lt_of_mem_done h hd' hdd)).le

omit [DecidableEq V] in
theorem Only.mono {c : V} : ∀ {d' : V × List V} {v : V}, Only d pre d' v →
    Only d (pre ++ [c]) d' v :=
  fun hlooked hdd => List.mem_append_left _ (hlooked hdd)

/-- What has been looked at now had been, or is the new successor. -/
theorem Only.cases {c c' : V} {d' : V × List V} (h : Only d (pre ++ [c]) d' c') :
    Only d pre d' c' ∨ d' = d ∧ c' = c := by
  by_cases hdd : d' = d
  · obtain hpre | hlast := List.mem_append.mp (h hdd)
    · exact .inl fun _ => hpre
    · exact .inr ⟨hdd, List.mem_singleton.mp hlast⟩
  · exact .inl fun heq => absurd heq hdd

/-- A successor that has been found before. -/
theorem Inv.push_visited (h : Inv succ next target s a₀ (Only d pre) st (done ++ [d]) todo) {c : V}
    (hvis : c ∈ st.visited) :
    Inv succ next target s a₀ (Only d (pre ++ [c])) st (done ++ [d]) todo := by
  refine ⟨h.queue, h.visited, h.path, h.sorted, fun e he => ?_, fun d' hd' c' hc' hlooked => ?_,
    h.start, h.missed⟩
  · exact (h.found e he).imp_right fun ⟨d', hd', heq, hlooked⟩ => ⟨d', hd', heq, hlooked.mono⟩
  · obtain hold | ⟨rfl, rfl⟩ := hlooked.cases
    · exact h.closed d' hd' c' hc' hold
    · obtain ⟨e, he, rfl⟩ := (h.visited c').mp hvis
      exact ⟨e, he, rfl, h.rank_le he⟩

/-- A successor that has not been found comes behind everything that has. -/
theorem Inv.rank_lt (h : Inv succ next target s a₀ (Only d pre) st (done ++ [d]) todo) {c : V}
    {cs : List V} (hsucc : succ d.1 = pre ++ c :: cs) (hnew : c ∉ st.visited) {e : V × List V}
    (he : e ∈ done ++ [d] ++ todo) : rank succ s e.2 < rank succ s (d.2 ++ [c]) := by
  have hd : d ∈ done ++ [d] := List.mem_append_right _ List.mem_cons_self
  have hpath : ∀ d' ∈ done ++ [d], IsPath succ s d'.2 d'.1 := fun d' hd' =>
    h.path d' (List.mem_append_left _ hd')
  have hnotin : c ∉ pre := by
    intro hpre
    obtain ⟨e', he', heq, -⟩ := h.closed d hd c (by simp [hsucc]) fun _ => hpre
    exact hnew ((h.visited c).mpr ⟨e', he', heq⟩)
  obtain hnil | ⟨d', hd', heq, hlooked⟩ := h.found e he
  · rw [hnil]
    exact rank_nil_le.trans_lt rank_lt_append
  · rw [heq]
    by_cases hdd : d' = d
    · rw [hdd]
      refine rank_append_lt_of_idxOf (hpath d hd) ?_
      have hpre : e.1 ∈ pre := hlooked hdd
      have hlt := List.idxOf_lt_length_of_mem hpre
      rw [hsucc, List.idxOf_append_of_mem hpre, List.idxOf_append_of_notMem hnotin]
      omega
    · exact rank_append_lt (hpath d' hd') (hpath d hd) (rank_lt_of_mem_done h hd' hdd)

theorem Inv.push_new (h : Inv succ next target s a₀ (Only d pre) st (done ++ [d]) todo) {c : V}
    {cs : List V} (hsucc : succ d.1 = pre ++ c :: cs) (hnew : c ∉ st.visited) :
    Inv succ next target s a₀ (Only d (pre ++ [c]))
      ⟨c :: st.visited, st.queue ++ [(c, next (d.2.foldl next a₀) c)]⟩ (done ++ [d])
      (todo ++ [(c, d.2 ++ [c])]) := by
  have hd : d ∈ done ++ [d] := List.mem_append_right _ List.mem_cons_self
  have hmem : ∀ e, e ∈ done ++ [d] ++ (todo ++ [(c, d.2 ++ [c])]) ↔
      e ∈ done ++ [d] ++ todo ∨ e = (c, d.2 ++ [c]) := by
    intro e
    simp [or_assoc]
  refine ⟨?_, fun v => ?_, fun e he => ?_, ?_, fun e he => ?_, fun d' hd' c' hc' hlooked => ?_, ?_,
    h.missed⟩
  · rw [h.queue, List.map_append, List.map_singleton, List.foldl_append]
    rfl
  · rw [List.mem_cons, h.visited]
    simp only [hmem]
    constructor
    · rintro (rfl | ⟨e, he, rfl⟩)
      · exact ⟨_, .inr rfl, rfl⟩
      · exact ⟨e, .inl he, rfl⟩
    · rintro ⟨e, he | rfl, rfl⟩
      · exact .inr ⟨e, he, rfl⟩
      · exact .inl rfl
  · obtain he | rfl := (hmem e).mp he
    · exact h.path e he
    · exact isPath_append.mpr
        ⟨d.1, h.path d (List.mem_append_left _ hd), by simp [hsucc], rfl⟩
  · rw [← List.append_assoc]
    refine List.pairwise_append.mpr ⟨h.sorted, List.pairwise_singleton _ _, fun e he e' he' => ?_⟩
    rw [List.mem_singleton.mp he']
    exact h.rank_lt hsucc hnew he
  · obtain he | rfl := (hmem e).mp he
    · exact (h.found e he).imp_right fun ⟨d', hd', heq, hlooked⟩ => ⟨d', hd', heq, hlooked.mono⟩
    · exact .inr ⟨d, hd, rfl, fun _ => List.mem_append_right _ List.mem_cons_self⟩
  · obtain hold | ⟨rfl, rfl⟩ := hlooked.cases
    · obtain ⟨e, he, heq, hle⟩ := h.closed d' hd' c' hc' hold
      exact ⟨e, (hmem e).mpr (.inl he), heq, hle⟩
    · exact ⟨_, (hmem _).mpr (.inr rfl), rfl, le_rfl⟩
  · obtain ⟨e, he, hnil⟩ := h.start
    exact ⟨e, (hmem e).mpr (.inl he), hnil⟩

/-- **One successor.** -/
theorem Inv.push (h : Inv succ next target s a₀ (Only d pre) st (done ++ [d]) todo) {c : V}
    {cs : List V} (hsucc : succ d.1 = pre ++ c :: cs) :
    ∃ todo', Inv succ next target s a₀ (Only d (pre ++ [c]))
      (push next (d.2.foldl next a₀) st c) (done ++ [d]) todo' := by
  unfold Breadth.push
  split_ifs with hvis
  · exact ⟨todo, h.push_visited hvis⟩
  · exact ⟨_, h.push_new hsucc hvis⟩

/-- All successors. -/
theorem Inv.foldl (cs : List V) : ∀ {pre : List V} {st : State V α} {todo : List (V × List V)},
    Inv succ next target s a₀ (Only d pre) st (done ++ [d]) todo → succ d.1 = pre ++ cs →
    ∃ todo', Inv succ next target s a₀ All (cs.foldl (Breadth.push next (d.2.foldl next a₀)) st)
      (done ++ [d]) todo' := by
  induction cs with
  | nil =>
      intro pre st todo h hsucc
      rw [List.append_nil] at hsucc
      refine ⟨todo, h.queue, h.visited, h.path, h.sorted, fun e he => ?_,
        fun d' hd' c hc _ => h.closed d' hd' c hc fun hdd => ?_, h.start, h.missed⟩
      · exact (h.found e he).imp_right fun ⟨d', hd', heq, _⟩ => ⟨d', hd', heq, trivial⟩
      · rw [← hsucc, ← hdd]
        exact hc
  | cons c cs ih =>
      intro pre st todo h hsucc
      obtain ⟨todo', h'⟩ := h.push hsucc
      exact ih h' (by rw [hsucc, List.append_assoc]; rfl)

theorem Inv.step (h : Inv succ next target s a₀ All st done todo) {st' : State V α}
    (hstep : step succ next target st = some st') :
    ∃ done' todo', Inv succ next target s a₀ All st' done' todo' := by
  obtain ⟨v, a, rest, hqueue, hv, rfl⟩ := step_cases hstep
  rw [h.queue] at hqueue
  cases todo with
  | nil => cases hqueue
  | cons d todo =>
      obtain ⟨hhead, rfl⟩ := List.cons.inj hqueue
      obtain ⟨rfl, rfl⟩ := Prod.mk.inj hhead
      obtain ⟨todo', h'⟩ := (h.pop hv).foldl (succ d.1) rfl
      exact ⟨_, todo', h'⟩

/-- Every path leads to a node taken, found by one that is not behind it, or there is one in the
queue that is not. -/
theorem Inv.cover (h : Inv succ next target s a₀ All st done todo) (l : List V) :
    ∀ {t : V}, IsPath succ s l t →
      (∃ e ∈ done, e.1 = t ∧ rank succ s e.2 ≤ rank succ s l) ∨
        ∃ e ∈ todo, rank succ s e.2 ≤ rank succ s l := by
  have hsplit : ∀ {t : V} {l : List V},
      (∃ e ∈ done ++ todo, e.1 = t ∧ rank succ s e.2 ≤ rank succ s l) →
        (∃ e ∈ done, e.1 = t ∧ rank succ s e.2 ≤ rank succ s l) ∨
          ∃ e ∈ todo, rank succ s e.2 ≤ rank succ s l := by
    rintro t l ⟨e, he, ht, hle⟩
    exact (List.mem_append.mp he).imp (fun he => ⟨e, he, ht, hle⟩) fun he => ⟨e, he, hle⟩
  induction l using List.reverseRecOn with
  | nil =>
      intro t ht
      obtain ⟨e, he, hnil⟩ := h.start
      have hpath := h.path e he
      rw [hnil] at hpath
      exact hsplit ⟨e, he, hpath.symm.trans ht, by rw [hnil]⟩
  | append_singleton l c ih =>
      intro t ht
      obtain ⟨u, hu, hc, rfl⟩ := isPath_append.mp ht
      obtain ⟨e, he, rfl, hle⟩ | ⟨e, he, hle⟩ := ih hu
      · obtain ⟨e', he', heq, hle'⟩ := h.closed e he c hc trivial
        have hpath := h.path e (List.mem_append_left _ he)
        exact hsplit ⟨e', he', heq, hle'.trans (rank_append_le hpath hu hle)⟩
      · exact .inr ⟨e, he, hle.trans rank_lt_append.le⟩

end Found

/-- **The search ends with the value made along the first path to the target, if there is one.** -/
theorem result_cases {nodes : List V} (hnodes : ∀ v, ∀ c ∈ succ v, c ∈ nodes) (s : V) (a₀ : α) :
    (∃ l, IsFirst succ s l target ∧
        result succ next target nodes s a₀ = some (l.foldl next a₀)) ∨
      (∀ l, ¬ IsPath succ s l target) ∧ result succ next target nodes s a₀ = none := by
  obtain ⟨done, todo, h⟩ : ∃ done todo, Inv succ next target s a₀ All
      (run succ next target nodes s a₀) done todo :=
    (run_stepN _ _ _).invariant (P := fun st => ∃ done todo,
      Inv succ next target s a₀ All st done todo) ⟨_, _, inv_start⟩
      fun _ _ ⟨_, _, ha⟩ _ hab => ha.step hab
  have hmissed : ∀ l, IsPath succ s l target → ∃ e ∈ todo, rank succ s e.2 ≤ rank succ s l :=
    fun l hl => (h.cover l hl).resolve_left fun ⟨e, he, heq, _⟩ => h.missed e he heq
  unfold result
  rw [h.queue]
  obtain hempty | ⟨a, rest, hhead⟩ := step_eq_none (step_run hnodes s a₀)
  · rw [h.queue, List.map_eq_nil_iff] at hempty
    subst hempty
    refine .inr ⟨fun l hl => ?_, rfl⟩
    obtain ⟨e, he, -⟩ := hmissed l hl
    cases he
  · rw [h.queue] at hhead
    cases todo with
    | nil => cases hhead
    | cons e todo =>
        have htarget : e.1 = target := (Prod.mk.inj (List.cons.inj hhead).1).1
        refine .inl ⟨e.2, ⟨?_, fun l hl => ?_⟩, rfl⟩
        · rw [← htarget]
          exact h.path e (List.mem_append_right _ List.mem_cons_self)
        · obtain ⟨e', he', hle⟩ := hmissed l hl
          have htodo := (List.pairwise_append.mp h.sorted).2.1
          obtain rfl | he' := List.mem_cons.mp he'
          · exact hle
          · exact ((List.pairwise_cons.mp htodo).1 e' he').le.trans hle

end MSV.Breadth
