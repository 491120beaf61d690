import MSV.Dataflow.Moves

/-!
# The discipline of a worklist

`WorkList` is a queue with a set beside it that should tell what is in the queue. The constructor
fills both, and `take` takes from both; `add` asks the set, and enters the element in the queue
only. So an element that was added is not found by `contains`, and is queued a second time when it
is added again.

**Theorem (`discipline_iff`).** Throughout the operations on a list without repetitions, `contains`
is right if and only if nothing is added that it does not find. No element is queued twice, and
every element that is added while it is not queued is returned by one later `take` before it is
queued again, in the order of the additions, if and only if nothing is added that is queued and that
`contains` does not find.
-/

namespace MSV

inductive WorkList.Op (α : Type*) where
  | add (a : α)
  | take

namespace WorkList

variable {α : Type*} [DecidableEq α]

def contains (w : WorkList α) (a : α) : Bool := decide (a ∈ w.inList)

/-- What the calls of `take` returned, and the list after some operations. Nothing can be taken from
an empty list. -/
def run (w : WorkList α) : List (Op α) → Option (List α × WorkList α)
  | [] => some ([], w)
  | .add a :: ops => run (w.add a) ops
  | .take :: ops =>
      match w.take with
      | none => none
      | some (a, w') => (run w' ops).map fun r => (a :: r.1, r.2)

/-! ## The discipline -/

/-- A property of the list at every moment. -/
def Throughout (P : WorkList α → Prop) (w : WorkList α) (ops : List (Op α)) : Prop :=
  ∀ now later, ops = now ++ later → ∀ taken w', w.run now = some (taken, w') → P w'

/-- A property of the element and the list before every call of `add`. -/
def BeforeAdd (P : α → WorkList α → Prop) (w : WorkList α) (ops : List (Op α)) : Prop :=
  ∀ now a later, ops = now ++ .add a :: later → ∀ taken w', w.run now = some (taken, w') → P a w'

/-- No element is queued twice. -/
def NeverTwice : WorkList α → List (Op α) → Prop := Throughout fun w => w.work.Nodup

/-- `contains` tells what is queued. -/
def ContainsRight : WorkList α → List (Op α) → Prop :=
  Throughout fun w => ∀ a, w.contains a = true ↔ a ∈ w.work

/-- An element that is added behind `n` others is queued once until `n` elements have been returned,
and is the next one. -/
structure Served (a : α) (n : Nat) (taken : List α) (w : WorkList α) : Prop where
  waits : taken.length ≤ n → a ∉ taken ∧ w.work.count a = 1
  returned : n < taken.length → taken[n]? = some a ∧ a ∉ taken.take n

/-- Every element that is added while it is not queued is served, first in, first out. -/
def ReturnedOnce (w : WorkList α) (ops : List (Op α)) : Prop :=
  ∀ a now between later, ops = now ++ .add a :: between ++ later →
    ∀ before w', w.run now = some (before, w') → a ∉ w'.work →
      ∀ taken w'', (w'.add a).run between = some (taken, w'') →
        Served a w'.work.length taken w''

/-! ## Single operations -/

variable {w w' w'' : WorkList α} {a b : α} {ops now later : List (Op α)} {taken : List α}

theorem inList_add : (w.add a).inList = w.inList := by
  unfold add
  split_ifs <;> rfl

@[simp] theorem contains_add : (w.add a).contains b = w.contains b := by
  rw [contains, inList_add, contains]

theorem add_of_contains (h : w.contains a = true) : w.add a = w :=
  if_pos (of_decide_eq_true h)

theorem work_add_of_not_contains (h : w.contains a = false) :
    (w.add a).work = w.work ++ [a] := by
  rw [add, if_neg (of_decide_eq_false h)]

theorem contains_take (h : w.take = some (a, w')) :
    w'.contains b = true ↔ w.contains b = true ∧ b ≠ a := by
  simp [contains, (take_eq_some h).2]

/-! ## Runs -/

theorem run_nil : w.run [] = some (taken, w') ↔ taken = [] ∧ w' = w := by
  simp [run, eq_comm]

theorem run_take : w.run (.take :: ops) = some (taken, w'') ↔
    ∃ a w' taken', w.take = some (a, w') ∧ w'.run ops = some (taken', w'') ∧
      taken = a :: taken' := by
  rw [run]
  cases w.take with
  | none => simp
  | some r =>
      simp only [Option.map_eq_some_iff]
      constructor
      · rintro ⟨⟨taken', w₁⟩, hrun, heq⟩
        obtain ⟨rfl, rfl⟩ := Prod.mk.inj heq
        exact ⟨r.1, r.2, taken', rfl, hrun, rfl⟩
      · rintro ⟨a, w', taken', hr, hrun, rfl⟩
        obtain rfl := Option.some.inj hr
        exact ⟨(taken', w''), hrun, rfl⟩

theorem run_append {before : List α} (h : w.run now = some (before, w'))
    (h' : w'.run later = some (taken, w'')) :
    w.run (now ++ later) = some (before ++ taken, w'') := by
  induction now generalizing w before with
  | nil =>
      obtain ⟨rfl, rfl⟩ := run_nil.mp h
      exact h'
  | cons op now ih =>
      cases op with
      | add a => exact ih h
      | take =>
          obtain ⟨a, w₁, before', ht, hrun, rfl⟩ := run_take.mp h
          exact run_take.mpr ⟨a, w₁, before' ++ taken, ht, ih hrun, rfl⟩

/-- The elements that are added come behind those that are queued, and are returned in order. -/
theorem work_append_of_run (h : w.run ops = some (taken, w')) :
    ∃ entered, w.work ++ entered = taken ++ w'.work := by
  induction ops generalizing w taken with
  | nil =>
      obtain ⟨rfl, rfl⟩ := run_nil.mp h
      exact ⟨[], by simp⟩
  | cons op ops ih =>
      cases op with
      | add a =>
          obtain ⟨entered, heq⟩ := ih h
          cases hc : w.contains a with
          | true => exact ⟨entered, by rwa [add_of_contains hc] at heq⟩
          | false =>
              rw [work_add_of_not_contains hc, List.append_assoc] at heq
              exact ⟨[a] ++ entered, heq⟩
      | take =>
          obtain ⟨a, w₁, taken', ht, hrun, rfl⟩ := run_take.mp h
          obtain ⟨entered, heq⟩ := ih hrun
          exact ⟨entered, by rw [(take_eq_some ht).1, List.cons_append, heq, List.cons_append]⟩

/-- What holds at first and is kept by the additions there are, and by every `take`, holds
throughout. -/
theorem throughout_of_kept {P : WorkList α → Prop} (h0 : P w)
    (hadd : BeforeAdd (fun a w' => P w' → P (w'.add a)) w ops)
    (htake : ∀ w' a w'', P w' → w'.take = some (a, w'') → P w'') : Throughout P w ops := by
  induction ops generalizing w with
  | nil =>
      intro now later heq taken w' hrun
      obtain rfl : now = [] := (List.append_eq_nil_iff.mp heq.symm).1
      obtain ⟨-, rfl⟩ := run_nil.mp hrun
      exact h0
  | cons op ops ih =>
      intro now later heq taken w' hrun
      cases now with
      | nil =>
          obtain ⟨-, rfl⟩ := run_nil.mp hrun
          exact h0
      | cons op' now =>
          obtain ⟨rfl, hops⟩ := List.cons.inj heq
          cases op with
          | add a =>
              refine ih (hadd [] a ops rfl [] w rfl h0) ?_ now later hops taken w' hrun
              exact fun now b later hops taken w' hrun =>
                hadd (.add a :: now) b later (congrArg (.add a :: ·) hops) taken w' hrun
          | take =>
              obtain ⟨a, w₁, taken', ht, hrun', rfl⟩ := run_take.mp hrun
              refine ih (htake w a w₁ h0 ht) ?_ now later hops taken' w' hrun'
              exact fun now b later hops taken w' hrun =>
                hadd (.take :: now) b later (congrArg (.take :: ·) hops) (a :: taken) w'
                  (run_take.mpr ⟨a, w₁, taken, ht, hrun, rfl⟩)

/-! ## The queue and the set -/

/-- What the set holds is queued, whatever was done. -/
theorem inList_throughout (h : w.inList ⊆ w.work) :
    Throughout (fun w => w.inList ⊆ w.work) w ops := by
  refine throughout_of_kept h (fun _ a _ _ _ w' _ hw' => ?_) fun _ _ _ => inList_of_take
  rw [inList_add]
  exact List.Subset.trans hw' (w'.subset_add a)

/-- No element is queued twice, if none is added that is queued and not found. -/
theorem neverTwice_of (h : w.work.Nodup)
    (hadd : BeforeAdd (fun a w => w.contains a = true ∨ a ∉ w.work) w ops) : NeverTwice w ops := by
  refine throughout_of_kept h (fun now a later heq taken w' hrun hw' => ?_)
    fun w' a w'' hw' ht => ?_
  · cases hc : w'.contains a with
    | true => rwa [add_of_contains hc]
    | false =>
        have hnot : a ∉ w'.work := by simpa [hc] using hadd now a later heq taken w' hrun
        rw [work_add_of_not_contains hc, List.nodup_append_comm]
        exact List.nodup_cons.mpr ⟨hnot, hw'⟩
  · rw [(take_eq_some ht).1] at hw'
    exact (List.nodup_cons.mp hw').2

/-- If nothing new is added, `contains` stays right. -/
theorem containsRight_of (h : w.work.Nodup) (hright : ∀ a, w.contains a = true ↔ a ∈ w.work)
    (hadd : BeforeAdd (fun a w => w.contains a = true) w ops) : ContainsRight w ops := by
  have hboth :
      Throughout (fun w => w.work.Nodup ∧ ∀ a, w.contains a = true ↔ a ∈ w.work) w ops := by
    refine throughout_of_kept ⟨h, hright⟩ (fun now a later heq taken w' hrun hw' => ?_)
      fun w' a w'' hw' ht => ?_
    · rwa [add_of_contains (hadd now a later heq taken w' hrun)]
    · obtain ⟨hnodup, hright⟩ := hw'
      rw [(take_eq_some ht).1] at hnodup hright
      obtain ⟨hnot, hrest⟩ := List.nodup_cons.mp hnodup
      refine ⟨hrest, fun b => ?_⟩
      rw [contains_take ht, hright, List.mem_cons]
      constructor
      · rintro ⟨hb, hne⟩
        exact hb.resolve_left hne
      · exact fun hb => ⟨.inr hb, fun heq => hnot (heq ▸ hb)⟩
  exact fun now later heq taken w' hrun => (hboth now later heq taken w' hrun).2

/-- An element behind `n` others is served, as long as none is queued twice. -/
theorem served_of_append {queue entered : List α} (hnot : a ∉ queue)
    (h : queue ++ [a] ++ entered = taken ++ w.work) (hnodup : w.work.Nodup) :
    Served a queue.length taken w where
  waits hle := by
    have htaken : taken = queue.take taken.length := by
      have := congrArg (List.take taken.length) h
      rw [List.take_left, List.append_assoc, List.take_append_of_le_length hle] at this
      exact this.symm
    have hmem : a ∉ taken := fun ha => hnot (List.mem_of_mem_take (htaken ▸ ha))
    have hqueued : a ∈ taken ++ w.work := h ▸ by simp
    exact ⟨hmem, List.count_eq_one_of_mem hnodup ((List.mem_append.mp hqueued).resolve_left hmem)⟩
  returned hlt := by
    constructor
    · calc taken[queue.length]? = (taken ++ w.work)[queue.length]? :=
            (List.getElem?_append_left hlt).symm
        _ = some a := by rw [← h]; simp
    · have htaken : taken.take queue.length = queue :=
        calc taken.take queue.length = (taken ++ w.work).take queue.length :=
              (List.take_append_of_le_length hlt.le).symm
          _ = queue := by rw [← h, List.append_assoc, List.take_left]
      rwa [htaken]

/-- The elements are served in the order of the additions, as long as none is queued twice. -/
theorem returnedOnce_of (h : w.inList ⊆ w.work) (htwice : NeverTwice w ops) :
    ReturnedOnce w ops := by
  intro a now between later heq before w' hnow hnot taken w'' hbetween
  have hsplit : ops = now ++ (.add a :: between ++ later) := by rw [heq, List.append_assoc]
  have hc : w'.contains a = false := decide_eq_false fun hmem =>
    hnot (inList_throughout h now _ hsplit before w' hnow hmem)
  obtain ⟨entered, happend⟩ := work_append_of_run hbetween
  rw [work_add_of_not_contains hc] at happend
  have hrun : w.run (now ++ .add a :: between) = some (before ++ taken, w'') :=
    run_append hnow hbetween
  exact served_of_append hnot happend (htwice _ later heq _ w'' hrun)

/-! ## Main results -/

/-- Before every addition the element is found, exactly when `contains` is right throughout. -/
theorem beforeAdd_of_containsRight (hright : ContainsRight w ops) :
    BeforeAdd (fun a w => w.contains a = true) w ops := by
  intro now a later heq taken w' hrun
  by_contra hc
  have hadded : w.run (now ++ [.add a]) = some (taken ++ [], w'.add a) := run_append hrun rfl
  have hnow := hright (now ++ [.add a]) later (by simp [heq]) _ _ hadded a
  rw [contains_add, work_add_of_not_contains (by simpa using hc)] at hnow
  exact hc (hnow.mpr (by simp))

theorem beforeAdd_of_neverTwice (htwice : NeverTwice w ops) :
    BeforeAdd (fun a w => w.contains a = true ∨ a ∉ w.work) w ops := by
  intro now a later heq taken w' hrun
  cases hc : w'.contains a with
  | true => exact .inl rfl
  | false =>
      have hadded : w.run (now ++ [.add a]) = some (taken ++ [], w'.add a) := run_append hrun rfl
      have hnodup : (w'.add a).work.Nodup :=
        htwice (now ++ [.add a]) later (by simp [heq]) _ _ hadded
      rw [work_add_of_not_contains hc, List.nodup_append_comm] at hnodup
      exact .inr (List.nodup_cons.mp hnodup).1

/-- A worklist keeps its discipline exactly when nothing is added that `contains` does not find;
and but for `contains`, exactly when nothing is added that is queued and not found. -/
theorem discipline_iff {l : List α} (hl : l.Nodup) (ops : List (Op α)) :
    ((NeverTwice (ofList l) ops ∧ ContainsRight (ofList l) ops ∧ ReturnedOnce (ofList l) ops) ↔
      BeforeAdd (fun a w => w.contains a = true) (ofList l) ops) ∧
    ((NeverTwice (ofList l) ops ∧ ReturnedOnce (ofList l) ops) ↔
      BeforeAdd (fun a w => w.contains a = true ∨ a ∉ w.work) (ofList l) ops) := by
  have hright : ∀ a, (ofList l).contains a = true ↔ a ∈ (ofList l).work := fun a =>
    decide_eq_true_iff
  have hsound : NeverTwice (ofList l) ops → ReturnedOnce (ofList l) ops :=
    returnedOnce_of (List.Subset.refl l)
  constructor
  · constructor
    · rintro ⟨-, hcontains, -⟩
      exact beforeAdd_of_containsRight hcontains
    · intro hadd
      have htwice : NeverTwice (ofList l) ops := neverTwice_of hl
        fun now a later heq taken w' hrun => .inl (hadd now a later heq taken w' hrun)
      exact ⟨htwice, containsRight_of hl hright hadd, hsound htwice⟩
  · constructor
    · exact fun h => beforeAdd_of_neverTwice h.1
    · intro hadd
      have htwice := neverTwice_of hl hadd
      exact ⟨htwice, hsound htwice⟩

/-- An element is added to a list of another one, and both are taken. -/
theorem new_element_served : NeverTwice (ofList [0]) [.add 1, .take, .take] ∧
    ReturnedOnce (ofList [0]) [.add 1, .take, .take] := by
  refine (discipline_iff (List.nodup_singleton 0) _).2.mpr ?_
  intro now a later heq taken w' hrun
  have hmem : Op.add a ∈ [Op.take, .take] ∨ now = [] ∧ a = 1 := by
    cases now with
    | nil =>
        obtain ⟨hadd, -⟩ := List.cons.inj heq
        exact .inr ⟨rfl, (Op.add.inj hadd).symm⟩
    | cons op now =>
        rw [(List.cons.inj heq).2]
        exact .inl (by simp)
  obtain hmem | ⟨rfl, rfl⟩ := hmem
  · simp at hmem
  · obtain ⟨-, rfl⟩ := run_nil.mp hrun
    exact .inr (by decide)

/-- An element is added twice to the empty list. It is not found after the first time, and is
queued twice after the second. -/
theorem added_twice_queued_twice :
    ¬ (NeverTwice (ofList ([] : List Nat)) [.add 0, .add 0] ∧
      ContainsRight (ofList ([] : List Nat)) [.add 0, .add 0] ∧
        ReturnedOnce (ofList ([] : List Nat)) [.add 0, .add 0]) := by
  rintro ⟨htwice, -, -⟩
  have hnodup : [0, 0].Nodup := htwice [.add 0, .add 0] [] rfl [] ⟨[], [0, 0]⟩ rfl
  exact absurd hnodup (by decide)

end WorkList

end MSV
