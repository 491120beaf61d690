import MSV.Heap.CompatibleType
import MSV.Lib.Run

/-!
# The iterator of `safeTypeCastAnalysis`

A handler that finds its cast safe erases the cast's entry with `erase(it++)` and then the entry of
the cast's operand. Here the loop is a machine over the map and the key its iterator denotes, so
that an iterator can be left behind by an erasure.

**Theorem (`iterator_valid_iff`).** At the top of every iteration the iterator denotes an entry of
the map or is `end()`, if and only if no safe cast that the loop comes to has its operand as the
next entry that is still there.

The machine and `castLoop` agree on when that happens (`valid_iff_castLoop`); the condition is then
read off the loop, which needs only to know which operands were taken along before.
-/

namespace MSV

/-- The map in the order of its keys, and the key of the entry the iterator denotes: none at the
end. -/
structure CastCursor where
  heapDynPointerSet : List CastEntry
  it : Option Value

/-- The key of the first entry. -/
def headKey (l : List CastEntry) : Option Value := l.head?.map (·.1)

/-- The key of the entry after that of `k`. -/
def keyAfter (k : Value) : List CastEntry → Option Value
  | [] => none
  | e :: rest => if e.1 = k then headKey rest else keyAfter k rest

namespace CastCursor

/-- The iterator denotes an entry of the map or is `end()`. -/
def Valid (s : CastCursor) : Prop := ∀ k, s.it = some k → k ∈ s.heapDynPointerSet.map Sigma.fst

/-- `heapDynPointerSet.begin()`. -/
def start (heapDynPointerSet : List CastEntry) : CastCursor :=
  ⟨heapDynPointerSet, headKey heapDynPointerSet⟩

/-- An iteration of the loop. There is none from `end()`, and none that means anything from an
iterator that dangles. -/
def step (env : CastEnv) (M : Module) (s : CastCursor) : Option CastCursor :=
  match s.it with
  | none => none
  | some k =>
      if k ∈ s.heapDynPointerSet.map Sigma.fst then
        match safeCastOperand env M k with
        | none => some ⟨s.heapDynPointerSet, keyAfter k s.heapDynPointerSet⟩
        | some op =>
            some ⟨eraseKey (eraseKey s.heapDynPointerSet k) op, keyAfter k s.heapDynPointerSet⟩
      else none

end CastCursor

/-! ## The machine and the loop -/

section

variable {env : CastEnv} {M : Module}

@[simp] theorem headKey_nil : headKey [] = none := rfl

@[simp] theorem headKey_cons (e : CastEntry) (rest : List CastEntry) :
    headKey (e :: rest) = some e.1 := rfl

theorem not_mem_eraseKey (l : List CastEntry) (v : Value) :
    v ∉ (eraseKey l v).map Sigma.fst := by
  simp [eraseKey]

theorem eraseKey_append (l₁ l₂ : List CastEntry) (v : Value) :
    eraseKey (l₁ ++ l₂) v = eraseKey l₁ v ++ eraseKey l₂ v :=
  List.filter_append ..

theorem nodup_keys_eraseKey {l : List CastEntry} (h : (l.map Sigma.fst).Nodup) (v : Value) :
    ((eraseKey l v).map Sigma.fst).Nodup :=
  h.sublist (List.filter_sublist.map _)

/-- Erasing another key leaves the first one in front. -/
theorem headKey_eraseKey {l : List CastEntry} {v : Value} (h : headKey l ≠ some v) :
    headKey (eraseKey l v) = headKey l := by
  cases l with
  | nil => rfl
  | cons e rest =>
      have hne : e.1 ≠ v := fun he => h (by simp [he])
      have : eraseKey (e :: rest) v = e :: eraseKey rest v :=
        List.filter_cons_of_pos (by simpa using hne)
      rw [this]
      rfl

section

variable {before rest : List CastEntry} {e : CastEntry}
  (hnd : ((before ++ e :: rest).map Sigma.fst).Nodup)

include hnd

theorem ne_of_mem_others : ∀ d ∈ before ++ rest, d.1 ≠ e.1 := by
  rw [List.map_append, List.map_cons, List.nodup_middle, List.nodup_cons] at hnd
  intro d hd hde
  apply hnd.1
  rw [← List.map_append, ← hde]
  exact List.mem_map_of_mem hd

theorem keyAfter_middle : keyAfter e.1 (before ++ e :: rest) = headKey rest := by
  have hne : ∀ d ∈ before, d.1 ≠ e.1 := fun d hd =>
    ne_of_mem_others hnd d (List.mem_append_left _ hd)
  clear hnd
  induction before with
  | nil => simp [keyAfter]
  | cons d before ih =>
      rw [List.cons_append, keyAfter, if_neg (hne d (by simp))]
      exact ih fun d' hd' => hne d' (List.mem_cons_of_mem _ hd')

theorem eraseKey_middle : eraseKey (before ++ e :: rest) e.1 = before ++ rest := by
  have hself : eraseKey (e :: rest) e.1 = eraseKey rest e.1 :=
    List.filter_cons_of_neg (by simp)
  rw [eraseKey_append, hself, ← eraseKey_append]
  exact eraseKey_of_forall_ne (ne_of_mem_others hnd)

/-- An iteration that keeps the entry moves on to the next. -/
theorem step_middle_of_none (hop : safeCastOperand env M e.1 = none) :
    CastCursor.step env M ⟨before ++ e :: rest, some e.1⟩ =
      some ⟨before ++ e :: rest, headKey rest⟩ := by
  have hmem : e.1 ∈ (before ++ e :: rest).map Sigma.fst := by simp
  unfold CastCursor.step
  dsimp only
  rw [if_pos hmem, keyAfter_middle hnd, hop]

/-- An iteration on a safe cast erases its entry and that of its operand, from the whole map. -/
theorem step_middle_of_some {op : Value} (hop : safeCastOperand env M e.1 = some op) :
    CastCursor.step env M ⟨before ++ e :: rest, some e.1⟩ =
      some ⟨eraseKey before op ++ eraseKey rest op, headKey rest⟩ := by
  have hmem : e.1 ∈ (before ++ e :: rest).map Sigma.fst := by simp
  unfold CastCursor.step
  dsimp only
  rw [if_pos hmem, keyAfter_middle hnd, eraseKey_middle hnd, hop, ← eraseKey_append]

end

theorem castLoop_cons_of_none {before rest : List CastEntry} {e : CastEntry}
    (hop : safeCastOperand env M e.1 = none) :
    castLoop env M before (e :: rest) = castLoop env M (before ++ [e]) rest := by
  rw [castLoop, hop]

theorem castLoop_cons_of_some {before rest : List CastEntry} {e : CastEntry} {op : Value}
    (hop : safeCastOperand env M e.1 = some op) :
    castLoop env M before (e :: rest) =
      if headKey rest = some op then none
      else castLoop env M (eraseKey before op) (eraseKey rest op) := by
  rw [castLoop, hop]
  rfl

/-- Every state of every run from here is valid. -/
def NeverDangles (env : CastEnv) (M : Module) (s : CastCursor) : Prop :=
  ∀ t, Run (CastCursor.step env M) (fun _ => True) s t → t.Valid

theorem neverDangles_of_step {s t : CastCursor} (hs : s.Valid)
    (h : CastCursor.step env M s = some t) : NeverDangles env M s ↔ NeverDangles env M t := by
  constructor
  · intro hnd u hu
    exact hnd u (.head trivial h hu)
  · intro hnd u hu
    rcases hu.eq_or_head with rfl | ⟨t', -, ht', hrun⟩
    · exact hs
    · rw [h] at ht'
      cases ht'
      exact hnd u hrun

/-- The loop gets through exactly when the iterator of the machine never dangles. -/
theorem valid_iff_castLoop (before rest : List CastEntry)
    (hnd : ((before ++ rest).map Sigma.fst).Nodup) :
    NeverDangles env M ⟨before ++ rest, headKey rest⟩ ↔ castLoop env M before rest ≠ none := by
  induction h : rest.length using Nat.strong_induction_on generalizing before rest with
  | _ n ih =>
  cases rest with
  | nil =>
      simp only [castLoop, ne_eq, reduceCtorEq, not_false_eq_true, iff_true]
      intro t ht
      rcases ht.eq_or_head with rfl | ⟨t', -, ht', -⟩
      · intro k hk
        cases hk
      · cases ht'
  | cons e rest =>
      have hvalid : CastCursor.Valid ⟨before ++ e :: rest, headKey (e :: rest)⟩ := by
        intro k hk
        obtain rfl : e.1 = k := Option.some.inj hk
        simp
      cases hop : safeCastOperand env M e.1 with
      | none =>
          have hassoc : before ++ e :: rest = before ++ [e] ++ rest := by simp
          rw [neverDangles_of_step hvalid (step_middle_of_none hnd hop),
            castLoop_cons_of_none hop, hassoc]
          exact ih rest.length (by simp [← h]) _ _ (by rwa [← hassoc]) rfl
      | some op =>
          rw [neverDangles_of_step hvalid (step_middle_of_some hnd hop),
            castLoop_cons_of_some hop]
          by_cases hhead : headKey rest = some op
          · -- the iterator is left on the entry just erased
            rw [if_pos hhead]
            simp only [ne_eq, not_true_eq_false, iff_false]
            intro hnever
            have hmem := hnever _ (.refl _) op hhead
            rw [← eraseKey_append] at hmem
            exact not_mem_eraseKey _ _ hmem
          · rw [if_neg hhead, ← headKey_eraseKey hhead]
            apply ih (eraseKey rest op).length _ _ _ _ rfl
            · have := length_eraseKey_le rest op
              simp only [← h, List.length_cons]
              omega
            · rw [← eraseKey_append]
              apply nodup_keys_eraseKey
              rw [List.map_append, List.map_cons, List.nodup_middle, List.nodup_cons] at hnd
              rw [List.map_append]
              exact hnd.2

/-! ## The condition -/

/-- The operands taken along once `e` has been visited, unless it has been taken itself. -/
def takeOperand (env : CastEnv) (M : Module) (taken : List Value) (e : CastEntry) : List Value :=
  if e.1 ∈ taken then taken
  else
    match safeCastOperand env M e.1 with
    | none => taken
    | some op => op :: taken

/-- The entries among `l` whose keys are not taken. -/
def untaken (taken : List Value) (l : List CastEntry) : List CastEntry :=
  l.filter (·.1 ∉ taken)

/-- No safe cast that is not taken itself has its operand as the next entry not taken. -/
def OperandNeverNext (env : CastEnv) (M : Module) (taken : List Value) (l : List CastEntry) :
    Prop :=
  ∀ l₁ e l₂, l = l₁ ++ e :: l₂ →
    e.1 ∉ l₁.foldl (takeOperand env M) taken →
      ∀ op, safeCastOperand env M e.1 = some op →
        headKey (untaken (l₁.foldl (takeOperand env M) taken) l₂) ≠ some op

theorem untaken_cons_of_mem {taken : List Value} {e : CastEntry} (l : List CastEntry)
    (h : e.1 ∈ taken) : untaken taken (e :: l) = untaken taken l :=
  List.filter_cons_of_neg (by simpa using h)

theorem untaken_cons_of_not_mem {taken : List Value} {e : CastEntry} (l : List CastEntry)
    (h : e.1 ∉ taken) : untaken taken (e :: l) = e :: untaken taken l :=
  List.filter_cons_of_pos (by simpa using h)

theorem eraseKey_untaken (taken : List Value) (op : Value) (l : List CastEntry) :
    eraseKey (untaken taken l) op = untaken (op :: taken) l := by
  unfold eraseKey untaken
  rw [List.filter_filter]
  refine List.filter_congr fun e _ => ?_
  simp [not_or]

/-- The condition on a list, from its first entry. -/
theorem operandNeverNext_cons {taken : List Value} {e : CastEntry} {l : List CastEntry} :
    OperandNeverNext env M taken (e :: l) ↔
      (e.1 ∉ taken → ∀ op, safeCastOperand env M e.1 = some op →
        headKey (untaken taken l) ≠ some op) ∧
      OperandNeverNext env M (takeOperand env M taken e) l := by
  constructor
  · intro h
    refine ⟨h [] e l rfl, fun l₁ d l₂ hl => ?_⟩
    exact h (e :: l₁) d l₂ (by rw [hl, List.cons_append])
  · rintro ⟨hhere, hrest⟩ l₁ d l₂ hl
    rcases List.cons_eq_append_iff.mp hl with ⟨rfl, heq⟩ | ⟨l₁, rfl, rfl⟩
    · obtain ⟨rfl, rfl⟩ := List.cons.inj heq
      exact hhere
    · exact hrest l₁ d l₂ rfl

/-- What is before the iterator does not matter for whether the loop gets through. -/
theorem castLoop_ne_none_iff (l : List CastEntry) : ∀ (taken : List Value)
    (before : List CastEntry),
    castLoop env M before (untaken taken l) ≠ none ↔ OperandNeverNext env M taken l := by
  induction l with
  | nil =>
      intro taken before
      simp [untaken, castLoop, OperandNeverNext]
  | cons e l ih =>
      intro taken before
      rw [operandNeverNext_cons]
      by_cases hmem : e.1 ∈ taken
      · have htake : takeOperand env M taken e = taken := if_pos hmem
        rw [untaken_cons_of_mem l hmem, htake, ih]
        exact ⟨fun h => ⟨fun hne => absurd hmem hne, h⟩, And.right⟩
      · rw [untaken_cons_of_not_mem l hmem]
        cases hop : safeCastOperand env M e.1 with
        | none =>
            have htake : takeOperand env M taken e = taken := by simp [takeOperand, hop]
            rw [castLoop_cons_of_none hop, htake, ih]
            refine ⟨fun h => ⟨fun _ op hop' => ?_, h⟩, And.right⟩
            cases hop'
        | some op =>
            have htake : takeOperand env M taken e = op :: taken := by
              simp [takeOperand, hop, hmem]
            rw [castLoop_cons_of_some hop, htake]
            by_cases hhead : headKey (untaken taken l) = some op
            · rw [if_pos hhead]
              exact ⟨fun h => absurd rfl h, fun h => absurd hhead (h.1 hmem op rfl)⟩
            · rw [if_neg hhead, eraseKey_untaken, ih]
              refine ⟨fun h => ⟨fun _ op' hop' => ?_, h⟩, And.right⟩
              cases hop'
              exact hhead

end

/-- The iterator denotes an entry of the map or is `end()` at the top of every iteration, if and
only if no safe cast that is still in the map when its turn comes has its operand as the next entry
that is. -/
theorem iterator_valid_iff (env : CastEnv) (M : Module) (heapDynPointerSet : PointerSet) :
    (∀ s, Run (CastCursor.step env M) (fun _ => True)
        (CastCursor.start heapDynPointerSet.entries) s → s.Valid) ↔
      OperandNeverNext env M [] heapDynPointerSet.entries := by
  have hall : untaken [] heapDynPointerSet.entries = heapDynPointerSet.entries := by
    simp [untaken]
  rw [← castLoop_ne_none_iff _ [] [], hall]
  exact valid_iff_castLoop [] heapDynPointerSet.entries heapDynPointerSet.nodupKeys

/-- The casts of `(char *)(struct S *)*slot`, with the smaller key for the outer one. -/
def outerCastFirst : PointerSet :=
  ⟨nestedCasts.reverse, by simp [nestedCasts]⟩

/-- The outer cast is safe, and its operand is the entry the iterator has moved on to. -/
theorem iterator_dangles :
    ¬ ∀ s, Run (CastCursor.step nestedCastEnv nestedCastModule) (fun _ => True)
      (CastCursor.start outerCastFirst.entries) s → s.Valid := by
  have houter : safeCastOperand nestedCastEnv nestedCastModule (.inst 2) = some (.inst 1) := by
    decide
  have hnodup : (([] ++ nestedCasts.reverse).map Sigma.fst).Nodup := by decide
  have hstep : CastCursor.step nestedCastEnv nestedCastModule
      (CastCursor.start outerCastFirst.entries) = some ⟨[], some (.inst 1)⟩ :=
    step_middle_of_some hnodup houter
  intro h
  have hmem := h _ (.tail (.refl _) trivial hstep) _ rfl
  cases hmem

end MSV
