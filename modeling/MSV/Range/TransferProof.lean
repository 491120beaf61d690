import MSV.Range.Transfer

/-!
# Which keys a transfer writes

The transfer function never removes a key. The keys it writes a range to depend on the instruction
only, not on the state; the other keys it creates, by reading them, are unknown.
-/

namespace MSV

/-- A constant that is read is there. -/
theorem find_of_get_constant {s : RangeState} {k : Value} {l r : APInt}
    (h : s.get k = .constant l r) : s.find k = some (.constant l r) := by
  unfold FMap.get at h
  cases hk : s.find k with
  | none => rw [hk] at h; cases h
  | some x => rw [hk] at h; rw [← h]; rfl

/-- From `s` to `s'` keys are kept, and a constant range is new only under the keys of `W`, which
are all there. What is under any other key stays. -/
structure WritesOnly (W : Value → Prop) (s s' : RangeState) : Prop where
  keeps : ∀ k, s.has k → s'.has k
  const : ∀ k l r, s'.find k = some (.constant l r) → s.find k = some (.constant l r) ∨ W k
  writes : ∀ k, W k → s'.has k
  frame : ∀ k x, s.find k = some x → s'.find k = some x ∨ W k

namespace WritesOnly

variable {W W' : Value → Prop} {s s' s'' : RangeState}

theorem refl (s : RangeState) : WritesOnly (fun _ => False) s s :=
  ⟨fun _ h => h, fun _ _ _ h => Or.inl h, fun _ h => h.elim, fun _ _ h => Or.inl h⟩

theorem trans (h : WritesOnly W s s') (h' : WritesOnly W' s' s'') :
    WritesOnly (fun k => W k ∨ W' k) s s'' where
  keeps := fun k hk => h'.keeps k (h.keeps k hk)
  const := by
    intro k l r hk
    rcases h'.const k l r hk with hk | hk
    · exact (h.const k l r hk).imp_right Or.inl
    · exact Or.inr (Or.inr hk)
  writes := by
    rintro k (hk | hk)
    · exact h'.keeps k (h.writes k hk)
    · exact h'.writes k hk
  frame := by
    intro k x hk
    rcases h.frame k x hk with hk | hk
    · exact (h'.frame k x hk).imp_right Or.inr
    · exact Or.inr (Or.inl hk)

/-- Reading on the way changes nothing of interest. -/
theorem after (h : WritesOnly (fun _ => False) s s') (h' : WritesOnly W s' s'') :
    WritesOnly W s s'' := by
  have := h.trans h'
  simpa using this

theorem set (s : RangeState) (v : Value) (r : RangeValue) : WritesOnly (· = v) s (s.set v r) where
  keeps := fun _ h => FMap.has_set_of_has _ h
  const := by
    intro k l r hk
    rw [FMap.find_set] at hk
    split_ifs at hk with hkv
    · exact Or.inr hkv
    · exact Or.inl hk
  writes := by
    rintro k rfl
    exact FMap.has_set_self ..
  frame := by
    intro k x hk
    by_cases hkv : k = v
    · exact Or.inr hkv
    · exact Or.inl ((FMap.find_set_ne _ _ hkv).trans hk)

/-- A second write to the same keys. -/
theorem again (h : WritesOnly W s s') (h' : WritesOnly W s' s'') : WritesOnly W s s'' := by
  have := h.trans h'
  simpa using this

theorem touch (s : RangeState) (v : Value) : WritesOnly (fun _ => False) s (s.touch v) where
  keeps := fun _ h => FMap.has_touch.mpr (Or.inr h)
  const := by
    intro k l r hk
    rw [FMap.find_touch] at hk
    split_ifs at hk with hkv
    · subst hkv
      refine Or.inl ?_
      cases hfind : s.find k with
      | none =>
          rw [FMap.get, hfind] at hk
          cases hk
      | some x =>
          rw [FMap.get_of_find hfind] at hk
          exact hk
    · exact Or.inl hk
  writes := fun _ h => h.elim
  frame := by
    intro k x hk
    rw [FMap.find_touch]
    split_ifs with hkv
    · subst hkv
      rw [FMap.get_of_find hk]
      exact Or.inl rfl
    · exact Or.inl hk

end WritesOnly

theorem getRangeFor_reads (v : Value) (s : RangeState) :
    WritesOnly (fun _ => False) s (getRangeFor v s).2 := by
  unfold getRangeFor
  split
  · exact .refl s
  · exact .touch s v

theorem evaluateBinOP_snd (op : BinOp) (a b : Value) (s : RangeState) :
    (evaluateBinOP op a b s).2 = (getRangeFor b (getRangeFor a s).2).2 := by
  unfold evaluateBinOP
  dsimp only
  split
  · rfl
  · rfl
  · split_ifs <;> rfl

theorem evaluateBinOP_reads (op : BinOp) (a b : Value) (s : RangeState) :
    WritesOnly (fun _ => False) s (evaluateBinOP op a b s).2 := by
  rw [evaluateBinOP_snd]
  exact (getRangeFor_reads a s).after (getRangeFor_reads b (getRangeFor a s).2)

theorem evaluateCast_snd (op : CastOp) (v : Value) (dest : Ty) (s : RangeState) :
    (evaluateCast op v dest s).2 = (getRangeFor v s).2 := by
  unfold evaluateCast
  dsimp only
  split
  · split <;> rfl
  · rfl

theorem evaluateCast_reads (op : CastOp) (v : Value) (dest : Ty) (s : RangeState) :
    WritesOnly (fun _ => False) s (evaluateCast op v dest s).2 := by
  rw [evaluateCast_snd]
  exact getRangeFor_reads v s

theorem gepOffset_reads (elemSize : Nat) (vs : List Value) (total : Nat) (s : RangeState) :
    WritesOnly (fun _ => False) s (gepOffset elemSize vs total s).2 := by
  induction vs generalizing total s with
  | nil => exact .refl s
  | cons v vs ih =>
      have hread := getRangeFor_reads v s
      unfold gepOffset
      split
      · rename_i l r s' heq
        rw [heq] at hread
        dsimp only
        split_ifs
        · exact hread
        · exact hread.after (ih ..)
      · rename_i x s' _ heq
        rw [heq] at hread
        exact hread

section

variable (M : Module) (DL : DataLayout)

/-- The key a value writes: a store its pointer, when it is a local alloca, and anything else
itself. -/
def Written (v k : Value) : Prop :=
  match M.kindOf v with
  | some (.store _ ptr) => isLocalAllocaPointer M ptr = true ∧ k = ptr
  | _ => k = v

theorem handleStore_writes (val ptr : Value) (s : RangeState) :
    WritesOnly (fun k => isLocalAllocaPointer M ptr = true ∧ k = ptr) s
      (handleStore M val ptr s) := by
  unfold handleStore
  by_cases hlocal : isLocalAllocaPointer M ptr = true
  · simp only [hlocal, if_true, true_and]
    have hset : WritesOnly (· = ptr) s ((getRangeFor val s).2.set ptr (getRangeFor val s).1) :=
      (getRangeFor_reads val s).after (.set ..)
    split
    · exact hset.again (.set ..)
    · exact hset.again (.set ..)
    · split
      · exact hset.again (.set ..)
      · exact hset
  · simp only [hlocal]
    exact ⟨fun _ h => h, fun _ _ _ h => Or.inl h, fun _ h => absurd h.1 (by simp),
      fun _ _ h => Or.inl h⟩

theorem handleLoad_writes (self ptr : Value) (s : RangeState) :
    WritesOnly (· = self) s (handleLoad M self ptr s) := by
  unfold handleLoad
  split_ifs
  · split <;> exact .set ..
  · exact .set ..

theorem handleGEP_writes (self : Value) (ty : Ty) (base : Value) (indices : List Value)
    (s : RangeState) : WritesOnly (· = self) s (handleGEP DL self ty base indices s) := by
  have hread := getRangeFor_reads base s
  unfold handleGEP
  split
  · rename_i l r s' heq
    rw [heq] at hread
    have hoff := gepOffset_reads (DL.allocSize (resultElementType ty)) indices 0 s'
    split
    · rename_i offset s'' heq'
      rw [heq'] at hoff
      dsimp only
      split_ifs
      · exact (hread.after hoff).after (.set ..)
      · exact (hread.after hoff).after (.set ..)
    · rename_i s'' heq'
      rw [heq'] at hoff
      exact (hread.after hoff).after (.set ..)
  · rename_i x s' _ heq
    rw [heq] at hread
    exact hread.after (.set ..)

/-- **What a transfer writes.** -/
theorem transfer_writes (v : Value) (s : RangeState) :
    WritesOnly (Written M v) s (transfer M DL v s) := by
  unfold transfer Written
  cases hk : M.kindOf v with
  | none =>
      cases v <;> exact .set ..
  | some k =>
      cases k with
      | store val ptr => exact handleStore_writes M val ptr s
      | load ptr => exact handleLoad_writes M v ptr s
      | gep src base indices => exact handleGEP_writes DL v _ base indices s
      | binop op a b => exact (evaluateBinOP_reads op a b s).after (.set ..)
      | cast op a =>
          have hlast : ∀ s', WritesOnly (· = v) s' ((evaluateCast op a (M.typeOf v) s').2.set v
              (evaluateCast op a (M.typeOf v) s').1) :=
            fun s' => (evaluateCast_reads op a _ s').after (.set ..)
          dsimp only
          split_ifs
          · split
            · exact (WritesOnly.set s v _).again (hlast _)
            · exact hlast s
          · exact hlast s
      | _ => exact .set ..

end

end MSV
