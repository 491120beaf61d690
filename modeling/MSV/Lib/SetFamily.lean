import Mathlib.Data.List.Induction
import MSV.Lib.FMap

/-!
# Families of sets

Elements are grouped by keys, and the groups that are included in others are dropped. Sets are
lists. The groups come one after the other; the first set of the family that includes the new one,
or is included in it, ends the search, and in the second case it is erased.

Whatever the order, every group that came is included in a set of the family, and every set of the
family came. So two elements are in a common set of the family exactly when they have a common key
(`exists_mem_reduce_iff`).
-/

namespace MSV

namespace SetFamily

variable {K α : Type*} [DecidableEq K] [DecidableEq α]

/-! ## Groups -/

/-- An element is entered under its keys. -/
def enter (groups : FMap K (List α)) (keys : List K) (a : α) : FMap K (List α) :=
  keys.foldl (fun m k => m.set k ((m.get k).insert a)) groups

theorem mem_get_enter {groups : FMap K (List α)} {keys : List K} {a b : α} {k : K} :
    b ∈ FMap.get (enter groups keys a) k ↔ b ∈ FMap.get groups k ∨ (k ∈ keys ∧ b = a) := by
  unfold enter
  refine (foldl_adds (Q := fun m : FMap K (List α) => b ∈ FMap.get m k)
    (P := fun k' => k' = k ∧ b = a) (fun m k' => ?_) keys groups).trans (by simp)
  rw [FMap.get_set]
  split_ifs with hk
  · subst hk
    simp [or_comm]
  · simp [Ne.symm hk]

/-- The groups have no repeated elements. -/
theorem nodup_get_enter {groups : FMap K (List α)} (h : ∀ k, (FMap.get groups k).Nodup)
    (keys : List K) (a : α) (k : K) : (FMap.get (enter groups keys a) k).Nodup := by
  refine List.foldlRecOn (motive := fun m : FMap K (List α) => ∀ k, (FMap.get m k).Nodup) keys _ h
    (fun m hm k' _ k => ?_) k
  rw [FMap.get_set]
  split_ifs
  · exact (hm k').insert
  · exact hm k

/-! ## Dropping what is included -/

/-- `std::includes`, on sets. -/
def includes (s t : List α) : Bool := t.all (· ∈ s)

/-- A set is added to the family, which is run through in some order. -/
def add (order : List (List α) → List (List α)) (family : List (List α)) (s : List α) :
    List (List α) :=
  if family.any fun t => includes s t && includes t s then family
  else
    match (order family).find? fun t => includes t s || includes s t with
    | some t => if includes t s then family else s :: family.erase t
    | none => s :: family

def reduce (order : List (List α) → List (List α)) (sets : List (List α)) : List (List α) :=
  sets.foldl (add order) []

theorem includes_iff {s t : List α} : includes s t = true ↔ ∀ i ∈ t, i ∈ s := by
  unfold includes
  simp

/-- Every set met is included in one that is kept, and every set that is kept was met. -/
structure Merged (met family : List (List α)) : Prop where
  covered : ∀ s ∈ met, ∃ t ∈ family, ∀ i ∈ s, i ∈ t
  kept : ∀ t ∈ family, t ∈ met

variable {order : List (List α) → List (List α)} (horder : ∀ l, (order l).Perm l)

include horder

/-- **One round keeps every pair.** The set that is erased is included in the one that comes in. -/
theorem Merged.add {met family : List (List α)} (h : Merged met family) (s : List α) :
    Merged (met ++ [s]) (add order family s) := by
  -- it is enough that the new sets cover the new one and the old ones, and come from them
  have hstep : ∀ u : List (List α), (∃ t ∈ u, ∀ i ∈ s, i ∈ t) →
      (∀ r ∈ family, ∃ t ∈ u, ∀ i ∈ r, i ∈ t) → (∀ t ∈ u, t ∈ family ∨ t = s) →
      Merged (met ++ [s]) u := by
    intro u hs hold hnew
    refine ⟨fun r hr => ?_, fun t ht => ?_⟩
    · obtain hr | hr := List.mem_append.mp hr
      · obtain ⟨t, ht, hrt⟩ := h.covered r hr
        obtain ⟨t', ht', htt'⟩ := hold t ht
        exact ⟨t', ht', fun i hi => htt' i (hrt i hi)⟩
      · obtain rfl := List.mem_singleton.mp hr
        exact hs
    · obtain ht | rfl := hnew t ht
      · exact List.mem_append_left _ (h.kept t ht)
      · exact List.mem_append_right _ List.mem_cons_self
  have hself : ∀ r ∈ family, ∃ t ∈ family, ∀ i ∈ r, i ∈ t := fun r hr => ⟨r, hr, fun i hi => hi⟩
  unfold SetFamily.add
  split_ifs with hsame
  · -- the same set is there
    obtain ⟨t, ht, hboth⟩ := List.any_eq_true.mp hsame
    refine hstep family ⟨t, ht, ?_⟩ hself fun t ht => .inl ht
    exact includes_iff.mp (Bool.and_eq_true_iff.mp hboth).2
  · split
    · rename_i t hfind
      have ht : t ∈ family := (horder family).mem_iff.mp (List.mem_of_find?_eq_some hfind)
      split_ifs with hsub
      · exact hstep family ⟨t, ht, includes_iff.mp hsub⟩ hself fun t ht => .inl ht
      · have hts : ∀ i ∈ t, i ∈ s := by
          have := List.find?_some hfind
          rw [Bool.or_eq_true] at this
          exact includes_iff.mp (this.resolve_left hsub)
        refine hstep _ ⟨s, List.mem_cons_self, fun i hi => hi⟩ (fun r hr => ?_) fun r hr => ?_
        · by_cases hrt : r = t
          · subst hrt
            exact ⟨s, List.mem_cons_self, hts⟩
          · exact ⟨r, List.mem_cons_of_mem s ((List.mem_erase_of_ne hrt).mpr hr), fun i hi => hi⟩
        · obtain rfl | hr := List.mem_cons.mp hr
          · exact .inr rfl
          · exact .inl (List.mem_of_mem_erase hr)
    · refine hstep _ ⟨s, List.mem_cons_self, fun i hi => hi⟩ (fun r hr => ?_) fun r hr => ?_
      · exact ⟨r, List.mem_cons_of_mem s hr, fun i hi => hi⟩
      · exact (List.mem_cons.mp hr).symm

theorem merged_reduce (sets : List (List α)) : Merged sets (reduce order sets) := by
  unfold reduce
  induction sets using List.reverseRecOn with
  | nil =>
      refine ⟨fun s hs => ?_, fun t ht => ?_⟩
      · cases hs
      · cases ht
  | append_singleton sets s ih =>
      rw [List.foldl_append]
      exact ih.add horder s

/-- Two elements are in a set that is kept exactly when they have a common key. -/
theorem exists_mem_reduce_iff {groups : FMap K (List α)} {keys : List K}
    (hkeys : keys.Perm (groups.entries.map Sigma.fst)) {i j : α} :
    (∃ t ∈ reduce order (keys.map (FMap.get groups)), i ∈ t ∧ j ∈ t) ↔
      ∃ k, i ∈ FMap.get groups k ∧ j ∈ FMap.get groups k := by
  have hmerged := merged_reduce horder (keys.map (FMap.get groups))
  constructor
  · rintro ⟨t, ht, hi, hj⟩
    obtain ⟨k, -, rfl⟩ := List.mem_map.mp (hmerged.kept t ht)
    exact ⟨k, hi, hj⟩
  · rintro ⟨k, hi, hj⟩
    have hkey : FMap.has groups k := by
      by_contra hnone
      rw [FMap.get, FMap.not_has_iff_find.mp hnone] at hi
      cases hi
    obtain ⟨e, he, rfl⟩ := FMap.mem_keys_iff_has.mpr hkey
    have hmet : FMap.get groups e.1 ∈ keys.map (FMap.get groups) :=
      List.mem_map_of_mem (hkeys.mem_iff.mpr (List.mem_map_of_mem he))
    obtain ⟨t, ht, hsub⟩ := hmerged.covered _ hmet
    exact ⟨t, ht, hsub i hi, hsub j hj⟩

end SetFamily

end MSV
