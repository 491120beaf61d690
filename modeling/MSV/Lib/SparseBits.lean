import Mathlib.Data.Finset.Max
import Mathlib.Data.Finset.Union
import MSV.Lib.Run

/-!
# Inserting into a bit vector while running over it

The iterator of a sparse bit vector goes up through the set bits. It holds a copy of the bits of the
word it stands in, and looks at the vector again only when the copy has no more of them, so a bit
that is set behind its back may or may not be visited. All bits that were set at the start are.

**Theorem (`sweep_eq`).** If what is inserted for a bit that was itself inserted is there already,
the set at the end is the initial one with what is inserted for its bits.
-/

namespace MSV

namespace SparseBits

/-- An iterator: the bit it stands at, and the copy of the bits of its word. -/
structure Iterator where
  bit : Nat
  bits : Finset Nat

/-- The least element after `b`. -/
def after (b : Nat) (s : Finset Nat) : Option Nat :=
  if h : (s.filter (b < ·)).Nonempty then some ((s.filter (b < ·)).min' h) else none

/-- The bits of the word that a bit is in. -/
def word (b : Nat) (s : Finset Nat) : Finset Nat := s.filter fun x => x / 64 = b / 64

def load (s : Finset Nat) (b : Nat) : Iterator := ⟨b, word b s⟩

/-- `begin()`. -/
def first (s : Finset Nat) : Option Iterator :=
  if h : s.Nonempty then some (load s (s.min' h)) else none

/-- `operator++`. -/
def Iterator.next (it : Iterator) (s : Finset Nat) : Option Iterator :=
  match after it.bit it.bits with
  | some b => some { it with bit := b }
  | none => (after it.bit s).map (load s)

/-- A loop over a bit vector: the iterator, unless it is at the end, and the vector. -/
structure Sweep where
  it : Option Iterator
  set : Finset Nat

section

variable (ins : Nat → Finset Nat)

/-- The loop body, which inserts `ins b` for the current bit, and `++it`. -/
def step (s : Sweep) : Option Sweep :=
  s.it.map fun it => ⟨it.next (s.set ∪ ins it.bit), s.set ∪ ins it.bit⟩

/-- The vector after the loop. -/
def sweep (s : Finset Nat) : Finset Nat :=
  (stepN (step ins) ((s ∪ s.biUnion ins).card + 1) ⟨first s, s⟩).set

end

/-! ## The iterator -/

variable {ins : Nat → Finset Nat} {s t : Finset Nat} {b c x : Nat}

theorem after_eq_none (h : after b s = none) (hx : x ∈ s) : x ≤ b := by
  unfold after at h
  split at h
  · cases h
  · rename_i hne
    by_contra hlt
    exact hne ⟨x, Finset.mem_filter.mpr ⟨hx, Nat.lt_of_not_le hlt⟩⟩

theorem after_eq_some (h : after b s = some c) :
    c ∈ s ∧ b < c ∧ ∀ x ∈ s, b < x → c ≤ x := by
  unfold after at h
  split at h
  · rename_i hne
    obtain rfl := Option.some.inj h
    have hmem := Finset.mem_filter.mp (Finset.min'_mem _ hne)
    exact ⟨hmem.1, hmem.2, fun x hx hlt => Finset.min'_le _ _ (Finset.mem_filter.mpr ⟨hx, hlt⟩)⟩
  · cases h

/-- Where an iterator may stand: at a bit of the vector, with a copy of its word that lacks none of
the bits of `s` ahead. -/
structure Iterator.At (s live : Finset Nat) (it : Iterator) : Prop where
  stands : it.bit ∈ live
  bits : ∀ x ∈ it.bits, x ∈ live ∧ x / 64 = it.bit / 64
  ahead : ∀ x ∈ s, it.bit < x → x / 64 = it.bit / 64 → x ∈ it.bits

theorem Iterator.At.insert {it : Iterator} {live live' : Finset Nat} (h : it.At s live)
    (hsub : live ⊆ live') : it.At s live' :=
  ⟨hsub h.stands, fun x hx => ⟨hsub (h.bits x hx).1, (h.bits x hx).2⟩, h.ahead⟩

theorem at_load {live : Finset Nat} (hs : s ⊆ live) (hb : b ∈ live) : (load live b).At s live := by
  refine ⟨hb, fun x hx => Finset.mem_filter.mp hx, fun x hx _ hword => ?_⟩
  exact Finset.mem_filter.mpr ⟨hs hx, hword⟩

/-- The next iterator stands further on, and no bit of `s` is left out between. -/
theorem Iterator.At.next {it it' : Iterator} {live : Finset Nat} (h : it.At s live)
    (hs : s ⊆ live) (hnext : it.next live = some it') :
    it'.At s live ∧ it.bit < it'.bit ∧ ∀ x ∈ s, it.bit < x → it'.bit ≤ x := by
  unfold Iterator.next at hnext
  cases hafter : after it.bit it.bits with
  | some b =>
      rw [hafter] at hnext
      obtain rfl := Option.some.inj hnext
      obtain ⟨hb, hlt, hleast⟩ := after_eq_some hafter
      obtain ⟨hlive, hword⟩ := h.bits b hb
      refine ⟨⟨hlive, fun x hx => ⟨(h.bits x hx).1, (h.bits x hx).2.trans hword.symm⟩,
        fun x hx hbx hx' => h.ahead x hx (hlt.trans hbx) (hx'.trans hword)⟩, hlt, ?_⟩
      intro x hx hbx
      by_cases hx' : x / 64 = it.bit / 64
      · exact hleast x (h.ahead x hx hbx hx') hbx
      · show b ≤ x
        omega
  | none =>
      rw [hafter] at hnext
      obtain ⟨b, hb, rfl⟩ := Option.map_eq_some_iff.mp hnext
      obtain ⟨hlive, hlt, hleast⟩ := after_eq_some hb
      exact ⟨at_load hs hlive, hlt, fun x hx hbx => hleast x (hs hx) hbx⟩

/-- At the end no bit of `s` is ahead. -/
theorem Iterator.next_eq_none {it : Iterator} {live : Finset Nat} (hs : s ⊆ live)
    (hnext : it.next live = none) (hx : x ∈ s) : x ≤ it.bit := by
  unfold Iterator.next at hnext
  cases hafter : after it.bit it.bits with
  | some b => rw [hafter] at hnext; cases hnext
  | none =>
      rw [hafter] at hnext
      exact after_eq_none (Option.map_eq_none_iff.mp hnext) (hs hx)

/-! ## The loop -/

/-- What holds in every round: the vector is between `s` and `t`, and the bits of `s` behind the
iterator are dealt with. -/
structure Inv (ins : Nat → Finset Nat) (s t : Finset Nat) (w : Sweep) : Prop where
  kept : s ⊆ w.set
  le : w.set ⊆ t
  iter : ∀ it ∈ w.it, it.At s w.set
  done : ∀ x ∈ s, (∀ it ∈ w.it, x < it.bit) → ins x ⊆ w.set

theorem inv_first (hst : s ⊆ t) : Inv ins s t ⟨first s, s⟩ := by
  refine ⟨Finset.Subset.refl s, hst, fun it hit => ?_, fun x hx hlt => ?_⟩
  · unfold first at hit
    split at hit
    · rename_i hne
      obtain rfl := Option.some.inj hit
      exact at_load (Finset.Subset.refl s) (Finset.min'_mem s hne)
    · cases hit
  · have hne : s.Nonempty := ⟨x, hx⟩
    have := hlt (load s (s.min' hne)) (dif_pos hne)
    exact absurd (Finset.min'_le s x hx) (Nat.not_le_of_lt this)

theorem Inv.step {v w : Sweep} (hclosed : ∀ x ∈ t, ins x ⊆ t) (h : Inv ins s t v)
    (hstep : step ins v = some w) : Inv ins s t w := by
  obtain ⟨it, hit, rfl⟩ := Option.map_eq_some_iff.mp hstep
  have hat := h.iter it hit
  have hsub : v.set ⊆ v.set ∪ ins it.bit := Finset.subset_union_left
  refine ⟨h.kept.trans hsub, Finset.union_subset h.le (hclosed _ (h.le hat.stands)), ?_, ?_⟩
  · intro it' hit'
    exact ((hat.insert hsub).next (h.kept.trans hsub) hit').1
  · intro x hx hlt
    obtain hlt' | rfl | hgt := Nat.lt_trichotomy x it.bit
    · refine (h.done x hx fun it' hit' => ?_).trans hsub
      rwa [← Option.some.inj (hit.symm.trans hit')]
    · exact Finset.subset_union_right
    · -- `x` is ahead, so the iterator has not gone past it
      exfalso
      cases hnext : it.next (v.set ∪ ins it.bit) with
      | none =>
          have := Iterator.next_eq_none (h.kept.trans hsub) hnext hx
          omega
      | some it' =>
          have := ((hat.insert hsub).next (h.kept.trans hsub) hnext).2.2 x hx hgt
          have := hlt it' hnext
          omega

/-- How many bits of `t` are left. -/
def size (t : Finset Nat) (w : Sweep) : Nat :=
  match w.it with
  | none => 0
  | some it => (t.filter (it.bit ≤ ·)).card + 1

theorem size_step {v w : Sweep} (h : Inv ins s t v) (hstep : step ins v = some w) :
    size t w < size t v := by
  obtain ⟨it, hit, rfl⟩ := Option.map_eq_some_iff.mp hstep
  have hat := h.iter it hit
  have hsub : v.set ⊆ v.set ∪ ins it.bit := Finset.subset_union_left
  cases hnext : it.next (v.set ∪ ins it.bit) with
  | none => simp [size, hit]
  | some it' =>
      have hlt := ((hat.insert hsub).next (h.kept.trans hsub) hnext).2.1
      have : (t.filter (it'.bit ≤ ·)).card < (t.filter (it.bit ≤ ·)).card := by
        refine Finset.card_lt_card (Finset.ssubset_iff_of_subset ?_ |>.mpr ⟨it.bit, ?_, ?_⟩)
        · intro x hx
          obtain ⟨hx, hle⟩ := Finset.mem_filter.mp hx
          exact Finset.mem_filter.mpr ⟨hx, hlt.le.trans hle⟩
        · exact Finset.mem_filter.mpr ⟨h.le hat.stands, le_rfl⟩
        · intro hmem
          have := (Finset.mem_filter.mp hmem).2
          omega
      simp only [size, hit]
      omega

theorem sweep_eq (h : ∀ x ∈ s, ∀ y ∈ ins x, ins y ⊆ s ∪ s.biUnion ins) :
    sweep ins s = s ∪ s.biUnion ins := by
  have hclosed : ∀ x ∈ s ∪ s.biUnion ins, ins x ⊆ s ∪ s.biUnion ins := by
    intro x hx
    obtain hx | hx := Finset.mem_union.mp hx
    · exact (Finset.subset_biUnion_of_mem ins hx).trans Finset.subset_union_right
    · obtain ⟨y, hy, hx⟩ := Finset.mem_biUnion.mp hx
      exact h y hy x hx
  have hfirst : Inv ins s (s ∪ s.biUnion ins) ⟨first s, s⟩ := inv_first Finset.subset_union_left
  have hinv : Inv ins s (s ∪ s.biUnion ins)
      (stepN (step ins) ((s ∪ s.biUnion ins).card + 1) ⟨first s, s⟩) :=
    (run_stepN (step ins) _ _).invariant hfirst fun _ _ hv _ hst => hv.step hclosed hst
  have hend : step ins (stepN (step ins) ((s ∪ s.biUnion ins).card + 1) ⟨first s, s⟩) = none := by
    refine step_stepN_eq_none
      (fun v w hv hvw => ⟨Inv.step hclosed hv hvw, size_step hv hvw⟩) _ _ hfirst ?_
    unfold size
    split
    · exact Nat.zero_le _
    · exact Nat.succ_le_succ (Finset.card_filter_le _ _)
  have hnone := Option.map_eq_none_iff.mp hend
  refine Finset.Subset.antisymm hinv.le (Finset.union_subset hinv.kept ?_)
  refine Finset.biUnion_subset.mpr fun x hx => hinv.done x hx fun it hit => ?_
  rw [hnone] at hit
  cases hit

end SparseBits

end MSV
