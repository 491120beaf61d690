import Mathlib.Data.BitVec
import Mathlib.Data.List.Pairwise

/-!
# Regions of a stack that grows down

Regions of memory between two bounds that do not overlap, and words that are moved down to a
multiple of a power of two.
-/

namespace MSV

/-- The addresses from `lo` on, `size` of them. -/
structure Region where
  lo : Nat
  size : Nat
deriving DecidableEq

namespace Region

def hi (r : Region) : Nat := r.lo + r.size

def Disjoint (r s : Region) : Prop := r.hi ≤ s.lo ∨ s.hi ≤ r.lo

theorem Disjoint.symm {r s : Region} (h : r.Disjoint s) : s.Disjoint r := Or.symm h

/-- The regions lie between the bounds and do not overlap. -/
structure Packed (lo hi : Nat) (l : List Region) : Prop where
  bounds : ∀ r ∈ l, lo ≤ r.lo ∧ r.hi ≤ hi
  disjoint : l.Pairwise Disjoint

variable {lo mid hi : Nat} {l l' : List Region}

theorem packed_nil : Packed lo hi [] where
  bounds _ hr := nomatch hr
  disjoint := .nil

theorem Packed.mono (h : Packed lo hi l) {lo' hi' : Nat} (hlo : lo' ≤ lo) (hhi : hi ≤ hi') :
    Packed lo' hi' l where
  bounds r hr := by
    have := h.bounds r hr
    omega
  disjoint := h.disjoint

theorem Packed.append (h : Packed lo mid l) (h' : Packed mid hi l') (hlo : lo ≤ mid)
    (hhi : mid ≤ hi) : Packed lo hi (l ++ l') where
  bounds r hr := by
    obtain hr | hr := List.mem_append.mp hr
    · have := h.bounds r hr
      omega
    · have := h'.bounds r hr
      omega
  disjoint := by
    refine List.pairwise_append.mpr ⟨h.disjoint, h'.disjoint, fun r hr s hs => .inl ?_⟩
    exact (h.bounds r hr).2.trans (h'.bounds s hs).1

/-- A region below the others. -/
theorem Packed.cons (h : Packed mid hi l) {r : Region} (hlo : lo ≤ r.lo) (hr : r.hi ≤ mid)
    (hhi : mid ≤ hi) : Packed lo hi (r :: l) :=
  have hone : Packed lo mid [r] :=
    ⟨fun _ hs => List.mem_singleton.mp hs ▸ ⟨hlo, hr⟩, List.pairwise_singleton _ _⟩
  hone.append h (hlo.trans ((Nat.le_add_right _ _).trans hr)) hhi

/-- The regions from a bound on are above it. -/
theorem Packed.filter (h : Packed lo hi l) (b : Nat) :
    Packed b hi (l.filter fun r => b ≤ r.lo) where
  bounds r hr := by
    obtain ⟨hmem, hb⟩ := List.mem_filter.mp hr
    exact ⟨of_decide_eq_true hb, (h.bounds r hmem).2⟩
  disjoint := h.disjoint.filter _

end Region

/-! ## Alignment -/

/-- Down to a multiple of `2 ^ k`. -/
def alignDown {w : Nat} (k : Nat) (x : BitVec w) : BitVec w := x &&& ~~~(BitVec.ofNat w (2 ^ k - 1))

theorem alignDown_eq_sub {w : Nat} (k : Nat) (x : BitVec w) :
    alignDown k x = x - (x &&& BitVec.ofNat w (2 ^ k - 1)) := by
  have hdisj : (x &&& BitVec.ofNat w (2 ^ k - 1)) &&& alignDown k x = 0 := by
    apply BitVec.eq_of_getLsbD_eq
    intro i hi
    simp only [alignDown, BitVec.getLsbD_and, BitVec.getLsbD_not, hi, decide_true, Bool.true_and]
    cases x.getLsbD i <;> simp
  have hsplit : (x &&& BitVec.ofNat w (2 ^ k - 1)) + alignDown k x = x := by
    rw [BitVec.add_eq_or_of_and_eq_zero _ _ hdisj]
    apply BitVec.eq_of_getLsbD_eq
    intro i hi
    simp only [alignDown, BitVec.getLsbD_or, BitVec.getLsbD_and, BitVec.getLsbD_not, hi,
      decide_true, Bool.true_and]
    cases x.getLsbD i <;> simp
  rw [eq_sub_iff_add_eq', hsplit]

theorem toNat_alignDown {w k : Nat} (x : BitVec w) (hk : k < w) :
    (alignDown k x).toNat = x.toNat / 2 ^ k * 2 ^ k := by
  have hpow : 2 ^ k < 2 ^ w := Nat.pow_lt_pow_right (by decide) hk
  have hpos : 0 < 2 ^ k := Nat.two_pow_pos k
  have hmask : (x &&& BitVec.ofNat w (2 ^ k - 1)).toNat = x.toNat % 2 ^ k := by
    rw [BitVec.toNat_and, BitVec.toNat_ofNat, Nat.mod_eq_of_lt (by omega),
      Nat.and_two_pow_sub_one_eq_mod]
  have hle : x.toNat % 2 ^ k ≤ x.toNat := Nat.mod_le _ _
  rw [alignDown_eq_sub, BitVec.toNat_sub_of_le (by rw [BitVec.le_def, hmask]; exact hle), hmask]
  have := Nat.div_add_mod' x.toNat (2 ^ k)
  omega

theorem alignDown_le {w k : Nat} (x : BitVec w) (hk : k < w) : (alignDown k x).toNat ≤ x.toNat := by
  rw [toNat_alignDown x hk]
  exact Nat.div_mul_le_self _ _

theorem dvd_alignDown {w k : Nat} (x : BitVec w) (hk : k < w) :
    2 ^ k ∣ (alignDown k x).toNat := by
  rw [toNat_alignDown x hk]
  exact Nat.dvd_mul_left _ _

end MSV
