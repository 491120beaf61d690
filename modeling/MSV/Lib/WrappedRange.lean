import Mathlib.Data.BitVec
import Mathlib.Tactic.Ring

/-!
# Ranges of machine words that may wrap around

A range of `w`-bit words is given by its lower end and the word behind its upper end. It may wrap
around, and the ends agree for the full range and for the empty one only.

A word is in the range if its distance from the lower end is less than the size (`mem_iff`), which
is how the sum of two ranges is seen to hold all sums (`mem_add`).
-/

namespace MSV

/-- A range. -/
structure WrappedRange (w : Nat) where
  lower : BitVec w
  upper : BitVec w
  valid : lower = upper → lower = BitVec.allOnes w ∨ lower = 0

namespace WrappedRange

variable {w : Nat}

def full (w : Nat) : WrappedRange w := ⟨BitVec.allOnes w, BitVec.allOnes w, fun _ => .inl rfl⟩

/-- The words below `n`, the empty range for zero. -/
def below (w n : Nat) : WrappedRange w := ⟨0, BitVec.ofNat w n, fun _ => .inr rfl⟩

def isFullSet (r : WrappedRange w) : Bool := r.lower == r.upper && r.lower == BitVec.allOnes w

def isEmptySet (r : WrappedRange w) : Bool := r.lower == r.upper && r.lower == 0

def isUpperWrapped (r : WrappedRange w) : Bool := r.upper.ult r.lower

/-- A word is in a range. -/
def has (r : WrappedRange w) (v : BitVec w) : Bool :=
  if r.lower = r.upper then r.isFullSet
  else if r.isUpperWrapped then r.lower.ule v || v.ult r.upper
  else r.lower.ule v && v.ult r.upper

/-- The number of words in a range. -/
def size (r : WrappedRange w) : Nat :=
  if r.isFullSet then 2 ^ w else (r.upper - r.lower).toNat

def isSizeStrictlySmallerThan (r s : WrappedRange w) : Bool :=
  if r.isFullSet then false
  else if s.isFullSet then true
  else (r.upper - r.lower).ult (s.upper - s.lower)

/-- All sums, or everything if they wrap around to where they started. -/
def add (r s : WrappedRange w) : WrappedRange w :=
  if r.isEmptySet || s.isEmptySet then below w 0
  else if r.isFullSet || s.isFullSet then full w
  else
    if h : r.lower + s.lower = r.upper + s.upper - 1 then full w
    else
      let t : WrappedRange w := ⟨r.lower + s.lower, r.upper + s.upper - 1, fun h' => absurd h' h⟩
      if t.isSizeStrictlySmallerThan r || t.isSizeStrictlySmallerThan s then full w else t

/-- All words of `s` are in `r`. -/
def contains (r s : WrappedRange w) : Bool :=
  if r.isFullSet || s.isEmptySet then true
  else if r.isEmptySet || s.isFullSet then false
  else if !r.isUpperWrapped then
    if s.isUpperWrapped then false else r.lower.ule s.lower && s.upper.ule r.upper
  else if !s.isUpperWrapped then s.upper.ule r.upper || r.lower.ule s.lower
  else s.upper.ule r.upper && r.lower.ule s.lower

/-! ## Distances -/

theorem toNat_sub_cases (x y : BitVec w) :
    (y.toNat ≤ x.toNat ∧ (x - y).toNat = x.toNat - y.toNat) ∨
      (x.toNat < y.toNat ∧ (x - y).toNat = 2 ^ w + x.toNat - y.toNat) := by
  have hx := x.isLt
  have hy := y.isLt
  rw [BitVec.toNat_sub]
  by_cases h : y.toNat ≤ x.toNat
  · refine .inl ⟨h, ?_⟩
    rw [show 2 ^ w - y.toNat + x.toNat = (x.toNat - y.toNat) + 2 ^ w by omega, Nat.add_mod_right,
      Nat.mod_eq_of_lt (by omega)]
  · refine .inr ⟨by omega, ?_⟩
    rw [Nat.mod_eq_of_lt (by omega)]
    omega

theorem toNat_add_cases (x y : BitVec w) :
    (x.toNat + y.toNat < 2 ^ w ∧ (x + y).toNat = x.toNat + y.toNat) ∨
      (2 ^ w ≤ x.toNat + y.toNat ∧ (x + y).toNat = x.toNat + y.toNat - 2 ^ w) := by
  have hx := x.isLt
  have hy := y.isLt
  rw [BitVec.toNat_add]
  by_cases h : x.toNat + y.toNat < 2 ^ w
  · exact .inl ⟨h, Nat.mod_eq_of_lt h⟩
  · refine .inr ⟨by omega, ?_⟩
    rw [Nat.mod_eq_sub_mod (by omega), Nat.mod_eq_of_lt (by omega)]

theorem isFullSet_iff (r : WrappedRange w) :
    r.isFullSet = true ↔ r.lower = r.upper ∧ r.lower = BitVec.allOnes w := by
  simp [isFullSet]

/-- Membership in a range with two ends. -/
theorem has_iff {r : WrappedRange w} (h : r.lower ≠ r.upper) (v : BitVec w) :
    r.has v = true ↔
      (r.upper.toNat < r.lower.toNat ∧ (r.lower.toNat ≤ v.toNat ∨ v.toNat < r.upper.toNat)) ∨
        (r.lower.toNat ≤ v.toNat ∧ v.toNat < r.upper.toNat) := by
  by_cases hw : r.upper.toNat < r.lower.toNat
  · simp only [has, h, if_false, isUpperWrapped, BitVec.ult, BitVec.ule, hw, decide_true, if_true,
      Bool.or_eq_true, decide_eq_true_eq, true_and]
    omega
  · simp [has, h, isUpperWrapped, BitVec.ult, BitVec.ule, hw]

theorem two_ends {r : WrappedRange w} (hfull : r.isFullSet = false)
    (hempty : r.isEmptySet = false) : r.lower ≠ r.upper := by
  intro h
  obtain hall | hzero := r.valid h
  · simp [isFullSet, h, h ▸ hall] at hfull
  · simp [isEmptySet, h, h ▸ hzero] at hempty

theorem isFullSet_of_ne {r : WrappedRange w} (h : r.lower ≠ r.upper) : r.isFullSet = false := by
  simp [isFullSet, h]

/-- A word is in a range if it is less than the size away from the lower end. -/
theorem mem_iff (r : WrappedRange w) (v : BitVec w) :
    r.has v = true ↔ (v - r.lower).toNat < r.size := by
  by_cases heq : r.lower = r.upper
  · have hlt := (v - r.lower).isLt
    unfold has size
    cases hfull : r.isFullSet <;> simp_all
  · have hne : r.lower.toNat ≠ r.upper.toNat := fun h => heq (BitVec.eq_of_toNat_eq h)
    have hv := v.isLt
    have hu := r.upper.isLt
    rw [has_iff heq, size, isFullSet_of_ne heq, if_neg Bool.false_ne_true]
    obtain ⟨hle, hd⟩ | ⟨hlt, hd⟩ := toNat_sub_cases v r.lower <;>
      obtain ⟨hle', hd'⟩ | ⟨hlt', hd'⟩ := toNat_sub_cases r.upper r.lower <;> omega

theorem isSizeStrictlySmallerThan_iff (r s : WrappedRange w) :
    r.isSizeStrictlySmallerThan s = true ↔ r.size < s.size := by
  have hr := (r.upper - r.lower).isLt
  have hs := (s.upper - s.lower).isLt
  unfold isSizeStrictlySmallerThan size
  cases r.isFullSet <;> cases s.isFullSet <;> simp [BitVec.ult] <;> omega

theorem size_of_ne {r : WrappedRange w} (h : r.lower ≠ r.upper) :
    r.size = (r.upper - r.lower).toNat := by
  rw [size, isFullSet_of_ne h, if_neg Bool.false_ne_true]

@[simp] theorem full_has (v : BitVec w) : (full w).has v = true := by
  simp [has, full, isFullSet]

/-- Only for words of no bits does the empty range hold something. -/
theorem has_of_isEmptySet {r : WrappedRange w} (h : r.isEmptySet = true) {v : BitVec w}
    (hv : r.has v = true) (s : WrappedRange w) (u : BitVec w) : s.has u = true := by
  obtain ⟨heq, hzero⟩ : r.lower = r.upper ∧ r.lower = 0 := by simpa [isEmptySet] using h
  have hfull : (0 : BitVec w) = BitVec.allOnes w := by
    rw [has, if_pos heq, isFullSet_iff, hzero] at hv
    exact hv.2
  have hall : ∀ a b : BitVec w, a = b := fun a b => by
    have hw := congrArg BitVec.toNat hfull
    simp only [BitVec.toNat_allOnes, BitVec.ofNat_eq_ofNat, BitVec.toNat_ofNat,
      Nat.zero_mod] at hw
    have ha := a.isLt
    have hb := b.isLt
    exact BitVec.eq_of_toNat_eq (by omega)
  rw [has, if_pos (hall _ _), isFullSet_iff]
  exact ⟨hall _ _, hall _ _⟩

/-! ## Sums -/

/-- Two distances below two sizes add up to less than the size of the sum, if that does not
wrap around. -/
theorem add_lt_of_not_wrapped {d₁ d₂ s₁ s₂ : BitVec w} (h₁ : d₁.toNat < s₁.toNat)
    (h₂ : d₂.toNat < s₂.toNat) (hle : s₂.toNat ≤ (s₁ + s₂ - 1).toNat) : (d₁ + d₂).toNat < (s₁ + s₂ - 1).toNat := by
  have hs₁ := s₁.isLt
  have hs₂ := s₂.isLt
  have hone : (1 : BitVec w).toNat = 1 := by
    rw [show (1 : BitVec w) = BitVec.ofNat w 1 from rfl, BitVec.toNat_ofNat]
    exact Nat.mod_eq_of_lt (by omega)
  obtain ⟨hd, hd'⟩ | ⟨hd, hd'⟩ := toNat_add_cases d₁ d₂ <;>
    obtain ⟨hs, hs'⟩ | ⟨hs, hs'⟩ := toNat_add_cases s₁ s₂ <;>
      obtain ⟨ho, ho'⟩ | ⟨ho, ho'⟩ := toNat_sub_cases (s₁ + s₂) 1 <;> omega

/-- The sum of two words is in the sum of their ranges. -/
theorem mem_add {r s : WrappedRange w} {x y : BitVec w} (hx : r.has x = true)
    (hy : s.has y = true) : (r.add s).has (x + y) = true := by
  unfold add
  by_cases hempty : (r.isEmptySet || s.isEmptySet) = true
  · rw [if_pos hempty]
    obtain h | h := Bool.or_eq_true_iff.mp hempty
    · exact has_of_isEmptySet h hx _ _
    · exact has_of_isEmptySet h hy _ _
  rw [if_neg hempty]
  by_cases hfull : (r.isFullSet || s.isFullSet) = true
  · rw [if_pos hfull]
    exact full_has _
  rw [if_neg hfull]
  by_cases heq : r.lower + s.lower = r.upper + s.upper - 1
  · rw [dif_pos heq]
    exact full_has _
  rw [dif_neg heq]
  dsimp only
  split_ifs with hsmall
  · exact full_has _
  obtain ⟨hr, hs⟩ : r.isFullSet = false ∧ s.isFullSet = false := by simpa using hfull
  simp only [Bool.or_eq_true, isSizeStrictlySmallerThan_iff, not_or, Nat.not_lt] at hsmall
  rw [mem_iff] at hx hy ⊢
  have hsum := size_of_ne
    (r := ⟨r.lower + s.lower, r.upper + s.upper - 1, fun h' => absurd h' heq⟩) heq
  rw [hsum] at hsmall ⊢
  rw [size, hr, if_neg Bool.false_ne_true] at hx hsmall
  rw [size, hs, if_neg Bool.false_ne_true] at hy hsmall
  have hdist : x + y - (r.lower + s.lower) = (x - r.lower) + (y - s.lower) := by
    ring
  have hsize : r.upper + s.upper - 1 - (r.lower + s.lower) =
      (r.upper - r.lower) + (s.upper - s.lower) - 1 := by
    ring
  simp only [hdist, hsize] at hsmall ⊢
  generalize x - r.lower = d₁ at hx ⊢
  generalize y - s.lower = d₂ at hy ⊢
  generalize r.upper - r.lower = s₁ at *
  generalize s.upper - s.lower = s₂ at *
  exact add_lt_of_not_wrapped hx hy hsmall.2

/-! ## Subsets -/

/-- A range that contains another holds its words. -/
theorem mem_of_contains {r s : WrappedRange w} (h : r.contains s = true) {v : BitVec w}
    (hv : s.has v = true) : r.has v = true := by
  by_cases hempty : s.isEmptySet = true
  · exact has_of_isEmptySet hempty hv _ _
  by_cases hfull : r.isFullSet = true
  · rw [mem_iff, size, if_pos hfull]
    exact (v - r.lower).isLt
  by_cases hnone : (r.isEmptySet || s.isFullSet) = true
  · simp [contains, hempty, hfull, hnone] at h
  obtain ⟨hrempty, hsfull⟩ : r.isEmptySet = false ∧ s.isFullSet = false := by simpa using hnone
  have hr := two_ends (by simpa using hfull) hrempty
  have hs := two_ends hsfull (by simpa using hempty)
  rw [has_iff hr]
  rw [has_iff hs] at hv
  simp only [contains, hempty, hfull, hnone, isUpperWrapped, BitVec.ult, BitVec.ule] at h
  grind

/-- The words below a bound. -/
theorem has_below (hw : 0 < w) {n : Nat} (hn : n < 2 ^ w) (v : BitVec w) :
    (below w n).has v = true ↔ v.toNat < n := by
  have hfull : (below w n).isFullSet = false := by
    simp [isFullSet, below]
    omega
  rw [mem_iff, size, hfull, if_neg Bool.false_ne_true]
  simp [below, Nat.mod_eq_of_lt hn]

end WrappedRange

end MSV
