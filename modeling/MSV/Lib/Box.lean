import Mathlib.Algebra.Order.Ring.Int
import Mathlib.Data.Int.ConditionallyCompleteOrder
import Mathlib.Order.Interval.Set.OrdConnected
import Mathlib.Tactic.Linarith

/-!
# Products and quotients over a box

For `x` in `[a, b]` and `y` in `[c, d]` the product, and the truncated quotient when zero is not in
`[c, d]`, are between the least and the greatest of the four values at the corners. So an interval
contains them all exactly if it contains those at the corners (`Box.forall_mul_iff`,
`Box.forall_tdiv_iff`).
-/

namespace MSV

section

variable {a b c d x y L R k : Int}

/-! ## Products -/

theorem le_mul_of_ends (hx : a ≤ x ∧ x ≤ b) (ha : L ≤ k * a) (hb : L ≤ k * b) : L ≤ k * x := by
  by_cases hk : 0 ≤ k
  · exact ha.trans (Int.mul_le_mul_of_nonneg_left hx.1 hk)
  · exact hb.trans (Int.mul_le_mul_of_nonpos_left (by omega) hx.2)

theorem mul_le_of_ends (hx : a ≤ x ∧ x ≤ b) (ha : k * a ≤ R) (hb : k * b ≤ R) : k * x ≤ R := by
  have := le_mul_of_ends (L := -R) (k := -k) hx (by linarith) (by linarith)
  linarith

/-- A product is between the corners. -/
theorem mul_mem_of_corners (hx : a ≤ x ∧ x ≤ b) (hy : c ≤ y ∧ y ≤ d)
    (hlo : L ≤ a * c ∧ L ≤ a * d ∧ L ≤ b * c ∧ L ≤ b * d)
    (hhi : a * c ≤ R ∧ a * d ≤ R ∧ b * c ≤ R ∧ b * d ≤ R) : L ≤ x * y ∧ x * y ≤ R := by
  have hcol : ∀ k, L ≤ a * k → L ≤ b * k → L ≤ x * k := by
    intro k ha hb
    rw [mul_comm x k]
    exact le_mul_of_ends hx (by linarith) (by linarith)
  have hcol' : ∀ k, a * k ≤ R → b * k ≤ R → x * k ≤ R := by
    intro k ha hb
    rw [mul_comm x k]
    exact mul_le_of_ends hx (by linarith) (by linarith)
  exact ⟨le_mul_of_ends hy (hcol c hlo.1 hlo.2.2.1) (hcol d hlo.2.1 hlo.2.2.2),
    mul_le_of_ends hy (hcol' c hhi.1 hhi.2.2.1) (hcol' d hhi.2.1 hhi.2.2.2)⟩

/-! ## Quotients -/

theorem ediv_anti (hx : 0 ≤ x) (hc : 0 < c) (hy : c ≤ y) : x / y ≤ x / c := by
  have hq : 0 ≤ x / y := Int.ediv_nonneg hx (by omega)
  rw [Int.le_ediv_iff_mul_le hc]
  calc x / y * c ≤ x / y * y := Int.mul_le_mul_of_nonneg_left hy hq
    _ ≤ x := Int.ediv_mul_le x (by omega)

/-- Dividing by a larger number brings the quotient closer to zero. -/
theorem le_tdiv_of_ends (hc : 0 < c) (hy : c ≤ y ∧ y ≤ d) (h1 : L ≤ x.tdiv c)
    (h2 : L ≤ x.tdiv d) : L ≤ x.tdiv y := by
  by_cases hx : 0 ≤ x
  · rw [Int.tdiv_eq_ediv_of_nonneg hx] at h2 ⊢
    exact h2.trans (ediv_anti hx (by omega) hy.2)
  · obtain ⟨z, rfl⟩ : ∃ z, x = -z := ⟨-x, by omega⟩
    have hz : 0 ≤ z := by omega
    rw [Int.neg_tdiv, Int.tdiv_eq_ediv_of_nonneg hz] at h1 ⊢
    have := ediv_anti hz hc hy.1
    omega

theorem tdiv_le_of_ends (hc : 0 < c) (hy : c ≤ y ∧ y ≤ d) (h1 : x.tdiv c ≤ R)
    (h2 : x.tdiv d ≤ R) : x.tdiv y ≤ R := by
  have := le_tdiv_of_ends (L := -R) (x := -x) hc hy (by rw [Int.neg_tdiv]; omega)
    (by rw [Int.neg_tdiv]; omega)
  rw [Int.neg_tdiv] at this
  omega

/-- A quotient by positive numbers is between the corners. -/
theorem tdiv_mem_of_corners_pos (hx : a ≤ x ∧ x ≤ b) (hc : 0 < c) (hy : c ≤ y ∧ y ≤ d)
    (hlo : L ≤ a.tdiv c ∧ L ≤ a.tdiv d) (hhi : b.tdiv c ≤ R ∧ b.tdiv d ≤ R) :
    L ≤ x.tdiv y ∧ x.tdiv y ≤ R := by
  have hd : 0 < d := by omega
  exact ⟨le_tdiv_of_ends hc hy (hlo.1.trans (Int.tdiv_le_tdiv hc hx.1))
      (hlo.2.trans (Int.tdiv_le_tdiv hd hx.1)),
    tdiv_le_of_ends hc hy ((Int.tdiv_le_tdiv hc hx.2).trans hhi.1)
      ((Int.tdiv_le_tdiv hd hx.2).trans hhi.2)⟩

/-- A quotient is between the corners, when zero is not between the divisors. -/
theorem tdiv_mem_of_corners (hx : a ≤ x ∧ x ≤ b) (hcd : 0 < c ∨ d < 0) (hy : c ≤ y ∧ y ≤ d)
    (hlo : L ≤ a.tdiv c ∧ L ≤ a.tdiv d ∧ L ≤ b.tdiv c ∧ L ≤ b.tdiv d)
    (hhi : a.tdiv c ≤ R ∧ a.tdiv d ≤ R ∧ b.tdiv c ≤ R ∧ b.tdiv d ≤ R) :
    L ≤ x.tdiv y ∧ x.tdiv y ≤ R := by
  obtain hc | hd := hcd
  · exact tdiv_mem_of_corners_pos hx hc hy ⟨hlo.1, hlo.2.1⟩ hhi.2.2
  · -- divide the negated numbers
    have := tdiv_mem_of_corners_pos (a := -b) (b := -a) (x := -x) (c := -d) (d := -c) (y := -y)
      (L := L) (R := R) (by omega) (by omega) (by omega)
      ⟨by rw [Int.neg_tdiv_neg]; omega, by rw [Int.neg_tdiv_neg]; omega⟩
      ⟨by rw [Int.neg_tdiv_neg]; omega, by rw [Int.neg_tdiv_neg]; omega⟩
    rwa [Int.neg_tdiv_neg] at this

end

/-! ## Boxes -/

/-- The pairs of integers of two intervals. -/
structure Box where
  xl : Int
  xr : Int
  yl : Int
  yr : Int

namespace Box

/-- The pair is in the box. -/
def Mem (B : Box) (x y : Int) : Prop := (B.xl ≤ x ∧ x ≤ B.xr) ∧ B.yl ≤ y ∧ y ≤ B.yr

/-- Both intervals have numbers in them. -/
def Nonempty (B : Box) : Prop := B.xl ≤ B.xr ∧ B.yl ≤ B.yr

/-- The property holds at the corners, if there are any. -/
def OnCorners (B : Box) (P : Int → Int → Prop) : Prop :=
  B.Nonempty → (P B.xl B.yl ∧ P B.xl B.yr) ∧ P B.xr B.yl ∧ P B.xr B.yr

variable {B : Box} {P : Int → Int → Prop} {S : Set Int}

theorem Mem.nonempty {x y : Int} (h : B.Mem x y) : B.Nonempty :=
  ⟨h.1.1.trans h.1.2, h.2.1.trans h.2.2⟩

theorem OnCorners.of_forall (h : ∀ x y, B.Mem x y → P x y) : B.OnCorners P := by
  rintro ⟨hx, hy⟩
  exact ⟨⟨h _ _ ⟨⟨le_rfl, hx⟩, le_rfl, hy⟩, h _ _ ⟨⟨le_rfl, hx⟩, hy, le_rfl⟩⟩,
    h _ _ ⟨⟨hx, le_rfl⟩, le_rfl, hy⟩, h _ _ ⟨⟨hx, le_rfl⟩, hy, le_rfl⟩⟩

/-- Of four numbers of a set, one is least and one is greatest. -/
theorem exists_ends {p q r s : Int} (hp : p ∈ S) (hq : q ∈ S) (hr : r ∈ S) (hs : s ∈ S) :
    ∃ L ∈ S, ∃ R ∈ S, (L ≤ p ∧ L ≤ q ∧ L ≤ r ∧ L ≤ s) ∧ p ≤ R ∧ q ≤ R ∧ r ≤ R ∧ s ≤ R := by
  have hmin : ∀ {x y : Int}, x ∈ S → y ∈ S → min x y ∈ S := by
    intro x y hx hy
    rcases min_choice x y with h | h <;> rwa [h]
  have hmax : ∀ {x y : Int}, x ∈ S → y ∈ S → max x y ∈ S := by
    intro x y hx hy
    rcases max_choice x y with h | h <;> rwa [h]
  exact ⟨min (min p q) (min r s), hmin (hmin hp hq) (hmin hr hs), max (max p q) (max r s),
    hmax (hmax hp hq) (hmax hr hs), by omega, by omega⟩

/-- A set without gaps contains the products of a box if it contains those at the corners. -/
theorem forall_mul_iff (hS : S.OrdConnected) :
    (∀ x y, B.Mem x y → x * y ∈ S) ↔ B.OnCorners fun x y => x * y ∈ S := by
  refine ⟨OnCorners.of_forall, fun h x y hxy => ?_⟩
  obtain ⟨⟨h1, h2⟩, h3, h4⟩ := h hxy.nonempty
  obtain ⟨L, hL, R, hR, hlo, hhi⟩ := exists_ends h1 h2 h3 h4
  exact hS.out hL hR (mul_mem_of_corners hxy.1 hxy.2 hlo hhi)

/-- The same for quotients, when zero is not among the divisors. -/
theorem forall_tdiv_iff (hS : S.OrdConnected) (hzero : 0 < B.yl ∨ B.yr < 0) :
    (∀ x y, B.Mem x y → x.tdiv y ∈ S) ↔ B.OnCorners fun x y => x.tdiv y ∈ S := by
  refine ⟨OnCorners.of_forall, fun h x y hxy => ?_⟩
  obtain ⟨⟨h1, h2⟩, h3, h4⟩ := h hxy.nonempty
  obtain ⟨L, hL, R, hR, hlo, hhi⟩ := exists_ends h1 h2 h3 h4
  exact hS.out hL hR (tdiv_mem_of_corners hxy.1 hzero hxy.2 hlo hhi)

end Box

end MSV
