import SqlOptimizer.Library.Binary64
import Mathlib.Algebra.Order.Field.Power

/-! Bounds on results that are rounded as IEEE 754 prescribes. -/

namespace SqlOptimizer

/-- Doubles stay as they are, and rounding keeps the order of magnitudes; what overflows is above
what does not. -/
structure FaithfulRounding [Rounding] : Prop where
  exact : ∀ (m : Nat) (e : Int), m < 2 ^ 53 → -1074 ≤ e → e ≤ 971 →
    Rounding.round ((m : ℚ≥0) * 2 ^ e) = some ((m : ℚ≥0) * 2 ^ e)
  mono : ∀ {x y ry : ℚ≥0}, x ≤ y → Rounding.round y = some ry →
    ∃ rx, Rounding.round x = some rx ∧ rx ≤ ry

theorem faithfulRounding_exact : @FaithfulRounding Rounding.exact :=
  @FaithfulRounding.mk Rounding.exact (fun _ _ _ _ _ => rfl) fun h hy => ⟨_, rfl, by cases hy; exact h⟩

namespace FaithfulRounding

variable [Rounding]

theorem natCast (h : FaithfulRounding) {m : Nat} (hm : m < 2 ^ 53) :
    Rounding.round (m : ℚ≥0) = some (m : ℚ≥0) := by
  have hexact := h.exact m 0 hm (by omega) (by omega)
  rwa [zpow_zero, mul_one] at hexact

/-- What is below a double is rounded to something below it. -/
theorem le_of_le (h : FaithfulRounding) {x : ℚ≥0} {m : Nat} {e : Int} (hm : m < 2 ^ 53)
    (he : -1074 ≤ e) (he' : e ≤ 971) (hx : x ≤ (m : ℚ≥0) * 2 ^ e) :
    ∃ rx, Rounding.round x = some rx ∧ rx ≤ (m : ℚ≥0) * 2 ^ e :=
  h.mono hx (h.exact m e hm he he')

theorem le_natCast (h : FaithfulRounding) {x : ℚ≥0} {m : Nat} (hm : m < 2 ^ 53)
    (hx : x ≤ (m : ℚ≥0)) : ∃ rx, Rounding.round x = some rx ∧ rx ≤ (m : ℚ≥0) :=
  h.mono hx (h.natCast hm)

theorem natCast_le (h : FaithfulRounding) {x rx : ℚ≥0} {m : Nat} (hm : m < 2 ^ 53)
    (hx : (m : ℚ≥0) ≤ x) (hround : Rounding.round x = some rx) : (m : ℚ≥0) ≤ rx := by
  obtain ⟨r, hr, hle⟩ := h.mono hx hround
  rw [h.natCast hm] at hr
  cases hr
  exact hle

end FaithfulRounding

end SqlOptimizer

namespace Binary64

/-- An integer of fewer than 53 bits is a double. -/
theorem ofInt_of_lt {i : Int} (h : i.natAbs < 2 ^ 53) :
    ofInt i = .fin (decide (i < 0)) (i.natAbs : ℚ≥0) := by
  have hlog : Nat.log2 i.natAbs - 52 = 0 := by
    rcases Nat.eq_zero_or_pos i.natAbs with hzero | hpos
    · rw [hzero]
      rfl
    · have := (Nat.log2_lt (by omega)).mpr h
      omega
  have hround : roundNat i.natAbs = i.natAbs := by
    rw [roundNat_eq_self, hlog, pow_zero]
    exact one_dvd _
  rw [ofInt, hround]

section

variable [Rounding]

/-- The sum of two doubles that a signed rational and its sign stand for. -/
theorem add_of_sum {n n' s : Bool} {m m' q : ℚ≥0} (hsum : signed n m + signed n' m' = signed s q)
    (hzero : q = 0 → (n && n') = s) :
    add (.fin n m) (.fin n' m') = if q = 0 then .fin s 0 else rounded s q := by
  simp only [add, hsum]
  by_cases hq : q = 0
  · have hsigned : signed s q = 0 := by simp [signed, hq]
    rw [if_pos hsigned, if_pos hq, hzero hq]
  · have hpos : (0 : ℚ) < q := by
      rw [NNRat.coe_pos]
      exact pos_iff_ne_zero.mpr hq
    have hsigned : signed s q ≠ 0 := by
      cases s <;> simp [signed, hq]
    have hneg : decide (signed s q < 0) = s := by
      cases s
      · simp [signed]
      · simpa [signed] using hpos
    have hmag : (signed s q).nnabs = q := by
      apply NNRat.coe_injective
      rw [Rat.coe_nnabs]
      cases s
      · simp [signed]
      · simp [signed]
    rw [if_neg hsigned, if_neg hq, hneg, hmag]

theorem add_zero_left (n : Bool) (m : ℚ≥0) :
    add (.fin false 0) (.fin n m) = if m = 0 then .fin false 0 else rounded n m := by
  by_cases hm : m = 0
  · have hsum : signed false 0 + signed n m = signed false 0 := by
      cases n <;> simp [signed, hm]
    rw [add_of_sum hsum fun _ => rfl, if_pos rfl, if_pos hm]
  · have hsum : signed false 0 + signed n m = signed n m := by
      simp [signed]
    rw [add_of_sum hsum fun h => absurd h hm, if_neg hm, if_neg hm]

end

end Binary64
