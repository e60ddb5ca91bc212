import SqlOptimizer.Library.ExactSum
import Mathlib.Tactic.FieldSimp

/-! Finite doubles in exact arithmetic compute with the rationals that they hold.  The order of the
values other than NaN is total. -/

namespace Binary64

attribute [local instance] Rounding.exact

/-- The value is finite, and the rational `q`. -/
def Holds (x : Binary64) (q : ℚ) : Prop := ∃ n m, x = fin n m ∧ signed n m = q

theorem holds_fin (n : Bool) (m : ℚ≥0) : Holds (fin n m) (signed n m) := ⟨n, m, rfl, rfl⟩

theorem holds_zero : Holds zero 0 := holds_fin false 0

theorem holds_nnabs (q : ℚ) : Holds (fin (decide (q < 0)) q.nnabs) q := ⟨_, _, rfl, signed_nnabs q⟩

theorem holds_natCast (n : Nat) : Holds (fin false n) n := ⟨_, _, rfl, by simp [signed]⟩

variable {x y z : Binary64} {p q r : ℚ}

theorem Holds.congr (hx : Holds x p) (h : p = q) : Holds x q := h ▸ hx

theorem Holds.unique (hx : Holds x p) (hx' : Holds x q) : p = q := by
  obtain ⟨n, m, rfl, rfl⟩ := hx
  obtain ⟨n', m', h, rfl⟩ := hx'
  cases h
  rfl

theorem Holds.ne_nan (hx : Holds x p) : x ≠ nan := by
  obtain ⟨n, m, rfl, -⟩ := hx
  nofun

theorem Holds.lt_iff (hx : Holds x p) (hy : Holds y q) : lt x y = true ↔ p < q := by
  obtain ⟨n, m, rfl, rfl⟩ := hx
  obtain ⟨n', m', rfl, rfl⟩ := hy
  simp [lt]

theorem Holds.eq_iff (hx : Holds x p) (hy : Holds y q) : eq x y = true ↔ p = q := by
  obtain ⟨n, m, rfl, rfl⟩ := hx
  obtain ⟨n', m', rfl, rfl⟩ := hy
  simp [eq]

theorem Holds.add (hx : Holds x p) (hy : Holds y q) : Holds (add x y) (p + q) := by
  obtain ⟨n, m, rfl, rfl⟩ := hx
  obtain ⟨n', m', rfl, rfl⟩ := hy
  obtain ⟨s, k, hadd, hk, -⟩ := add_fin n n' m m'
  exact ⟨s, k, hadd, hk⟩

theorem Holds.neg (hx : Holds x p) : Holds (neg x) (-p) := by
  obtain ⟨n, m, rfl, rfl⟩ := hx
  refine ⟨!n, m, rfl, ?_⟩
  cases n <;> simp [signed]

theorem Holds.sub (hx : Holds x p) (hy : Holds y q) : Holds (sub x y) (p - q) :=
  (hx.add hy.neg).congr (sub_eq_add_neg p q).symm

theorem Holds.mul (hx : Holds x p) (hy : Holds y q) : Holds (mul x y) (p * q) := by
  obtain ⟨n, m, rfl, rfl⟩ := hx
  obtain ⟨n', m', rfl, rfl⟩ := hy
  refine ⟨xor n n', m * m', rfl, ?_⟩
  cases n <;> cases n' <;> simp [signed]

theorem Holds.div (hx : Holds x p) (hy : Holds y q) (hq : q ≠ 0) : Holds (div x y) (p / q) := by
  obtain ⟨n, m, rfl, rfl⟩ := hx
  obtain ⟨n', m', rfl, rfl⟩ := hy
  have hm' : m' ≠ 0 := by
    rintro rfl
    exact hq (by cases n' <;> simp [signed])
  refine ⟨xor n n', m / m', if_neg hm', ?_⟩
  cases n <;> cases n' <;> simp [signed, div_neg, neg_div]

/-! ### Order -/

/-- `<=` on doubles. -/
def le (x y : Binary64) : Bool := lt x y || eq x y

theorem Holds.le_iff (hx : Holds x p) (hy : Holds y q) : le x y = true ↔ p ≤ q := by
  rw [le, Bool.or_eq_true, hx.lt_iff hy, hx.eq_iff hy, le_iff_lt_or_eq]

theorem le_refl (hx : x ≠ nan) : le x x = true := by
  cases x with
  | nan => exact absurd rfl hx
  | inf n => simp [le, eq]
  | fin n m => simp [le, eq]

theorem le_trans (hxy : le x y = true) (hyz : le y z = true) : le x z = true := by
  cases x <;> cases y <;> cases z <;> simp_all [le, lt, eq]
  · grind
  · rw [← le_iff_lt_or_eq] at *
    exact hxy.trans hyz

theorem le_total (hx : x ≠ nan) (hy : y ≠ nan) : le x y = true ∨ lt y x = true := by
  cases x <;> cases y <;> simp_all [le, lt, eq]
  · grind
  · rw [← le_iff_lt_or_eq]
    exact le_or_gt _ _

theorem lt_of_le_of_ne (h : le x y = true) (hne : eq x y = false) : lt x y = true := by
  rwa [le, hne, Bool.or_false] at h

theorem not_lt_of_le (h : le x y = true) : lt y x = false := by
  cases x <;> cases y <;> simp_all [le, lt, eq]
  · grind
  · exact le_iff_lt_or_eq.mpr h

theorem le_of_lt (h : lt x y = true) : le x y = true := by simp [le, h]

theorem le_of_eq (h : eq x y = true) : le x y = true := by simp [le, h]

theorem eq_of_le (hxy : le x y = true) (hyx : le y x = true) : eq x y = true := by
  rw [le, not_lt_of_le hyx, Bool.false_or] at hxy
  exact hxy

theorem eq_false_of_lt (h : lt x y = true) : eq x y = false := by
  cases x <;> cases y <;> simp_all [lt, eq, ne_of_lt]

/-- Between two finite values there is no infinity. -/
theorem holds_of_between (hxy : lt x y = true) (hyz : lt y z = true) (hx : Holds x p)
    (hz : Holds z q) : ∃ r, Holds y r := by
  obtain ⟨n, m, rfl, -⟩ := hx
  obtain ⟨n', m', rfl, -⟩ := hz
  cases y with
  | nan => cases hxy
  | inf s => cases s <;> simp_all [lt]
  | fin s k => exact ⟨_, holds_fin s k⟩

end Binary64
