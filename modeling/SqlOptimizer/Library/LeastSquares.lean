import Mathlib.Algebra.Order.BigOperators.Group.List
import Mathlib.Algebra.BigOperators.Ring.List
import Mathlib.Algebra.Order.Field.Basic
import Mathlib.Tactic.FieldSimp
import Mathlib.Tactic.LinearCombination
import Mathlib.Tactic.Linarith
import Mathlib.Tactic.Ring

/-! Lines through points by least squares, over an ordered field.  A line whose errors are
orthogonal to the constants and to the abscissas has the least sum of squared errors, and the closed
formula in the sums of the points gives such a line; where all abscissas coincide, the constant line
through the mean does. -/

namespace LeastSquares

variable {K : Type*} [Field K]

/-- The sum of a quantity over the points. -/
def total (points : List (K × K)) (f : K × K → K) : K := (points.map f).sum

/-- The error of the line `a * x + b` at a point. -/
def error (a b : K) (p : K × K) : K := p.2 - a * p.1 - b

def squaredError (points : List (K × K)) (a b : K) : K := total points fun p => error a b p ^ 2

@[simp] theorem total_nil (f : K × K → K) : total [] f = 0 := rfl

@[simp] theorem total_cons (p : K × K) (points : List (K × K)) (f : K × K → K) :
    total (p :: points) f = f p + total points f := by simp [total]

@[simp] theorem total_append (points points' : List (K × K)) (f : K × K → K) :
    total (points ++ points') f = total points f + total points' f := by simp [total]

/-- The errors are orthogonal to the constants and to the abscissas. -/
structure Normal (points : List (K × K)) (a b : K) : Prop where
  constant : total points (error a b) = 0
  abscissa : total points (fun p => error a b p * p.1) = 0

/-- The squared error of another line, around this one. -/
theorem squaredError_shift (points : List (K × K)) (a b a' b' : K) :
    squaredError points a' b' = squaredError points a b +
      2 * (a - a') * total points (fun p => error a b p * p.1) +
      2 * (b - b') * total points (error a b) +
      total points fun p => ((a - a') * p.1 + (b - b')) ^ 2 := by
  induction points with
  | nil => simp [squaredError]
  | cons p points ih =>
    simp only [squaredError, total_cons] at ih ⊢
    rw [ih]
    simp only [error]
    ring

theorem total_error (points : List (K × K)) (a b : K) :
    total points (error a b) =
      total points Prod.snd - a * total points Prod.fst - points.length * b := by
  induction points with
  | nil => simp
  | cons p points ih =>
    simp only [total_cons, List.length_cons, Nat.cast_add, Nat.cast_one]
    rw [ih]
    simp only [error]
    ring

theorem total_error_mul (points : List (K × K)) (a b : K) :
    total points (fun p => error a b p * p.1) =
      total points (fun p => p.1 * p.2) - a * total points (fun p => p.1 * p.1) -
        b * total points Prod.fst := by
  induction points with
  | nil => simp
  | cons p points ih =>
    simp only [total_cons]
    rw [ih]
    simp only [error]
    ring

/-- The denominator of the slope. -/
def spread (points : List (K × K)) : K :=
  points.length * total points (fun p => p.1 * p.1) - total points Prod.fst * total points Prod.fst

theorem total_sq_sub (points : List (K × K)) (m : K) :
    total points (fun p => (p.1 - m) ^ 2) =
      total points (fun p => p.1 * p.1) - 2 * m * total points Prod.fst +
        points.length * m ^ 2 := by
  induction points with
  | nil => simp
  | cons p points ih =>
    simp only [total_cons, List.length_cons, Nat.cast_add, Nat.cast_one]
    rw [ih]
    ring

section Ordered

variable [LinearOrder K] [IsStrictOrderedRing K] {points : List (K × K)}

theorem total_nonneg {f : K × K → K} (h : ∀ p, 0 ≤ f p) : 0 ≤ total points f :=
  List.sum_nonneg fun x hx => by
    obtain ⟨p, -, rfl⟩ := List.mem_map.mp hx
    exact h p

/-- A line with orthogonal errors is one of least squares. -/
theorem Normal.minimal {a b : K} (h : Normal points a b) (a' b' : K) :
    squaredError points a b ≤ squaredError points a' b' := by
  have hrest : 0 ≤ total points fun p => ((a - a') * p.1 + (b - b')) ^ 2 :=
    total_nonneg fun p => sq_nonneg _
  rw [squaredError_shift points a b a' b', h.constant, h.abscissa]
  linarith

theorem length_ne_zero (hne : points ≠ []) : (points.length : K) ≠ 0 :=
  Nat.cast_ne_zero.mpr fun h => hne (List.length_eq_zero_iff.mp h)

/-- The closed formula, where the abscissas differ. -/
theorem normal_of_spread (hne : points ≠ []) (hspread : spread points ≠ 0) :
    let a := (points.length * total points (fun p => p.1 * p.2) -
      total points Prod.fst * total points Prod.snd) / spread points
    Normal points a ((total points Prod.snd - a * total points Prod.fst) / points.length) := by
  intro a
  have hn := length_ne_zero hne
  have ha : a * spread points = points.length * total points (fun p => p.1 * p.2) -
      total points Prod.fst * total points Prod.snd := div_mul_cancel₀ _ hspread
  constructor
  · rw [total_error]
    field_simp
    ring
  · rw [total_error_mul]
    rw [spread] at ha
    generalize total points (fun p => p.1 * p.1) = sumXX at ha ⊢
    generalize total points (fun p => p.1 * p.2) = sumXY at ha ⊢
    field_simp
    linear_combination -ha

/-- The denominator vanishes only where all abscissas are their mean. -/
theorem fst_eq_mean_of_spread (hspread : spread points = 0) {p : K × K} (hp : p ∈ points) :
    p.1 = total points Prod.fst / points.length := by
  have hn := length_ne_zero (List.ne_nil_of_mem hp)
  have hvariance :
      total points (fun p => (p.1 - total points Prod.fst / points.length) ^ 2) = 0 := by
    rw [total_sq_sub]
    rw [spread] at hspread
    generalize total points (fun p => p.1 * p.1) = sumXX at hspread ⊢
    field_simp
    linear_combination hspread
  have hzero : (p.1 - total points Prod.fst / points.length) ^ 2 = 0 :=
    List.all_zero_of_le_zero_le_of_sum_eq_zero
      (fun x hx => by
        obtain ⟨q, -, rfl⟩ := List.mem_map.mp hx
        exact sq_nonneg _)
      hvariance (List.mem_map_of_mem hp)
  exact sub_eq_zero.mp (pow_eq_zero_iff two_ne_zero |>.mp hzero)

/-- The constant line through the mean, where all abscissas coincide. -/
theorem normal_of_spread_eq_zero (hne : points ≠ []) (hspread : spread points = 0) :
    Normal points 0 (total points Prod.snd / points.length) := by
  have hn := length_ne_zero hne
  have hconstant : total points (error 0 (total points Prod.snd / points.length)) = 0 := by
    rw [total_error]
    field_simp
    ring
  refine ⟨hconstant, ?_⟩
  have hmap : ∀ p ∈ points, error 0 (total points Prod.snd / points.length) p * p.1 =
      error 0 (total points Prod.snd / points.length) p *
        (total points Prod.fst / points.length) := by
    intro p hp
    rw [fst_eq_mean_of_spread hspread hp]
  have htotal : total points (fun p => error 0 (total points Prod.snd / points.length) p * p.1) =
      total points (error 0 (total points Prod.snd / points.length)) *
        (total points Prod.fst / points.length) := by
    rw [total, List.map_congr_left hmap, List.sum_map_mul_right]
    rfl
  rw [htotal, hconstant, zero_mul]

end Ordered

end LeastSquares
