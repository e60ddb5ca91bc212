import SqlOptimizer.Library.LeastSquares
import Mathlib.Data.List.AList
import Mathlib.Data.List.Induction
import Mathlib.Tactic.NormNum

/-! `adaptive/calibration.cpp`: for each kind of operator a line from predicted cost to measured
time, kept as running sums.  The source computes with `double`; the model computes in any field. -/

namespace SqlOptimizer.Adaptive

variable {K : Type} [Field K]

/-- `CalibrationModel::Fit` -/
structure Fit (K : Type) where
  n : Nat
  sumX : K
  sumY : K
  sumXX : K
  sumXY : K

abbrev CalibrationModel (K : Type) := AList fun _ : String => Fit K

def kMinSamples : Nat := 3

/-- The body of `record_observation`. -/
def Fit.record (f : Fit K) (predictedCost actualMs : K) : Fit K :=
  { n := f.n + 1
    sumX := f.sumX + predictedCost
    sumY := f.sumY + actualMs
    sumXX := f.sumXX + predictedCost * predictedCost
    sumXY := f.sumXY + predictedCost * actualMs }

def recordObservation (model : CalibrationModel K) (kind : String) (predictedCost actualMs : K) :
    CalibrationModel K :=
  model.insert kind (((model.lookup kind).getD ⟨0, 0, 0, 0, 0⟩).record predictedCost actualMs)

def Fit.denom (f : Fit K) : K := f.n * f.sumXX - f.sumX * f.sumX

section

variable [DecidableEq K]

/-- A division; none by zero. -/
def quotient (x y : K) : Option K := if y = 0 then none else some (x / y)

def Fit.scale (f : Fit K) : Option K :=
  if f.n < kMinSamples then some 1
  else if f.denom = 0 then some 0
  else quotient (f.n * f.sumXY - f.sumX * f.sumY) f.denom

def Fit.bias (f : Fit K) : Option K :=
  if f.n < kMinSamples then some 0
  else if f.denom = 0 then quotient f.sumY f.n
  else do quotient (f.sumY - (← f.scale) * f.sumX) f.n

def calibratedEstimateMs (model : CalibrationModel K) (kind : String) (predictedCost : K) :
    Option K :=
  match model.lookup kind with
  | none => some predictedCost
  | some f =>
    if f.n < kMinSamples then some predictedCost
    else do return (← f.scale) * predictedCost + (← f.bias)

theorem quotient_of_ne {x y : K} (h : y ≠ 0) : quotient x y = some (x / y) := if_neg h

end

/-! ### Runs -/

/-- The kind of an operator, its predicted cost and its measured time. -/
structure Observation (K : Type) where
  kind : String
  predictedCost : K
  actualMs : K

def recordAll (observations : List (Observation K)) : CalibrationModel K :=
  observations.foldl (fun model o => recordObservation model o.kind o.predictedCost o.actualMs) ∅

/-- The observations of one kind, as points. -/
def pointsOf (kind : String) (observations : List (Observation K)) : List (K × K) :=
  (observations.filter (·.kind == kind)).map fun o => (o.predictedCost, o.actualMs)

open LeastSquares

/-- The running sums of these points. -/
def Fit.ofPoints (points : List (K × K)) : Fit K :=
  { n := points.length
    sumX := total points Prod.fst
    sumY := total points Prod.snd
    sumXX := total points fun p => p.1 * p.1
    sumXY := total points fun p => p.1 * p.2 }

theorem Fit.record_ofPoints (points : List (K × K)) (x y : K) :
    (Fit.ofPoints points).record x y = Fit.ofPoints (points ++ [(x, y)]) := by
  simp [Fit.record, Fit.ofPoints]

/-- One observation is added to the sums of its kind and leaves those of the other kinds. -/
theorem lookup_recordObservation {model : CalibrationModel K} {kind : String}
    {points : List (K × K)}
    (h : model.lookup kind = if points = [] then none else some (Fit.ofPoints points))
    (o : Observation K) :
    (recordObservation model o.kind o.predictedCost o.actualMs).lookup kind =
      if points ++ pointsOf kind [o] = [] then none
      else some (Fit.ofPoints (points ++ pointsOf kind [o])) := by
  by_cases hkind : o.kind = kind
  · have hpoints : pointsOf kind [o] = [(o.predictedCost, o.actualMs)] := by simp [pointsOf, hkind]
    have hprior : (model.lookup kind).getD ⟨0, 0, 0, 0, 0⟩ = Fit.ofPoints points := by
      rw [h]
      split
      · next hempty =>
        rw [hempty]
        simp [Fit.ofPoints]
      · rfl
    rw [hpoints, if_neg (by simp), recordObservation, hkind, AList.lookup_insert, hprior,
      Fit.record_ofPoints]
  · have hpoints : pointsOf kind [o] = [] := by simp [pointsOf, hkind]
    rw [hpoints, List.append_nil, recordObservation, AList.lookup_insert_ne (Ne.symm hkind), h]

omit [Field K] in
theorem pointsOf_append (kind : String) (os os' : List (Observation K)) :
    pointsOf kind (os ++ os') = pointsOf kind os ++ pointsOf kind os' := by simp [pointsOf]

/-- After a run the sums of each kind are those of its observations. -/
theorem lookup_recordAll (kind : String) (observations : List (Observation K)) :
    (recordAll observations).lookup kind =
      if pointsOf kind observations = [] then none
      else some (Fit.ofPoints (pointsOf kind observations)) := by
  induction observations using List.reverseRecOn with
  | nil => rfl
  | append_singleton os o ih =>
    rw [recordAll, List.foldl_append, pointsOf_append]
    exact lookup_recordObservation ih o

/-! ### The line -/

section

variable [LinearOrder K] [IsStrictOrderedRing K]

/-- The line of a fit with enough samples has orthogonal errors. -/
theorem exists_normal {points : List (K × K)} (hn : kMinSamples ≤ points.length) :
    ∃ a b, (Fit.ofPoints points).scale = some a ∧ (Fit.ofPoints points).bias = some b ∧
      Normal points a b := by
  have hlt : ¬ (Fit.ofPoints points).n < kMinSamples := Nat.not_lt.mpr hn
  have hne : points ≠ [] := by
    rintro rfl
    simp [kMinSamples] at hn
  have hlength : ((Fit.ofPoints points).n : K) ≠ 0 := length_ne_zero hne
  by_cases hdenom : (Fit.ofPoints points).denom = 0
  · refine ⟨0, total points Prod.snd / points.length, ?_, ?_, normal_of_spread_eq_zero hne hdenom⟩
    · rw [Fit.scale, if_neg hlt, if_pos hdenom]
    · rw [Fit.bias, if_neg hlt, if_pos hdenom, quotient_of_ne hlength]
      rfl
  · have hscale := quotient_of_ne (x := (Fit.ofPoints points).n * (Fit.ofPoints points).sumXY -
      (Fit.ofPoints points).sumX * (Fit.ofPoints points).sumY) hdenom
    refine ⟨_, _, ?_, ?_, normal_of_spread hne hdenom⟩
    · rw [Fit.scale, if_neg hlt, if_neg hdenom, hscale]
      rfl
    · rw [Fit.bias, if_neg hlt, if_neg hdenom, Fit.scale, if_neg hlt, if_neg hdenom, hscale,
        Option.bind_eq_bind, Option.bind_some, quotient_of_ne hlength]
      rfl

/-- After any run the line of a kind that was observed often enough is one of least squares, and no
division by zero is made. -/
theorem calibration_least_squares (observations : List (Observation K)) (kind : String)
    (hn : 3 ≤ (pointsOf kind observations).length) :
    ∃ f a b, (recordAll observations).lookup kind = some f ∧ f.scale = some a ∧ f.bias = some b ∧
      (∀ x, calibratedEstimateMs (recordAll observations) kind x = some (a * x + b)) ∧
      ∀ a' b', squaredError (pointsOf kind observations) a b ≤
        squaredError (pointsOf kind observations) a' b' := by
  obtain ⟨a, b, hscale, hbias, hnormal⟩ := exists_normal hn
  have hne : pointsOf kind observations ≠ [] := by
    intro h
    rw [h] at hn
    simp at hn
  have hlookup : (recordAll observations).lookup kind =
      some (Fit.ofPoints (pointsOf kind observations)) := by
    rw [lookup_recordAll, if_neg hne]
  refine ⟨_, a, b, hlookup, hscale, hbias, fun x => ?_, hnormal.minimal⟩
  have hlt : ¬ (Fit.ofPoints (pointsOf kind observations)).n < kMinSamples := Nat.not_lt.mpr hn
  simp only [calibratedEstimateMs, hlookup, hlt, if_false, hscale, hbias]
  rfl

end

/-- Three scans of different costs, with a sort between them, and three sorts of one cost. -/
theorem calibration_least_squares_scans :
    let observations : List (Observation ℚ) :=
      [⟨"SeqScan", 2, 1⟩, ⟨"Sort", 5, 7⟩, ⟨"SeqScan", 4, 3⟩, ⟨"Sort", 5, 8⟩, ⟨"SeqScan", 7, 5⟩,
        ⟨"Sort", 5, 3⟩];
    ∀ kind ∈ ["SeqScan", "Sort"],
      ∃ f a b, (recordAll observations).lookup kind = some f ∧ f.scale = some a ∧
        f.bias = some b ∧
        (∀ x, calibratedEstimateMs (recordAll observations) kind x = some (a * x + b)) ∧
        ∀ a' b', squaredError (pointsOf kind observations) a b ≤
          squaredError (pointsOf kind observations) a' b' := by
  intro observations kind hkind
  refine calibration_least_squares _ kind ?_
  rcases List.mem_pair.mp hkind with rfl | rfl <;> decide

end SqlOptimizer.Adaptive
