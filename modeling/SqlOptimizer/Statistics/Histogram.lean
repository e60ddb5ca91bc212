import SqlOptimizer.Library.ExactValues
import SqlOptimizer.Optimizer.Estimators

/-! `statistics/histogram.hpp` in exact arithmetic with infinities: what the buckets of a histogram
count, over the whole line and on both sides of a cut. -/

namespace SqlOptimizer.Statistics

open Binary64 (Holds zero nan)

attribute [local instance] Rounding.exact

abbrev Bucket := HistogramBucket Binary64

variable {b : Bucket} {inside : Bool} {total lo hi v : Binary64} {p q f l r t : ℚ}

/-- A bucket with a finite width. -/
structure Wide (b : Bucket) (p q f : ℚ) : Prop where
  lower : Holds b.lower p
  upper : Holds b.upper q
  frequency : Holds b.frequency f
  lt : p < q

/-- A bucket whose bounds are equal. -/
def isPoint (b : Bucket) : Bool := Binary64.eq b.lower b.upper

theorem upper_le_lower (hpoint : isPoint b = true) : Binary64.le b.upper b.lower = true := by
  rw [Binary64.le, Binary64.eq_symm]
  exact Bool.or_eq_true_iff.mpr (.inr hpoint)

/-- A bucket with a finite width, or without width and frequency. -/
def Counted (b : Bucket) : Prop :=
  (∃ p q, Holds b.lower p ∧ Holds b.upper q ∧ p < q) ∨ isPoint b = true ∧ Holds b.frequency 0

theorem counted_of_wide (h : Wide b p q f) : Counted b := .inl ⟨p, q, h.lower, h.upper, h.lt⟩

theorem counted_point (hpoint : isPoint b = true) (hf : Holds b.frequency f) :
    Counted b ↔ f = 0 := by
  constructor
  · rintro (⟨p, q, hp, hq, hlt⟩ | ⟨-, hzero⟩)
    · exact absurd ((hp.eq_iff hq).mp hpoint) hlt.ne
    · exact hf.unique hzero
  · rintro rfl
    exact .inr ⟨hpoint, hf⟩

/-- A bucket in order is wide, a point or of infinite width. -/
theorem bucket_cases (hle : Binary64.le b.lower b.upper = true) (hf : Holds b.frequency f) :
    (∃ p q, Wide b p q f) ∨ isPoint b = true ∨ Binary64.lt b.lower b.upper = true ∧
      ¬ ∃ p q, Holds b.lower p ∧ Holds b.upper q := by
  by_cases hpoint : isPoint b = true
  · exact .inr (.inl hpoint)
  have hlt := Binary64.lt_of_le_of_ne hle (Bool.eq_false_iff.mpr hpoint)
  by_cases hwide : ∃ p q, Holds b.lower p ∧ Holds b.upper q
  · obtain ⟨p, q, hp, hq⟩ := hwide
    exact .inl ⟨p, q, hp, hq, hf, (hp.lt_iff hq).mp hlt⟩
  · exact .inr (.inr ⟨hlt, hwide⟩)

/-- The sum of all frequencies. -/
def mass (buckets : List Bucket) : Binary64 := Binary64.total (buckets.map (·.frequency))

theorem holds_mass_cons {buckets : List Bucket} {m : ℚ} (hf : Holds b.frequency f)
    (hm : Holds (mass buckets) m) : Holds (mass (b :: buckets)) (f + m) := by
  rw [mass, List.map_cons, Binary64.total_cons]
  exact ((Binary64.holds_zero.add hf).add hm).congr (by ring)

/-- A histogram: ordered bounds, frequencies from zero on, and a sum of at most one. -/
structure Proper (buckets : List Bucket) : Prop where
  ordered : ∀ b ∈ buckets, Binary64.le b.lower b.upper = true
  nonneg : ∀ b ∈ buckets, ∃ f, 0 ≤ f ∧ Holds b.frequency f
  mass_le : Binary64.le (mass buckets) (.fin false 1) = true

/-! ### Arithmetic -/

/-- What exact arithmetic leaves open: the logarithm, and the casts to `size_t` that have no defined
result. -/
class Unspecified where
  log2 : Binary64 → Binary64
  toSize : Binary64 → Nat

/-- Exact arithmetic with infinities and NaN. -/
@[reducible] def extended [Unspecified] : CostNum Binary64 where
  add := Binary64.add
  sub := Binary64.sub
  mul := Binary64.mul
  div := Binary64.div
  ofRat q := .fin (decide (q < 0)) q.nnabs
  ofSize n := .fin false n
  ofDouble x := x
  lt := Binary64.lt
  le := Binary64.le
  round
    | .fin n m => .fin n ⌊m + 1 / (2 : ℕ)⌋₊
    | x => x
  ceil
    | .fin n m => .fin n (if n then ⌊m⌋₊ else ⌈m⌉₊)
    | x => x
  log2 := Unspecified.log2
  toSize
    | .fin false m => if m < (2 ^ 64 : ℕ) then ⌊m⌋₊ else Unspecified.toSize (.fin false m)
    | .fin true m => if m < 1 then 0 else Unspecified.toSize (.fin true m)
    | x => Unspecified.toSize x
  toText x := String.ofList x.generalText

attribute [local instance] extended

/-! ### One bucket -/

/-- What a bucket adds for the part of it between `lo` and `hi`. -/
def addPart (inside : Bool) (total lo hi : Binary64) (b : Bucket) : Binary64 :=
  if Binary64.le hi lo then total
  else
    let width := Binary64.sub b.upper b.lower
    if Binary64.le width zero then
      if inside then Binary64.add total b.frequency else total
    else Binary64.add total (Binary64.div (Binary64.mul b.frequency (Binary64.sub hi lo)) width)

theorem addPart_of_le (h : Binary64.le hi lo = true) : addPart inside total lo hi b = total :=
  if_pos h

theorem ne_nan_of_le (h : Binary64.le lo hi = true) : lo ≠ nan ∧ hi ≠ nan := by
  cases lo <;> cases hi <;> simp_all [Binary64.le, Binary64.lt, Binary64.eq]

theorem sub_eq_inf (hlt : Binary64.lt lo hi = true)
    (hwide : ¬ ∃ p q, Holds lo p ∧ Holds hi q) : Binary64.sub hi lo = .inf false := by
  cases lo with
  | nan => cases hlt
  | inf s => cases hi with
    | nan => cases hlt
    | inf s' => cases s <;> cases s' <;> first | rfl | cases hlt
    | fin n m => cases s <;> first | rfl | cases hlt
  | fin n m => cases hi with
    | nan => cases hlt
    | inf s => cases s <;> first | rfl | cases hlt
    | fin n' m' => exact absurd ⟨_, _, Binary64.holds_fin n m, Binary64.holds_fin n' m'⟩ hwide

section

variable [Unspecified] {low high : Option Binary64}

def lowOf (low : Option Binary64) (b : Bucket) : Binary64 :=
  match low with
  | some l => maxNum b.lower l
  | none => b.lower

def highOf (high : Option Binary64) (b : Bucket) : Binary64 :=
  match high with
  | some h => minNum b.upper h
  | none => b.upper

/-- The body of the loop in `range_selectivity`. -/
def addOverlap (low high : Option Binary64) (total : Binary64) (b : Bucket) : Binary64 :=
  addPart ((low.all fun l => Binary64.le l b.lower) && high.all fun h => Binary64.le b.lower h)
    total (lowOf low b) (highOf high b) b

theorem rangeSelectivity_eq (buckets : List Bucket) (low high : Option Binary64) :
    rangeSelectivity buckets low high =
      clampNum (buckets.foldl (addOverlap low high) (CostNum.ofRat 0)) (CostNum.ofRat 0)
        (CostNum.ofRat 1) := by
  rw [rangeSelectivity]
  congr 1
  congr 1
  funext total b
  cases low <;> cases high <;> rfl

theorem le_maxNum_left (hx : lo ≠ nan) : Binary64.le lo (maxNum lo v) = true := by
  rw [maxNum]
  split
  · next h => exact Binary64.le_of_lt h
  · exact Binary64.le_refl hx

theorem le_maxNum_right (hx : lo ≠ nan) (hv : v ≠ nan) : Binary64.le v (maxNum lo v) = true := by
  rw [maxNum]
  split
  · exact Binary64.le_refl hv
  · next h => exact (Binary64.le_total hv hx).resolve_right h

theorem minNum_le_left (hx : hi ≠ nan) : Binary64.le (minNum hi v) hi = true := by
  rw [minNum]
  split
  · next h => exact Binary64.le_of_lt h
  · exact Binary64.le_refl hx

theorem minNum_le_right (hx : hi ≠ nan) (hv : v ≠ nan) : Binary64.le (minNum hi v) v = true := by
  rw [minNum]
  split
  · exact Binary64.le_refl hv
  · next h => exact (Binary64.le_total hx hv).resolve_right h

theorem le_lowOf (hb : b.lower ≠ nan) : Binary64.le b.lower (lowOf low b) = true := by
  cases low with
  | none => exact Binary64.le_refl hb
  | some l => exact le_maxNum_left hb

theorem highOf_le (hb : b.upper ≠ nan) : Binary64.le (highOf high b) b.upper = true := by
  cases high with
  | none => exact Binary64.le_refl hb
  | some h => exact minNum_le_left hb

/-- The test for an empty overlap comes first, so a bucket without width is never counted. -/
theorem addOverlap_point (h : Binary64.le b.upper b.lower = true) :
    addOverlap low high total b = total :=
  have hne := ne_nan_of_le h
  addPart_of_le (Binary64.le_trans (highOf_le hne.1) (Binary64.le_trans h (le_lowOf hne.2)))

/-- Its part between two bounds. -/
theorem Wide.addOverlap (h : Wide b p q f) (hlo : Holds (lowOf low b) l)
    (hhi : Holds (highOf high b) r) (hlr : l < r) (ht : Holds total t) :
    Holds (addOverlap low high total b) (t + f * (r - l) / (q - p)) := by
  have hwidth := h.upper.sub h.lower
  have hpq : 0 < q - p := sub_pos.mpr h.lt
  rw [Statistics.addOverlap, addPart, if_neg, if_neg]
  · exact ht.add ((h.frequency.mul (hhi.sub hlo)).div hwidth hpq.ne')
  · rw [hwidth.le_iff Binary64.holds_zero]
    exact not_le.mpr hpq
  · rw [hhi.le_iff hlo]
    exact not_le.mpr hlr

theorem Wide.addOverlap_whole (h : Wide b p q f) (hlo : lowOf low b = b.lower)
    (hhi : highOf high b = b.upper) (ht : Holds total t) :
    Holds (Statistics.addOverlap low high total b) (t + f) := by
  have hpq : q - p ≠ 0 := (sub_pos.mpr h.lt).ne'
  refine (h.addOverlap (hlo ▸ h.lower) (hhi ▸ h.upper) h.lt ht).congr ?_
  rw [mul_div_cancel_right₀ f hpq]

theorem Wide.addOverlap_line (h : Wide b p q f) (ht : Holds total t) :
    Holds (Statistics.addOverlap none none total b) (t + f) :=
  have hlo : lowOf none b = b.lower := rfl
  have hhi : highOf none b = b.upper := rfl
  h.addOverlap_whole hlo hhi ht

/-- A cut shares a bucket between its two sides. -/
theorem Wide.addOverlap_cut (h : Wide b p q f) (hv : v ≠ nan) :
    ∃ s, 0 ≤ s ∧ s ≤ 1 ∧ ∀ total t, Holds total t →
      Holds (Statistics.addOverlap none (some v) total b) (t + f * s) ∧
        Holds (Statistics.addOverlap (some v) none total b) (t + f * (1 - s)) := by
  have hlower := h.lower.ne_nan
  have hupper := h.upper.ne_nan
  rcases Binary64.le_total hv hlower with hbelow | hbelow
  · -- The bucket is above the cut.
    refine ⟨0, le_rfl, zero_le_one, fun total t ht => ⟨?_, ?_⟩⟩
    · rw [Statistics.addOverlap, addPart_of_le]
      · exact ht.congr (by ring)
      · exact Binary64.le_trans (minNum_le_right hupper hv) hbelow
    · refine (h.addOverlap_whole ?_ rfl ht).congr (by ring)
      exact if_neg (Bool.eq_false_iff.mp (Binary64.not_lt_of_le hbelow))
  rcases Binary64.le_total hupper hv with habove | habove
  · refine ⟨1, zero_le_one, le_rfl, fun total t ht => ⟨?_, ?_⟩⟩
    · refine (h.addOverlap_whole rfl ?_ ht).congr (by ring)
      exact if_neg (Bool.eq_false_iff.mp (Binary64.not_lt_of_le habove))
    · rw [Statistics.addOverlap, addPart_of_le]
      · exact ht.congr (by ring)
      · exact Binary64.le_trans habove (le_maxNum_right hlower hv)
  · obtain ⟨c, hc⟩ := Binary64.holds_of_between hbelow habove h.lower h.upper
    have hpc := (h.lower.lt_iff hc).mp hbelow
    have hcq := (hc.lt_iff h.upper).mp habove
    have hpq : 0 < q - p := sub_pos.mpr h.lt
    have hlow : Holds (lowOf (some v) b) c := by
      rw [show lowOf (some v) b = v from if_pos hbelow]
      exact hc
    have hhigh : Holds (highOf (some v) b) c := by
      rw [show highOf (some v) b = v from if_pos habove]
      exact hc
    have hlower : Holds (lowOf none b) p := h.lower
    have hupper : Holds (highOf none b) q := h.upper
    refine ⟨(c - p) / (q - p), div_nonneg (by linarith) hpq.le,
      (div_le_one hpq).mpr (by linarith), fun total t ht => ⟨?_, ?_⟩⟩
    · exact (h.addOverlap hlower hhigh hpc ht).congr (by ring)
    · refine (h.addOverlap hlow hupper hcq ht).congr ?_
      field_simp
      ring

/-- Over an infinite width a frequency is spread to no number. -/
theorem addOverlap_infinite (hlt : Binary64.lt b.lower b.upper = true)
    (hwide : ¬ ∃ p q, Holds b.lower p ∧ Holds b.upper q) :
    addOverlap none none total b = nan := by
  have hle : ¬Binary64.le b.upper b.lower = true := fun h => by
    rw [Binary64.not_lt_of_le h] at hlt
    cases hlt
  have hpart : Binary64.div (Binary64.mul b.frequency (.inf false)) (.inf false) = nan := by
    cases b.frequency with
    | nan => rfl
    | inf s => rfl
    | fin s k =>
      rw [Binary64.mul]
      split <;> rfl
  have hadd : ∀ inside, addPart inside total b.lower b.upper b = nan := by
    intro inside
    rw [addPart, if_neg hle, sub_eq_inf hlt hwide, if_neg (by decide), hpart, Binary64.add_nan]
  exact hadd _

theorem addOverlap_nan : addOverlap low high nan b = nan := by
  rw [addOverlap, addPart]
  split
  · rfl
  · dsimp only
    split
    · split
      · exact Binary64.nan_add _
      · rfl
    · exact Binary64.nan_add _

theorem foldl_addOverlap_nan (buckets : List Bucket) :
    buckets.foldl (addOverlap low high) nan = nan := by
  induction buckets with
  | nil => rfl
  | cons b buckets ih => rw [List.foldl_cons, addOverlap_nan, ih]

/-! ### Histograms -/

/-- The loop without bounds.  What it adds is the mass when every bucket is counted, and less or no
number when one is not. -/
theorem foldl_whole {buckets : List Bucket}
    (hordered : ∀ b ∈ buckets, Binary64.le b.lower b.upper = true)
    (hnonneg : ∀ b ∈ buckets, ∃ f, 0 ≤ f ∧ Holds b.frequency f) (total : Binary64) (t : ℚ)
    (ht : Holds total t) :
    (∃ g m, Holds (buckets.foldl (addOverlap none none) total) (t + g) ∧ Holds (mass buckets) m ∧
      0 ≤ g ∧ g ≤ m ∧ (g = m ↔ ∀ b ∈ buckets, Counted b)) ∨
    buckets.foldl (addOverlap none none) total = nan ∧ ¬ ∀ b ∈ buckets, Counted b := by
  induction buckets generalizing total t with
  | nil => exact .inl ⟨0, 0, ht.congr (by simp), Binary64.holds_zero, le_rfl, le_rfl, by simp⟩
  | cons b buckets ih =>
    obtain ⟨f, hf0, hf⟩ := hnonneg b List.mem_cons_self
    have ih := ih (fun b hb => hordered b (List.mem_cons_of_mem _ hb))
      fun b hb => hnonneg b (List.mem_cons_of_mem _ hb)
    rw [List.foldl_cons, List.forall_mem_cons]
    rcases bucket_cases (hordered b List.mem_cons_self) hf with ⟨p, q, hwide⟩ | hpoint | hinf
    · have hcounted := counted_of_wide hwide
      rcases ih _ _ (hwide.addOverlap_line ht) with ⟨g, m, hg, hm, hg0, hgm, hiff⟩ | hnan
      · refine .inl ⟨f + g, f + m, hg.congr (by ring), holds_mass_cons hf hm, by linarith,
          by linarith, ?_⟩
        rw [add_right_inj, hiff]
        exact (and_iff_right hcounted).symm
      · exact .inr ⟨hnan.1, fun h => hnan.2 h.2⟩
    · rw [addOverlap_point (upper_le_lower hpoint), counted_point hpoint hf]
      rcases ih _ _ ht with ⟨g, m, hg, hm, hg0, hgm, hiff⟩ | hnan
      · refine .inl ⟨g, f + m, hg, holds_mass_cons hf hm, hg0, by linarith, ?_⟩
        rw [← hiff]
        constructor
        · intro h
          exact ⟨by linarith, by linarith⟩
        · rintro ⟨rfl, rfl⟩
          exact (zero_add g).symm
      · exact .inr ⟨hnan.1, fun h => hnan.2 h.2⟩
    · rw [addOverlap_infinite hinf.1 hinf.2, foldl_addOverlap_nan]
      refine .inr ⟨rfl, fun h => ?_⟩
      rcases h.1 with ⟨p, q, hp, hq, -⟩ | ⟨hpoint, -⟩
      · exact hinf.2 ⟨p, q, hp, hq⟩
      · rw [isPoint, Binary64.eq_false_of_lt hinf.1] at hpoint
        cases hpoint

/-- The loops on both sides of a cut, where every bucket is counted. -/
theorem foldl_cut {buckets : List Bucket} (hcounted : ∀ b ∈ buckets, Counted b)
    (hnonneg : ∀ b ∈ buckets, ∃ f, 0 ≤ f ∧ Holds b.frequency f) (hv : v ≠ nan)
    (below : Binary64) (s : ℚ) (above : Binary64) (t : ℚ) (hs : Holds below s)
    (ht : Holds above t) :
    ∃ g h, Holds (buckets.foldl (addOverlap none (some v)) below) (s + g) ∧
      Holds (buckets.foldl (addOverlap (some v) none) above) (t + h) ∧ 0 ≤ g ∧ 0 ≤ h ∧
        Holds (mass buckets) (g + h) := by
  induction buckets generalizing below s above t with
  | nil => exact ⟨0, 0, hs.congr (by simp), ht.congr (by simp), le_rfl, le_rfl,
      Binary64.holds_zero.congr (add_zero 0).symm⟩
  | cons b buckets ih =>
    obtain ⟨f, hf0, hf⟩ := hnonneg b List.mem_cons_self
    have ih := ih (fun b hb => hcounted b (List.mem_cons_of_mem _ hb))
      fun b hb => hnonneg b (List.mem_cons_of_mem _ hb)
    rw [List.foldl_cons, List.foldl_cons]
    rcases hcounted b List.mem_cons_self with ⟨p, q, hp, hq, hpq⟩ | ⟨hpoint, hzero⟩
    · obtain ⟨share, h0, h1, hadd⟩ := Wide.addOverlap_cut ⟨hp, hq, hf, hpq⟩ hv
      obtain ⟨g, h, hg, hh, hg0, hh0, hm⟩ := ih _ _ _ _ (hadd below s hs).1 (hadd above t ht).2
      refine ⟨f * share + g, f * (1 - share) + h, hg.congr (by ring), hh.congr (by ring), ?_, ?_,
        (holds_mass_cons hf hm).congr (by ring)⟩
      · exact add_nonneg (mul_nonneg hf0 h0) hg0
      · exact add_nonneg (mul_nonneg hf0 (sub_nonneg.mpr h1)) hh0
    · rw [addOverlap_point (upper_le_lower hpoint), addOverlap_point (upper_le_lower hpoint)]
      obtain ⟨g, h, hg, hh, hg0, hh0, hm⟩ := ih _ _ _ _ hs ht
      exact ⟨g, h, hg, hh, hg0, hh0, (holds_mass_cons hzero hm).congr (by ring)⟩

theorem holds_clampNum (h : Holds total t) (h0 : 0 ≤ t) (h1 : t ≤ 1) :
    Holds (clampNum total (CostNum.ofRat 0) (CostNum.ofRat 1)) t := by
  have hlow := h.lt_iff (Binary64.holds_nnabs 0)
  have hhigh := (Binary64.holds_nnabs 1).lt_iff h
  rw [clampNum, if_neg, if_neg]
  · exact h
  · exact fun hlt => absurd (hhigh.mp hlt) (not_lt.mpr h1)
  · exact fun hlt => absurd (hlow.mp hlt) (not_lt.mpr h0)

theorem clampNum_nan : clampNum nan (CostNum.ofRat 0) (CostNum.ofRat 1) = nan := rfl

/-- The whole line has all the mass, and so have the two sides of a cut together. -/
def MassKept (buckets : List Bucket) : Prop :=
  Binary64.eq (rangeSelectivity buckets none none) (mass buckets) = true ∧
    ∀ v, v ≠ nan → (∀ b ∈ buckets, isPoint b = true → Binary64.eq b.lower v = false) →
      Binary64.eq
        (rangeSelectivity buckets none (some v) + rangeSelectivity buckets (some v) none)
        (mass buckets) = true

/-- Mass is kept exactly where every bucket has a finite width, or neither width nor frequency. -/
theorem massKept_iff {buckets : List Bucket} (h : Proper buckets) :
    MassKept buckets ↔ ∀ b ∈ buckets, Counted b := by
  have hle_one : ∀ {m}, Holds (mass buckets) m → m ≤ 1 := fun hm =>
    (hm.le_iff (Binary64.holds_natCast 1)).mp h.mass_le |>.trans_eq Nat.cast_one
  rcases foldl_whole h.ordered h.nonneg _ 0 (Binary64.holds_nnabs 0) with
    ⟨g, m, hg, hm, hg0, hgm, hiff⟩ | ⟨hnan, hnot⟩
  · rw [zero_add] at hg
    have hline : Holds (rangeSelectivity buckets none none) g := by
      rw [rangeSelectivity_eq]
      exact holds_clampNum hg hg0 (hgm.trans (hle_one hm))
    rw [MassKept, hline.eq_iff hm, hiff]
    refine and_iff_left_of_imp fun hcounted v hv _ => ?_
    obtain ⟨x, y, hx, hy, hx0, hy0, hxy⟩ := foldl_cut hcounted h.nonneg hv _ 0 _ 0
      (Binary64.holds_nnabs 0) (Binary64.holds_nnabs 0)
    rw [zero_add] at hx hy
    have hsum := hle_one hxy
    rw [rangeSelectivity_eq, rangeSelectivity_eq]
    exact (((holds_clampNum hx hx0 (by linarith)).add (holds_clampNum hy hy0 (by linarith))).eq_iff
      hxy).mpr rfl
  · refine iff_of_false (fun hkept => ?_) hnot
    rw [MassKept, rangeSelectivity_eq] at hkept
    rw [show buckets.foldl (addOverlap none none) (CostNum.ofRat 0) = nan from hnan,
      clampNum_nan] at hkept
    cases hkept.1

end

local instance noCasts : Unspecified := ⟨id, fun _ => 0⟩

/-- Two buckets side by side, and a point that no value has. -/
theorem massKept_halves :
    let buckets : List Bucket := [⟨.fin false 0, .fin false 1, .fin false (1 / 2)⟩,
      ⟨.fin false 1, .fin false 2, .fin false (1 / 4)⟩, ⟨.fin false 2, .fin false 2, .fin false 0⟩];
    MassKept buckets ↔ ∀ b ∈ buckets, Counted b :=
  massKept_iff
    { ordered := by decide
      nonneg := by
        have hfin : ∀ k : ℚ≥0, ∃ f, 0 ≤ f ∧ Holds (.fin false k) f := fun k =>
          ⟨k, k.coe_nonneg, Binary64.holds_fin false k⟩
        simp [hfin]
      mass_le := by decide +kernel }

/-- The bucket of a constant column is never counted. -/
theorem not_massKept_constant :
    ¬ ∀ buckets : List Bucket, Proper buckets → MassKept buckets := by
  intro h
  have hkept := h [⟨.fin false 5, .fin false 5, .fin false 1⟩]
    { ordered := by decide
      nonneg := by
        intro b hb
        rw [List.mem_singleton.mp hb]
        exact ⟨1, zero_le_one, Binary64.holds_fin false 1⟩
      mass_le := by decide +kernel }
  exact absurd hkept.1 (by decide +kernel)

end SqlOptimizer.Statistics
