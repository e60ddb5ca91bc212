import SqlOptimizer.Library.Extreme
import SqlOptimizer.Statistics.Analyzer

/-! The range estimates under the statistics that `analyze_table` computes, in exact arithmetic with
infinities. -/

namespace SqlOptimizer.Statistics

open Binary64 (Holds zero nan)

attribute [local instance] Rounding.exact extended

/-! ### The least and the largest number -/

/-- `min_v` and `max_v` after the numbers of a column. -/
structure Extremes (numbers : List Binary64) (minV maxV : Binary64) : Prop where
  min_mem : minV ∈ numbers
  max_mem : maxV ∈ numbers
  min_ne : minV ≠ nan
  max_ne : maxV ≠ nan
  min_le : ∀ d ∈ numbers, d ≠ nan → Binary64.le minV d = true
  le_max : ∀ d ∈ numbers, d ≠ nan → Binary64.le d maxV = true

variable {first minV maxV : Binary64} {rest numbers : List Binary64}

theorem Extremes.flat_iff (h : Extremes (first :: rest) minV maxV) (hfirst : first ≠ nan) :
    Binary64.le maxV minV = true ↔ ∀ d ∈ rest, d ≠ nan → Binary64.eq d first = true := by
  constructor
  · intro hle d hd hne
    have hmem := List.mem_cons_of_mem first hd
    have hfirst' : first ∈ first :: rest := List.mem_cons_self
    exact Binary64.eq_of_le
      (Binary64.le_trans (h.le_max d hmem hne)
        (Binary64.le_trans hle (h.min_le first hfirst' hfirst)))
      (Binary64.le_trans (h.le_max first hfirst' hfirst)
        (Binary64.le_trans hle (h.min_le d hmem hne)))
  · intro hall
    have hsame : ∀ d ∈ first :: rest, d ≠ nan → Binary64.eq d first = true := by
      intro d hd hne
      rcases List.mem_cons.mp hd with rfl | hd
      · exact Binary64.eq_of_le (Binary64.le_refl hne) (Binary64.le_refl hne)
      · exact hall d hd hne
    have hmax := hsame maxV h.max_mem h.max_ne
    have hmin := hsame minV h.min_mem h.min_ne
    rw [Binary64.eq_symm] at hmin
    exact Binary64.le_trans (Binary64.le_of_eq hmax) (Binary64.le_of_eq hmin)

theorem Extremes.finite_iff (h : Extremes numbers minV maxV) :
    (∃ p q, Holds minV p ∧ Holds maxV q) ↔ ∀ d ∈ numbers, ∀ s, d ≠ .inf s := by
  constructor
  · rintro ⟨p, q, ⟨n, m, rfl, -⟩, ⟨n', m', rfl, -⟩⟩ d hd s rfl
    have hmin := h.min_le _ hd nofun
    have hmax := h.le_max _ hd nofun
    cases s
    · cases hmax
    · cases hmin
  · intro hall
    have hfin : ∀ x ∈ numbers, x ≠ nan → ∃ p, Holds x p := by
      intro x hx hne
      cases x with
      | nan => exact absurd rfl hne
      | inf s => exact absurd rfl (hall _ hx s)
      | fin n m => exact ⟨_, Binary64.holds_fin n m⟩
    obtain ⟨p, hp⟩ := hfin minV h.min_mem h.min_ne
    obtain ⟨q, hq⟩ := hfin maxV h.max_mem h.max_ne
    exact ⟨p, q, hp, hq⟩

section

variable [Unspecified]

theorem extremes (hfirst : first ≠ nan) :
    Extremes (first :: rest) (rest.foldl minNum first) (rest.foldl maxNum first) := by
  have hmax := Extreme.foldl_pick (fun x => x ≠ nan) (fun x y => Binary64.le x y = true)
    (fun _ => Binary64.le_refl) Binary64.le_trans maxNum (fun x d hx => by
      refine ⟨?_, ?_, le_maxNum_left hx, le_maxNum_right hx⟩ <;> rw [maxNum] <;> split
      · exact .inr rfl
      · exact .inl rfl
      · next h => exact (ne_nan_of_le (Binary64.le_of_lt h)).2
      · exact hx) rest hfirst
  have hmin := Extreme.foldl_pick (fun x => x ≠ nan) (fun x y => Binary64.le y x = true)
    (fun _ => Binary64.le_refl) (fun hxy hyz => Binary64.le_trans hyz hxy) minNum (fun x d hx => by
      refine ⟨?_, ?_, minNum_le_left hx, minNum_le_right hx⟩ <;> rw [minNum] <;> split
      · exact .inr rfl
      · exact .inl rfl
      · next h => exact (ne_nan_of_le (Binary64.le_of_lt h)).1
      · exact hx) rest hfirst
  exact ⟨hmin.1, hmax.1, hmin.2.1, hmax.2.1, hmin.2.2, hmax.2.2⟩

theorem foldl_maxNum_nan (rest : List Binary64) : rest.foldl maxNum nan = nan := by
  induction rest with
  | nil => rfl
  | cons d rest ih => exact ih

/-! ### The histogram of a column -/

omit [Unspecified] in
theorem holds_total_frequencies {n : Nat} (hn : n ≠ 0) (counts : List Nat) :
    Holds (Binary64.total (counts.map fun count : Nat =>
      Binary64.div (.fin false count) (.fin false n))) (counts.sum / n) := by
  have hn' : (n : ℚ) ≠ 0 := Nat.cast_ne_zero.mpr hn
  induction counts with
  | nil => exact Binary64.holds_zero.congr (by simp)
  | cons count counts ih =>
    have hcount := (Binary64.holds_natCast count).div (Binary64.holds_natCast n) hn'
    rw [List.map_cons, Binary64.total_cons]
    refine ((Binary64.holds_zero.add hcount).add ih).congr ?_
    rw [List.sum_cons, Nat.cast_add, zero_add, add_div]

theorem histogramOf_eq {values : List Literal} {n : Nat}
    (hle : ¬Binary64.le maxV minV = true) :
    histogramOf values n minV maxV =
      (bucketCounts minV (bucketWidth minV maxV) values).zipIdx.map fun entry =>
        bucketAt minV maxV n entry.1 entry.2 := if_neg hle

/-- A bucket between two finite extremes. -/
theorem bucketAt_wide {n count i : Nat} {p q : ℚ} (hn : n ≠ 0) (hmin : Holds minV p)
    (hmax : Holds maxV q) (hpq : p < q) (hi : i < kHistogramBuckets) :
    (∃ l u, Wide (bucketAt minV maxV n count i) l u (count / n)) ∧
      Binary64.le (bucketAt minV maxV n count i).upper maxV = true := by
  have hwidth : Holds (bucketWidth minV maxV) ((q - p) / 10) :=
    (hmax.sub hmin).div (Binary64.holds_natCast 10) (by norm_num)
  have hcut : ∀ k : Nat, Holds (minV + bucketWidth minV maxV * CostNum.ofSize k)
      (p + (q - p) / 10 * k) := fun k => hmin.add (hwidth.mul (Binary64.holds_natCast k))
  have hupper : Holds (bucketAt minV maxV n count i).upper (p + (q - p) / 10 * (i + 1 : Nat)) := by
    rw [bucketAt]
    split
    · next h =>
      rw [h]
      exact hmax.congr (by norm_num [kHistogramBuckets])
    · exact hcut (i + 1)
  have hlast : ((i + 1 : Nat) : ℚ) ≤ 10 := by exact_mod_cast hi
  refine ⟨⟨_, _, hcut i, hupper, (Binary64.holds_natCast count).div (Binary64.holds_natCast n)
    (Nat.cast_ne_zero.mpr hn), ?_⟩, ?_⟩
  · rw [Nat.cast_add, Nat.cast_one]
    linarith
  · rw [hupper.le_iff hmax]
    nlinarith

/-- The buckets between two finite extremes are wide, end at the larger one and have the mass 1. -/
theorem histogramOf_wide {values : List Literal} {n : Nat} {p q : ℚ}
    (hn : n = (numbersOf values : List Binary64).length) (hpos : n ≠ 0) (hmin : Holds minV p)
    (hmax : Holds maxV q) (hpq : p < q) :
    (∀ b ∈ histogramOf values n minV maxV,
      (∃ l u f, 0 ≤ f ∧ Wide b l u f) ∧ Binary64.le b.upper maxV = true) ∧
      Holds (mass (histogramOf values n minV maxV)) 1 := by
  have hle : ¬Binary64.le maxV minV = true := fun h =>
    absurd ((hmax.le_iff hmin).mp h) hpq.not_ge
  obtain ⟨hlength, hsum⟩ := bucketCounts_spec minV (bucketWidth minV maxV) values
  rw [histogramOf_eq hle]
  constructor
  · intro b hb
    obtain ⟨⟨count, i⟩, hi, rfl⟩ := List.mem_map.mp hb
    have hlt := (List.mem_zipIdx hi).2.1
    rw [Nat.zero_add, hlength] at hlt
    obtain ⟨⟨l, u, hwide⟩, hupper⟩ := bucketAt_wide hpos hmin hmax hpq hlt
    exact ⟨⟨l, u, count / n, by positivity, hwide⟩, hupper⟩
  · rw [mass, List.map_map]
    have hfrequencies : (bucketCounts minV (bucketWidth minV maxV) values).zipIdx.map
        ((·.frequency) ∘ fun entry => bucketAt minV maxV n entry.1 entry.2) =
        (bucketCounts minV (bucketWidth minV maxV) values).map fun count : Nat =>
          Binary64.div (.fin false count) (.fin false n) := by
      conv_rhs => rw [← List.zipIdx_map_fst 0 (bucketCounts minV (bucketWidth minV maxV) values)]
      rw [List.map_map]
      rfl
    rw [hfrequencies]
    refine (holds_total_frequencies hpos _).congr ?_
    rw [hsum, ← hn, div_self (Nat.cast_ne_zero.mpr hpos)]

theorem addOverlap_nan_lower {b : Bucket} {low high : Option Binary64} {total : Binary64}
    (hb : b.lower = nan) : addOverlap low high total b = nan := by
  have hlow : lowOf low b = nan := by
    cases low with
    | none => exact hb
    | some l =>
      rw [lowOf, hb]
      rfl
  have hle : ∀ x, ¬Binary64.le x nan = true := fun x h => (ne_nan_of_le h).2 rfl
  have hzero : ¬Binary64.le nan zero = true := fun h => (ne_nan_of_le h).1 rfl
  have hsub : ∀ x, Binary64.sub x nan = nan := fun x => Binary64.add_nan x
  have hpart : Binary64.div (Binary64.mul b.frequency nan) nan = nan := by
    cases b.frequency <;> rfl
  have hadd : ∀ inside, addPart inside total nan (highOf high b) b = nan := by
    intro inside
    rw [addPart, if_neg (hle _), hb, hsub, hsub, if_neg hzero, hpart,
      Binary64.add_nan]
  rw [addOverlap, hlow]
  exact hadd _

/-- The first bucket where an extreme is infinite or no number. -/
theorem lower_bucketAt_nan {n count : Nat} (hle : ¬Binary64.le maxV minV = true)
    (hfinite : ¬ ∃ p q, Holds minV p ∧ Holds maxV q) :
    (bucketAt minV maxV n count 0).lower = nan := by
  show Binary64.add minV (Binary64.mul (Binary64.div (Binary64.sub maxV minV) _) _) = nan
  by_cases hmin : minV = nan
  · rw [hmin]
    exact Binary64.nan_add _
  by_cases hmax : maxV = nan
  · rw [hmax]
    exact Binary64.add_nan _
  · have hlt := (Binary64.le_total hmax hmin).resolve_left hle
    rw [sub_eq_inf hlt hfinite]
    have hmul : Binary64.mul (.inf false) (.fin false (0 : Nat)) = nan := by
      rw [Nat.cast_zero]
      rfl
    exact (congrArg (Binary64.add minV) hmul).trans (Binary64.add_nan minV)

theorem foldl_histogramOf_nan {values : List Literal} {n : Nat} {low high : Option Binary64}
    {total : Binary64} (hle : ¬Binary64.le maxV minV = true)
    (hfinite : ¬ ∃ p q, Holds minV p ∧ Holds maxV q) :
    (histogramOf values n minV maxV).foldl (addOverlap low high) total = nan := by
  rw [histogramOf_eq hle]
  cases hcounts : bucketCounts minV (bucketWidth minV maxV) values with
  | nil =>
    have hlength := (bucketCounts_spec minV (bucketWidth minV maxV) values).1
    rw [hcounts] at hlength
    cases hlength
  | cons count counts =>
    rw [List.zipIdx_cons, List.map_cons, List.foldl_cons,
      addOverlap_nan_lower (lower_bucketAt_nan hle hfinite), foldl_addOverlap_nan]

/-! ### Estimates -/

/-- No estimate for a comparison of the column with a number exceeds its non-null fraction. -/
def RangesWithin (stats : TableStats Binary64) (name : String) : Prop :=
  ∃ cs, stats.getColumn name = some cs ∧
    ∀ op ∈ [BinaryOperator.lt, .lte, .gt, .gte], ∀ table lit x, literalAsNumber lit = some x →
      x ≠ nan →
        Binary64.le (estimateSelectivity (.binaryOp (.column table name) op (.literal lit)) stats)
          (CostNum.ofRat 1 - cs.nullFraction) = true ∧
        Binary64.le (estimateSelectivity (.binaryOp (.literal lit) op (.column table name)) stats)
          (CostNum.ofRat 1 - cs.nullFraction) = true

/-- No range with one bound has more than `fraction`. -/
def Within (buckets : List Bucket) (fraction : Binary64) : Prop :=
  ∀ x, x ≠ nan → Binary64.le (rangeSelectivity buckets none (some x)) fraction = true ∧
    Binary64.le (rangeSelectivity buckets (some x) none) fraction = true

theorem estimateRange_eq {stats : TableStats Binary64} {name : String} {cs : ColumnStats Binary64}
    {buckets : List Bucket} (hcolumn : stats.getColumn name = some cs)
    (hbuckets : cs.histogram = some buckets) (below : Bool) (x : Binary64) :
    estimateRange name below x stats =
      if below then rangeSelectivity buckets none (some x)
      else rangeSelectivity buckets (some x) none := by
  rw [estimateRange, hcolumn]
  dsimp only
  rw [hbuckets]

/-- The two spellings of a comparison. -/
theorem estimateSelectivity_range {op : BinaryOperator}
    (hop : op ∈ [BinaryOperator.lt, .lte, .gt, .gte]) (table : Option String) (name : String)
    {lit : Literal} {x : Binary64} (hlit : literalAsNumber lit = some x)
    (stats : TableStats Binary64) :
    ∃ below, estimateSelectivity (.binaryOp (.column table name) op (.literal lit)) stats =
        estimateRange name below x stats ∧
      estimateSelectivity (.binaryOp (.literal lit) op (.column table name)) stats =
        estimateRange name (!below) x stats := by
  simp only [List.mem_cons, List.not_mem_nil, or_false] at hop
  rcases hop with rfl | rfl | rfl | rfl <;>
    simp [estimateSelectivity, estimateComparison, hlit, orderBelow]

theorem rangesWithin_iff_histogram {stats : TableStats Binary64} {name : String}
    {cs : ColumnStats Binary64} {buckets : List Bucket}
    (hcolumn : stats.getColumn name = some cs) (hbuckets : cs.histogram = some buckets) :
    RangesWithin stats name ↔ Within buckets (CostNum.ofRat 1 - cs.nullFraction) := by
  have hestimate := estimateRange_eq hcolumn hbuckets
  constructor
  · rintro ⟨cs', hcolumn', hall⟩ x hx
    rw [hcolumn] at hcolumn'
    cases hcolumn'
    have hlt := hall .lt (by simp) none (.floating x) x rfl hx
    have hleft : estimateSelectivity (.binaryOp (.column none name) .lt (.literal (.floating x)))
        stats = estimateRange name true x stats := rfl
    have hright : estimateSelectivity (.binaryOp (.literal (.floating x)) .lt (.column none name))
        stats = estimateRange name false x stats := rfl
    rwa [hleft, hright, hestimate, hestimate] at hlt
  · intro hall
    refine ⟨cs, hcolumn, fun op hop table lit x hlit hx => ?_⟩
    obtain ⟨below, hleft, hright⟩ := estimateSelectivity_range hop table name hlit stats
    rw [hleft, hright, hestimate, hestimate]
    cases below
    · exact ⟨(hall x hx).2, (hall x hx).1⟩
    · exact hall x hx

/-- The numbers of a column are one and the same, or it has neither NULLs nor infinities. -/
def FlatOrFull (values : List Literal) : Prop :=
  ∃ first rest, numbersOf values = first :: rest ∧ first ≠ nan ∧
    ((∀ d ∈ rest, d ≠ nan → Binary64.eq d first = true) ∨
      .null ∉ values ∧ ∀ d ∈ first :: rest, ∀ s, d ≠ .inf s)

/-- The statistics of a numeric column. -/
theorem stats_numeric {values : List Literal} {first : Binary64} {rest : List Binary64}
    (hnumbers : numbersOf values = first :: rest) (bytes : Binary64) :
    let cs := (scanColumn true bytes values).stats true values;
    cs.histogram = some (histogramOf values (numbersOf values : List Binary64).length
        (rest.foldl minNum first) (rest.foldl maxNum first)) ∧
      Holds cs.nullFraction (values.count .null / values.length) ∧ values.length ≠ 0 := by
  obtain ⟨hnull, hrange⟩ := scan_eq ⟨bytes, [], 0, none⟩ values
  rw [hnumbers, List.foldl_cons, widen, foldl_widen] at hrange
  rw [Nat.zero_add] at hnull
  have hlength := length_numbersOf (R := Binary64) values
  have hpos : 0 < (numbersOf values : List Binary64).length := by simp [hnumbers]
  have hvalues : values.length ≠ 0 := by omega
  refine ⟨?_, ?_, hvalues⟩
  · rw [ColumnScan.stats, scanColumn]
    dsimp only
    rw [hrange, hnull, ← hlength, if_pos ⟨rfl, hpos⟩]
    rfl
  · rw [ColumnScan.stats, scanColumn]
    dsimp only
    rw [hnull, if_neg (by simpa using hvalues)]
    exact (Binary64.holds_natCast _).div (Binary64.holds_natCast _) (Nat.cast_ne_zero.mpr hvalues)

/-! ### The three kinds of columns -/

variable {values : List Literal} {n : Nat} {p q : ℚ}

/-- The one bucket of a column without width is never counted. -/
theorem rangeSelectivity_flat (hle : Binary64.le maxV minV = true) (low high : Option Binary64) :
    Holds (rangeSelectivity (histogramOf values n minV maxV) low high) 0 := by
  have hpoint : histogramOf values n minV maxV = [⟨minV, maxV, CostNum.ofRat 1⟩] := if_pos hle
  rw [rangeSelectivity_eq, hpoint, List.foldl_cons, addOverlap_point hle, List.foldl_nil]
  exact holds_clampNum (Binary64.holds_nnabs 0) le_rfl zero_le_one

theorem rangeSelectivity_nan (hle : ¬Binary64.le maxV minV = true)
    (hfinite : ¬ ∃ p q, Holds minV p ∧ Holds maxV q) (low high : Option Binary64) :
    rangeSelectivity (histogramOf values n minV maxV) low high = nan := by
  rw [rangeSelectivity_eq, foldl_histogramOf_nan hle hfinite, clampNum_nan]

/-- A bound shares all rows that are not NULL between its two sides. -/
theorem rangeSelectivity_cut (hn : n = (numbersOf values : List Binary64).length) (hpos : n ≠ 0)
    (hmin : Holds minV p) (hmax : Holds maxV q) (hpq : p < q) {x : Binary64} (hx : x ≠ nan) :
    ∃ g h, Holds (rangeSelectivity (histogramOf values n minV maxV) none (some x)) g ∧
      Holds (rangeSelectivity (histogramOf values n minV maxV) (some x) none) h ∧
        0 ≤ g ∧ 0 ≤ h ∧ g + h = 1 := by
  obtain ⟨hwide, hmass⟩ := histogramOf_wide hn hpos hmin hmax hpq
  obtain ⟨g, h, hg, hh, hg0, hh0, hsum⟩ := foldl_cut
    (fun b hb => (hwide b hb).1.elim fun _ ⟨_, _, _, hb⟩ => counted_of_wide hb)
    (fun b hb => (hwide b hb).1.elim fun _ ⟨_, f, hf, hb⟩ => ⟨f, hf, hb.frequency⟩) hx _ 0 _ 0
    (Binary64.holds_nnabs 0) (Binary64.holds_nnabs 0)
  have hone := hsum.unique hmass
  rw [zero_add] at hg hh
  rw [rangeSelectivity_eq, rangeSelectivity_eq]
  exact ⟨g, h, holds_clampNum hg hg0 (by linarith), holds_clampNum hh hh0 (by linarith), hg0, hh0,
    hone⟩

/-- Above the largest number there is nothing. -/
theorem rangeSelectivity_above (hn : n = (numbersOf values : List Binary64).length) (hpos : n ≠ 0)
    (hmin : Holds minV p) (hmax : Holds maxV q) (hpq : p < q) :
    Holds (rangeSelectivity (histogramOf values n minV maxV) (some maxV) none) 0 := by
  have hskip : ∀ (buckets : List Bucket) (total : Binary64),
      (∀ b ∈ buckets, b.lower ≠ nan ∧ Binary64.le b.upper maxV = true) →
        buckets.foldl (addOverlap (some maxV) none) total = total := by
    intro buckets total hall
    induction buckets with
    | nil => rfl
    | cons b buckets ih =>
      obtain ⟨hlower, hupper⟩ := hall b List.mem_cons_self
      have hstep : addOverlap (some maxV) none total b = total :=
        addPart_of_le (Binary64.le_trans hupper (le_maxNum_right hlower hmax.ne_nan))
      rw [List.foldl_cons, hstep]
      exact ih fun b hb => hall b (List.mem_cons_of_mem _ hb)
  obtain ⟨hwide, -⟩ := histogramOf_wide hn hpos hmin hmax hpq
  rw [rangeSelectivity_eq, hskip _ _ fun b hb => ?_]
  · exact holds_clampNum (Binary64.holds_nnabs 0) le_rfl zero_le_one
  · obtain ⟨⟨_, _, _, _, hb⟩, hupper⟩ := hwide b hb
    exact ⟨hb.lower.ne_nan, hupper⟩

theorem within_flat (hle : Binary64.le maxV minV = true) {fraction : Binary64} {r : ℚ}
    (hfraction : Holds fraction r) (hr : 0 ≤ r) :
    Within (histogramOf values n minV maxV) fraction := fun x _ =>
  ⟨((rangeSelectivity_flat hle none (some x)).le_iff hfraction).mpr hr,
    ((rangeSelectivity_flat hle (some x) none).le_iff hfraction).mpr hr⟩

theorem not_within_nan (hle : ¬Binary64.le maxV minV = true)
    (hfinite : ¬ ∃ p q, Holds minV p ∧ Holds maxV q) {fraction : Binary64} :
    ¬ Within (histogramOf values n minV maxV) fraction := by
  intro hwithin
  have hzero := (hwithin zero nofun).1
  rw [rangeSelectivity_nan hle hfinite] at hzero
  exact (ne_nan_of_le hzero).1 rfl

/-- All of the mass is below the largest number, so only the whole is enough. -/
theorem within_wide_iff (hn : n = (numbersOf values : List Binary64).length) (hpos : n ≠ 0)
    (hmin : Holds minV p) (hmax : Holds maxV q) (hpq : p < q) {fraction : Binary64} {r : ℚ}
    (hfraction : Holds fraction r) :
    Within (histogramOf values n minV maxV) fraction ↔ 1 ≤ r := by
  constructor
  · intro hwithin
    obtain ⟨g, h, hg, hh, -, -, hsum⟩ := rangeSelectivity_cut hn hpos hmin hmax hpq hmax.ne_nan
    have hzero := hh.unique (rangeSelectivity_above hn hpos hmin hmax hpq)
    have hbound := (hg.le_iff hfraction).mp (hwithin _ hmax.ne_nan).1
    linarith
  · intro hr x hx
    obtain ⟨g, h, hg, hh, hg0, hh0, hsum⟩ := rangeSelectivity_cut hn hpos hmin hmax hpq hx
    exact ⟨(hg.le_iff hfraction).mpr (by linarith), (hh.le_iff hfraction).mpr (by linarith)⟩

theorem flatOrFull_iff {first : Binary64} {rest : List Binary64}
    (hnumbers : numbersOf values = first :: rest) :
    FlatOrFull values ↔ first ≠ nan ∧
      ((∀ d ∈ rest, d ≠ nan → Binary64.eq d first = true) ∨
        .null ∉ values ∧ ∀ d ∈ first :: rest, ∀ s, d ≠ .inf s) := by
  rw [FlatOrFull, hnumbers]
  constructor
  · rintro ⟨first', rest', heq, hall⟩
    cases heq
    exact hall
  · exact fun hall => ⟨first, rest, rfl, hall⟩

/-- The range estimates of a numeric column with a value stay within its non-null fraction exactly
where its numbers are one and the same, or it has neither NULLs nor infinities. -/
theorem rangesWithin_iff {table : Table} {schema : TableSchema} {name : String}
    {colDef : ColumnDef} {values : List Literal} (hcolumn : columnNamed table name = some values)
    (hdef : schema.getColumn name = some colDef) (hnumeric : isNumeric colDef.dataType = true)
    (hvalue : ∃ v ∈ values, v ≠ .null) :
    RangesWithin (analyzeTable table schema) name ↔ FlatOrFull values := by
  obtain ⟨column, hlast, rfl⟩ := Option.map_eq_some_iff.mp hcolumn
  obtain ⟨bytes, hstats⟩ := lookup_foldl_analyzeColumn hdef
    ((CostNum.ofRat 0 : Binary64), ∅) hlast
  rw [hnumeric] at hstats
  generalize table.column column.2 = values at *
  obtain ⟨v, hv, hnonnull⟩ := hvalue
  obtain ⟨first, rest, hnumbers⟩ : ∃ first rest, (numbersOf values : List Binary64) =
      first :: rest :=
    List.exists_cons_of_ne_nil (List.ne_nil_of_mem
      (List.mem_map_of_mem (List.mem_filter.mpr ⟨hv, decide_eq_true hnonnull⟩)))
  obtain ⟨hhistogram, hnulls, hlength⟩ := stats_numeric hnumbers bytes
  have hlength' : (0 : ℚ) < values.length := Nat.cast_pos.mpr (Nat.pos_of_ne_zero hlength)
  have hfraction : Holds (CostNum.ofRat 1 -
      ((scanColumn true bytes values).stats true values).nullFraction)
      (1 - values.count .null / values.length) := (Binary64.holds_nnabs 1).sub hnulls
  have hget : (analyzeTable table schema).getColumn name =
      some ((scanColumn true bytes values).stats true values) := hstats
  rw [rangesWithin_iff_histogram hget hhistogram, flatOrFull_iff hnumbers]
  by_cases hfirst : first = nan
  · have hmax : rest.foldl maxNum first = nan := hfirst ▸ foldl_maxNum_nan rest
    refine iff_of_false (not_within_nan (fun hle => (ne_nan_of_le hle).1 hmax) ?_) fun h =>
      h.1 hfirst
    rintro ⟨p, q, -, hq⟩
    exact hq.ne_nan hmax
  have hext : Extremes (first :: rest) _ _ := extremes hfirst
  rw [and_iff_right hfirst, ← hext.flat_iff hfirst, ← hext.finite_iff]
  by_cases hle : Binary64.le (rest.foldl maxNum first) (rest.foldl minNum first) = true
  · refine iff_of_true (within_flat hle hfraction ?_) (.inl hle)
    rw [sub_nonneg, div_le_one hlength']
    exact_mod_cast List.count_le_length
  by_cases hfinite : ∃ p q, Holds (rest.foldl minNum first) p ∧ Holds (rest.foldl maxNum first) q
  · obtain ⟨p, q, hmin, hmax⟩ := hfinite
    have hpq : p < q := not_le.mp fun h => hle ((hmax.le_iff hmin).mpr h)
    have hpos : (numbersOf values : List Binary64).length ≠ 0 := by simp [hnumbers]
    rw [or_iff_right hle, and_iff_left ⟨p, q, hmin, hmax⟩,
      within_wide_iff rfl hpos hmin hmax hpq hfraction, le_sub_self_iff,
      div_le_iff₀ hlength', zero_mul, ← List.count_eq_zero]
    exact_mod_cast Nat.le_zero
  · exact iff_of_false (not_within_nan hle hfinite) fun h => h.elim hle fun h => hfinite h.2

end

/-- A table of one column. -/
def columnTable (values : List Literal) : Table :=
  { columnNames := ["x"]
    rows := values.map fun v => [v]
    width := by simp }

def numberSchema : TableSchema :=
  { columns := [⟨"x", .float, true⟩]
    stats := ⟨0, 0⟩
    indexedColumns := [] }

attribute [local instance] noCasts

theorem rangesWithin_iff_full :
    RangesWithin (analyzeTable (columnTable [.integer 1, .integer 2]) numberSchema) "x" ↔
      FlatOrFull [.integer 1, .integer 2] :=
  rangesWithin_iff rfl (show numberSchema.getColumn "x" = some ⟨"x", .float, true⟩ from rfl) rfl
    ⟨.integer 1, by simp, nofun⟩

/-- Of NULL, 1 and 2 two thirds are not NULL, and `x <= 2` is estimated to hold of all rows. -/
theorem not_rangesWithin_null :
    ¬ ∀ (table : Table) (schema : TableSchema) (name : String) (colDef : ColumnDef)
      (values : List Literal), columnNamed table name = some values →
        schema.getColumn name = some colDef → isNumeric colDef.dataType = true →
          (∃ v ∈ values, v ≠ .null) → RangesWithin (analyzeTable table schema) name := by
  intro h
  obtain ⟨cs, hcs, hall⟩ := h (columnTable [.null, .integer 1, .integer 2]) numberSchema "x"
    ⟨"x", .float, true⟩ [.null, .integer 1, .integer 2] rfl rfl rfl ⟨.integer 1, by simp, nofun⟩
  have hlt := (hall .lte (by simp) none (.integer 2) _ rfl (by decide)).1
  have hfraction : ((analyzeTable (columnTable [.null, .integer 1, .integer 2])
      numberSchema).getColumn "x").map (·.nullFraction) =
        some (Binary64.fin false (1 / 3)) := by
    decide +kernel
  rw [hcs, Option.map_some, Option.some.injEq] at hfraction
  rw [hfraction] at hlt
  exact absurd hlt (by decide +kernel)

end SqlOptimizer.Statistics
