import SqlOptimizer.Library.Binary64
import Mathlib.Tactic.Linarith

/-! Sums of doubles in exact arithmetic.  Addition is commutative and associative, signed zeros,
infinities and NaN included, so a sum depends neither on the order of its terms nor on how they are
grouped. -/

namespace Binary64

attribute [local instance] Rounding.exact

theorem signed_nonpos {n : Bool} {m : ℚ≥0} (h : n = true) : signed n m ≤ 0 := by
  simp [signed, h]

/-- A finite double is its rational, and its sign where that is zero. -/
theorem fin_congr {n n' : Bool} {m m' : ℚ≥0} (hq : signed n m = signed n' m')
    (hz : signed n m = 0 → n = n') : (fin n m) = fin n' m' := by
  by_cases h0 : signed n m = 0
  · obtain rfl := hz h0
    have : (m : ℚ) = m' := by cases n <;> simpa [signed] using hq
    rw [NNRat.coe_inj.mp this]
  · cases n <;> cases n' <;> simp only [signed, if_true, if_false, Bool.false_eq_true] at hq h0
    · rw [NNRat.coe_inj.mp hq]
    · have h1 := m.coe_nonneg
      have h2 := m'.coe_nonneg
      exact absurd (by linarith) h0
    · have h1 := m.coe_nonneg
      have h2 := m'.coe_nonneg
      exact absurd (by linarith) h0
    · rw [NNRat.coe_inj.mp (neg_inj.mp hq)]

theorem signed_nnabs (q : ℚ) : signed (decide (q < 0)) q.nnabs = q := by
  by_cases h : q < 0
  · simp [signed, h, Rat.coe_nnabs, abs_of_neg h]
  · simp [signed, h, Rat.coe_nnabs, abs_of_nonneg (not_lt.mp h)]

/-- The sum of two finite doubles. -/
theorem add_fin (n n' : Bool) (m m' : ℚ≥0) :
    ∃ s q, add (fin n m) (fin n' m') = fin s q ∧ signed s q = signed n m + signed n' m' ∧
      (signed n m + signed n' m' = 0 → s = (n && n')) := by
  by_cases h : signed n m + signed n' m' = 0
  · exact ⟨n && n', 0, by simp [add, h], by rw [h]; simp [signed], fun _ => rfl⟩
  · exact ⟨_, _, by simp [add, h, rounded, Rounding.round], signed_nnabs _, fun h' => absurd h' h⟩

theorem add_comm (x y : Binary64) : add x y = add y x := by
  cases x with
  | nan => cases y <;> rfl
  | inf n => cases y with
    | nan => rfl
    | inf n' => cases n <;> cases n' <;> rfl
    | fin n' m' => rfl
  | fin n m => cases y with
    | nan => rfl
    | inf n' => rfl
    | fin n' m' =>
      simp only [add, Rat.add_comm (signed n' m'), Bool.and_comm n']

/-- When three finite doubles sum to zero, a negative zero comes of negative zeros only. -/
theorem sign_of_zero_sum {n n' s : Bool} {m m' q : ℚ≥0} (n'' : Bool) (m'' : ℚ≥0)
    (hs : signed s q = signed n m + signed n' m')
    (hz : signed n m + signed n' m' = 0 → s = (n && n'))
    (h0 : signed n m + signed n' m' + signed n'' m'' = 0) (hneg : (s && n'') = true) :
    n = true ∧ n' = true ∧ n'' = true ∧ signed n m = 0 ∧ signed n' m' = 0 ∧ signed n'' m'' = 0 := by
  rw [Bool.and_eq_true] at hneg
  have hsum : signed n m + signed n' m' ≤ 0 := hs ▸ signed_nonpos hneg.1
  have hlast : signed n'' m'' ≤ 0 := signed_nonpos hneg.2
  have hboth := hz (by linarith)
  rw [hneg.1, eq_comm, Bool.and_eq_true] at hboth
  have h1 : signed n m ≤ 0 := signed_nonpos hboth.1
  have h2 : signed n' m' ≤ 0 := signed_nonpos hboth.2
  exact ⟨hboth.1, hboth.2, hneg.2, by linarith, by linarith, by linarith⟩

theorem add_assoc_fin (n n' n'' : Bool) (m m' m'' : ℚ≥0) :
    add (add (fin n m) (fin n' m')) (fin n'' m'') =
      add (fin n m) (add (fin n' m') (fin n'' m'')) := by
  obtain ⟨s, q, h12, hs, hz⟩ := add_fin n n' m m'
  obtain ⟨s', q', h23, hs', hz'⟩ := add_fin n' n'' m' m''
  obtain ⟨t, r, hl, ht, htz⟩ := add_fin s n'' q m''
  obtain ⟨t', r', hr, ht', htz'⟩ := add_fin n s' m q'
  rw [h12, h23, hl, hr]
  have hsum : signed t r = signed n m + signed n' m' + signed n'' m'' := by rw [ht, hs]
  have hsum' : signed t' r' = signed n m + signed n' m' + signed n'' m'' := by
    rw [ht', hs']
    linarith
  refine fin_congr (hsum.trans hsum'.symm) fun h0 => ?_
  rw [hsum] at h0
  rw [htz (by rw [hs]; exact h0), htz' (by rw [hs']; linarith), Bool.eq_iff_iff]
  constructor
  · intro hneg
    obtain ⟨rfl, rfl, rfl, h1, h2, h3⟩ := sign_of_zero_sum n'' m'' hs hz h0 hneg
    rw [hz' (by linarith)]
    rfl
  · intro hneg
    obtain ⟨rfl, rfl, rfl, h1, h2, h3⟩ := sign_of_zero_sum n m hs' hz'
      (by linarith) (by rwa [Bool.and_comm])
    rw [hz (by linarith)]
    rfl

theorem add_nan (x : Binary64) : add x nan = nan := by cases x <;> rfl

theorem nan_add (x : Binary64) : add nan x = nan := by cases x <;> rfl

theorem add_assoc (x y z : Binary64) : add (add x y) z = add x (add y z) := by
  cases x with
  | nan => simp only [nan_add]
  | inf n => cases y with
    | nan => simp only [add_nan, nan_add]
    | inf n' => cases z with
      | nan => simp only [add_nan]
      | inf n'' => cases n <;> cases n' <;> cases n'' <;> rfl
      | fin n'' m'' => cases n <;> cases n' <;> rfl
    | fin n' m' => cases z with
      | nan => simp only [add_nan]
      | inf n'' => rfl
      | fin n'' m'' =>
        obtain ⟨s, q, h, -⟩ := add_fin n' n'' m' m''
        rw [h]
        rfl
  | fin n m => cases y with
    | nan => simp only [add_nan, nan_add]
    | inf n' => cases z with
      | nan => simp only [add_nan]
      | inf n'' => cases n' <;> cases n'' <;> rfl
      | fin n'' m'' => rfl
    | fin n' m' => cases z with
      | nan => simp only [add_nan]
      | inf n'' =>
        obtain ⟨s, q, h, -⟩ := add_fin n n' m m'
        rw [h]
        rfl
      | fin n'' m'' => exact add_assoc_fin n n' n'' m m' m''

/-! ### Sums -/

/-- The sum that starts from zero. -/
def total (xs : List Binary64) : Binary64 := xs.foldl add zero

theorem foldl_add (x y : Binary64) (xs : List Binary64) :
    xs.foldl add (add x y) = add x (xs.foldl add y) := by
  induction xs generalizing y with
  | nil => rfl
  | cons z xs ih => rw [List.foldl_cons, List.foldl_cons, add_assoc, ih]

theorem zero_add_zero : add zero zero = zero := by decide +kernel

theorem total_append (xs ys : List Binary64) :
    total (xs ++ ys) = add (total xs) (total ys) := by
  have hzero : total xs = add (total xs) zero := by
    rw [add_comm, total, ← foldl_add, zero_add_zero]
  rw [total, List.foldl_append, ← total, hzero, foldl_add, ← hzero]
  rfl

theorem total_cons (x : Binary64) (ys : List Binary64) :
    total (x :: ys) = add (add zero x) (total ys) :=
  total_append [x] ys

theorem total_perm {xs ys : List Binary64} (h : xs.Perm ys) : total xs = total ys := by
  refine h.foldl_eq' (fun x _ y _ z => ?_) zero
  rw [add_assoc, add_comm x y, ← add_assoc]

/-- A sum of sums. -/
theorem total_flatten (xss : List (List Binary64)) : total (xss.map total) = total xss.flatten := by
  induction xss with
  | nil => rfl
  | cons xs xss ih =>
    have hzero : add zero (total xs) = total xs := by rw [total, ← foldl_add, zero_add_zero]
    rw [List.map_cons, total_cons, ih, List.flatten_cons, total_append, hzero]

/-! ### Counts -/

theorem roundNat_of_lt {n : Nat} (h : n < 2 ^ 53) : roundNat n = n := by
  have hlog : Nat.log2 n - 52 = 0 := by
    by_cases h0 : n = 0
    · subst h0
      rfl
    · have := (Nat.log2_lt h0).mpr h
      omega
  simp [roundNat, hlog, nearest, Nat.mod_one]

theorem ofInt_natCast {n : Nat} (h : n < 2 ^ 53) : ofInt (n : Int) = fin false n := by
  simp [ofInt, roundNat_of_lt h]

theorem lt_zero_ofInt (n : Nat) : lt zero (ofInt (n : Int)) = decide (0 < n) := by
  have hpos : 0 < roundNat n ↔ 0 < n := by
    constructor
    · intro h
      rcases Nat.eq_zero_or_pos n with rfl | hn
      · exact absurd h (by decide)
      · exact hn
    · intro hn
      have hle : 2 ^ (Nat.log2 n - 52) ≤ n :=
        (Nat.pow_le_pow_right (by decide) (Nat.sub_le _ _)).trans (Nat.log2_self_le hn.ne')
      have hq : 0 < n / 2 ^ (Nat.log2 n - 52) := Nat.div_pos hle (Nat.two_pow_pos _)
      refine Nat.mul_pos ?_ (Nat.two_pow_pos _)
      unfold nearest
      dsimp only
      split
      · exact hq
      · split <;> omega
  have hneg : decide ((n : Int) < 0) = false := decide_eq_false (by omega)
  simp [lt, zero, ofInt, hneg, signed, hpos]

/-- Counts add up exactly. -/
theorem total_counts (ns : List Nat) :
    total (ns.map fun n : Nat => fin false (n : ℚ≥0)) = fin false (ns.sum : Nat) := by
  have hadd : ∀ a b : Nat, add (fin false (a : ℚ≥0)) (fin false (b : ℚ≥0)) =
      fin false ((a + b : Nat) : ℚ≥0) := by
    intro a b
    obtain ⟨s, q, h, hs, hz⟩ := add_fin false false a b
    rw [h]
    refine fin_congr (by rw [hs]; simp [signed]) fun h0 => ?_
    rw [hz (by rw [← hs]; exact h0)]
    rfl
  induction ns with
  | nil => simp [total, zero]
  | cons n ns ih =>
    have hzero : add zero (fin false (n : ℚ≥0)) = fin false (n : ℚ≥0) := by
      simpa [zero] using hadd 0 n
    rw [List.map_cons, total_cons, hzero, ih, hadd, List.sum_cons]

end Binary64
