import SqlOptimizer.Execution.Aggregation
import Mathlib.Order.WithBot

/-! The order of values.  `literal_equal` and `literal_less` compare the doubles of two numbers; the
exact order compares the numbers themselves. -/

/-- The rationals with two infinities. -/
abbrev Extended := WithBot (WithTop ℚ)

namespace Binary64

/-- The number that a double stands for; NaN is none. -/
def extended : Binary64 → Option Extended
  | .nan => none
  | .inf neg => some (if neg then ⊥ else ((⊤ : WithTop ℚ) : Extended))
  | .fin neg mag => some ((signed neg mag : WithTop ℚ) : Extended)

theorem lt_iff_extended {x y : Binary64} {a b : Extended} (hx : x.extended = some a)
    (hy : y.extended = some b) : lt x y = true ↔ a < b := by
  cases x with
  | nan => cases hx
  | inf n => cases y with
    | nan => cases hy
    | inf n' => cases hx; cases hy; cases n <;> cases n' <;> simp [lt]
    | fin n' m' => cases hx; cases hy; cases n <;> simp [lt]
  | fin n m => cases y with
    | nan => cases hy
    | inf n' =>
      cases hx
      cases hy
      cases n' with
      | true => simp [lt]
      | false => simpa [lt] using WithBot.coe_lt_coe.mpr (WithTop.coe_lt_top (signed n m))
    | fin n' m' => cases hx; cases hy; simp [lt]

theorem eq_iff_extended {x y : Binary64} {a b : Extended} (hx : x.extended = some a)
    (hy : y.extended = some b) : eq x y = true ↔ a = b := by
  cases x with
  | nan => cases hx
  | inf n => cases y with
    | nan => cases hy
    | inf n' => cases hx; cases hy; cases n <;> cases n' <;> simp [eq]
    | fin n' m' => cases hx; cases hy; cases n <;> simp [eq]
  | fin n m => cases y with
    | nan => cases hy
    | inf n' => cases hx; cases hy; cases n' <;> simp [eq]
    | fin n' m' => cases hx; cases hy; simp [eq]

theorem lt_eq_true {x y : Binary64} : lt x y = true ↔
    ∃ a b, x.extended = some a ∧ y.extended = some b ∧ a < b := by
  constructor
  · intro h
    cases hx : x.extended with
    | none => cases x <;> simp [extended] at hx; cases h
    | some a => cases hy : y.extended with
      | none => cases y <;> simp [extended] at hy; cases x <;> cases h
      | some b => exact ⟨a, b, rfl, rfl, (lt_iff_extended hx hy).mp h⟩
  · rintro ⟨a, b, hx, hy, hab⟩
    exact (lt_iff_extended hx hy).mpr hab

theorem eq_eq_true {x y : Binary64} : eq x y = true ↔
    ∃ a, x.extended = some a ∧ y.extended = some a := by
  constructor
  · intro h
    cases hx : x.extended with
    | none => cases x <;> simp [extended] at hx; cases h
    | some a => cases hy : y.extended with
      | none => cases y <;> simp [extended] at hy; cases x <;> cases h
      | some b => exact ⟨a, rfl, by rw [(eq_iff_extended hx hy).mp h]⟩
  · rintro ⟨a, hx, hy⟩
    exact (eq_iff_extended hx hy).mpr rfl

end Binary64

namespace SqlOptimizer

/-! ### The order of the comparisons -/

theorem less_of_numeric {a b : Literal} {x y : Binary64} (ha : numeric? a = some x)
    (hb : numeric? b = some y) : less a b = Binary64.lt x y := by
  cases a <;> cases b <;> simp_all [less, literalLess, numeric?, literalIsNull, Except.toOption]

theorem literalEqual_of_numeric {a b : Literal} {x y : Binary64} (ha : numeric? a = some x)
    (hb : numeric? b = some y) : literalEqual a b = Binary64.eq x y := by
  cases a <;> cases b <;> simp_all [literalEqual, numeric?, literalIsNull]

theorem less_str (s t : String) : less (.str s) (.str t) = decide (s < t) := by
  simp [less, literalLess, numeric?, literalIsNull, Except.toOption]

/-- Numbers are compared as doubles and strings as strings. -/
theorem less_eq_true {a b : Literal} (h : less a b = true) :
    (∃ x y, numeric? a = some x ∧ numeric? b = some y ∧ Binary64.lt x y = true) ∨
      ∃ s t, a = .str s ∧ b = .str t ∧ s < t := by
  cases a <;> cases b <;>
    simp_all [less, literalLess, numeric?, literalIsNull, Except.toOption]

theorem less_trans {a b c : Literal} (hab : less a b = true) (hbc : less b c = true) :
    less a c = true := by
  rcases less_eq_true hab with ⟨x, y, ha, hb, hxy⟩ | ⟨s, t, rfl, rfl, hst⟩
  · rcases less_eq_true hbc with ⟨y', z, hb', hc, hyz⟩ | ⟨s, t, rfl, -, -⟩
    · cases hb.symm.trans hb'
      rw [less_of_numeric ha hc]
      exact Binary64.lt_trans hxy hyz
    · cases hb
  · rcases less_eq_true hbc with ⟨y', z, hb', -, -⟩ | ⟨s', u, hs', rfl, htu⟩
    · cases hb'
    · cases hs'
      rw [less_str]
      exact decide_eq_true (String.lt_trans hst htu)

theorem not_less_trans {a b c : Literal} (hb : b ≠ .floating .nan)
    (hab : comparable a b = true) (h : less a b = false) (h' : less b c = false) :
    less a c = false := by
  by_contra hac
  rcases less_eq_true (Bool.eq_true_of_not_eq_false hac) with ⟨x, z, ha, hc, hxz⟩ | ⟨s, u, rfl, rfl, hsu⟩
  · cases hy : numeric? b with
    | none => cases a <;> cases b <;> simp_all [comparable, isNumeric, isStr, numeric?]
    | some y =>
      have hnan : y ≠ .nan := by
        rintro rfl
        cases b <;> simp_all [numeric?, Binary64.ofInt]
      rw [less_of_numeric ha hy] at h
      rw [less_of_numeric hy hc] at h'
      rw [Binary64.not_lt_trans hnan h h'] at hxz
      cases hxz
  · cases b with
    | str t =>
      rw [less_str, decide_eq_false_iff_not] at h h'
      exact h (Std.lt_of_lt_of_le hsu (String.not_lt.mp h'))
    | _ => cases hab

theorem ordered_of_comparable {vs : List Literal}
    (hp : vs.Pairwise fun a b => comparable a b = true) (hn : .floating .nan ∉ vs) :
    Extreme.Ordered less vs := by
  intro a ha b hb c hc
  refine ⟨less_trans, fun h h' => ?_⟩
  by_cases hab : a = b
  · rw [hab]
    exact h'
  · exact not_less_trans (fun heq => hn (heq ▸ hb)) (hp.forall ha hb hab) h h'

/-! ### The exact order -/

/-- The number that a value stands for, without a rounding. -/
def exactNumber : Literal → Option Extended
  | .integer i => some (((i.toInt : ℚ) : WithTop ℚ) : Extended)
  | .floating x => x.extended
  | _ => none

/-- Whether the first of two values is the smaller. -/
def exactLess : Literal → Literal → Bool
  | .str s, .str t => decide (s < t)
  | a, b => match exactNumber a, exactNumber b with
    | some x, some y => decide (x < y)
    | _, _ => false

def exactEqual : Literal → Literal → Bool
  | .str s, .str t => s == t
  | a, b => match exactNumber a, exactNumber b with
    | some x, some y => decide (x = y)
    | _, _ => false

def isNaN : Literal → Bool
  | .floating .nan => true
  | _ => false

/-- A value as the comparisons take it: an integer as the nearest double. -/
def asDouble : Literal → Literal
  | .integer i => .floating (Binary64.ofInt i.toInt)
  | v => v

theorem exactLess_of_exactNumber {a b : Literal} {x y : Extended} (ha : exactNumber a = some x)
    (hb : exactNumber b = some y) : exactLess a b = decide (x < y) := by
  cases a <;> cases b <;> simp_all [exactLess, exactNumber]

theorem exactEqual_of_exactNumber {a b : Literal} {x y : Extended} (ha : exactNumber a = some x)
    (hb : exactNumber b = some y) : exactEqual a b = decide (x = y) := by
  cases a <;> cases b <;> simp_all [exactEqual, exactNumber]

/-- A numeric value has a number as a double, unless it is NaN. -/
theorem exists_exactNumber_asDouble {a : Literal} (ha : isNumeric a = true) (hn : isNaN a = false) :
    ∃ d x, numeric? a = some d ∧ d.extended = some x ∧ exactNumber (asDouble a) = some x := by
  cases a with
  | integer i => exact ⟨_, _, rfl, rfl, rfl⟩
  | floating d => cases d with
    | nan => cases hn
    | inf n => exact ⟨_, _, rfl, rfl, rfl⟩
    | fin n m => exact ⟨_, _, rfl, rfl, rfl⟩
  | _ => cases ha

/-- `literal_less` is the exact order of the doubles. -/
theorem less_eq_exactLess {a b : Literal} (h : comparable a b = true) (ha : isNaN a = false)
    (hb : isNaN b = false) : less a b = exactLess (asDouble a) (asDouble b) := by
  rcases Bool.or_eq_true_iff.mp h with h | h
  · obtain ⟨hna, hnb⟩ := Bool.and_eq_true_iff.mp h
    obtain ⟨d, x, hd, hx, hda⟩ := exists_exactNumber_asDouble hna ha
    obtain ⟨e, y, he, hy, heb⟩ := exists_exactNumber_asDouble hnb hb
    rw [less_of_numeric hd he, exactLess_of_exactNumber hda heb, Bool.eq_iff_iff,
      Binary64.lt_iff_extended hx hy, decide_eq_true_iff]
  · cases a <;> cases b <;> simp [isStr] at h
    exact less_str _ _

/-- `literal_equal` is the exact equality of the doubles. -/
theorem literalEqual_eq_exactEqual {a b : Literal} (h : comparable a b = true)
    (ha : isNaN a = false) (hb : isNaN b = false) :
    literalEqual a b = exactEqual (asDouble a) (asDouble b) := by
  rcases Bool.or_eq_true_iff.mp h with h | h
  · obtain ⟨hna, hnb⟩ := Bool.and_eq_true_iff.mp h
    obtain ⟨d, x, hd, hx, hda⟩ := exists_exactNumber_asDouble hna ha
    obtain ⟨e, y, he, hy, heb⟩ := exists_exactNumber_asDouble hnb hb
    rw [literalEqual_of_numeric hd he, exactEqual_of_exactNumber hda heb, Bool.eq_iff_iff,
      Binary64.eq_iff_extended hx hy, decide_eq_true_iff]
  · cases a <;> cases b <;> simp [isStr] at h
    rfl

end SqlOptimizer
