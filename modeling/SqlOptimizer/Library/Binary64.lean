import Mathlib.Data.NNRat.Floor
import Mathlib.Data.Nat.Log
import Mathlib.Tactic.Ring

/-! Double precision values as signed rational magnitudes, with infinities and one NaN.  A zero
keeps its sign.  Conversion from an integer rounds to 53 significant bits, as the hardware does.
The four arithmetic operations round through a `Rounding`, so that a development can state a result
for every rounding, or for exact arithmetic alone.  The two text forms are those of `printf`'s
`%f` and `%g`, which round the exact value to the nearest decimal, ties to even. -/

/-- A floating point value. -/
inductive Binary64 where
  | nan
  | inf (neg : Bool)
  | fin (neg : Bool) (mag : ℚ≥0)
  deriving DecidableEq

/-- How an operation rounds the exact magnitude of its result; `none` overflows to infinity. -/
class Rounding where
  round : ℚ≥0 → Option ℚ≥0

/-- Arithmetic without rounding. -/
@[reducible] def Rounding.exact : Rounding := ⟨some⟩

namespace Binary64

/-- The integer nearest to `n / d`, ties to even. -/
def nearest (n d : Nat) : Nat :=
  let q := n / d
  let r := 2 * (n % d)
  if r < d then q else if d < r then q + 1 else q + q % 2

/-- `n` rounded to its 53 leading bits, ties to even. -/
def roundNat (n : Nat) : Nat :=
  let s := Nat.log2 n - 52
  nearest n (2 ^ s) * 2 ^ s

/-- The double nearest to the integer `i`. -/
def ofInt (i : Int) : Binary64 := .fin (decide (i < 0)) (roundNat i.natAbs)

/-- `⌊log₂ m⌋` for positive `m`. -/
def exponent2 (m : ℚ≥0) : Int :=
  if m.den ≤ m.num then (Nat.log2 (m.num / m.den) : Int)
  else -(Nat.clog 2 ((m.den + m.num - 1) / m.num) : Int)

/-- The multiple of a power of two nearest to `m`, ties to even: 53 significant bits, and no power
below that of the subnormal numbers. -/
def nearestDouble (m : ℚ≥0) : ℚ≥0 :=
  let e := max (exponent2 m - 52) (-1074)
  let k := nearest (m.num * 2 ^ (-e).toNat) (m.den * 2 ^ e.toNat)
  ((k * 2 ^ e.toNat : Nat) : ℚ≥0) / ((2 ^ (-e).toNat : Nat) : ℚ≥0)

/-- From half a unit above the largest double on, a magnitude rounds to infinity. -/
def Overflows (m : ℚ≥0) : Prop := (2 ^ 1024 - 2 ^ 970) * m.den ≤ m.num

/-- A magnitude below the normal doubles, other than zero. -/
def Underflows (m : ℚ≥0) : Prop := m.num ≠ 0 ∧ m.num * 2 ^ 1022 < m.den

instance (m : ℚ≥0) : Decidable (Overflows m) := inferInstanceAs (Decidable (_ ≤ _))

instance (m : ℚ≥0) : Decidable (Underflows m) := inferInstanceAs (Decidable (_ ∧ _))

/-- The positive zero. -/
def zero : Binary64 := .fin false 0

/-- The rational of a finite value. -/
def signed (neg : Bool) (mag : ℚ≥0) : ℚ := if neg then -(mag : ℚ) else mag

/-- `==` on doubles: the two zeros are equal, and NaN equals nothing. -/
def eq : Binary64 → Binary64 → Bool
  | .fin n m, .fin n' m' => signed n m == signed n' m'
  | .inf n, .inf n' => n == n'
  | _, _ => false

/-- `<` on doubles. -/
def lt : Binary64 → Binary64 → Bool
  | .fin n m, .fin n' m' => decide (signed n m < signed n' m')
  | .inf n, .inf n' => n && !n'
  | .inf n, .fin _ _ => n
  | .fin _ _, .inf n => !n
  | _, _ => false

def neg : Binary64 → Binary64
  | .nan => .nan
  | .inf n => .inf !n
  | .fin n m => .fin (!n) m

section Arithmetic

variable [Rounding]

/-- A finite result of magnitude `mag` and sign `n`, rounded. -/
def rounded (n : Bool) (mag : ℚ≥0) : Binary64 :=
  match Rounding.round mag with
  | some m => .fin n m
  | none => .inf n

/-- The sum of two doubles.  An exact zero sum is negative only when both summands are. -/
def add : Binary64 → Binary64 → Binary64
  | .fin n m, .fin n' m' =>
    let s := signed n m + signed n' m'
    if s = 0 then .fin (n && n') 0 else rounded (decide (s < 0)) (s.nnabs)
  | .inf n, .inf n' => if n = n' then .inf n else .nan
  | .inf n, .fin _ _ => .inf n
  | .fin _ _, .inf n => .inf n
  | _, _ => .nan

def sub (x y : Binary64) : Binary64 := add x (neg y)

def mul : Binary64 → Binary64 → Binary64
  | .fin n m, .fin n' m' => rounded (xor n n') (m * m')
  | .inf n, .inf n' => .inf (xor n n')
  | .inf n, .fin n' m => if m = 0 then .nan else .inf (xor n n')
  | .fin n' m, .inf n => if m = 0 then .nan else .inf (xor n n')
  | _, _ => .nan

def div : Binary64 → Binary64 → Binary64
  | .fin n m, .fin n' m' =>
    if m' = 0 then (if m = 0 then .nan else .inf (xor n n')) else rounded (xor n n') (m / m')
  | .inf n, .fin n' _ => .inf (xor n n')
  | .fin n _, .inf n' => .fin (xor n n') 0
  | _, _ => .nan

end Arithmetic

theorem nearest_mul_eq_self {n d : Nat} (hd : 0 < d) : nearest n d * d = n ↔ d ∣ n := by
  constructor
  · intro h
    exact ⟨nearest n d, by rw [Nat.mul_comm, h]⟩
  · rintro ⟨q, rfl⟩
    have hmod : d * q % d = 0 := Nat.mul_mod_right d q
    have hnearest : nearest (d * q) d = q := by
      rw [nearest, hmod, Nat.mul_div_cancel_left q hd]
      simp [hd]
    rw [hnearest, Nat.mul_comm]

/-- The integers that a double holds: those of at most 53 significant bits. -/
theorem roundNat_eq_self {n : Nat} : roundNat n = n ↔ 2 ^ (Nat.log2 n - 52) ∣ n :=
  nearest_mul_eq_self (Nat.two_pow_pos _)

/-! ### Text -/

/-- The decimal digits of `n`. -/
def decimal (n : Nat) : List Char := Nat.toDigits 10 n

/-- The last `k` decimal digits of `n`, with leading zeros. -/
def fraction : Nat → Nat → List Char
  | 0, _ => []
  | k + 1, n => fraction k (n / 10) ++ [Nat.digitChar (n % 10)]

def signText (neg : Bool) : List Char := if neg then ['-'] else []

/-- `printf`'s `%f`: six decimals. -/
def fixedText : Binary64 → List Char
  | .nan => ['n', 'a', 'n']
  | .inf n => signText n ++ ['i', 'n', 'f']
  | .fin n m =>
    let k := nearest (m.num * 10 ^ 6) m.den
    signText n ++ decimal (k / 10 ^ 6) ++ '.' :: fraction 6 k

/-- `⌊log₁₀ (n / d)⌋` for positive `n` and `d`. -/
def exponent10 (n d : Nat) : Int :=
  if d ≤ n then (Nat.log 10 (n / d) : Int)
  else -(Nat.clog 10 ((d + n - 1) / n) : Int)

/-- Six significant digits of `n / d`, as an integer below `10^6`, and the decimal exponent of the
first of them. -/
def sixDigits (n d : Nat) : Nat × Int :=
  let x := exponent10 n d
  let k := if x ≤ 5 then nearest (n * 10 ^ (5 - x).toNat) d else nearest n (d * 10 ^ (x - 5).toNat)
  if k = 10 ^ 6 then (10 ^ 5, x + 1) else (k, x)

def stripZeros (digits : List Char) : List Char :=
  (digits.reverse.dropWhile (· == '0')).reverse

/-- A decimal point and digits, or nothing when there is no digit. -/
def pointText (digits : List Char) : List Char := if digits = [] then [] else '.' :: digits

/-- The exponent part of `%g`: at least two digits. -/
def exponentText (x : Int) : List Char :=
  ['e', if x < 0 then '-' else '+'] ++
    (if x.natAbs < 10 then '0' :: decimal x.natAbs else decimal x.natAbs)

/-- `printf`'s `%g`, the default of an output stream: six significant digits, without trailing
zeros, in scientific form when the exponent is below -4 or above 5. -/
def generalText : Binary64 → List Char
  | .nan => ['n', 'a', 'n']
  | .inf n => signText n ++ ['i', 'n', 'f']
  | .fin n m =>
    if m = 0 then signText n ++ ['0']
    else
      let (k, x) := sixDigits m.num m.den
      if x < -4 ∨ 5 < x then
        signText n ++ fraction 1 (k / 10 ^ 5) ++ pointText (stripZeros (fraction 5 k)) ++
          exponentText x
      else if 0 ≤ x then
        signText n ++ decimal (k / 10 ^ (5 - x).toNat) ++
          pointText (stripZeros (fraction (5 - x).toNat k))
      else
        signText n ++ '0' :: pointText (stripZeros (List.replicate (-x - 1).toNat '0' ++ fraction 6 k))

/-- The text of an integer. -/
def intText (i : Int) : List Char := signText (decide (i < 0)) ++ decimal i.natAbs

theorem isDigit_of_mem_decimal {n : Nat} {c : Char} (h : c ∈ decimal n) : c.isDigit :=
  Nat.isDigit_of_mem_toDigits (by decide) (by decide) h

theorem decimal_ne_nil (n : Nat) : decimal n ≠ [] := Nat.toDigits_ne_nil

theorem decimal_injective {m n : Nat} (h : decimal m = decimal n) : m = n := by
  rw [← Nat.ofDigitChars_ten_toDigits (n := m), ← Nat.ofDigitChars_ten_toDigits (n := n)]
  exact congrArg (Nat.ofDigitChars 10 · 0) h

theorem isDigit_of_mem_fraction {k n : Nat} {c : Char} (h : c ∈ fraction k n) : c.isDigit := by
  induction k generalizing n with
  | zero => cases h
  | succ k ih =>
    rw [fraction, List.mem_append, List.mem_singleton] at h
    rcases h with h | rfl
    · exact ih h
    · simp [Nat.isDigit_digitChar, Nat.mod_lt]

theorem mem_signText {neg : Bool} {c : Char} (h : c ∈ signText neg) : c = '-' := by
  cases neg <;> simp_all [signText]

/-- The text of an integer has digits and perhaps a sign. -/
theorem mem_intText {i : Int} {c : Char} (h : c ∈ intText i) : c = '-' ∨ c.isDigit := by
  rcases List.mem_append.mp h with h | h
  · exact .inl (mem_signText h)
  · exact .inr (isDigit_of_mem_decimal h)

theorem intText_injective {i j : Int} (h : intText i = intText j) : i = j := by
  have hminus : ∀ n, '-' ∉ decimal n := fun n hn => absurd (isDigit_of_mem_decimal hn) (by decide)
  by_cases hi : i < 0 <;> by_cases hj : j < 0 <;>
    simp only [intText, signText, hi, hj, decide_true, decide_false, if_true, if_false,
      Bool.false_eq_true, List.nil_append, List.cons_append, List.cons.injEq, true_and] at h
  · have := decimal_injective h
    omega
  · exact absurd (h ▸ List.mem_cons_self) (hminus j.natAbs)
  · exact absurd (h ▸ List.mem_cons_self) (hminus i.natAbs)
  · have := decimal_injective h
    omega

/-! ### The characters of `%g` -/

/-- A character of a finite number. -/
def isNumeric (c : Char) : Bool := c.isDigit || c ∈ ['.', 'e', '+', '-']

theorem isNumeric_of_isDigit {c : Char} (h : c.isDigit = true) : isNumeric c = true := by
  simp [isNumeric, h]

theorem isNumeric_of_mem_pointText {digits : List Char} (hdigits : ∀ c ∈ digits, c.isDigit = true)
    {c : Char} (h : c ∈ pointText (stripZeros digits)) : isNumeric c = true := by
  unfold pointText at h
  split at h
  · cases h
  · rcases List.mem_cons.mp h with rfl | h
    · rfl
    · have hmem : c ∈ digits.reverse :=
        (List.dropWhile_sublist _).mem (List.mem_reverse.mp h)
      exact isNumeric_of_isDigit (hdigits c (List.mem_reverse.mp hmem))

theorem isNumeric_of_mem_exponentText {x : Int} {c : Char} (h : c ∈ exponentText x) :
    isNumeric c = true := by
  rcases List.mem_append.mp h with h | h
  · split at h <;> simp only [List.mem_cons, List.not_mem_nil, or_false] at h <;>
      rcases h with rfl | rfl <;> rfl
  · split at h
    · rcases List.mem_cons.mp h with rfl | h
      · rfl
      · exact isNumeric_of_isDigit (isDigit_of_mem_decimal h)
    · exact isNumeric_of_isDigit (isDigit_of_mem_decimal h)

/-- `%g` prints a finite number without a sign as a digit and characters of numbers. -/
theorem generalText_unsigned (m : ℚ≥0) : ∃ c cs, generalText (.fin false m) = c :: cs ∧
    c.isDigit = true ∧ ∀ d ∈ cs, isNumeric d = true := by
  have hdigits : ∀ (digits rest : List Char), digits ≠ [] → (∀ c ∈ digits, c.isDigit = true) →
      (∀ d ∈ rest, isNumeric d = true) → ∃ c cs, digits ++ rest = c :: cs ∧ c.isDigit = true ∧
        ∀ d ∈ cs, isNumeric d = true := by
    intro digits rest hne hall hrest
    cases digits with
    | nil => exact absurd rfl hne
    | cons c cs =>
      refine ⟨c, cs ++ rest, rfl, hall c List.mem_cons_self, fun d hd => ?_⟩
      rcases List.mem_append.mp hd with hd | hd
      · exact isNumeric_of_isDigit (hall d (List.mem_cons_of_mem _ hd))
      · exact hrest d hd
  have hfraction : ∀ k n, ∀ c ∈ fraction k n, c.isDigit = true :=
    fun _ _ _ h => isDigit_of_mem_fraction h
  simp only [generalText, signText, Bool.false_eq_true, if_false, List.nil_append]
  split
  · exact ⟨'0', [], rfl, rfl, nofun⟩
  · split
    · rw [List.append_assoc]
      refine hdigits _ _ (by simp [fraction]) (hfraction _ _) fun d hd => ?_
      rcases List.mem_append.mp hd with hd | hd
      · exact isNumeric_of_mem_pointText (hfraction _ _) hd
      · exact isNumeric_of_mem_exponentText hd
    · split
      · exact hdigits _ _ (decimal_ne_nil _) (fun _ h => isDigit_of_mem_decimal h)
          fun d hd => isNumeric_of_mem_pointText (hfraction _ _) hd
      · refine ⟨'0', _, rfl, rfl, fun d hd => isNumeric_of_mem_pointText (fun c hc => ?_) hd⟩
        rcases List.mem_append.mp hc with hc | hc
        · rw [List.eq_of_mem_replicate hc]
          rfl
        · exact hfraction _ _ c hc

/-- The characters of `%f` other than digits. -/
theorem mem_fixedText {x : Binary64} {c : Char} (h : c ∈ fixedText x) :
    c.isDigit ∨ c ∈ ['-', '.', 'n', 'a', 'i', 'f'] := by
  cases x with
  | nan => simp [fixedText] at h; right; rcases h with rfl | rfl | rfl <;> decide
  | inf neg =>
    simp only [fixedText, List.mem_append] at h
    rcases h with h | h
    · rw [mem_signText h]; right; decide
    · right; simp at h ⊢; tauto
  | fin neg mag =>
    simp only [fixedText, List.mem_append, List.mem_cons] at h
    rcases h with (h | h) | rfl | h
    · rw [mem_signText h]; right; decide
    · exact .inl (isDigit_of_mem_decimal h)
    · right; decide
    · exact .inl (isDigit_of_mem_fraction h)

/-- `%f` prints a decimal point, or a word. -/
theorem fixedText_marked (x : Binary64) : '.' ∈ fixedText x ∨ 'n' ∈ fixedText x := by
  cases x <;> simp [fixedText]

theorem fixedText_ne_intText (x : Binary64) (i : Int) : fixedText x ≠ intText i := by
  intro h
  rcases fixedText_marked x with hx | hx <;> rw [h] at hx <;>
    rcases mem_intText hx with hc | hc <;> revert hc <;> decide

theorem eq_symm (x y : Binary64) : eq x y = eq y x := by
  cases x <;> cases y <;> simp only [eq] <;> exact Bool.beq_comm

theorem lt_trans {x y z : Binary64} (hxy : lt x y = true) (hyz : lt y z = true) :
    lt x z = true := by
  cases x <;> cases y <;> cases z <;> simp_all [lt]
  exact hxy.trans hyz

theorem not_lt_trans {x y z : Binary64} (hy : y ≠ nan) (hxy : lt x y = false)
    (hyz : lt y z = false) : lt x z = false := by
  cases x <;> cases y <;> cases z <;> simp_all [lt]
  exact hyz.trans hxy

theorem eq_ofInt_self (i : Int) : eq (ofInt i) (ofInt i) = true := by simp [eq, ofInt]

end Binary64
