import Mathlib.Data.Nat.Digits.Lemmas
import Mathlib.Tactic.Ring

/-! Texts as bytes: ASCII, and decimal numbers there and back. -/

namespace SqlOptimizer

abbrev Bytes := List UInt8

/-- The bytes of an ASCII text. -/
def ascii (s : String) : Bytes := s.toList.map fun c => UInt8.ofNat c.toNat

theorem ascii_append (s t : String) : ascii (s ++ t) = ascii s ++ ascii t := by
  rw [ascii, String.toList_append, List.map_append]
  rfl

def digitByte (d : Nat) : UInt8 := UInt8.ofNat (48 + d)

def natText (n : Nat) : Bytes :=
  if n = 0 then [48] else (Nat.digits 10 n).reverse.map digitByte

def intText (n : Int) : Bytes := if n < 0 then 45 :: natText n.natAbs else natText n.natAbs

/-- The number whose digits are `acc` followed by the bytes; `none` at a byte that is no digit. -/
def readDigits (acc : Nat) : Bytes → Option Nat
  | [] => some acc
  | b :: bs => if 48 ≤ b ∧ b ≤ 57 then readDigits (acc * 10 + (b.toNat - 48)) bs else none

/-- At least one digit, and nothing else. -/
def readNat : Bytes → Option Nat
  | [] => none
  | b :: bs => readDigits 0 (b :: bs)

/-- An optional sign and at least one digit. -/
def readInt : Bytes → Option Int
  | [] => none
  | b :: bs =>
    if b = 45 then (readNat bs).map fun n : Nat => -(n : Int)
    else if b = 43 then (readNat bs).map Int.ofNat
    else (readNat (b :: bs)).map Int.ofNat

/-- The same, within the signed 64-bit range. -/
def readInt64 (s : Bytes) : Option Int :=
  (readInt s).filter fun n => decide (-2 ^ 63 ≤ n ∧ n < 2 ^ 63)

def isDigitByte (b : UInt8) : Bool := decide (48 ≤ b ∧ b ≤ 57)

theorem digitByte_toNat {d : Nat} (h : d < 10) : (digitByte d).toNat = 48 + d := by
  rw [digitByte, UInt8.toNat_ofNat']
  omega

theorem isDigitByte_digitByte {d : Nat} (h : d < 10) : isDigitByte (digitByte d) = true := by
  have := digitByte_toNat h
  simp only [isDigitByte, decide_eq_true_eq, UInt8.le_iff_toNat_le]
  constructor
  · show 48 ≤ _
    omega
  · show _ ≤ 57
    omega

theorem isDigitByte_of_mem_natText {n : Nat} {b : UInt8} (h : b ∈ natText n) :
    isDigitByte b = true := by
  unfold natText at h
  split at h
  · rw [List.mem_singleton] at h
    rw [h]
    decide
  · obtain ⟨d, hd, rfl⟩ := List.mem_map.mp h
    exact isDigitByte_digitByte (Nat.digits_lt_base (by omega) (List.mem_reverse.mp hd))

theorem natText_ne_nil (n : Nat) : natText n ≠ [] := by
  unfold natText
  split
  · simp
  · next h => simpa [Nat.digits_eq_nil_iff_eq_zero] using h

theorem ascii_toDigits (n : Nat) :
    (Nat.toDigits 10 n).map (fun c => UInt8.ofNat c.toNat) = natText n := by
  have hdigit : ∀ d < 10, UInt8.ofNat (Nat.digitChar d).toNat = digitByte d := by decide
  induction n using Nat.strongRecOn with
  | ind n ih =>
    by_cases hlt : n < 10
    · rw [Nat.toDigits_of_lt_base hlt, List.map_singleton, hdigit n hlt, natText]
      split
      · next h =>
        rw [h]
        rfl
      · next h => rw [Nat.digits_of_lt 10 n h hlt, List.reverse_singleton, List.map_singleton]
    · have hle : 10 ≤ n := Nat.not_lt.mp hlt
      have hdiv : n / 10 ≠ 0 := by omega
      have hne : n ≠ 0 := by omega
      have hdigits : Nat.digits 10 n = n % 10 :: Nat.digits 10 (n / 10) :=
        Nat.digits_def' (by omega) (by omega)
      have hprior := ih (n / 10) (by omega)
      rw [natText, if_neg hdiv] at hprior
      rw [Nat.toDigits_of_base_le (by omega) hle, List.map_append, hprior, List.map_singleton,
        hdigit _ (Nat.mod_lt _ (by omega)), natText, if_neg hne, hdigits, List.reverse_cons,
        List.map_append, List.map_singleton]

/-- `std::to_string` of a natural number. -/
theorem ascii_toString (n : Nat) : ascii (toString n) = natText n := by
  rw [← ascii_toDigits, ascii]
  exact congrArg _ Nat.toList_repr

theorem length_natText_le {n k : Nat} (hk : 0 < k) (h : n < 10 ^ k) : (natText n).length ≤ k := by
  unfold natText
  split
  · exact hk
  · rw [List.length_map, List.length_reverse]
    exact (Nat.digits_length_le_iff (by omega) n).mpr h

theorem readDigits_append (acc : Nat) (xs ys : Bytes) :
    readDigits acc (xs ++ ys) = (readDigits acc xs).bind fun a => readDigits a ys := by
  induction xs generalizing acc with
  | nil => rfl
  | cons b xs ih =>
    simp only [List.cons_append, readDigits]
    split
    · exact ih _
    · rfl

theorem readDigits_digits {l : List Nat} (h : ∀ d ∈ l, d < 10) (acc : Nat) :
    readDigits acc (l.reverse.map digitByte) = some (acc * 10 ^ l.length + Nat.ofDigits 10 l) := by
  induction l with
  | nil => simp [readDigits]
  | cons d l ih =>
    have hd : d < 10 := h d List.mem_cons_self
    have hdigit := isDigitByte_digitByte hd
    rw [isDigitByte, decide_eq_true_eq] at hdigit
    rw [List.reverse_cons, List.map_append, readDigits_append,
      ih fun x hx => h x (List.mem_cons_of_mem _ hx), Option.bind_some, List.map_singleton,
      readDigits, if_pos hdigit, readDigits, digitByte_toNat hd, Nat.ofDigits_cons,
      List.length_cons]
    congr 1
    rw [Nat.add_sub_cancel_left, pow_succ]
    ring

@[simp] theorem readNat_natText (n : Nat) : readNat (natText n) = some n := by
  have hread : readNat (natText n) = readDigits 0 (natText n) := by
    cases h : natText n with
    | nil => exact absurd h (natText_ne_nil n)
    | cons => rfl
  rw [hread]
  unfold natText
  split
  · next h =>
    rw [h]
    rfl
  · rw [readDigits_digits fun d hd => Nat.digits_lt_base (by omega) hd, Nat.ofDigits_digits]
    simp

theorem readInt_natText (n : Nat) : readInt (natText n) = some (n : Int) := by
  cases h : natText n with
  | nil => exact absurd h (natText_ne_nil n)
  | cons b bs =>
    have hb : isDigitByte b = true := isDigitByte_of_mem_natText (n := n) (by simp [h])
    rw [isDigitByte, decide_eq_true_eq] at hb
    have hminus : b ≠ 45 := by
      rintro rfl
      exact absurd hb.1 (by decide)
    have hplus : b ≠ 43 := by
      rintro rfl
      exact absurd hb.1 (by decide)
    rw [readInt, if_neg hminus, if_neg hplus, ← h, readNat_natText]
    rfl

@[simp] theorem readInt_intText (n : Int) : readInt (intText n) = some n := by
  unfold intText
  split
  · next h =>
    rw [readInt, if_pos rfl, readNat_natText, Option.map_some]
    congr 1
    omega
  · next h =>
    rw [readInt_natText]
    congr 1
    omega

theorem readInt64_intText {n : Int} (h : -2 ^ 63 ≤ n) (h' : n < 2 ^ 63) :
    readInt64 (intText n) = some n := by
  rw [readInt64, readInt_intText, Option.filter_some, if_pos (by rw [decide_eq_true_eq]; exact ⟨h, h'⟩)]

end SqlOptimizer
