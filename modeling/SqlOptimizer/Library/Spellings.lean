import SqlOptimizer.Library.Decimal

/-! The texts that are read as a given number: besides its canonical decimal there may be a plus
sign and zeros in front. -/

namespace SqlOptimizer

theorem digitByte_of_isDigitByte {b : UInt8} (h : 48 ≤ b ∧ b ≤ 57) :
    b.toNat - 48 < 10 ∧ digitByte (b.toNat - 48) = b := by
  have h1 : 48 ≤ b.toNat := UInt8.le_iff_toNat_le.mp h.1
  have h2 : b.toNat ≤ 57 := UInt8.le_iff_toNat_le.mp h.2
  refine ⟨by omega, ?_⟩
  rw [digitByte, Nat.add_sub_cancel' h1, UInt8.ofNat_toNat]

theorem natText_digit {d : Nat} (hd : d < 10) : natText d = [digitByte d] := by
  unfold natText
  split
  case isTrue hzero =>
    rw [hzero]
    rfl
  case isFalse hpos =>
    rw [Nat.digits_of_lt 10 d hpos hd]
    rfl

theorem natText_snoc {m d : Nat} (hm : m ≠ 0) (hd : d < 10) :
    natText (m * 10 + d) = natText m ++ [digitByte d] := by
  have hdigits : Nat.digits 10 (d + 10 * m) = d :: Nat.digits 10 m :=
    Nat.digits_add 10 (by omega) d m hd (.inr hm)
  rw [natText, if_neg (by omega), natText, if_neg hm, Nat.mul_comm, Nat.add_comm, hdigits,
    List.reverse_cons, List.map_append]
  rfl

theorem readDigits_zeros (z : Nat) (s : Bytes) :
    readDigits 0 (List.replicate z 48 ++ s) = readDigits 0 s := by
  induction z with
  | zero => rfl
  | succ z ih =>
    rw [List.replicate_succ, List.cons_append, readDigits, if_pos (by decide)]
    exact ih

theorem readNat_of_ne_nil {s : Bytes} (h : s ≠ []) : readNat s = readDigits 0 s := by
  cases s with
  | nil => exact absurd rfl h
  | cons => rfl

/-- A natural number is read from its decimal with zeros in front, and from nothing else. -/
theorem readNat_eq_some {s : Bytes} {n : Nat} :
    readNat s = some n ↔ ∃ z, s = List.replicate z 48 ++ natText n := by
  constructor
  · intro h
    induction s using List.reverseRecOn generalizing n with
    | nil => cases h
    | append_singleton s b ih =>
      rw [readNat_of_ne_nil (by simp), readDigits_append] at h
      obtain ⟨m, hm, h⟩ := Option.bind_eq_some_iff.mp h
      rw [readDigits] at h
      split at h
      case isFalse => cases h
      case isTrue hb =>
        cases h
        obtain ⟨hd, hdigit⟩ := digitByte_of_isDigitByte hb
        by_cases hs : s = []
        · subst hs
          cases hm
          refine ⟨0, ?_⟩
          rw [Nat.zero_mul, Nat.zero_add, natText_digit hd, hdigit]
          rfl
        · rw [← readNat_of_ne_nil hs] at hm
          obtain ⟨z, hz⟩ := ih hm
          by_cases hzero : m = 0
          · refine ⟨z + 1, ?_⟩
            rw [hz, hzero, Nat.zero_mul, Nat.zero_add, natText_digit hd, hdigit,
              List.replicate_succ']
            rfl
          · refine ⟨z, ?_⟩
            rw [natText_snoc hzero hd, hdigit, hz, List.append_assoc]
  · rintro ⟨z, rfl⟩
    rw [readNat_of_ne_nil (by simp [natText_ne_nil]), readDigits_zeros,
      ← readNat_of_ne_nil (natText_ne_nil n), readNat_natText]

/-- A text of the integer `n`: perhaps a sign that suits it, zeros, and its decimal. -/
def SpellsInt (text : Bytes) (n : Int) : Prop :=
  ∃ sign z, text = sign ++ List.replicate z 48 ++ natText n.natAbs ∧
    (sign = [45] ∧ n ≤ 0 ∨ (sign = [43] ∨ sign = []) ∧ 0 ≤ n)

theorem isDigitByte_of_mem_zeros {z k : Nat} {b : UInt8}
    (h : b ∈ List.replicate z 48 ++ natText k) : isDigitByte b = true := by
  rcases List.mem_append.mp h with h | h
  · rw [List.eq_of_mem_replicate h]
    decide
  · exact isDigitByte_of_mem_natText h

/-- An integer is read from its texts, and from nothing else. -/
theorem readInt_eq_some {s : Bytes} {n : Int} : readInt s = some n ↔ SpellsInt s n := by
  cases s with
  | nil =>
    refine iff_of_false nofun ?_
    rintro ⟨sign, z, htext, -⟩
    simp [natText_ne_nil] at htext
  | cons b bs =>
    constructor
    · intro h
      rw [readInt] at h
      split at h
      case isTrue hminus =>
        obtain ⟨m, hm, rfl⟩ := Option.map_eq_some_iff.mp h
        obtain ⟨z, rfl⟩ := readNat_eq_some.mp hm
        refine ⟨[45], z, ?_, .inl ⟨rfl, by omega⟩⟩
        rw [hminus, Int.natAbs_neg, Int.natAbs_natCast]
        rfl
      case isFalse =>
        split at h
        case isTrue hplus =>
          obtain ⟨m, hm, rfl⟩ := Option.map_eq_some_iff.mp h
          obtain ⟨z, rfl⟩ := readNat_eq_some.mp hm
          exact ⟨[43], z, by rw [hplus]; rfl, .inr ⟨.inl rfl, Int.natCast_nonneg m⟩⟩
        case isFalse =>
          obtain ⟨m, hm, rfl⟩ := Option.map_eq_some_iff.mp h
          obtain ⟨z, hz⟩ := readNat_eq_some.mp hm
          exact ⟨[], z, hz, .inr ⟨.inr rfl, Int.natCast_nonneg m⟩⟩
    · rintro ⟨sign, z, htext, ⟨rfl, hneg⟩ | ⟨rfl | rfl, hpos⟩⟩
      · obtain ⟨rfl, rfl⟩ := List.cons.inj htext
        rw [readInt, if_pos rfl]
        refine Option.map_eq_some_iff.mpr ⟨n.natAbs, readNat_eq_some.mpr ⟨z, rfl⟩, ?_⟩
        omega
      · obtain ⟨rfl, rfl⟩ := List.cons.inj htext
        rw [readInt, if_neg (by decide), if_pos rfl]
        exact Option.map_eq_some_iff.mpr
          ⟨n.natAbs, readNat_eq_some.mpr ⟨z, rfl⟩, Int.natAbs_of_nonneg hpos⟩
      · rw [List.nil_append] at htext
        have hdigit : isDigitByte b = true :=
          isDigitByte_of_mem_zeros (z := z) (k := n.natAbs) (htext ▸ List.mem_cons_self)
        have hminus : b ≠ 45 := by
          rintro rfl
          exact absurd hdigit (by decide)
        have hplus : b ≠ 43 := by
          rintro rfl
          exact absurd hdigit (by decide)
        rw [readInt, if_neg hminus, if_neg hplus]
        exact Option.map_eq_some_iff.mpr
          ⟨n.natAbs, readNat_eq_some.mpr ⟨z, htext⟩, Int.natAbs_of_nonneg hpos⟩

theorem readInt64_eq_some {s : Bytes} {n : Int} :
    readInt64 s = some n ↔ SpellsInt s n ∧ -2 ^ 63 ≤ n ∧ n < 2 ^ 63 := by
  rw [readInt64, Option.filter_eq_some_iff, readInt_eq_some, decide_eq_true_eq]

end SqlOptimizer
