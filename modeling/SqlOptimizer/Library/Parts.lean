import SqlOptimizer.Library.Pairs
import Mathlib.Data.List.Range

/-! A list split by a key into the parts `0, …, n - 1`, and the join of two lists that are split
alike. -/

namespace Parts

variable {α β γ : Type}

/-- The elements whose key is `i`. -/
def part (key : α → Nat) (i : Nat) (l : List α) : List α := l.filter (key · == i)

theorem mem_part {key : α → Nat} {i : Nat} {l : List α} {a : α} :
    a ∈ part key i l ↔ a ∈ l ∧ key a = i := by
  simp [part]

/-- The parts together are the list. -/
theorem flatMap_part_perm {key : α → Nat} {n : Nat} {l : List α} (h : ∀ a ∈ l, key a < n) :
    ((List.range n).flatMap fun i => part key i l).Perm l := by
  induction l with
  | nil => simp [part]
  | cons a l ih =>
    have hrest := ih fun b hb => h b (by simp [hb])
    have hone : ((List.range n).flatMap fun i => if key a == i then [a] else []) = [a] := by
      have hmap : ∀ is : List Nat, (is.flatMap fun i => if key a == i then [a] else []) =
          List.replicate (is.count (key a)) a := by
        intro is
        induction is with
        | nil => rfl
        | cons i is ih =>
          rw [List.flatMap_cons, ih, List.count_cons]
          by_cases hi : key a = i
          · simp [hi, List.replicate_succ]
          · simp [hi, Ne.symm hi]
      rw [hmap, List.count_eq_one_of_mem List.nodup_range (List.mem_range.mpr (h a (by simp)))]
      rfl
    have hsplit : ((List.range n).flatMap fun i => part key i (a :: l)) =
        (List.range n).flatMap fun i => (if key a == i then [a] else []) ++ part key i l := by
      refine List.flatMap_congr fun i _ => ?_
      rw [part, List.filter_cons]
      split <;> simp_all [part]
    rw [hsplit]
    calc ((List.range n).flatMap fun i => (if key a == i then [a] else []) ++ part key i l).Perm
          _ := (List.flatMap_append_perm _ _ _).symm
      _ = a :: (List.range n).flatMap fun i => part key i l := by rw [hone]; rfl
      List.Perm _ (a :: l) := hrest.cons a

/-- Parts by a partial key hold the elements that have a key below `n`. -/
theorem flatMap_filter_some_perm (key : α → Option Nat) (n : Nat) (l : List α) :
    ((List.range n).flatMap fun i => l.filter (key · == some i)).Perm
      (l.filter fun a => (key a).any (· < n)) := by
  have hpart : ∀ i ∈ List.range n, l.filter (key · == some i) =
      part (fun a => (key a).getD n) i (l.filter fun a => (key a).any (· < n)) := by
    intro i hi
    have hlt : i < n := List.mem_range.mp hi
    rw [part, List.filter_filter]
    refine List.filter_congr fun a _ => ?_
    cases hk : key a with
    | none => simp
    | some k => by_cases hki : k = i <;> simp [hki, hlt]
  rw [List.flatMap_congr hpart]
  refine flatMap_part_perm fun a ha => ?_
  obtain ⟨k, hk, hlt⟩ := (Option.any_eq_true _ _).mp (List.mem_filter.mp ha).2
  rw [hk, Option.getD_some]
  exact of_decide_eq_true hlt

/-- What a filter keeps is the whole list exactly when it keeps every element. -/
theorem filter_perm_iff {p : α → Bool} {l : List α} :
    (l.filter p).Perm l ↔ ∀ a ∈ l, p a = true := by
  rw [← List.filter_eq_self]
  exact ⟨fun h => List.filter_sublist.eq_of_length h.length_eq, fun h => by rw [h]⟩

/-- A list that is in every part. -/
theorem flatMap_const_perm_iff {n : Nat} {l : List α} :
    ((List.range n).flatMap fun _ => l).Perm l ↔ n = 1 ∨ l = [] := by
  constructor
  · intro h
    have hlen : n * l.length = l.length := by
      simpa [List.length_flatMap] using h.length_eq
    rcases Nat.eq_zero_or_pos l.length with hzero | hpos
    · exact .inr (List.length_eq_zero_iff.mp hzero)
    · exact .inl (Nat.eq_of_mul_eq_mul_right hpos (hlen.trans (Nat.one_mul _).symm))
  · rintro (rfl | rfl)
    · simp
    · simp

/-- Parts that are joined apart give the pairs whose keys are equal. -/
theorem flatMap_joinBy_part_perm {f : α → β → γ} {p : α → β → Bool} {kl : α → Nat} {kr : β → Nat}
    {n : Nat} {l : List α} {r : List β} (h : ∀ a ∈ l, kl a < n) :
    ((List.range n).flatMap fun i => Pairs.joinBy f p (part kl i l) (part kr i r)).Perm
      (Pairs.joinBy f (fun a b => kl a == kr b && p a b) l r) := by
  have hpart : ∀ i, Pairs.joinBy f p (part kl i l) (part kr i r) =
      (part kl i l).flatMap fun a => (r.filter fun b => kl a == kr b && p a b).map (f a) := by
    intro i
    refine List.flatMap_congr fun a ha => ?_
    obtain ⟨-, rfl⟩ := mem_part.mp ha
    rw [part, List.filter_filter]
    congr 1
    refine List.filter_congr fun b _ => ?_
    rw [Bool.and_comm, Bool.beq_comm]
  simp only [hpart]
  rw [← List.flatMap_assoc]
  exact (flatMap_part_perm h).flatMap_right _

end Parts
