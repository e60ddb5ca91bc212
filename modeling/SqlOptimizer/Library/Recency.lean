import Mathlib.Data.List.Dedup

/-! The members of a set in the order of their last use in a log. -/

namespace SqlOptimizer

variable {α : Type*} [DecidableEq α] {log : List α} {kept kept' : α → Bool} {a : α}

/-- The kept members, by their last use in the log, the least recent first. -/
def byLastUse (log : List α) (kept : α → Bool) : List α := log.dedup.filter kept

/-- A use moves its key to the end. -/
theorem dedup_concat [BEq α] [LawfulBEq α] (log : List α) (a : α) : (log ++ [a]).dedup = log.dedup.erase a ++ [a] := by
  induction log with
  | nil => rfl
  | cons b log ih =>
    rw [List.cons_append]
    by_cases hmem : b ∈ log
    · rw [List.dedup_cons_of_mem (List.mem_append_left _ hmem), List.dedup_cons_of_mem hmem, ih]
    by_cases hab : b = a
    · subst hab
      have herase : log.dedup.erase b = log.dedup :=
        List.erase_of_not_mem fun h => hmem (List.mem_dedup.mp h)
      rw [List.dedup_cons_of_mem (by simp), List.dedup_cons_of_notMem hmem, List.erase_cons_head, ih,
        herase]
    · have hnot : b ∉ log ++ [a] := by simp [hmem, hab]
      rw [List.dedup_cons_of_notMem hnot, List.dedup_cons_of_notMem hmem, ih,
        List.erase_cons_tail (by simpa using hab), List.cons_append]

theorem nodup_byLastUse : (byLastUse log kept).Nodup := (List.nodup_dedup log).filter _

theorem byLastUse_congr (h : ∀ b, kept b = kept' b) : byLastUse log kept = byLastUse log kept' := by
  rw [funext h]

/-- A member that is dropped leaves the others in their order. -/
theorem byLastUse_drop [BEq α] [LawfulBEq α] (h : ∀ b, kept' b = (kept b && b != a)) :
    byLastUse log kept' = (byLastUse log kept).erase a := by
  rw [nodup_byLastUse.erase_eq_filter, byLastUse, byLastUse, List.filter_filter]
  exact List.filter_congr fun b _ => by rw [h b, Bool.and_comm]

/-- The use of a member, new or not. -/
theorem byLastUse_use [BEq α] [LawfulBEq α] (h : ∀ b, kept' b = (kept b || b == a)) :
    byLastUse (log ++ [a]) kept' = (byLastUse log kept).erase a ++ [a] := by
  have hself : kept' a = true := by rw [h a, beq_self_eq_true, Bool.or_true]
  have hothers : (log.dedup.erase a).filter kept' = (byLastUse log kept).erase a := by
    rw [nodup_byLastUse.erase_eq_filter, (List.nodup_dedup log).erase_eq_filter, byLastUse,
      List.filter_filter, List.filter_filter]
    refine List.filter_congr fun b _ => ?_
    simp only [h b, bne]
    cases kept b <;> cases b == a <;> rfl
  rw [byLastUse, dedup_concat, List.filter_append, hothers, List.filter_cons_of_pos hself]
  rfl

theorem byLastUse_none (h : ∀ b, kept b = false) : byLastUse log kept = [] := by
  rw [byLastUse, List.filter_eq_nil_iff]
  exact fun b _ => by rw [h b]; decide

end SqlOptimizer
