import SqlOptimizer.Distributed.Collecting
import SqlOptimizer.Execution.SortOrder

/-! The groups that come out the same however their rows are spread over workers, in exact
arithmetic. -/

namespace SqlOptimizer

attribute [local instance] Rounding.exact

/-- MIN and MAX: the aggregates whose partial values can be lost or told apart. -/
def AggregateExpr.IsExtreme (agg : AggregateExpr) : Prop := agg.func = "MIN" ∨ agg.func = "MAX"

/-- The rows of an aggregate that can be spread.  A worker without a value for a MIN or a MAX reports
NULL, and of values that are equal the first one is kept. -/
structure Splittable (groupBy : List Expression) (aggregates : List AggregateExpr)
    (schema : RowSchema) (rows : List Row) : Prop where
  size : rows.length < 2 ^ 53
  keys : ∀ a ∈ rows, ∀ b ∈ rows, groupText groupBy schema a = groupText groupBy schema b →
    groupKeyOf groupBy schema a = groupKeyOf groupBy schema b
  averages : groupBy = [] → rows = [] → ∀ agg ∈ aggregates, agg.func ≠ "AVG"
  grouped : ∀ agg ∈ aggregates, agg.IsExtreme → groupBy ≠ []
  placed : ∀ agg ∈ aggregates, agg.IsExtreme → ∀ row ∈ rows, ∃ v,
    aggregateInput agg row schema = .ok v ∧ literalIsNull v = false ∧ v ≠ .floating .nan
  level : ∀ agg ∈ aggregates, agg.IsExtreme → ∀ a ∈ valuesOf schema agg rows,
    ∀ b ∈ valuesOf schema agg rows, less a b = false → less b a = false → a = b

section

variable {groupBy : List Expression} {aggregates : List AggregateExpr} {schema : RowSchema}
  {rows rows' : List Row} {ws : List (List Row)}

theorem valuesOf_subset {agg : AggregateExpr} (h : rows ⊆ rows') :
    valuesOf schema agg rows ⊆ valuesOf schema agg rows' := by
  intro v hv
  obtain ⟨hv, hpresent⟩ := List.mem_filter.mp hv
  obtain ⟨row, hrow, rfl⟩ := List.mem_map.mp hv
  exact List.mem_filter.mpr ⟨List.mem_map_of_mem (h hrow), hpresent⟩

namespace Splittable

theorem perm (h : Splittable groupBy aggregates schema rows) (hperm : rows'.Perm rows) :
    Splittable groupBy aggregates schema rows' where
  size := hperm.length_eq ▸ h.size
  keys a ha b hb := h.keys a (hperm.mem_iff.mp ha) b (hperm.mem_iff.mp hb)
  averages hg hr := h.averages hg (List.perm_nil.mp (hr ▸ hperm.symm))
  grouped := h.grouped
  placed agg hagg hext row hrow := h.placed agg hagg hext row (hperm.mem_iff.mp hrow)
  level agg hagg hext a ha b hb := h.level agg hagg hext a (valuesOf_subset hperm.subset ha) b
    (valuesOf_subset hperm.subset hb)

theorem nan_not_mem (h : Splittable groupBy aggregates schema rows) {agg : AggregateExpr}
    (hagg : agg ∈ aggregates) (hext : agg.IsExtreme) : .floating .nan ∉ valuesOf schema agg rows := by
  intro hnan
  obtain ⟨row, hrow, heq⟩ := List.mem_map.mp (List.mem_filter.mp hnan).1
  obtain ⟨v, hv, -, hne⟩ := h.placed agg hagg hext row hrow
  rw [hv] at heq
  exact hne heq

/-- The values of a group for MIN and MAX are ordered. -/
theorem ordered (h : Splittable groupBy aggregates schema rows)
    (haggregable : Aggregable groupBy aggregates schema rows) (k : String) {agg : AggregateExpr}
    (hagg : agg ∈ aggregates) (hext : agg.IsExtreme) :
    Extreme.Ordered less (valuesOf schema agg (groupMembers groupBy schema rows k)) :=
  ordered_of_comparable ((haggregable.values k agg hagg).2 hext) fun hin =>
    h.nan_not_mem hagg hext (valuesOf_subset (List.filter_subset_self _) hin)

/-- A worker that reports a group has a value of it. -/
theorem head_reportedValues (h : Splittable groupBy aggregates schema rows)
    (hws : ∀ w ∈ ws, w ⊆ rows) (k : String) {agg : AggregateExpr} (hagg : agg ∈ aggregates)
    (hext : agg.IsExtreme) : (reportedValues groupBy schema ws k agg).head? ≠ some [] := by
  intro hhead
  have hmem := List.mem_of_mem_head? (Option.mem_def.mpr hhead)
  obtain ⟨w, hw, hnil⟩ := List.mem_map.mp hmem
  obtain ⟨hw, hreports⟩ := List.mem_filter.mp hw
  have hgrouped := h.grouped agg hagg hext
  obtain ⟨row, hrow, hk⟩ := (reports_iff fun hnone => hgrouped hnone.1).mp hreports
  obtain ⟨v, hv, hnull, -⟩ := h.placed agg hagg hext row (hws w hw hrow)
  have hin : v ∈ valuesOf schema agg (groupMembers groupBy schema w k) := by
    refine List.mem_filter.mpr ⟨List.mem_map.mpr ⟨row, List.mem_filter.mpr ⟨hrow, ?_⟩, ?_⟩, ?_⟩
    · simpa using hk
    · rw [hv]
      rfl
    · simpa using hnull
  rw [hnil] at hin
  cases hin

/-- All the values of a group are heard. -/
theorem heardValues_reportedValues (h : Splittable groupBy aggregates schema rows)
    (hsplit : ws.flatten.Perm rows) (k : String) {agg : AggregateExpr} (hagg : agg ∈ aggregates)
    (hext : agg.IsExtreme) : heardValues (reportedValues groupBy schema ws k agg) =
      (reportedValues groupBy schema ws k agg).flatten := by
  refine heardValues_eq_flatten fun v hv => ?_
  rw [flatten_reportedValues] at hv
  have hin : v ∈ valuesOf schema agg rows := valuesOf_subset
    (fun row hrow => hsplit.mem_iff.mp (List.mem_filter.mp hrow).1) hv
  have hnan := h.nan_not_mem hagg hext
  have hnull := not_null_of_mem_present hin
  cases v with
  | floating x => cases x <;> simp_all [unordered, isNaN]
  | _ => simpa [unordered, isNaN] using hnull

/-- A MIN or a MAX survives the merge. -/
theorem extremeKept (h : Splittable groupBy aggregates schema rows)
    (haggregable : Aggregable groupBy aggregates schema rows) (hsplit : ws.flatten.Perm rows)
    (k : String) {agg : AggregateExpr} (hagg : agg ∈ aggregates) (hext : agg.IsExtreme) :
    SqlOptimizer.extremeKept less (valuesOf schema agg (groupMembers groupBy schema rows k))
        (reportedValues groupBy schema ws k agg) ∧
      SqlOptimizer.extremeKept (fun a b => less b a)
        (valuesOf schema agg (groupMembers groupBy schema rows k))
        (reportedValues groupBy schema ws k agg) := by
  have hsub : ∀ w ∈ ws, w ⊆ rows := fun w hw row hrow =>
    hsplit.mem_iff.mp (List.mem_flatten.mpr ⟨w, hw, hrow⟩)
  have hhead := h.head_reportedValues hsub k hagg hext
  have hheard := h.heardValues_reportedValues hsplit k hagg hext
  have hord := h.ordered haggregable k hagg hext
  have hperm : (valuesOf schema agg (groupMembers groupBy schema rows k)).Perm
      (reportedValues groupBy schema ws k agg).flatten := by
    rw [flatten_reportedValues]
    exact valuesOf_perm agg (groupMembers_perm hsplit.symm k)
  have hlevel : ∀ a ∈ valuesOf schema agg (groupMembers groupBy schema rows k),
      ∀ b ∈ valuesOf schema agg (groupMembers groupBy schema rows k),
        less a b = false → less b a = false → a = b := fun a ha b hb =>
    h.level agg hagg hext a (valuesOf_subset (List.filter_subset_self _) ha) b
      (valuesOf_subset (List.filter_subset_self _) hb)
  unfold SqlOptimizer.extremeKept
  rw [hheard]
  refine ⟨fun _ => ⟨hhead, Extreme.extreme_perm hord hperm (fun a _ => less_irrefl a) hlevel⟩,
    fun _ => ⟨hhead, Extreme.extreme_perm hord.flip hperm (fun a _ => less_irrefl a) ?_⟩⟩
  exact fun a ha b hb hab hba => hlevel a ha b hb hba hab

theorem groupKept (h : Splittable groupBy aggregates schema rows)
    (haggregable : Aggregable groupBy aggregates schema rows) (hsplit : ws.flatten.Perm rows)
    (k : String) : SqlOptimizer.groupKept groupBy aggregates schema rows ws k := by
  have hmembers : (groupMembers groupBy schema ws.flatten k).Perm
      (groupMembers groupBy schema rows k) := groupMembers_perm hsplit k
  refine ⟨?_, fun agg hagg => ⟨fun hmin => (h.extremeKept haggregable hsplit k hagg (.inl hmin)).1,
    fun hmax => (h.extremeKept haggregable hsplit k hagg (.inr hmax)).2,
    countsKept_of_rows_lt hsplit h.size k agg⟩⟩
  -- the first rows of the group may differ, but not their keys
  rcases hm : groupMembers groupBy schema rows k with _ | ⟨row, ms⟩
  · rw [hm] at hmembers
    rw [List.perm_nil.mp hmembers]
  rcases hm' : groupMembers groupBy schema ws.flatten k with _ | ⟨row', ms'⟩
  · rw [hm, hm'] at hmembers
    cases List.nil_perm.mp hmembers
  have hrow : row ∈ groupMembers groupBy schema rows k := by rw [hm]; exact List.mem_cons_self
  have hrow' : row' ∈ groupMembers groupBy schema rows k :=
    hmembers.mem_iff.mp (by rw [hm']; exact List.mem_cons_self)
  obtain ⟨hin, hk⟩ := List.mem_filter.mp hrow
  obtain ⟨hin', hk'⟩ := List.mem_filter.mp hrow'
  have hkey := h.keys row hin row' hin' ((of_decide_eq_true hk).trans (of_decide_eq_true hk').symm)
  simp [hkey]

/-- The row of a group is the merged row of the group. -/
theorem groupRow_eq (h : Splittable groupBy aggregates schema rows)
    (hf : ∀ agg ∈ aggregates, agg.func ∈ aggregateFunctions)
    (haggregable : Aggregable groupBy aggregates schema rows) (hsplit : ws.flatten.Perm rows)
    {k : String} (hk : ∃ row ∈ rows, groupText groupBy schema row = k) :
    groupRow groupBy aggregates schema (groupMembers groupBy schema rows k) =
      mergedRow groupBy aggregates schema ws k :=
  (groupRow_eq_mergedRow_iff hf haggregable hsplit hk).mpr (h.groupKept haggregable hsplit k)

/-- The merged rows. -/
theorem merged (h : Splittable groupBy aggregates schema rows)
    (hf : ∀ agg ∈ aggregates, agg.func ∈ aggregateFunctions) {out : List Row}
    (hout : hashAggregateRows groupBy aggregates schema rows = .ok out) (hws : ws ≠ [])
    (hsplit : ws.flatten.Perm rows) :
    ∃ merged, distributedAggregate groupBy aggregates schema ws = .ok merged ∧ merged.Perm out := by
  obtain ⟨haggregable, hempty, hgroups⟩ := hashAggregateRows_eq_ok hf hout
  have haggregable' := haggregable.of_subperm hsplit.subperm
  obtain ⟨keys', hnodup', hmem', hmerged⟩ := distributedAggregate_eq_ok hf haggregable'
  refine ⟨_, hmerged, ?_⟩
  have hkeys : ∀ k, k ∈ keys' ↔ reports groupBy schema k rows = true := fun k => by
    rw [hmem', exists_reports_iff hws, reports_perm hsplit]
  by_cases hnone : groupBy = [] ∧ rows = []
  · obtain ⟨rfl, rfl⟩ := hnone
    have hone : keys'.Perm [""] := by
      rw [List.perm_ext_iff_of_nodup hnodup' (by simp)]
      intro k
      rw [hkeys, List.mem_singleton]
      simp [reports]
    have hrow : emptyAggregateRow aggregates = mergedRow [] aggregates schema ws "" :=
      (emptyAggregateRow_eq_mergedRow_iff hf (List.perm_nil.mp hsplit)).mpr (h.averages rfl rfl)
    rw [hempty rfl rfl, hrow]
    exact hone.map _
  · obtain ⟨keys, hnodup, hmem, rfl⟩ := hgroups hnone
    have hsame : keys'.Perm keys := by
      rw [List.perm_ext_iff_of_nodup hnodup' hnodup]
      intro k
      rw [hkeys, hmem, reports_iff hnone]
    refine (hsame.map _).trans (.of_eq (List.map_congr_left fun k hk => ?_))
    exact (h.groupRow_eq hf haggregable hsplit ((hmem k).mp hk)).symm

/-- The groups do not depend on the order of the rows. -/
theorem orderFree (h : Splittable groupBy aggregates schema rows)
    (haggregable : Aggregable groupBy aggregates schema rows)
    (hf : ∀ agg ∈ aggregates, agg.func ∈ aggregateFunctions) :
    OrderFree groupBy aggregates schema rows where
  keys := h.keys
  values k agg hagg vs hperm := by
    have hsums : sumOf vs = sumOf (valuesOf schema agg (groupMembers groupBy schema rows k)) :=
      sumOf_perm hperm
    have hlevel : agg.IsExtreme → ∀ a ∈ valuesOf schema agg (groupMembers groupBy schema rows k),
        ∀ b ∈ valuesOf schema agg (groupMembers groupBy schema rows k),
          less a b = false → less b a = false → a = b := fun hext a ha b hb =>
      h.level agg hagg hext a (valuesOf_subset (List.filter_subset_self _) ha) b
        (valuesOf_subset (List.filter_subset_self _) hb)
    have hfunc := hf agg hagg
    simp only [aggregateFunctions, List.mem_cons, List.not_mem_nil, or_false] at hfunc
    rcases hfunc with hfunc | hfunc | hfunc | hfunc | hfunc
    · simp only [outputOf, if_pos hfunc, hperm.length_eq]
    · simp [outputOf, hfunc, hsums]
    · simp [outputOf, hfunc, hsums, hperm.length_eq]
    · have hext : agg.IsExtreme := .inl hfunc
      have hleast : leastOf vs = leastOf (valuesOf schema agg (groupMembers groupBy schema rows k)) :=
        (Extreme.extreme_perm (h.ordered haggregable k hagg hext) hperm.symm
          (fun a _ => less_irrefl a) (hlevel hext)).symm
      simp [outputOf, hfunc, hleast]
    · have hext : agg.IsExtreme := .inr hfunc
      have hgreatest : greatestOf vs =
          greatestOf (valuesOf schema agg (groupMembers groupBy schema rows k)) :=
        (Extreme.extreme_perm (h.ordered haggregable k hagg hext).flip hperm.symm
          (fun a _ => less_irrefl a)
          fun a ha b hb hab hba => hlevel hext a ha b hb hba hab).symm
      simp [outputOf, hfunc, hgreatest]

theorem spreads (h : Splittable groupBy aggregates schema rows)
    (hf : ∀ agg ∈ aggregates, agg.func ∈ aggregateFunctions) {out : List Row}
    (hout : hashAggregateRows groupBy aggregates schema rows = .ok out) :
    Spreads (some (groupBy, aggregates)) schema rows out where
  whole := hout
  merged _ hws hsplit := h.merged hf hout hws hsplit
  reordered _ hperm :=
    (h.orderFree (hashAggregateRows_eq_ok hf hout).1 hf).reordered hf hout hperm

end Splittable

end

end SqlOptimizer
