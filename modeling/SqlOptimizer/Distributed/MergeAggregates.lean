import SqlOptimizer.Distributed.PartialAggregates
import SqlOptimizer.Execution.ValueOrder
import SqlOptimizer.Library.ExactSum

/-! Aggregation over workers against aggregation in one place, in exact arithmetic.  Sums, counts and
averages merge.  A worker that reports a group without a value for MIN or MAX reports NULL, and a
NULL that comes first stays.  So does a NaN, on a worker and in the merge. -/

namespace SqlOptimizer

attribute [local instance] Rounding.exact

/-! ### The split aggregates -/

/-- What the mapping of an aggregate points at. -/
def MappingFits (worker : List AggregateExpr) (agg : AggregateExpr) (m : AvgMapping) : Prop :=
  if agg.func = "AVG" then
    ∃ s c, m.sumIdx = some s ∧ m.countIdx = some c ∧
      worker[s]? = some ⟨"SUM", agg.arg, none⟩ ∧ worker[c]? = some ⟨"COUNT", agg.arg, none⟩
  else ∃ d, m.directIdx = some d ∧ worker[d]? = some agg

theorem MappingFits.append {worker : List AggregateExpr} {agg : AggregateExpr} {m : AvgMapping}
    (h : MappingFits worker agg m) (more : List AggregateExpr) :
    MappingFits (worker ++ more) agg m := by
  have hgrow : ∀ {i : Nat} {a : AggregateExpr}, worker[i]? = some a →
      (worker ++ more)[i]? = some a := by
    intro i a hi
    rw [List.getElem?_append_left (List.getElem?_eq_some_iff.mp hi).1, hi]
  unfold MappingFits at h ⊢
  split
  case isTrue havg =>
    rw [if_pos havg] at h
    obtain ⟨s, c, hs, hc, hsum, hcount⟩ := h
    exact ⟨s, c, hs, hc, hgrow hsum, hgrow hcount⟩
  case isFalse havg =>
    rw [if_neg havg] at h
    obtain ⟨d, hd, hdirect⟩ := h
    exact ⟨d, hd, hgrow hdirect⟩

/-- An aggregate of the workers and the aggregate of the query that it comes from. -/
def PartOf (w agg : AggregateExpr) : Prop :=
  if agg.func = "AVG" then w = ⟨"SUM", agg.arg, none⟩ ∨ w = ⟨"COUNT", agg.arg, none⟩ else w = agg

theorem splitAvg_spec (aggregates : List AggregateExpr) :
    List.Forall₂ (MappingFits (splitAvg aggregates).workerAggregates) aggregates
        (splitAvg aggregates).mapping ∧
      ∀ w ∈ (splitAvg aggregates).workerAggregates, ∃ agg ∈ aggregates, PartOf w agg := by
  induction aggregates using List.reverseRecOn with
  | nil => exact ⟨.nil, by simp [splitAvg]⟩
  | append_singleton aggregates agg ih =>
    obtain ⟨hfits, hparts⟩ := ih
    have hsplit : splitAvg (aggregates ++ [agg]) = splitOne (splitAvg aggregates) agg := by
      simp [splitAvg]
    rw [hsplit]
    generalize splitAvg aggregates = out at hfits hparts
    unfold splitOne
    by_cases havg : agg.func = "AVG"
    · simp only [havg, if_true]
      refine ⟨List.rel_append (hfits.imp fun _ _ h => h.append _) (.cons ?_ .nil), ?_⟩
      · unfold MappingFits
        rw [if_pos havg]
        exact ⟨_, _, rfl, rfl, by simp, by simp⟩
      · intro w hw
        rcases List.mem_append.mp hw with hw | hw
        · obtain ⟨a, ha, hwa⟩ := hparts w hw
          exact ⟨a, by simp [ha], hwa⟩
        · exact ⟨agg, by simp, by simpa [PartOf, havg] using hw⟩
    · simp only [havg, if_false]
      refine ⟨List.rel_append (hfits.imp fun _ _ h => h.append _) (.cons ?_ .nil), ?_⟩
      · unfold MappingFits
        rw [if_neg havg]
        exact ⟨_, rfl, by simp⟩
      · intro w hw
        rcases List.mem_append.mp hw with hw | hw
        · obtain ⟨a, ha, hwa⟩ := hparts w hw
          exact ⟨a, by simp [ha], hwa⟩
        · exact ⟨agg, by simp, by simpa [PartOf, havg] using hw⟩

/-! ### Merging one aggregate -/

/-- What the workers report for a MIN or a MAX: NULL where they have no value. -/
def reported (before : Literal → Literal → Bool) (vs : List Literal) : Literal :=
  (Extreme.extreme before vs).getD .null

/-- The count that the merge adds up, in double. -/
def mergedCount (vss : List (List Literal)) : Binary64 :=
  Binary64.total (vss.map fun vs => Binary64.ofInt (Int64.ofNat vs.length).toInt)

/-- A value that `literal_less` puts neither before nor after another. -/
def unordered (v : Literal) : Bool := literalIsNull v || isNaN v

/-- What a merge hears of the values of a worker: a NaN that comes first hides the others. -/
def heardValues (vss : List (List Literal)) : List Literal := vss.flatMap (Extreme.heard unordered)

/-- An average, 0 over nothing. -/
def averageOf (sum count : Binary64) : Binary64 :=
  if Binary64.lt Binary64.zero count then Binary64.div sum count else Binary64.zero

/-- The accumulators of the merge after workers with the values `vss`. -/
def mergedAcc (func : String) (vss : List (List Literal)) : PartialAcc where
  sum := if func = "SUM" ∨ func = "AVG" then Binary64.total (vss.map sumOf) else Binary64.zero
  count := if func = "COUNT" ∨ func = "AVG" then mergedCount vss else Binary64.zero
  min := if func = "MIN" then Extreme.extreme less (vss.map (reported less)) else none
  max := if func = "MAX" then
      Extreme.extreme (fun a b => less b a) (vss.map (reported fun a b => less b a))
    else none

/-- The output of the merge after workers with the values `vss`. -/
def mergedOutput (func : String) (vss : List (List Literal)) : Literal :=
  if func = "COUNT" then .integer (doubleToInt64 (mergedCount vss))
  else if func = "AVG" then .floating (averageOf (sumOf vss.flatten) (mergedCount vss))
  else if func = "MIN" then
    if vss.head? = some [] then .null else (leastOf (heardValues vss)).getD .null
  else if func = "MAX" then
    if vss.head? = some [] then .null else (greatestOf (heardValues vss)).getD .null
  else outputOf func vss.flatten

theorem total_snoc (xs : List Binary64) (x : Binary64) :
    Binary64.total (xs ++ [x]) = Binary64.add (Binary64.total xs) x := by
  simp [Binary64.total]

theorem extreme_snoc (before : Literal → Literal → Bool) (vs : List Literal) (v : Literal) :
    Extreme.extreme before (vs ++ [v]) = Extreme.keep before (Extreme.extreme before vs) v := by
  simp [Extreme.extreme]

theorem mergedCount_snoc (vss : List (List Literal)) (vs : List Literal) :
    mergedCount (vss ++ [vs]) =
      Binary64.add (mergedCount vss) (Binary64.ofInt (Int64.ofNat vs.length).toInt) := by
  simp [mergedCount, total_snoc]

theorem less_unordered (v : Literal) (h : unordered v = true) (w : Literal) :
    less w v = false ∧ less v w = false := by
  rcases Bool.or_eq_true_iff.mp h with h | h
  · cases v <;> cases h
    cases w <;> simp [less, literalLess, literalIsNull, Except.toOption]
  · cases v with
    | floating x =>
      cases x <;> cases h
      constructor <;>
        (by_contra hlt
         rcases less_eq_true (Bool.eq_true_of_not_eq_false hlt) with ⟨x, y, hx, hy, hxy⟩ | ⟨s, t, hs, ht, -⟩
         · cases x <;> cases y <;> simp_all [numeric?, Binary64.lt]
         · simp_all)
    | _ => cases h

/-- `literal_less` answers on what workers report for comparable values. -/
theorem literalLess_reported {before : Literal → Literal → Bool} {vs ws : List Literal}
    (h : ∀ a ∈ vs, ∀ b ∈ ws, comparable a b = true) :
    literalLess (reported before vs) (reported before ws) =
      .ok (less (reported before vs) (reported before ws)) := by
  unfold reported
  cases hv : Extreme.extreme before vs with
  | none => simp [less, literalLess, literalIsNull, Except.toOption]
  | some a =>
    cases hw : Extreme.extreme before ws with
    | none => simp [less, literalLess, literalIsNull, Except.toOption]
    | some b =>
      exact literalLess_of_comparable (h a (Extreme.extreme_mem hv) b (Extreme.extreme_mem hw))

/-- A row of a worker has, where the mapping points, the outputs over the values `vs`. -/
def ReportsAt (func : String) (m : AvgMapping) (n : Nat) (row : Row) (vs : List Literal) : Prop :=
  if func = "AVG" then
    partialAt row n m.sumIdx = .ok (.floating (sumOf vs)) ∧
      partialAt row n m.countIdx = .ok (.integer (Int64.ofNat vs.length))
  else partialAt row n m.directIdx = .ok (outputOf func vs)

section Merge

variable {m : AvgMapping} {n : Nat} {row : Row} {vs : List Literal} {vss : List (List Literal)}

theorem keep_reported {before : Literal → Literal → Bool}
    {keepOne : Option Literal → Literal → Except String (Option Literal)}
    (hkeep : ∀ ws ∈ vss, keepOne (some (reported before ws)) (reported before vs) =
      .ok (Extreme.keep before (some (reported before ws)) (reported before vs)))
    (hnone : keepOne none (reported before vs) = .ok (some (reported before vs))) :
    keepOne (Extreme.extreme before (vss.map (reported before))) (reported before vs) =
      .ok (Extreme.extreme before ((vss ++ [vs]).map (reported before))) := by
  rw [List.map_append, List.map_singleton, extreme_snoc]
  cases hx : Extreme.extreme before (vss.map (reported before)) with
  | none => exact hnone
  | some x =>
    obtain ⟨ws, hws, rfl⟩ := List.mem_map.mp (Extreme.extreme_mem hx)
    exact hkeep ws hws

/-- One more worker. -/
theorem merge_mergedAcc {func : String} (hf : func ∈ aggregateFunctions)
    (hrow : ReportsAt func m n row vs)
    (hcmp : func = "MIN" ∨ func = "MAX" → ∀ ws ∈ vss, ∀ a ∈ vs, ∀ b ∈ ws, comparable a b = true) :
    (mergedAcc func vss).merge func m n row = .ok (mergedAcc func (vss ++ [vs])) := by
  simp only [aggregateFunctions, List.mem_cons, List.not_mem_nil, or_false] at hf
  rcases hf with rfl | rfl | rfl | rfl | rfl
  · have hcell : partialAt row n m.directIdx = .ok (.integer (Int64.ofNat vs.length)) := hrow
    simp [PartialAcc.merge, hcell, literalAsDouble, mergedAcc, mergedCount_snoc]
  · have hcell : partialAt row n m.directIdx = .ok (.floating (sumOf vs)) := hrow
    simp [PartialAcc.merge, hcell, literalAsDouble, mergedAcc, total_snoc]
  · obtain ⟨hsum, hcount⟩ : partialAt row n m.sumIdx = .ok (.floating (sumOf vs)) ∧
        partialAt row n m.countIdx = .ok (.integer (Int64.ofNat vs.length)) := hrow
    simp [PartialAcc.merge, hsum, hcount, literalAsDouble, mergedAcc, mergedCount_snoc, total_snoc]
  · have hcell : partialAt row n m.directIdx = .ok (reported less vs) := hrow
    have hkeep := @keep_reported vs vss less keepLess (fun ws hws => by
      simp only [keepLess, Extreme.keep, literalLess_reported (hcmp (.inl rfl) ws hws),
        Except.ok_bind]
      split <;> rfl) rfl
    simp only [PartialAcc.merge, hcell, mergedAcc, Except.ok_bind]
    simp [hkeep]
  · have hcell : partialAt row n m.directIdx = .ok (reported (fun a b => less b a) vs) := hrow
    have hkeep := @keep_reported vs vss (fun a b => less b a) keepGreater (fun ws hws => by
      simp only [keepGreater, Extreme.keep, literalLess_reported fun b hb a ha =>
        comparable_symm (hcmp (.inr rfl) ws hws a ha b hb), Except.ok_bind]
      split <;> rfl) rfl
    simp only [PartialAcc.merge, hcell, mergedAcc, Except.ok_bind]
    simp [hkeep]

/-- All the workers that report a group. -/
theorem foldlM_merge {ι : Type} {func : String} (hf : func ∈ aggregateFunctions) {items : List ι}
    {rowOf : ι → Row} {values : ι → List Literal}
    (hrows : ∀ i ∈ items, ReportsAt func m n (rowOf i) (values i))
    (hadm : admissible func (items.map values).flatten) :
    (items.map rowOf).foldlM (PartialAcc.merge func m n) PartialAcc.empty =
      .ok (mergedAcc func (items.map values)) := by
  induction items using List.reverseRecOn with
  | nil =>
    have hempty : mergedAcc func [] = PartialAcc.empty := by
      simp [mergedAcc, mergedCount, PartialAcc.empty, Binary64.total, Extreme.extreme]
    exact congrArg Except.ok hempty.symm
  | append_singleton items i ih =>
    rw [List.map_append, List.map_append, List.map_singleton, List.map_singleton]
    rw [List.map_append, List.flatten_append] at hadm
    have hinit := ih (fun j hj => hrows j (by simp [hj])) (admissible_initial hadm)
    rw [List.foldlM_append, hinit, Except.ok_bind, List.foldlM_cons, merge_mergedAcc hf
      (hrows i (by simp)) fun hext ws hws a ha b hb => ?_]
    · rfl
    · have hpair := (List.pairwise_append.mp (hadm.2 hext)).2.2
      exact comparable_symm (hpair b (List.mem_flatten.mpr ⟨ws, hws, hb⟩) a (by simpa using ha))

theorem sumOf_eq_total (vs : List Literal) : sumOf vs = Binary64.total (vs.map doubleOf) := rfl

theorem total_sumOf (vss : List (List Literal)) :
    Binary64.total (vss.map sumOf) = sumOf vss.flatten := by
  have h := Binary64.total_flatten (vss.map (List.map doubleOf))
  rwa [List.map_map, ← List.map_flatten, ← sumOf_eq_total] at h

theorem mergedCount_of_lt (h : vss.flatten.length < 2 ^ 53) :
    mergedCount vss = .fin false (vss.flatten.length : Nat) := by
  have hexact : ∀ vs ∈ vss, Binary64.ofInt (Int64.ofNat vs.length).toInt =
      .fin false ((vs.length : Nat) : ℚ≥0) := by
    intro vs hvs
    have hle : vs.length ≤ vss.flatten.length := (List.sublist_flatten_of_mem hvs).length_le
    rw [Int64.toInt_ofNat_of_lt (by omega), Binary64.ofInt_natCast (by omega)]
  have hcounts := Binary64.total_counts (vss.map List.length)
  rw [List.map_map, ← List.length_flatten] at hcounts
  rw [mergedCount, List.map_congr_left hexact]
  exact hcounts

theorem doubleToInt64_natCast (k : Nat) :
    doubleToInt64 (.fin false (k : ℚ≥0)) = Int64.ofNat k := by
  simp [doubleToInt64, Int64.ofInt_eq_ofNat]

/-- What a merge of `reported` values keeps. -/
theorem extreme_reported {before : Literal → Literal → Bool}
    (hbefore : ∀ v, unordered v = true → ∀ w, before w v = false ∧ before v w = false)
    (hord : Extreme.Ordered before (vss.flatten.filter fun v => !unordered v)) :
    (Extreme.extreme before (vss.map (reported before))).getD .null =
      if vss.head? = some [] then .null
      else (Extreme.extreme before (heardValues vss)).getD .null :=
  Extreme.extreme_reported hbefore rfl hord

/-- The values that `literal_less` orders. -/
theorem ordered_live {vs : List Literal} (h : vs.Pairwise fun a b => comparable a b = true) :
    Extreme.Ordered less (vs.filter fun v => !unordered v) := by
  refine ordered_of_comparable (h.sublist List.filter_sublist) fun hnan => ?_
  simp [unordered, isNaN] at hnan

/-- The merged outputs.  MIN and MAX depend on whether the first worker has a value. -/
theorem output_mergedAcc {func : String} (hf : func ∈ aggregateFunctions)
    (hadm : admissible func vss.flatten) :
    (mergedAcc func vss).output func = [mergedOutput func vss] := by
  simp only [aggregateFunctions, List.mem_cons, List.not_mem_nil, or_false] at hf
  rcases hf with rfl | rfl | rfl | rfl | rfl
  · simp [PartialAcc.output, mergedAcc, mergedOutput]
  · simp [PartialAcc.output, mergedAcc, mergedOutput, outputOf, total_sumOf]
  · have hsum : (mergedAcc "AVG" vss).sum = sumOf vss.flatten := total_sumOf vss
    have hcount : (mergedAcc "AVG" vss).count = mergedCount vss := rfl
    simp [PartialAcc.output, hsum, hcount, mergedOutput, averageOf]
  · have hmin := extreme_reported less_unordered (ordered_live (hadm.2 (.inl rfl)))
    simp only [PartialAcc.output, mergedAcc, mergedOutput, leastOf, String.reduceEq, if_false,
      if_true, hmin]
  · have hmax := extreme_reported (fun v hv w => (less_unordered v hv w).symm)
      (ordered_live (hadm.2 (.inr rfl))).flip
    simp only [PartialAcc.output, mergedAcc, mergedOutput, greatestOf, String.reduceEq, if_false,
      if_true, hmax]

end Merge

/-! ### The rows of the workers -/

section Rows

variable {groupBy : List Expression} {aggregates : List AggregateExpr} {schema : RowSchema}

theorem valuesOf_append (agg : AggregateExpr) (xs ys : List Row) :
    valuesOf schema agg (xs ++ ys) = valuesOf schema agg xs ++ valuesOf schema agg ys := by
  simp [valuesOf, present_append]

theorem valuesOf_flatten (agg : AggregateExpr) (xss : List (List Row)) :
    valuesOf schema agg xss.flatten = (xss.map (valuesOf schema agg)).flatten := by
  induction xss with
  | nil => rfl
  | cons xs xss ih => rw [List.flatten_cons, valuesOf_append, ih, List.map_cons, List.flatten_cons]

theorem groupMembers_flatten (ws : List (List Row)) (k : String) :
    groupMembers groupBy schema ws.flatten k =
      (ws.map fun w => groupMembers groupBy schema w k).flatten := by
  induction ws with
  | nil => rfl
  | cons w ws ih =>
    rw [List.map_cons, List.flatten_cons, List.flatten_cons, ← ih]
    exact List.filter_append ..

/-- A worker evaluates COUNT of the argument of an AVG where the AVG itself is evaluated. -/
theorem aggregateInput_part {w agg : AggregateExpr} (hpart : PartOf w agg) {row : Row}
    (h : ∃ v, aggregateInput agg row schema = .ok v) :
    aggregateInput w row schema = aggregateInput agg row schema := by
  unfold PartOf at hpart
  split at hpart
  case isTrue havg =>
    obtain ⟨func, arg, aliasName⟩ := agg
    cases havg
    obtain ⟨v, hv⟩ := h
    rcases hpart with rfl | rfl
    · cases arg <;> rfl
    · cases arg with
      | wildcard => cases hv
      | _ => rfl
  case isFalse => rw [hpart]

theorem valuesOf_part {w agg : AggregateExpr} (hpart : PartOf w agg) {rows : List Row}
    (h : ∀ row ∈ rows, ∃ v, aggregateInput agg row schema = .ok v) :
    valuesOf schema w rows = valuesOf schema agg rows := by
  unfold valuesOf
  congr 1
  refine List.map_congr_left fun row hrow => ?_
  rw [aggregateInput_part hpart (h row hrow)]

theorem func_of_part (hf : ∀ agg ∈ aggregates, agg.func ∈ aggregateFunctions) {w : AggregateExpr}
    (hw : w ∈ (splitAvg aggregates).workerAggregates) :
    w.func ∈ aggregateFunctions ∧ w.func ≠ "AVG" := by
  obtain ⟨agg, hagg, hpart⟩ := (splitAvg_spec aggregates).2 w hw
  unfold PartOf at hpart
  split at hpart
  case isTrue => rcases hpart with rfl | rfl <;> simp [aggregateFunctions]
  case isFalse havg =>
    rw [hpart]
    exact ⟨hf agg hagg, havg⟩

/-- The workers compute their parts without an exception. -/
theorem Aggregable.split {rows : List Row} (h : Aggregable groupBy aggregates schema rows) :
    Aggregable groupBy (splitAvg aggregates).workerAggregates schema rows := by
  refine ⟨h.keys, fun row hrow w hw => ?_, fun k w hw => ?_⟩
  · obtain ⟨agg, hagg, hpart⟩ := (splitAvg_spec aggregates).2 w hw
    rw [aggregateInput_part hpart (h.inputs row hrow agg hagg)]
    exact h.inputs row hrow agg hagg
  · obtain ⟨agg, hagg, hpart⟩ := (splitAvg_spec aggregates).2 w hw
    have hinputs : ∀ row ∈ groupMembers groupBy schema rows k,
        ∃ v, aggregateInput agg row schema = .ok v := fun row hrow =>
      h.inputs row (List.mem_filter.mp hrow).1 agg hagg
    rw [valuesOf_part hpart hinputs]
    have hadm := h.values k agg hagg
    unfold PartOf at hpart
    split at hpart
    case isTrue havg =>
      rcases hpart with rfl | rfl
      · exact ⟨fun _ => hadm.1 (.inr havg), fun hext => by simp at hext⟩
      · exact ⟨fun hnum => by simp at hnum, fun hext => by simp at hext⟩
    case isFalse => rw [hpart]; exact hadm

/-- The text of the key of a worker's row. -/
def rowTag (n : Nat) (row : Row) : String := groupKeyText (row.take n)

/-- Whether a worker with the rows `w` reports group `k`: without GROUP BY it always reports its one
group. -/
def reports (groupBy : List Expression) (schema : RowSchema) (k : String) (w : List Row) : Bool :=
  groupBy.isEmpty && k == "" || w.any fun row => groupText groupBy schema row == k

theorem groupText_of_no_groupBy (row : Row) : groupText [] schema row = "" := rfl

theorem reports_iff {rows : List Row} (hne : ¬ (groupBy = [] ∧ rows = [])) {k : String} :
    reports groupBy schema k rows = true ↔ ∃ row ∈ rows, groupText groupBy schema row = k := by
  simp only [reports, Bool.or_eq_true, Bool.and_eq_true, List.isEmpty_iff, List.any_eq_true,
    beq_iff_eq]
  refine ⟨?_, .inr⟩
  rintro (⟨rfl, rfl⟩ | h)
  · obtain ⟨row, hrow⟩ := List.exists_mem_of_ne_nil rows fun hnil => hne ⟨rfl, hnil⟩
    exact ⟨row, hrow, groupText_of_no_groupBy row⟩
  · exact h

theorem reports_perm {rows rows' : List Row} (h : rows.Perm rows') (k : String) :
    reports groupBy schema k rows = reports groupBy schema k rows' := by
  simp only [reports, h.any_eq]

theorem exists_reports_iff {ws : List (List Row)} (hws : ws ≠ []) {k : String} :
    (∃ w ∈ ws, reports groupBy schema k w = true) ↔
      reports groupBy schema k ws.flatten = true := by
  simp only [reports, Bool.or_eq_true, List.any_flatten, List.any_eq_true, and_or_left, exists_or]
  refine or_congr_left ⟨fun ⟨w, _, h⟩ => h, fun h => ?_⟩
  obtain ⟨w, hw⟩ := List.exists_mem_of_ne_nil ws hws
  exact ⟨w, hw, h⟩

/-- The key part of a group's row. -/
theorem length_groupKey {rows : List Row} (h : Aggregable groupBy aggregates schema rows)
    {k : String} (hk : reports groupBy schema k rows = true) :
    (((groupMembers groupBy schema rows k).head?.map (groupKeyOf groupBy schema)).getD []).length =
      groupBy.length := by
  cases hm : groupMembers groupBy schema rows k with
  | nil =>
    have hempty : groupBy = [] := by
      simp only [reports, Bool.or_eq_true, Bool.and_eq_true, List.isEmpty_iff, List.any_eq_true,
        beq_iff_eq] at hk
      rcases hk with ⟨hempty, -⟩ | ⟨row, hrow, hrk⟩
      · exact hempty
      · have hmem : row ∈ groupMembers groupBy schema rows k :=
          List.mem_filter.mpr ⟨hrow, by simp [hrk]⟩
        simp [hm] at hmem
    simp [hempty]
  | cons row ms =>
    have hrow : row ∈ groupMembers groupBy schema rows k := by simp [hm]
    obtain ⟨key, hkey⟩ := h.keys row (List.mem_filter.mp hrow).1
    have hlen := (Except.mapM_eq_ok.mp hkey).length_eq
    simpa [groupKeyOf, hkey, Except.toOption] using hlen.symm

theorem rowTag_groupRow {rows : List Row} (h : Aggregable groupBy aggregates schema rows)
    {k : String} (hk : reports groupBy schema k rows = true) :
    rowTag groupBy.length
      (groupRow groupBy aggregates schema (groupMembers groupBy schema rows k)) = k := by
  have hlen := length_groupKey h hk
  rw [rowTag, groupRow, List.take_left' hlen]
  cases hm : groupMembers groupBy schema rows k with
  | nil =>
    simp only [reports, Bool.or_eq_true, Bool.and_eq_true, List.any_eq_true, beq_iff_eq] at hk
    rcases hk with ⟨-, rfl⟩ | ⟨row, hrow, hrk⟩
    · rfl
    · have hmem : row ∈ groupMembers groupBy schema rows k :=
        List.mem_filter.mpr ⟨hrow, by simp [hrk]⟩
      simp [hm] at hmem
  | cons row ms =>
    have hrow : row ∈ groupMembers groupBy schema rows k := by simp [hm]
    exact of_decide_eq_true (List.mem_filter.mp hrow).2

/-- The one row over nothing is the row of the empty group, for aggregates other than AVG. -/
theorem emptyAggregateRow_eq (hf : ∀ agg ∈ aggregates, agg.func ∈ aggregateFunctions ∧
      agg.func ≠ "AVG") :
    emptyAggregateRow aggregates = groupRow groupBy aggregates schema [] := by
  simp only [emptyAggregateRow, groupRow, List.head?_nil, Option.map_none, Option.getD_none,
    List.nil_append]
  refine List.map_congr_left fun agg hagg => ?_
  obtain ⟨hfunc, havg⟩ := hf agg hagg
  simp only [aggregateFunctions, List.mem_cons, List.not_mem_nil, or_false] at hfunc
  have hnone : valuesOf schema agg [] = [] := rfl
  rw [hnone]
  rcases hfunc with h | h | h | h | h
  · simp only [h]; decide
  · simp only [h]; decide
  · exact absurd h havg
  · simp only [h]; decide
  · simp only [h]; decide

/-- What a worker returns for one group. -/
theorem filter_workerRows {rows out : List Row} (h : Aggregable groupBy aggregates schema rows)
    (hf : ∀ agg ∈ aggregates, agg.func ∈ aggregateFunctions ∧ agg.func ≠ "AVG")
    (hout : hashAggregateRows groupBy aggregates schema rows = .ok out) (k : String) :
    out.filter (fun row => rowTag groupBy.length row = k) =
      if reports groupBy schema k rows then
        [groupRow groupBy aggregates schema (groupMembers groupBy schema rows k)]
      else [] := by
  obtain ⟨-, hempty, hkeys⟩ := hashAggregateRows_eq_ok (fun agg hagg => (hf agg hagg).1) hout
  by_cases hnone : groupBy = [] ∧ rows = []
  · obtain ⟨rfl, rfl⟩ := hnone
    have hrow := @emptyAggregateRow_eq [] aggregates schema hf
    by_cases hk : k = ""
    · subst hk
      have hyes : reports [] schema "" [] = true := rfl
      rw [hempty rfl rfl, hrow, if_pos hyes]
      rfl
    · have hno : ¬ reports [] schema k [] = true := by simpa [reports] using hk
      rw [hempty rfl rfl, if_neg hno, List.filter_cons_of_neg, List.filter_nil]
      exact fun heq => hk (of_decide_eq_true heq).symm
  · obtain ⟨keys, hnodup, hmem, rfl⟩ := hkeys hnone
    have hreports : ∀ k, k ∈ keys ↔ reports groupBy schema k rows = true := fun k =>
      (hmem k).trans (reports_iff hnone).symm
    have htag : ∀ k' ∈ keys, rowTag groupBy.length (groupRow groupBy aggregates schema
        (groupMembers groupBy schema rows k')) = k' := fun k' hk' =>
      rowTag_groupRow h ((hreports k').mp hk')
    have hsame : keys.filter ((fun row => decide (rowTag groupBy.length row = k)) ∘ fun k' =>
        groupRow groupBy aggregates schema (groupMembers groupBy schema rows k')) =
          keys.filter (· = k) :=
      List.filter_congr fun k' hk' => by simp only [Function.comp, htag k' hk']
    rw [List.filter_map, hsame, List.filter_eq, hnodup.count]
    by_cases hk : k ∈ keys
    · rw [if_pos hk, if_pos ((hreports k).mp hk)]
      rfl
    · rw [if_neg hk, if_neg fun hr => hk ((hreports k).mpr hr)]
      rfl

theorem partialAt_groupRow {w : AggregateExpr} {i : Nat} (hi : aggregates[i]? = some w)
    {rows : List Row}
    (hlen : ((rows.head?.map (groupKeyOf groupBy schema)).getD []).length = groupBy.length) :
    partialAt (groupRow groupBy aggregates schema rows) groupBy.length (some i) =
      .ok (outputOf w.func (valuesOf schema w rows)) := by
  simp only [partialAt, groupRow, rowAt_eq_ok]
  rw [← hlen, List.getElem?_append_right (Nat.le_add_right _ _), Nat.add_sub_cancel_left,
    List.getElem?_map, hi]
  rfl

/-- What the mapping of an aggregate finds in the row of a worker. -/
theorem reportsAt_groupRow {worker : List AggregateExpr} {agg : AggregateExpr} {m : AvgMapping}
    (hfits : MappingFits worker agg m) {rows : List Row}
    (hlen : ((rows.head?.map (groupKeyOf groupBy schema)).getD []).length = groupBy.length)
    (hin : ∀ row ∈ rows, ∃ v, aggregateInput agg row schema = .ok v) :
    ReportsAt agg.func m groupBy.length (groupRow groupBy worker schema rows)
      (valuesOf schema agg rows) := by
  unfold MappingFits at hfits
  unfold ReportsAt
  split
  case isTrue havg =>
    rw [if_pos havg] at hfits
    obtain ⟨s, c, hs, hc, hsum, hcount⟩ := hfits
    have hpart : PartOf ⟨"SUM", agg.arg, none⟩ agg ∧ PartOf ⟨"COUNT", agg.arg, none⟩ agg := by
      simp [PartOf, havg]
    rw [hs, hc, partialAt_groupRow hsum hlen, partialAt_groupRow hcount hlen,
      valuesOf_part hpart.1 hin, valuesOf_part hpart.2 hin]
    exact ⟨rfl, rfl⟩
  case isFalse havg =>
    rw [if_neg havg] at hfits
    obtain ⟨d, hd, hdirect⟩ := hfits
    rw [hd, partialAt_groupRow hdirect hlen]

end Rows

/-! ### The merged groups -/

/-- The workers that report group `k`. -/
def reporting (groupBy : List Expression) (schema : RowSchema) (ws : List (List Row)) (k : String) :
    List (List Row) :=
  ws.filter (reports groupBy schema k)

/-- The values that the workers which report group `k` have for an aggregate. -/
def reportedValues (groupBy : List Expression) (schema : RowSchema) (ws : List (List Row))
    (k : String) (agg : AggregateExpr) : List (List Literal) :=
  (reporting groupBy schema ws k).map fun w => valuesOf schema agg (groupMembers groupBy schema w k)

/-- The merged row of group `k`. -/
def mergedRow (groupBy : List Expression) (aggregates : List AggregateExpr) (schema : RowSchema)
    (ws : List (List Row)) (k : String) : Row :=
  ((groupMembers groupBy schema ws.flatten k).head?.map (groupKeyOf groupBy schema)).getD [] ++
    aggregates.map fun agg => mergedOutput agg.func (reportedValues groupBy schema ws k agg)

section MergedGroups

variable {groupBy : List Expression} {aggregates : List AggregateExpr} {schema : RowSchema}
  {ws : List (List Row)}

/-- A worker that does not report a group has no rows of it. -/
theorem flatten_reporting (k : String) :
    ((reporting groupBy schema ws k).map fun w => groupMembers groupBy schema w k).flatten =
      groupMembers groupBy schema ws.flatten k := by
  rw [groupMembers_flatten]
  induction ws with
  | nil => rfl
  | cons w ws ih =>
    cases hw : reports groupBy schema k w with
    | true => simpa [reporting, hw] using ih
    | false =>
      have hnone : groupMembers groupBy schema w k = [] := by
        rw [groupMembers, Grouping.members, List.filter_eq_nil_iff]
        intro row hrow hrk
        have hany : (w.any fun row => groupText groupBy schema row == k) = true :=
          List.any_eq_true.mpr ⟨row, hrow, by simpa using hrk⟩
        simp [reports, hany] at hw
      simpa [reporting, hw, hnone] using ih

theorem flatten_reportedValues (k : String) (agg : AggregateExpr) :
    (reportedValues groupBy schema ws k agg).flatten =
      valuesOf schema agg (groupMembers groupBy schema ws.flatten k) := by
  rw [← flatten_reporting, valuesOf_flatten, List.map_map]
  rfl

/-- One merge step on the state of a group. -/
def mergeStep (groupByCount : Nat) (aggregates : List AggregateExpr) (st : PartialState)
    (row : Row) : Except String PartialState := do
  return { st with accs := ← mergeAccs groupByCount aggregates (splitAvg aggregates) row st.accs }

def mergeInit (groupByCount : Nat) (aggregates : List AggregateExpr) (row : Row) : PartialState :=
  ⟨row.take groupByCount, aggregates.map fun _ => PartialAcc.empty⟩

theorem foldlM_mergeRow (groupByCount : Nat) (rows : List Row) :
    rows.foldlM (mergeRow groupByCount aggregates (splitAvg aggregates)) [] =
      Grouping.groupFold (rowTag groupByCount) (mergeInit groupByCount aggregates)
        (mergeStep groupByCount aggregates) rows := rfl

/-- The accumulators of a group after the workers `us`, whose rows and values are given. -/
theorem foldlM_mergeAccs (hf : ∀ agg ∈ aggregates, agg.func ∈ aggregateFunctions) {ι : Type}
    (items : List ι) (n : Nat) (rowOf : ι → Row) (values : AggregateExpr → ι → List Literal)
    (hrows : ∀ p ∈ aggregates.zip (splitAvg aggregates).mapping, ∀ i ∈ items,
      ReportsAt p.1.func p.2 n (rowOf i) (values p.1 i))
    (hadm : ∀ agg ∈ aggregates, admissible agg.func (items.map (values agg)).flatten) :
    (items.map rowOf).foldlM (fun accs row =>
        mergeAccs n aggregates (splitAvg aggregates) row accs)
        (aggregates.map fun _ => PartialAcc.empty) =
      .ok (aggregates.map fun agg => mergedAcc agg.func (items.map (values agg))) := by
  have hlen := (splitAvg_spec aggregates).1.length_eq
  have hfst : ∀ {β : Type} (g : AggregateExpr → β), aggregates.map g =
      (aggregates.zip (splitAvg aggregates).mapping).map fun p => g p.1 := by
    intro β g
    have hmap := congrArg (List.map g) (List.map_fst_zip hlen.le)
    rw [List.map_map] at hmap
    exact hmap.symm
  rw [hfst fun _ => PartialAcc.empty, hfst]
  refine (Grouping.foldlM_parallel fun (p : AggregateExpr × AvgMapping) a row =>
    PartialAcc.merge p.1.func p.2 n a row).mpr ?_
  refine Except.mapM_eq_ok_map fun p hp => ?_
  have hagg : p.1 ∈ aggregates := (List.of_mem_zip hp).1
  exact foldlM_merge (hf p.1 hagg) (hrows p hp) (hadm p.1 hagg)

theorem output_mergedAccs (hf : ∀ agg ∈ aggregates, agg.func ∈ aggregateFunctions) (key : Row)
    {vss : AggregateExpr → List (List Literal)}
    (hadm : ∀ agg ∈ aggregates, admissible agg.func (vss agg).flatten) :
    PartialState.output aggregates ⟨key, aggregates.map fun agg => mergedAcc agg.func (vss agg)⟩ =
      key ++ aggregates.map fun agg => mergedOutput agg.func (vss agg) := by
  simp only [PartialState.output]
  congr 1
  induction aggregates with
  | nil => rfl
  | cons agg aggregates ih =>
    rw [List.map_cons, List.map_cons, List.zip_cons_cons, List.flatMap_cons,
      ih (fun a ha => hf a (by simp [ha])) (fun a ha => hadm a (by simp [ha])),
      output_mergedAcc (hf agg (by simp)) (hadm agg (by simp))]
    rfl

/-- The key of the first row that is reported for a group is that of its first member. -/
theorem key_of_reporting (hagg : Aggregable groupBy aggregates schema ws.flatten) {k : String}
    {w : List Row} {rest : List (List Row)} (h : reporting groupBy schema ws k = w :: rest)
    (worker : List AggregateExpr) :
    (groupRow groupBy worker schema (groupMembers groupBy schema w k)).take groupBy.length =
      ((groupMembers groupBy schema ws.flatten k).head?.map (groupKeyOf groupBy schema)).getD [] := by
  have hmem : w ∈ ws ∧ reports groupBy schema k w = true := by
    rw [← List.mem_filter, ← reporting, h]
    exact List.mem_cons_self
  have hw : Aggregable groupBy aggregates schema w :=
    hagg.of_subperm (List.sublist_flatten_of_mem hmem.1).subperm
  rw [groupRow, List.take_left' (length_groupKey hw hmem.2), ← flatten_reporting, h, List.map_cons,
    List.flatten_cons]
  cases hm : groupMembers groupBy schema w k with
  | cons row ms => rfl
  | nil =>
    -- only a query without GROUP BY has a group without rows, and then keys are empty
    have hlen := length_groupKey hw hmem.2
    rw [hm] at hlen
    have hempty : groupBy = [] := List.length_eq_zero_iff.mp hlen.symm
    subst hempty
    rw [List.nil_append]
    cases ((rest.map fun w => groupMembers [] schema w k).flatten).head? <;> rfl

/-- The state of a group after the rows that are reported for it. -/
theorem foldGroup_reporting (hf : ∀ agg ∈ aggregates, agg.func ∈ aggregateFunctions)
    (hagg : Aggregable groupBy aggregates schema ws.flatten) {k : String}
    (hk : reporting groupBy schema ws k ≠ []) :
    Grouping.foldGroup (mergeInit groupBy.length aggregates)
        (mergeStep groupBy.length aggregates)
        ((reporting groupBy schema ws k).map fun w => groupRow groupBy
          (splitAvg aggregates).workerAggregates schema (groupMembers groupBy schema w k)) =
      some (.ok ⟨((groupMembers groupBy schema ws.flatten k).head?.map
          (groupKeyOf groupBy schema)).getD [],
        aggregates.map fun agg =>
          mergedAcc agg.func (reportedValues groupBy schema ws k agg)⟩) := by
  obtain ⟨w, rest, hcons⟩ := List.exists_cons_of_ne_nil hk
  have hmem : ∀ w ∈ reporting groupBy schema ws k,
      Aggregable groupBy aggregates schema w ∧ reports groupBy schema k w = true := by
    intro w hw
    obtain ⟨hws, hr⟩ := List.mem_filter.mp hw
    exact ⟨hagg.of_subperm (List.sublist_flatten_of_mem hws).subperm, hr⟩
  have hrows : ∀ p ∈ aggregates.zip (splitAvg aggregates).mapping,
      ∀ w ∈ reporting groupBy schema ws k, ReportsAt p.1.func p.2 groupBy.length
        (groupRow groupBy (splitAvg aggregates).workerAggregates schema
          (groupMembers groupBy schema w k))
        (valuesOf schema p.1 (groupMembers groupBy schema w k)) := fun p hp w hw =>
    reportsAt_groupRow (List.forall₂_zip (splitAvg_spec aggregates).1 hp)
      (length_groupKey (hmem w hw).1 (hmem w hw).2) fun row hrow =>
        (hmem w hw).1.inputs row (List.mem_filter.mp hrow).1 p.1 (List.of_mem_zip hp).1
  have hadm : ∀ agg ∈ aggregates,
      admissible agg.func (reportedValues groupBy schema ws k agg).flatten := by
    intro agg hmem'
    rw [flatten_reportedValues]
    exact hagg.values k agg hmem'
  have haccs := foldlM_mergeAccs hf (reporting groupBy schema ws k) groupBy.length _
    (fun agg w => valuesOf schema agg (groupMembers groupBy schema w k)) hrows hadm
  have hkey := key_of_reporting hagg hcons (splitAvg aggregates).workerAggregates
  rw [hcons, List.map_cons] at haccs
  rw [hcons, List.map_cons, Grouping.foldGroup, Option.some.injEq]
  refine (Grouping.foldlM_field (fun accs row => mergeAccs groupBy.length aggregates
    (splitAvg aggregates) row accs) PartialState.accs (fun st accs => { st with accs := accs })
    (fun _ _ => rfl) (fun _ _ _ => rfl) fun _ => rfl).mpr ⟨_, haccs, ?_⟩
  simp only [mergeInit, hkey, PartialState.mk.injEq, true_and]
  refine List.map_congr_left fun agg _ => ?_
  rw [reportedValues, hcons]

/-- What the workers return for group `k`. -/
theorem members_workerRows {worker : List AggregateExpr} {out : List Row → List Row}
    (hworker : ∀ agg ∈ worker, agg.func ∈ aggregateFunctions ∧ agg.func ≠ "AVG")
    (h : ∀ w ∈ ws, Aggregable groupBy worker schema w)
    (hout : ∀ w ∈ ws, hashAggregateRows groupBy worker schema w = .ok (out w)) (k : String) :
    Grouping.members (rowTag groupBy.length) (ws.map out).flatten k =
      (reporting groupBy schema ws k).map fun w =>
        groupRow groupBy worker schema (groupMembers groupBy schema w k) := by
  induction ws with
  | nil => rfl
  | cons w ws ih =>
    have hrest := ih (fun x hx => h x (by simp [hx])) fun x hx => hout x (by simp [hx])
    have hfirst := filter_workerRows (h w (by simp)) hworker (hout w (by simp)) k
    rw [List.map_cons, List.flatten_cons, Grouping.members, List.filter_append, hfirst]
    unfold Grouping.members at hrest
    rw [hrest]
    cases hw : reports groupBy schema k w <;> simp [reporting, hw]

/-- The merged rows: one for each group that a worker reports. -/
theorem distributedAggregate_eq_ok (hf : ∀ agg ∈ aggregates, agg.func ∈ aggregateFunctions)
    (hagg : Aggregable groupBy aggregates schema ws.flatten) :
    ∃ keys : List String, keys.Nodup ∧
      (∀ k, k ∈ keys ↔ ∃ w ∈ ws, reports groupBy schema k w = true) ∧
      distributedAggregate groupBy aggregates schema ws =
        .ok (keys.map (mergedRow groupBy aggregates schema ws)) := by
  have hworker := fun w (hw : w ∈ (splitAvg aggregates).workerAggregates) => func_of_part hf hw
  have hws : ∀ w ∈ ws, Aggregable groupBy (splitAvg aggregates).workerAggregates schema w :=
    fun w hw => (hagg.of_subperm (List.sublist_flatten_of_mem hw).subperm).split
  have hout : ∀ w ∈ ws, hashAggregateRows groupBy (splitAvg aggregates).workerAggregates schema w =
      .ok ((hashAggregateRows groupBy (splitAvg aggregates).workerAggregates schema
        w).toOption.getD []) := by
    intro w hw
    obtain ⟨out, hout⟩ := hashAggregateRows_ok (fun a ha => (hworker a ha).1) (hws w hw)
    simp [hout, Except.toOption]
  have hmembers := members_workerRows hworker hws hout
  generalize hitems : (ws.map fun w => (hashAggregateRows groupBy
    (splitAvg aggregates).workerAggregates schema w).toOption.getD []).flatten = items at hmembers
  obtain ⟨gs, hgs⟩ : ∃ gs, Grouping.groupFold (rowTag groupBy.length)
      (mergeInit groupBy.length aggregates) (mergeStep groupBy.length aggregates) items =
        .ok gs := by
    apply Grouping.groupFold_ok
    intro k r hr
    rw [hmembers] at hr
    by_cases hk : reporting groupBy schema ws k = []
    · rw [hk] at hr
      cases hr
    · rw [foldGroup_reporting hf hagg hk] at hr
      exact ⟨_, (Option.some.inj hr).symm⟩
  have hgroups := Grouping.groupFold_groups hgs
  refine ⟨gs.map (·.1), hgroups.nodup, fun k => ?_, ?_⟩
  · rw [hgroups.keys]
    have hiff : (∃ a ∈ items, rowTag groupBy.length a = k) ↔
        Grouping.members (rowTag groupBy.length) items k ≠ [] := by
      simp [Grouping.members]
    rw [hiff, hmembers, ne_eq, List.map_eq_nil_iff, reporting, List.filter_eq_nil_iff]
    push Not
    rfl
  · rw [distributedAggregate, Except.mapM_eq_ok_map hout]
    simp only [Except.ok_bind, mergePartialAggregates, hitems, foldlM_mergeRow, hgs,
      Except.pure_eq_ok, Except.ok.injEq, List.map_map]
    refine List.map_congr_left fun g hg => ?_
    have hstate := hgroups.states g hg
    rw [hmembers] at hstate
    have hk : reporting groupBy schema ws g.1 ≠ [] := by
      intro hnil
      rw [hnil] at hstate
      cases hstate
    rw [foldGroup_reporting hf hagg hk] at hstate
    rw [← Except.ok.inj (Option.some.inj hstate), output_mergedAccs hf]
    · rfl
    · intro agg hagg'
      rw [flatten_reportedValues]
      exact hagg.values g.1 agg hagg'

end MergedGroups

/-! ### Merged against whole -/

/-- A MIN or MAX survives the merge: if the group has a value, the first worker that reports the
group has one, and the first of the foremost values is that of what is heard of the workers. -/
def extremeKept (before : Literal → Literal → Bool) (whole : List Literal)
    (parts : List (List Literal)) : Prop :=
  whole ≠ [] → parts.head? ≠ some [] ∧
    Extreme.extreme before whole = Extreme.extreme before (heardValues parts)

/-- A COUNT or an AVG survives the addition of counts in double. -/
def countsKept (func : String) (whole : List Literal) (parts : List (List Literal)) : Prop :=
  (func = "COUNT" → doubleToInt64 (mergedCount parts) = Int64.ofNat whole.length) ∧
    (func = "AVG" → averageOf (sumOf whole) (mergedCount parts) =
      averageOf (sumOf whole) (Binary64.ofInt whole.length))

/-- Group `k` has the same key in the order of the workers, and its aggregates survive. -/
def groupKept (groupBy : List Expression) (aggregates : List AggregateExpr) (schema : RowSchema)
    (rows : List Row) (ws : List (List Row)) (k : String) : Prop :=
  (groupMembers groupBy schema rows k).head?.map (groupKeyOf groupBy schema) =
      (groupMembers groupBy schema ws.flatten k).head?.map (groupKeyOf groupBy schema) ∧
    ∀ agg ∈ aggregates,
      (agg.func = "MIN" → extremeKept less
        (valuesOf schema agg (groupMembers groupBy schema rows k))
        (reportedValues groupBy schema ws k agg)) ∧
      (agg.func = "MAX" → extremeKept (fun a b => less b a)
        (valuesOf schema agg (groupMembers groupBy schema rows k))
        (reportedValues groupBy schema ws k agg)) ∧
      countsKept agg.func (valuesOf schema agg (groupMembers groupBy schema rows k))
        (reportedValues groupBy schema ws k agg)

/-- The inputs on which aggregation over workers is aggregation in one place. -/
def mergeKept (groupBy : List Expression) (aggregates : List AggregateExpr) (schema : RowSchema)
    (rows : List Row) (ws : List (List Row)) : Prop :=
  (groupBy = [] → rows = [] → ∀ agg ∈ aggregates, agg.func ≠ "AVG") ∧
    ∀ k, groupKept groupBy aggregates schema rows ws k

theorem sumOf_perm {vs ws : List Literal} (h : vs.Perm ws) : sumOf vs = sumOf ws :=
  Binary64.total_perm (h.map doubleOf)

/-- Counts below `2^53` add up. -/
theorem countsKept_of_lt (func : String) {whole : List Literal} {parts : List (List Literal)}
    (hperm : whole.Perm parts.flatten) (h : whole.length < 2 ^ 53) :
    countsKept func whole parts := by
  have hcount := mergedCount_of_lt (hperm.length_eq ▸ h)
  rw [← hperm.length_eq] at hcount
  refine ⟨fun _ => ?_, fun _ => ?_⟩
  · rw [hcount, doubleToInt64_natCast]
  · rw [hcount, Binary64.ofInt_natCast h]

theorem heardValues_eq_flatten {parts : List (List Literal)}
    (h : ∀ v ∈ parts.flatten, unordered v = false) : heardValues parts = parts.flatten := by
  induction parts with
  | nil => rfl
  | cons vs parts ih =>
    rw [List.flatten_cons] at h ⊢
    rw [heardValues, List.flatMap_cons,
      Extreme.heard_eq_self fun v hv => h v (List.mem_append_left _ hv)]
    exact congrArg (vs ++ ·) (ih fun v hv => h v (List.mem_append_right _ hv))

theorem heardValues_eq_nil {parts : List (List Literal)} :
    heardValues parts = [] ↔ parts.flatten = [] := by
  simp only [heardValues, List.flatMap_eq_nil_iff, List.flatten_eq_nil_iff, Extreme.heard_eq_nil]

theorem getD_eq_iff_extremeKept {before : Literal → Literal → Bool} {whole : List Literal}
    {parts : List (List Literal)} (hperm : whole.Perm parts.flatten)
    (hnull : ∀ v ∈ whole, literalIsNull v = false) :
    (Extreme.extreme before whole).getD .null =
        (if parts.head? = some [] then .null
          else (Extreme.extreme before (heardValues parts)).getD .null) ↔
      extremeKept before whole parts := by
  unfold extremeKept
  cases hw : Extreme.extreme before whole with
  | none =>
    have hnil := Extreme.extreme_eq_none.mp hw
    have hflat : heardValues parts = [] := heardValues_eq_nil.mpr (List.nil_perm.mp (hnil ▸ hperm))
    rw [hflat]
    refine iff_of_true ?_ fun hne => absurd hnil hne
    split <;> rfl
  | some m =>
    have hne : whole ≠ [] := fun hnil => by simp [hnil, Extreme.extreme] at hw
    have hm : m ≠ .null := fun heq => by
      have := hnull m (Extreme.extreme_mem hw)
      simp [heq, literalIsNull] at this
    have hflat : Extreme.extreme before (heardValues parts) ≠ none := fun hnone =>
      hne (List.perm_nil.mp (heardValues_eq_nil.mp (Extreme.extreme_eq_none.mp hnone) ▸ hperm))
    obtain ⟨m', hm'⟩ := Option.ne_none_iff_exists'.mp hflat
    by_cases hhead : parts.head? = some []
    · simp [hhead, hm, hne]
    · simp [hhead, hne, hm']

/-- The average of one place. -/
theorem outputOf_avg (vs : List Literal) :
    outputOf "AVG" vs = .floating (averageOf (sumOf vs) (Binary64.ofInt vs.length)) := by
  have hpos : Binary64.lt Binary64.zero (Binary64.ofInt vs.length) = decide (0 < vs.length) :=
    Binary64.lt_zero_ofInt vs.length
  simp [outputOf, averageOf, hpos]

theorem outputOf_eq_mergedOutput_iff {func : String} (hf : func ∈ aggregateFunctions)
    {whole : List Literal} {parts : List (List Literal)} (hperm : whole.Perm parts.flatten)
    (hnull : ∀ v ∈ whole, literalIsNull v = false) :
    outputOf func whole = mergedOutput func parts ↔
      (func = "MIN" → extremeKept less whole parts) ∧
        (func = "MAX" → extremeKept (fun a b => less b a) whole parts) ∧
          countsKept func whole parts := by
  simp only [aggregateFunctions, List.mem_cons, List.not_mem_nil, or_false] at hf
  rcases hf with rfl | rfl | rfl | rfl | rfl
  · simp [outputOf, mergedOutput, countsKept, eq_comm]
  · simp [outputOf, mergedOutput, countsKept, sumOf_perm hperm]
  · rw [outputOf_avg]
    simp [mergedOutput, countsKept, sumOf_perm hperm, eq_comm]
  · have hkept := @getD_eq_iff_extremeKept less whole parts hperm hnull
    simpa [outputOf, mergedOutput, leastOf, countsKept] using hkept
  · have hkept := @getD_eq_iff_extremeKept (fun a b => less b a) whole parts hperm hnull
    simpa [outputOf, mergedOutput, greatestOf, countsKept] using hkept

section Whole

variable {groupBy : List Expression} {aggregates : List AggregateExpr} {schema : RowSchema}
  {rows : List Row} {ws : List (List Row)}

theorem groupRow_eq_mergedRow_iff (hf : ∀ agg ∈ aggregates, agg.func ∈ aggregateFunctions)
    (hagg : Aggregable groupBy aggregates schema rows) (hsplit : ws.flatten.Perm rows) {k : String}
    (hk : ∃ row ∈ rows, groupText groupBy schema row = k) :
    groupRow groupBy aggregates schema (groupMembers groupBy schema rows k) =
        mergedRow groupBy aggregates schema ws k ↔
      groupKept groupBy aggregates schema rows ws k := by
  have hk' : ∃ row ∈ ws.flatten, groupText groupBy schema row = k := by
    obtain ⟨row, hrow, hrk⟩ := hk
    exact ⟨row, hsplit.mem_iff.mpr hrow, hrk⟩
  have hmember : ∀ {rows : List Row}, (∃ row ∈ rows, groupText groupBy schema row = k) →
      ∃ row, (groupMembers groupBy schema rows k).head? = some row := by
    rintro rows ⟨row, hrow, hrk⟩
    cases hm : groupMembers groupBy schema rows k with
    | nil =>
      have hmem : row ∈ groupMembers groupBy schema rows k :=
        List.mem_filter.mpr ⟨hrow, by simp [hrk]⟩
      simp [hm] at hmem
    | cons r ms => exact ⟨r, rfl⟩
  have hreports : reports groupBy schema k rows = true := by
    obtain ⟨row, hrow, hrk⟩ := hk
    exact (reports_iff fun hnone => List.ne_nil_of_mem hrow hnone.2).mpr ⟨row, hrow, hrk⟩
  have hlen := length_groupKey hagg hreports
  have hlen' := length_groupKey (hagg.of_subperm hsplit.subperm)
    (reports_perm hsplit k ▸ hreports)
  obtain ⟨first, hfirst⟩ := hmember hk
  obtain ⟨first', hfirst'⟩ := hmember hk'
  have happend : ∀ {a b c d : Row}, a.length = c.length → (a ++ b = c ++ d ↔ a = c ∧ b = d) :=
    fun hac => ⟨fun h => List.append_inj h hac, fun h => by rw [h.1, h.2]⟩
  unfold groupRow mergedRow groupKept
  rw [happend (hlen.trans hlen'.symm), List.map_inj_left, hfirst, hfirst']
  refine and_congr (by simp) (forall₂_congr fun agg hmem => ?_)
  apply outputOf_eq_mergedOutput_iff (hf agg hmem)
  · rw [flatten_reportedValues]
    exact valuesOf_perm agg (groupMembers_perm hsplit.symm k)
  · exact fun v => not_null_of_mem_present

/-- The merged row over no rows at all, without GROUP BY. -/
theorem emptyAggregateRow_eq_mergedRow_iff
    (hf : ∀ agg ∈ aggregates, agg.func ∈ aggregateFunctions) (hnone : ws.flatten = []) :
    emptyAggregateRow aggregates = mergedRow [] aggregates schema ws "" ↔
      ∀ agg ∈ aggregates, agg.func ≠ "AVG" := by
  have hmembers : groupMembers [] schema ws.flatten "" = [] := by rw [hnone]; rfl
  have hvalues : ∀ agg, (reportedValues [] schema ws "" agg).flatten = [] := by
    intro agg
    rw [flatten_reportedValues, hmembers]
    rfl
  unfold emptyAggregateRow mergedRow
  rw [hmembers, List.head?_nil, Option.map_none, Option.getD_none, List.nil_append,
    List.map_inj_left]
  refine forall₂_congr fun agg hagg => ?_
  have hfunc := hf agg hagg
  simp only [aggregateFunctions, List.mem_cons, List.not_mem_nil, or_false] at hfunc
  have hleast : leastOf [] = none := rfl
  have hgreatest : greatestOf [] = none := rfl
  have hheard := heardValues_eq_nil.mpr (hvalues agg)
  have hcount : mergedCount (reportedValues [] schema ws "" agg) = .fin false ((0 : Nat) : ℚ≥0) := by
    rw [mergedCount_of_lt (by rw [hvalues]; decide), hvalues]
    rfl
  rcases hfunc with h | h | h | h | h
  · simp only [h, mergedOutput, if_true, hcount, doubleToInt64_natCast]
    exact iff_of_true rfl (by decide)
  · simp [h, mergedOutput, outputOf, hvalues, sumOf]
  · simp [h, mergedOutput]
  · simp [h, mergedOutput, hheard, hleast]
  · simp [h, mergedOutput, hheard, hgreatest]

/-- Two listings of the same keys give the same bag of rows exactly when the rows of each key are
equal. -/
theorem map_perm_map_iff {keys keys' : List String} {f g : String → Row} (tag : Row → String)
    (hkeys : keys.Perm keys') (hf : ∀ k ∈ keys, tag (f k) = k) (hg : ∀ k ∈ keys, tag (g k) = k) :
    (keys'.map g).Perm (keys.map f) ↔ ∀ k ∈ keys, f k = g k := by
  constructor
  · intro h k hk
    obtain ⟨k', hk', heq⟩ := List.mem_map.mp (h.mem_iff.mpr (List.mem_map_of_mem hk))
    have htag := hg k' (hkeys.mem_iff.mpr hk')
    rw [heq, hf k hk] at htag
    subst htag
    exact heq.symm
  · intro h
    rw [List.map_congr_left h]
    exact hkeys.symm.map g

theorem rowTag_mergedRow (hagg : Aggregable groupBy aggregates schema ws.flatten) {k : String}
    (hk : reports groupBy schema k ws.flatten = true) :
    rowTag groupBy.length (mergedRow groupBy aggregates schema ws k) = k := by
  have hlen := length_groupKey hagg hk
  have htag := rowTag_groupRow hagg hk
  rw [rowTag, groupRow, List.take_left' hlen] at htag
  rw [rowTag, mergedRow, List.take_left' hlen, htag]

/-- The counts of fewer than `2^53` rows survive. -/
theorem countsKept_of_rows_lt (hsplit : ws.flatten.Perm rows) (h : rows.length < 2 ^ 53) (k : String)
    (agg : AggregateExpr) : countsKept agg.func
      (valuesOf schema agg (groupMembers groupBy schema rows k))
      (reportedValues groupBy schema ws k agg) := by
  refine countsKept_of_lt _ ?_ (lt_of_le_of_lt ?_ h)
  · rw [flatten_reportedValues]
    exact valuesOf_perm agg (groupMembers_perm hsplit.symm k)
  · exact (List.length_filter_le _ _).trans ((List.length_map _).trans_le
      (List.length_filter_le _ _))

/-- A group without rows survives. -/
theorem groupKept_of_no_rows (hsplit : ws.flatten.Perm rows) {k : String}
    (hk : groupMembers groupBy schema rows k = []) :
    groupKept groupBy aggregates schema rows ws k := by
  have hk' : groupMembers groupBy schema ws.flatten k = [] :=
    List.perm_nil.mp (hk ▸ groupMembers_perm hsplit k)
  refine ⟨by rw [hk, hk'], fun agg _ => ⟨fun _ hne => ?_, fun _ hne => ?_, ?_⟩⟩
  · exact absurd (by rw [hk]; rfl) hne
  · exact absurd (by rw [hk]; rfl) hne
  · refine countsKept_of_lt _ ?_ (by rw [hk]; exact Nat.two_pow_pos 53)
    rw [flatten_reportedValues, hk, hk']

/-- Aggregation over workers that hold the rows in any way, against aggregation of all the rows.
Where that succeeds, the merge does, and it gives the same rows exactly on the inputs of
`mergeKept`. -/
theorem distributedAggregate_perm_iff {out : List Row}
    (hf : ∀ agg ∈ aggregates, agg.func ∈ aggregateFunctions) (hws : ws ≠ [])
    (hsplit : ws.flatten.Perm rows)
    (hout : hashAggregateRows groupBy aggregates schema rows = .ok out) :
    ∃ merged, distributedAggregate groupBy aggregates schema ws = .ok merged ∧
      (merged.Perm out ↔ mergeKept groupBy aggregates schema rows ws) := by
  obtain ⟨hagg, hempty, hgroups⟩ := hashAggregateRows_eq_ok hf hout
  have hagg' := hagg.of_subperm hsplit.subperm
  obtain ⟨keys', hnodup', hmem', hmerged⟩ := distributedAggregate_eq_ok hf hagg'
  refine ⟨_, hmerged, ?_⟩
  by_cases hnone : groupBy = [] ∧ rows = []
  · obtain ⟨rfl, rfl⟩ := hnone
    have hflat : ws.flatten = [] := List.perm_nil.mp hsplit
    have hone : keys'.Perm [""] := by
      rw [List.perm_ext_iff_of_nodup hnodup' (by simp)]
      intro k
      rw [hmem', List.mem_singleton]
      constructor
      · rintro ⟨w, hw, hr⟩
        rw [List.flatten_eq_nil_iff.mp hflat w hw] at hr
        simpa [reports] using hr
      · rintro rfl
        obtain ⟨w, hw⟩ := List.exists_mem_of_ne_nil ws hws
        exact ⟨w, hw, by simp [reports]⟩
    rw [(hone.map _).congr_left, hempty rfl rfl, List.map_singleton, List.singleton_perm_singleton,
      eq_comm, emptyAggregateRow_eq_mergedRow_iff hf hflat]
    exact ⟨fun h => ⟨fun _ _ => h, fun k => groupKept_of_no_rows hsplit rfl⟩, fun h => h.1 rfl rfl⟩
  · obtain ⟨keys, hnodup, hmem, rfl⟩ := hgroups hnone
    have hreports : ∀ k, k ∈ keys ↔ reports groupBy schema k rows = true := fun k =>
      (hmem k).trans (reports_iff hnone).symm
    have hsame : keys.Perm keys' := by
      rw [List.perm_ext_iff_of_nodup hnodup hnodup']
      intro k
      rw [hreports, hmem', exists_reports_iff hws, reports_perm hsplit]
    rw [map_perm_map_iff (rowTag groupBy.length) hsame
      (fun k hk => rowTag_groupRow hagg ((hreports k).mp hk)) fun k hk =>
        rowTag_mergedRow hagg' (reports_perm hsplit k ▸ (hreports k).mp hk)]
    refine ⟨fun h => ⟨fun h1 h2 => absurd ⟨h1, h2⟩ hnone, fun k => ?_⟩, fun h k hk => ?_⟩
    · by_cases hk : k ∈ keys
      · exact (groupRow_eq_mergedRow_iff hf hagg hsplit ((hmem k).mp hk)).mp (h k hk)
      · refine groupKept_of_no_rows hsplit ?_
        rw [groupMembers, Grouping.members, List.filter_eq_nil_iff]
        intro row hrow hrk
        exact hk ((hmem k).mpr ⟨row, hrow, by simpa using hrk⟩)
    · exact (groupRow_eq_mergedRow_iff hf hagg hsplit ((hmem k).mp hk)).mpr (h.2 k)

end Whole

/-- A table `t` with the columns `g` and `v`. -/
def groupedSchema : RowSchema := scanSchema "t" ["g", "v"]

def groupedAggregates : List AggregateExpr :=
  ["COUNT", "SUM", "AVG", "MIN", "MAX"].map fun func => ⟨func, .column none "v", none⟩

/-- Two workers, each with a value of the group that they share. -/
theorem distributedAggregate_perm_two_workers :
    ∃ out merged,
      hashAggregateRows [.column none "g"] groupedAggregates groupedSchema
        [[.str "a", .integer 1], [.str "a", .integer 2], [.str "b", .null]] = .ok out ∧
      distributedAggregate [.column none "g"] groupedAggregates groupedSchema
        [[[.str "a", .integer 2]], [[.str "b", .null], [.str "a", .integer 1]]] = .ok merged ∧
      merged.Perm out := by
  have hsplit : [[[Literal.str "a", .integer 2]], [[.str "b", .null], [.str "a", .integer 1]]].flatten.Perm
      [[.str "a", .integer 1], [.str "a", .integer 2], [.str "b", .null]] := by decide
  obtain ⟨out, hout⟩ : ∃ out, hashAggregateRows [.column none "g"] groupedAggregates groupedSchema
      [[.str "a", .integer 1], [.str "a", .integer 2], [.str "b", .null]] = .ok out := ⟨_, rfl⟩
  obtain ⟨merged, hmerged, hiff⟩ := distributedAggregate_perm_iff
    (by decide) (by decide) hsplit hout
  refine ⟨out, merged, hout, hmerged, hiff.mpr ⟨nofun, fun k => ?_⟩⟩
  by_cases hk : k = "a\x1f" ∨ k = "b\x1f"
  · rcases hk with rfl | rfl
    all_goals
      refine ⟨by decide, fun agg hagg => ⟨?_, ?_, countsKept_of_rows_lt hsplit (by decide) _ agg⟩⟩
      · revert agg
        unfold extremeKept
        decide
      · revert agg
        unfold extremeKept
        decide
  · refine groupKept_of_no_rows hsplit ?_
    rw [groupMembers, Grouping.members, List.filter_eq_nil_iff]
    have htexts : ∀ row ∈ [[Literal.str "a", .integer 1], [.str "a", .integer 2], [.str "b", .null]],
        groupText [.column none "g"] groupedSchema row = "a\x1f" ∨
          groupText [.column none "g"] groupedSchema row = "b\x1f" := by decide
    intro row hrow hrk
    exact hk (of_decide_eq_true hrk ▸ htexts row hrow)

/-- The NULL of a worker without values comes first and stays. -/
theorem distributedAggregate_loses_min :
    hashAggregateRows [] [⟨"MIN", .column none "v", none⟩] groupedSchema
        [[.str "a", .integer 1]] = .ok [[.integer 1]] ∧
      distributedAggregate [] [⟨"MIN", .column none "v", none⟩] groupedSchema
        [[], [[.str "a", .integer 1]]] = .ok [[.null]] ∧
      ¬ [[Literal.null]].Perm [[.integer 1]] := by
  refine ⟨by decide, by decide, by decide⟩

end SqlOptimizer
