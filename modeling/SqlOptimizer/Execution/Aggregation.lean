import SqlOptimizer.Execution.Operators
import SqlOptimizer.Library.Extreme

/-! What `HashAggregateExec` returns: one row for each group, whose outputs are functions of the
values of the group that are not NULL. -/

namespace SqlOptimizer

/-! ### Comparable values -/

def isNumeric (v : Literal) : Bool := (numeric? v).isSome

def isStr : Literal → Bool
  | .str _ => true
  | _ => false

/-- Two values that `literal_less` compares. -/
def comparable (a b : Literal) : Bool := isNumeric a && isNumeric b || isStr a && isStr b

/-- The answer of `literal_less`, and false where it throws. -/
def less (a b : Literal) : Bool := (literalLess a b).toOption.getD false

/-- The double of a numeric value. -/
def doubleOf (v : Literal) : Binary64 := (literalAsDouble v).toOption.getD Binary64.zero

theorem comparable_symm {a b : Literal} (h : comparable a b = true) : comparable b a = true := by
  simp only [comparable, Bool.or_eq_true, Bool.and_eq_true] at h ⊢
  exact h.imp And.symm And.symm

instance : Std.Symm fun a b : Literal => comparable a b = true := ⟨fun _ _ h => comparable_symm h⟩

theorem comparable_trans {a b c : Literal} (hab : comparable a b = true)
    (hbc : comparable b c = true) : comparable a c = true := by
  have hone : isNumeric b = true → isStr b = true → False := by
    cases b <;> simp [isNumeric, isStr, numeric?]
  simp only [comparable, Bool.or_eq_true, Bool.and_eq_true] at hab hbc ⊢
  rcases hab with ⟨ha, hb⟩ | ⟨ha, hb⟩ <;> rcases hbc with ⟨hb', hc⟩ | ⟨hb', hc⟩
  · exact .inl ⟨ha, hc⟩
  · exact (hone hb hb').elim
  · exact (hone hb' hb).elim
  · exact .inr ⟨ha, hc⟩

theorem literalLess_eq_ok {a b : Literal} (ha : literalIsNull a = false)
    (hb : literalIsNull b = false) :
    (∃ t, literalLess a b = .ok t) ↔ comparable a b = true := by
  cases a <;> cases b <;>
    simp_all [literalLess, comparable, isNumeric, isStr, numeric?, literalIsNull]

theorem literalLess_of_comparable {a b : Literal} (h : comparable a b = true) :
    literalLess a b = .ok (less a b) := by
  cases a <;> cases b <;>
    simp_all [literalLess, less, comparable, isNumeric, isStr, numeric?, literalIsNull,
      Except.toOption]

theorem keepLess_eq_keep {kept : Option Literal} {v : Literal}
    (h : ∀ m ∈ kept, comparable v m = true) :
    keepLess kept v = .ok (Extreme.keep less kept v) := by
  cases kept with
  | none => rfl
  | some m =>
    simp only [keepLess, Extreme.keep, literalLess_of_comparable (h m rfl), Except.ok_bind]
    split <;> rfl

theorem keepGreater_eq_keep {kept : Option Literal} {v : Literal}
    (h : ∀ m ∈ kept, comparable v m = true) :
    keepGreater kept v = .ok (Extreme.keep (fun a b => less b a) kept v) := by
  cases kept with
  | none => rfl
  | some m =>
    simp only [keepGreater, Extreme.keep, literalLess_of_comparable (comparable_symm (h m rfl)),
      Except.ok_bind]
    split <;> rfl

theorem comparable_of_keepLess {kept : Option Literal} {v : Literal} {r : Option Literal}
    (hv : literalIsNull v = false) (hkept : ∀ m ∈ kept, literalIsNull m = false)
    (h : keepLess kept v = .ok r) : ∀ m ∈ kept, comparable v m = true := by
  rintro m rfl
  obtain ⟨t, ht, -⟩ := Except.bind_eq_ok.mp h
  exact (literalLess_eq_ok hv (hkept m rfl)).mp ⟨t, ht⟩

theorem comparable_of_keepGreater {kept : Option Literal} {v : Literal} {r : Option Literal}
    (hv : literalIsNull v = false) (hkept : ∀ m ∈ kept, literalIsNull m = false)
    (h : keepGreater kept v = .ok r) : ∀ m ∈ kept, comparable v m = true := by
  rintro m rfl
  obtain ⟨t, ht, -⟩ := Except.bind_eq_ok.mp h
  exact comparable_symm ((literalLess_eq_ok (hkept m rfl) hv).mp ⟨t, ht⟩)

/-! ### One aggregate of one group -/

/-- The aggregate functions. -/
def aggregateFunctions : List String := ["COUNT", "SUM", "AVG", "MIN", "MAX"]

/-- The values that are not NULL. -/
def present (vs : List Literal) : List Literal := vs.filter fun v => !literalIsNull v

/-- The values that an aggregate takes without an exception. -/
def admissible (func : String) (vs : List Literal) : Prop :=
  ((func = "SUM" ∨ func = "AVG") → ∀ v ∈ vs, isNumeric v = true) ∧
    ((func = "MIN" ∨ func = "MAX") → vs.Pairwise fun a b => comparable a b = true)

section

variable [Rounding]

/-- The sum of some numeric values. -/
def sumOf (vs : List Literal) : Binary64 := (vs.map doubleOf).foldl Binary64.add Binary64.zero

def leastOf (vs : List Literal) : Option Literal := Extreme.extreme less vs

def greatestOf (vs : List Literal) : Option Literal := Extreme.extreme (fun a b => less b a) vs

/-- The accumulators after the values `vs`, none of them NULL. -/
def accOf (func : String) (vs : List Literal) : Acc where
  sum := if func = "SUM" ∨ func = "AVG" then sumOf vs else Binary64.zero
  count := if func = "COUNT" ∨ func = "SUM" ∨ func = "AVG" then vs.length else 0
  min := if func = "MIN" then leastOf vs else none
  max := if func = "MAX" then greatestOf vs else none

/-- The output of an aggregate over the values `vs`, none of them NULL. -/
def outputOf (func : String) (vs : List Literal) : Literal :=
  if func = "COUNT" then .integer (Int64.ofNat vs.length)
  else if func = "SUM" then .floating (sumOf vs)
  else if func = "AVG" then
    .floating (if 0 < vs.length then Binary64.div (sumOf vs) (Binary64.ofInt vs.length)
      else Binary64.zero)
  else if func = "MIN" then (leastOf vs).getD .null
  else (greatestOf vs).getD .null

theorem output_accOf {func : String} (h : func ∈ aggregateFunctions) (vs : List Literal) :
    (accOf func vs).output func = [outputOf func vs] := by
  simp only [aggregateFunctions, List.mem_cons, List.not_mem_nil, or_false] at h
  rcases h with rfl | rfl | rfl | rfl | rfl <;> simp [accOf, Acc.output, outputOf]

omit [Rounding] in
theorem present_append (vs ws : List Literal) : present (vs ++ ws) = present vs ++ present ws :=
  List.filter_append ..

omit [Rounding] in
theorem not_null_of_mem_present {vs : List Literal} {v : Literal} (h : v ∈ present vs) :
    literalIsNull v = false := by
  simpa using (List.mem_filter.mp h).2

omit [Rounding] in
theorem literalAsDouble_eq_ok {v : Literal} {x : Binary64} :
    literalAsDouble v = .ok x ↔ isNumeric v = true ∧ x = doubleOf v := by
  cases v <;> simp [literalAsDouble, isNumeric, numeric?, doubleOf, Except.toOption, eq_comm]

omit [Rounding] in
/-- A new value that is comparable with the kept one is so with all. -/
theorem admissible_append_extreme {func : String} (before : Literal → Literal → Bool)
    (hf : func = "MIN" ∨ func = "MAX") {vs : List Literal} (v : Literal)
    (hvs : admissible func vs) :
    admissible func (vs ++ [v]) ↔ ∀ m ∈ Extreme.extreme before vs, comparable v m = true := by
  have hnum : ¬ (func = "SUM" ∨ func = "AVG") := by rcases hf with rfl | rfl <;> decide
  have hpair := hvs.2 hf
  simp only [admissible, hnum, hf, false_imp_iff, true_imp_iff, true_and, List.pairwise_append,
    hpair, List.pairwise_singleton, List.mem_singleton, forall_eq]
  constructor
  · exact fun h m hm => comparable_symm (h m (Extreme.extreme_mem hm))
  · intro h u hu
    cases hm : Extreme.extreme before vs with
    | none =>
      rw [Extreme.extreme_eq_none.mp hm] at hu
      cases hu
    | some m =>
      have hvm := h m hm
      by_cases hum : u = m
      · exact comparable_symm (hum ▸ hvm)
      · have hcmp : comparable u m = true :=
          hpair.forall hu (Extreme.extreme_mem hm) hum
        exact comparable_trans hcmp (comparable_symm hvm)

theorem sumOf_append (vs : List Literal) (v : Literal) :
    sumOf (vs ++ [v]) = Binary64.add (sumOf vs) (doubleOf v) := by
  simp [sumOf]

section Feed

variable {vs : List Literal} {v : Literal} {acc : Acc}

theorem feed_sum {func : String} (hf : func = "SUM" ∨ func = "AVG") (hvs : admissible func vs)
    (hv : literalIsNull v = false) :
    (accOf func vs).feed func v = .ok acc ↔
      admissible func (vs ++ [v]) ∧ acc = accOf func (vs ++ [v]) := by
  have hcount : func ≠ "COUNT" := by rcases hf with rfl | rfl <;> decide
  have hmin : func ≠ "MIN" := by rcases hf with rfl | rfl <;> decide
  have hmax : func ≠ "MAX" := by rcases hf with rfl | rfl <;> decide
  have hadm : admissible func (vs ++ [v]) ↔ isNumeric v = true := by
    simp only [admissible, hf, hmin, hmax, or_self, true_imp_iff, false_imp_iff, and_true,
      List.mem_append, List.mem_singleton]
    exact ⟨fun h => h v (.inr rfl), fun h u hu => hu.elim (hvs.1 hf u) fun hu => hu ▸ h⟩
  simp only [Acc.feed, hv, hcount, hf, Bool.false_eq_true, if_false, if_true]
  rw [hadm]
  constructor
  · intro h
    obtain ⟨x, hx, h⟩ := Except.bind_eq_ok.mp h
    obtain ⟨hnum, rfl⟩ := literalAsDouble_eq_ok.mp hx
    cases h
    exact ⟨hnum, by simp [accOf, hf, hcount, hmin, hmax, sumOf_append]⟩
  · rintro ⟨hnum, rfl⟩
    rw [literalAsDouble_eq_ok.mpr ⟨hnum, rfl⟩]
    simp [accOf, hf, hcount, hmin, hmax, sumOf_append]

omit [Rounding] in
/-- One more value for the foremost element. -/
theorem keep_extreme_iff {func : String} {before : Literal → Literal → Bool}
    {keepOne : Option Literal → Literal → Except String (Option Literal)}
    (hf : func = "MIN" ∨ func = "MAX") (hvs : admissible func vs)
    (hto : ∀ kept, (∀ m ∈ kept, comparable v m = true) →
      keepOne kept v = .ok (Extreme.keep before kept v))
    (hfrom : ∀ kept r, (∀ m ∈ kept, literalIsNull m = false) → keepOne kept v = .ok r →
      ∀ m ∈ kept, comparable v m = true)
    (hnull : ∀ u ∈ vs, literalIsNull u = false) {r : Option Literal} :
    keepOne (Extreme.extreme before vs) v = .ok r ↔
      admissible func (vs ++ [v]) ∧ r = Extreme.extreme before (vs ++ [v]) := by
  have hsnoc : Extreme.extreme before (vs ++ [v]) =
      Extreme.keep before (Extreme.extreme before vs) v := by simp [Extreme.extreme]
  rw [admissible_append_extreme before hf v hvs, hsnoc]
  constructor
  · intro h
    have hcmp := hfrom _ r (fun m hm => hnull m (Extreme.extreme_mem hm)) h
    rw [hto _ hcmp] at h
    exact ⟨hcmp, (Except.ok.inj h).symm⟩
  · rintro ⟨hcmp, rfl⟩
    exact hto _ hcmp

theorem feed_min (hvs : admissible "MIN" vs) (hnull : ∀ u ∈ vs, literalIsNull u = false)
    (hv : literalIsNull v = false) :
    (accOf "MIN" vs).feed "MIN" v = .ok acc ↔
      admissible "MIN" (vs ++ [v]) ∧ acc = accOf "MIN" (vs ++ [v]) := by
  have hkeep {r : Option Literal} := keep_extreme_iff (r := r) (.inl rfl) hvs
    (fun _ => keepLess_eq_keep) (fun _ _ => comparable_of_keepLess hv) hnull
  simp only [Acc.feed, hv, accOf, leastOf]
  simp only [Bool.false_eq_true, if_false, String.reduceEq, or_self, if_true, Except.bind_eq_ok]
  constructor
  · rintro ⟨r, hr, h⟩
    obtain ⟨hadm, rfl⟩ := hkeep.mp hr
    exact ⟨hadm, (Except.ok.inj h).symm⟩
  · rintro ⟨hadm, rfl⟩
    exact ⟨_, hkeep.mpr ⟨hadm, rfl⟩, rfl⟩

theorem feed_max (hvs : admissible "MAX" vs) (hnull : ∀ u ∈ vs, literalIsNull u = false)
    (hv : literalIsNull v = false) :
    (accOf "MAX" vs).feed "MAX" v = .ok acc ↔
      admissible "MAX" (vs ++ [v]) ∧ acc = accOf "MAX" (vs ++ [v]) := by
  have hkeep {r : Option Literal} := keep_extreme_iff (r := r) (.inr rfl) hvs
    (fun _ => keepGreater_eq_keep) (fun _ _ => comparable_of_keepGreater hv) hnull
  simp only [Acc.feed, hv, accOf, greatestOf]
  simp only [Bool.false_eq_true, if_false, String.reduceEq, or_self, if_true, Except.bind_eq_ok]
  constructor
  · rintro ⟨r, hr, h⟩
    obtain ⟨hadm, rfl⟩ := hkeep.mp hr
    exact ⟨hadm, (Except.ok.inj h).symm⟩
  · rintro ⟨hadm, rfl⟩
    exact ⟨_, hkeep.mpr ⟨hadm, rfl⟩, rfl⟩

/-- One more value that is not NULL. -/
theorem feed_accOf {func : String} (hf : func ∈ aggregateFunctions) (hvs : admissible func vs)
    (hnull : ∀ u ∈ vs, literalIsNull u = false) (hv : literalIsNull v = false) :
    (accOf func vs).feed func v = .ok acc ↔
      admissible func (vs ++ [v]) ∧ acc = accOf func (vs ++ [v]) := by
  simp only [aggregateFunctions, List.mem_cons, List.not_mem_nil, or_false] at hf
  rcases hf with rfl | rfl | rfl | rfl | rfl
  · have hall : admissible "COUNT" (vs ++ [v]) := ⟨nofun, nofun⟩
    simp [Acc.feed, hv, accOf, hall, @eq_comm _ acc]
  · exact feed_sum (.inl rfl) hvs hv
  · exact feed_sum (.inr rfl) hvs hv
  · exact feed_min hvs hnull hv
  · exact feed_max hvs hnull hv

omit [Rounding] in
theorem admissible_initial {func : String} {ws : List Literal} (h : admissible func (vs ++ ws)) :
    admissible func vs :=
  ⟨fun hf v hv => h.1 hf v (by simp [hv]), fun hf => (List.pairwise_append.mp (h.2 hf)).1⟩

omit [Rounding] in
theorem admissible_of_subperm {func : String} {vs ws : List Literal} (h : vs.Subperm ws)
    (hws : admissible func ws) : admissible func vs := by
  obtain ⟨us, hperm, hsub⟩ := h
  refine ⟨fun hf v hv => hws.1 hf v (hsub.subset (hperm.mem_iff.mpr hv)), fun hf => ?_⟩
  exact hperm.pairwise ((hws.2 hf).sublist hsub) (fun {_ _} => comparable_symm)

/-- All the values of a group, NULLs included. -/
theorem foldlM_feed {func : String} (hf : func ∈ aggregateFunctions) :
    vs.foldlM (Acc.feed func) Acc.empty = .ok acc ↔
      admissible func (present vs) ∧ acc = accOf func (present vs) := by
  induction vs using List.reverseRecOn generalizing acc with
  | nil =>
    have hnone : admissible func (present []) := by simp [admissible, present]
    have hacc : accOf func (present []) = Acc.empty := by
      simp [accOf, present, sumOf, leastOf, greatestOf, Extreme.extreme, Acc.empty]
    simp [hnone, hacc, @eq_comm _ acc]
  | append_singleton vs v ih =>
    rw [List.foldlM_append, Except.bind_eq_ok, present_append]
    simp only [List.foldlM_cons, List.foldlM_nil, Except.pure_eq_ok, Except.bind_ok]
    cases hv : literalIsNull v with
    | true =>
      have hskip : present [v] = [] := by simp [present, hv]
      have hfeed : ∀ a : Acc, a.feed func v = .ok a := fun a => by simp [Acc.feed, hv]
      simp only [hfeed, Except.ok.injEq, hskip, List.append_nil, ih]
      constructor
      · rintro ⟨a, ha, rfl⟩
        exact ha
      · exact fun h => ⟨acc, h, rfl⟩
    | false =>
      have hone : present [v] = [v] := by simp [present, hv]
      rw [hone]
      constructor
      · rintro ⟨a, ha, hfeed⟩
        obtain ⟨hadm, rfl⟩ := ih.mp ha
        exact (feed_accOf hf hadm (fun _ => not_null_of_mem_present) hv).mp hfeed
      · rintro ⟨hadm, hacc⟩
        have hpre := admissible_initial hadm
        exact ⟨_, ih.mpr ⟨hpre, rfl⟩,
          (feed_accOf hf hpre (fun _ => not_null_of_mem_present) hv).mpr ⟨hadm, hacc⟩⟩

end Feed

/-! ### The text of a key -/

omit [Rounding] in
theorem toList_groupKeyText (key : Row) : (groupKeyText key).toList =
    key.flatMap fun v => (literalToString v).toList ++ ['\x1f'] := by
  have hfold : ∀ s : String, (key.foldl (fun s k => s ++ literalToString k ++ "\x1f") s).toList =
      s.toList ++ key.flatMap fun v => (literalToString v).toList ++ ['\x1f'] := by
    induction key with
    | nil => simp
    | cons v key ih =>
      intro s
      rw [List.foldl_cons, ih, List.flatMap_cons]
      simp [String.toList_append]
  exact hfold ""

omit [Rounding] in
/-- Values whose texts do not contain the separator have the texts that their key tells. -/
theorem groupKeyText_inj {key key' : Row} (h : ∀ v ∈ key, '\x1f' ∉ (literalToString v).toList)
    (h' : ∀ v ∈ key', '\x1f' ∉ (literalToString v).toList)
    (heq : groupKeyText key = groupKeyText key') :
    key.map literalToString = key'.map literalToString := by
  have hfirst : ∀ {x y u v : List Char}, '\x1f' ∉ x → '\x1f' ∉ y →
      x ++ '\x1f' :: u = y ++ '\x1f' :: v → x = y ∧ u = v := by
    intro x y u v hx hy hxy
    have hne : ∀ {z : List Char}, '\x1f' ∉ z → ∀ c ∈ z, (c != '\x1f') = true := fun hz c hc => by
      simpa using fun hc' : c = '\x1f' => hz (hc' ▸ hc)
    have htake := congrArg (List.takeWhile (· != '\x1f')) hxy
    rw [List.takeWhile_append_of_pos (hne hx), List.takeWhile_append_of_pos (hne hy)] at htake
    have hxy' : x = y := by simpa using htake
    subst hxy'
    exact ⟨rfl, by simpa using hxy⟩
  have hlists := congrArg String.toList heq
  rw [toList_groupKeyText, toList_groupKeyText] at hlists
  clear heq
  induction key generalizing key' with
  | nil =>
    cases key' with
    | nil => rfl
    | cons v' key' => simp at hlists
  | cons v key ih =>
    cases key' with
    | nil => simp at hlists
    | cons v' key' =>
      rw [List.flatMap_cons, List.flatMap_cons, List.append_assoc, List.append_assoc] at hlists
      obtain ⟨hv, hrest⟩ := hfirst (h v (by simp)) (h' v' (by simp)) hlists
      rw [List.map_cons, List.map_cons, String.toList_injective hv,
        ih (fun w hw => h w (by simp [hw])) (fun w hw => h' w (by simp [hw])) hrest]

/-! ### Groups -/

section Groups

variable (groupBy : List Expression) (aggregates : List AggregateExpr) (schema : RowSchema)

/-- The values of the GROUP BY expressions in a row. -/
def groupKeyOf (row : Row) : Row :=
  (groupBy.mapM fun g => evaluate g row schema).toOption.getD []

def groupText (row : Row) : String := groupKeyText (groupKeyOf groupBy schema row)

/-- What an aggregate takes from the rows of a group, without the NULLs. -/
def valuesOf (agg : AggregateExpr) (rows : List Row) : List Literal :=
  present (rows.map fun row => (aggregateInput agg row schema).toOption.getD .null)

/-- The output row of a group. -/
def groupRow (rows : List Row) : Row :=
  (rows.head?.map (groupKeyOf groupBy schema)).getD [] ++
    aggregates.map fun agg => outputOf agg.func (valuesOf schema agg rows)

/-- The rows of a group. -/
def groupMembers (rows : List Row) (k : String) : List Row :=
  Grouping.members (groupText groupBy schema) rows k

/-- Rows over which the aggregates are computed without an exception. -/
structure Aggregable (rows : List Row) : Prop where
  keys : ∀ row ∈ rows, ∃ key, (groupBy.mapM fun g => evaluate g row schema) = .ok key
  inputs : ∀ row ∈ rows, ∀ agg ∈ aggregates, ∃ v, aggregateInput agg row schema = .ok v
  values : ∀ k, ∀ agg ∈ aggregates,
    admissible agg.func (valuesOf schema agg (groupMembers groupBy schema rows k))

/-- The state that a row makes when its group is new, and one more row in a state. -/
def groupInit (row : Row) : AccState := ⟨groupKeyOf groupBy schema row, aggregates.map fun _ => .empty⟩

def groupStep (st : AccState) (row : Row) : Except String AccState := do
  return { st with accs := ← feedRow aggregates row schema st.accs }

variable {groupBy aggregates schema}

theorem foldlM_aggregateRow {rows : List Row} {gs : List (String × AccState)} :
    rows.foldlM (aggregateRow groupBy aggregates schema) [] = .ok gs ↔
      (∀ row ∈ rows, ∃ key, (groupBy.mapM fun g => evaluate g row schema) = .ok key) ∧
        Grouping.groupFold (groupText groupBy schema) (groupInit groupBy aggregates schema)
          (groupStep aggregates schema) rows = .ok gs := by
  have hkeys : rows.foldlM (aggregateRow groupBy aggregates schema) [] = .ok gs →
      ∀ row ∈ rows, ∃ key, (groupBy.mapM fun g => evaluate g row schema) = .ok key := by
    generalize ([] : List (String × AccState)) = start
    intro h
    induction rows generalizing start with
    | nil => simp
    | cons row rows ih =>
      rw [List.foldlM_cons] at h
      obtain ⟨gs₁, h₁, h⟩ := Except.bind_eq_ok.mp h
      obtain ⟨key, hkey, -⟩ := Except.bind_eq_ok.mp h₁
      intro r hr
      rcases List.mem_cons.mp hr with rfl | hr
      · exact ⟨key, hkey⟩
      · exact ih gs₁ h r hr
  have hsame : (∀ row ∈ rows, ∃ key, (groupBy.mapM fun g => evaluate g row schema) = .ok key) →
      rows.foldlM (aggregateRow groupBy aggregates schema) [] =
        Grouping.groupFold (groupText groupBy schema) (groupInit groupBy aggregates schema)
          (groupStep aggregates schema) rows := by
    intro hall
    refine Except.foldlM_congr (fun s row hrow => ?_) []
    obtain ⟨key, hkey⟩ := hall row hrow
    have hof : groupKeyOf groupBy schema row = key := by simp [groupKeyOf, hkey, Except.toOption]
    simp only [aggregateRow, hkey, Except.ok_bind, groupText, groupInit, hof]
    rfl
  constructor
  · intro h
    exact ⟨hkeys h, hsame (hkeys h) ▸ h⟩
  · rintro ⟨hall, h⟩
    exact hsame hall ▸ h

/-- The key of a group stays while its accumulators are fed. -/
theorem foldlM_groupStep {rows : List Row} {st st' : AccState} :
    rows.foldlM (groupStep aggregates schema) st = .ok st' ↔
      ∃ accs, rows.foldlM (fun accs row => feedRow aggregates row schema accs) st.accs = .ok accs ∧
        st' = { st with accs := accs } :=
  Grouping.foldlM_field (fun accs row => feedRow aggregates row schema accs) AccState.accs
    (fun st accs => { st with accs := accs })
    (fun _ _ => rfl) (fun _ _ _ => rfl) fun _ => rfl

theorem foldlM_feedRow (hf : ∀ agg ∈ aggregates, agg.func ∈ aggregateFunctions) {rows : List Row}
    {accs : List Acc} :
    rows.foldlM (fun accs row => feedRow aggregates row schema accs)
        (aggregates.map fun _ => Acc.empty) = .ok accs ↔
      (∀ agg ∈ aggregates, (∀ row ∈ rows, ∃ v, aggregateInput agg row schema = .ok v) ∧
        admissible agg.func (valuesOf schema agg rows)) ∧
      accs = aggregates.map fun agg => accOf agg.func (valuesOf schema agg rows) := by
  have hone : ∀ agg ∈ aggregates, ∀ acc, rows.foldlM (fun a row => do
        a.feed agg.func (← aggregateInput agg row schema)) Acc.empty = .ok acc ↔
      ((∀ row ∈ rows, ∃ v, aggregateInput agg row schema = .ok v) ∧
        admissible agg.func (valuesOf schema agg rows)) ∧
      acc = accOf agg.func (valuesOf schema agg rows) := by
    intro agg hagg acc
    rw [Except.foldlM_read (fun row => aggregateInput agg row schema) .null,
      foldlM_feed (hf agg hagg), and_assoc]
    rfl
  refine (Grouping.foldlM_parallel (fun agg a row => do
    Acc.feed agg.func a (← aggregateInput agg row schema))).trans ?_
  constructor
  · intro h
    have hall : ∀ agg ∈ aggregates, (∀ row ∈ rows, ∃ v, aggregateInput agg row schema = .ok v) ∧
        admissible agg.func (valuesOf schema agg rows) := by
      intro agg hagg
      obtain ⟨acc, hacc⟩ := Except.ok_of_mapM_eq_ok h hagg
      exact ((hone agg hagg acc).mp hacc).1
    refine ⟨hall, ?_⟩
    rw [Except.mapM_eq_ok_map fun agg hagg => (hone agg hagg _).mpr ⟨hall agg hagg, rfl⟩] at h
    exact (Except.ok.inj h).symm
  · rintro ⟨hall, rfl⟩
    exact Except.mapM_eq_ok_map fun agg hagg => (hone agg hagg _).mpr ⟨hall agg hagg, rfl⟩

theorem foldGroup_eq_ok (hf : ∀ agg ∈ aggregates, agg.func ∈ aggregateFunctions)
    {rows : List Row} {st : AccState} :
    Grouping.foldGroup (groupInit groupBy aggregates schema) (groupStep aggregates schema) rows =
        some (.ok st) ↔
      rows ≠ [] ∧
        (∀ agg ∈ aggregates, (∀ row ∈ rows, ∃ v, aggregateInput agg row schema = .ok v) ∧
          admissible agg.func (valuesOf schema agg rows)) ∧
        st = ⟨(rows.head?.map (groupKeyOf groupBy schema)).getD [],
          aggregates.map fun agg => accOf agg.func (valuesOf schema agg rows)⟩ := by
  cases rows with
  | nil => simp [Grouping.foldGroup]
  | cons row rows =>
    simp only [Grouping.foldGroup, Option.some.injEq, foldlM_groupStep, groupInit,
      foldlM_feedRow hf, ne_eq, reduceCtorEq, not_false_eq_true, true_and, List.head?_cons,
      Option.map_some, Option.getD_some]
    constructor
    · rintro ⟨accs, ⟨hall, rfl⟩, rfl⟩
      exact ⟨hall, rfl⟩
    · rintro ⟨hall, rfl⟩
      exact ⟨_, ⟨hall, rfl⟩, rfl⟩

theorem output_eq_groupRow (hf : ∀ agg ∈ aggregates, agg.func ∈ aggregateFunctions)
    (rows : List Row) :
    AccState.output aggregates ⟨(rows.head?.map (groupKeyOf groupBy schema)).getD [],
      aggregates.map fun agg => accOf agg.func (valuesOf schema agg rows)⟩ =
        groupRow groupBy aggregates schema rows := by
  simp only [AccState.output, groupRow]
  congr 1
  induction aggregates with
  | nil => rfl
  | cons agg aggregates ih =>
    rw [List.map_cons, List.map_cons, List.zip_cons_cons, List.flatMap_cons,
      ih fun a ha => hf a (by simp [ha]), output_accOf (hf agg (by simp))]
    rfl

/-- The output of an aggregation: the row of each group, or the one row over nothing. -/
theorem hashAggregateRows_eq_ok (hf : ∀ agg ∈ aggregates, agg.func ∈ aggregateFunctions)
    {rows out : List Row} (h : hashAggregateRows groupBy aggregates schema rows = .ok out) :
    Aggregable groupBy aggregates schema rows ∧
      (groupBy = [] → rows = [] → out = [emptyAggregateRow aggregates]) ∧
      (¬ (groupBy = [] ∧ rows = []) → ∃ keys : List String, keys.Nodup ∧
        (∀ k, k ∈ keys ↔ ∃ row ∈ rows, groupText groupBy schema row = k) ∧
        out = keys.map fun k =>
          groupRow groupBy aggregates schema (groupMembers groupBy schema rows k)) := by
  obtain ⟨gs, hgs, hout⟩ := Except.bind_eq_ok.mp h
  obtain ⟨hkeys, hfold⟩ := foldlM_aggregateRow.mp hgs
  have hgroups := Grouping.groupFold_groups hfold
  have hstates := fun g hg => (foldGroup_eq_ok hf).mp (hgroups.states g hg)
  refine ⟨⟨hkeys, ?_, ?_⟩, ?_, ?_⟩
  · intro row hrow agg hagg
    obtain ⟨g, hg, hkey⟩ := List.mem_map.mp ((hgroups.keys _).mpr ⟨row, hrow, rfl⟩)
    refine ((hstates g hg).2.1 agg hagg).1 row ?_
    exact List.mem_filter.mpr ⟨hrow, by simp [hkey]⟩
  · intro k agg hagg
    by_cases hk : k ∈ gs.map (·.1)
    · obtain ⟨g, hg, rfl⟩ := List.mem_map.mp hk
      exact ((hstates g hg).2.1 agg hagg).2
    · have hnone : groupMembers groupBy schema rows k = [] := by
        rw [groupMembers, Grouping.members, List.filter_eq_nil_iff]
        intro row hrow hrk
        exact hk ((hgroups.keys k).mpr ⟨row, hrow, by simpa using hrk⟩)
      simp [hnone, valuesOf, present, admissible]
  · rintro rfl rfl
    cases hfold
    exact (Except.ok.inj hout).symm
  · intro hne
    have hcond : (groupBy.isEmpty && gs.isEmpty) = false := by
      rw [Bool.eq_false_iff]
      intro hboth
      rw [Bool.and_eq_true, List.isEmpty_iff, List.isEmpty_iff] at hboth
      refine hne ⟨hboth.1, List.eq_nil_iff_forall_not_mem.mpr fun row hrow => ?_⟩
      have := (hgroups.keys _).mpr ⟨row, hrow, rfl⟩
      simp [hboth.2] at this
    rw [hcond] at hout
    refine ⟨gs.map (·.1), hgroups.nodup, hgroups.keys, ?_⟩
    rw [List.map_map, ← Except.ok.inj hout]
    refine List.map_congr_left fun g hg => ?_
    rw [(hstates g hg).2.2, output_eq_groupRow hf]
    rfl

theorem hashAggregateRows_ok (hf : ∀ agg ∈ aggregates, agg.func ∈ aggregateFunctions)
    {rows : List Row} (h : Aggregable groupBy aggregates schema rows) :
    ∃ out, hashAggregateRows groupBy aggregates schema rows = .ok out := by
  have hfold : ∃ gs, Grouping.groupFold (groupText groupBy schema)
      (groupInit groupBy aggregates schema) (groupStep aggregates schema) rows = .ok gs := by
    apply Grouping.groupFold_ok
    intro k r hr
    refine ⟨_, Option.some.inj ((Option.mem_def.mp hr).symm.trans ((foldGroup_eq_ok hf).mpr
      ⟨?_, fun agg hagg => ⟨fun row hrow => ?_, h.values k agg hagg⟩, rfl⟩))⟩
    · intro hnil
      rw [hnil] at hr
      cases hr
    · exact h.inputs row (List.mem_filter.mp hrow).1 agg hagg
  obtain ⟨gs, hgs⟩ := hfold
  have hrows := foldlM_aggregateRow.mpr ⟨h.keys, hgs⟩
  simp only [hashAggregateRows, hrows, Except.ok_bind]
  split
  · exact ⟨_, rfl⟩
  · exact ⟨_, rfl⟩

/-! ### Groups in any order -/

variable {rows rows' : List Row}

theorem valuesOf_perm (agg : AggregateExpr) (h : rows.Perm rows') :
    (valuesOf schema agg rows).Perm (valuesOf schema agg rows') :=
  (h.map _).filter _

theorem groupMembers_perm (h : rows.Perm rows') (k : String) :
    (groupMembers groupBy schema rows k).Perm (groupMembers groupBy schema rows' k) :=
  h.filter _

theorem Aggregable.of_subperm (h : Aggregable groupBy aggregates schema rows')
    (hsub : rows.Subperm rows') : Aggregable groupBy aggregates schema rows := by
  refine ⟨fun row hrow => h.keys row (hsub.subset hrow),
    fun row hrow => h.inputs row (hsub.subset hrow), fun k agg hagg => ?_⟩
  refine admissible_of_subperm ?_ (h.values k agg hagg)
  obtain ⟨us, hperm, hsub⟩ := hsub
  exact ⟨_, ((hperm.filter _).map _).filter _, ((hsub.filter _).map _).filter _⟩

/-- Groups that come out the same in whatever order their rows are read: keys that print alike are
the same, and no aggregate of a group depends on the order of its values. -/
structure OrderFree (groupBy : List Expression) (aggregates : List AggregateExpr)
    (schema : RowSchema) (rows : List Row) : Prop where
  keys : ∀ a ∈ rows, ∀ b ∈ rows, groupText groupBy schema a = groupText groupBy schema b →
    groupKeyOf groupBy schema a = groupKeyOf groupBy schema b
  values : ∀ k, ∀ agg ∈ aggregates, ∀ vs,
    vs.Perm (valuesOf schema agg (groupMembers groupBy schema rows k)) →
      outputOf agg.func vs =
        outputOf agg.func (valuesOf schema agg (groupMembers groupBy schema rows k))

theorem OrderFree.groupRow_eq (h : OrderFree groupBy aggregates schema rows)
    (hperm : rows'.Perm rows) (k : String) :
    groupRow groupBy aggregates schema (groupMembers groupBy schema rows' k) =
      groupRow groupBy aggregates schema (groupMembers groupBy schema rows k) := by
  have hmembers : (groupMembers groupBy schema rows' k).Perm (groupMembers groupBy schema rows k) :=
    groupMembers_perm hperm k
  have hkey : ((groupMembers groupBy schema rows' k).head?.map (groupKeyOf groupBy schema)).getD [] =
      ((groupMembers groupBy schema rows k).head?.map (groupKeyOf groupBy schema)).getD [] := by
    rcases hm : groupMembers groupBy schema rows k with _ | ⟨row, ms⟩
    · rw [hm] at hmembers
      rw [List.perm_nil.mp hmembers]
    rcases hm' : groupMembers groupBy schema rows' k with _ | ⟨row', ms'⟩
    · rw [hm, hm'] at hmembers
      cases List.nil_perm.mp hmembers
    have hrow : row ∈ groupMembers groupBy schema rows k := by rw [hm]; exact List.mem_cons_self
    have hrow' : row' ∈ groupMembers groupBy schema rows k :=
      hmembers.mem_iff.mp (by rw [hm']; exact List.mem_cons_self)
    obtain ⟨hin, hk⟩ := List.mem_filter.mp hrow
    obtain ⟨hin', hk'⟩ := List.mem_filter.mp hrow'
    simpa using h.keys row' hin' row hin
      ((of_decide_eq_true hk').trans (of_decide_eq_true hk).symm)
  rw [groupRow, groupRow, hkey]
  congr 1
  exact List.map_congr_left fun agg hagg => h.values k agg hagg _ (valuesOf_perm agg hmembers)

/-- The groups of the rows in another order. -/
theorem OrderFree.reordered (h : OrderFree groupBy aggregates schema rows)
    (hf : ∀ agg ∈ aggregates, agg.func ∈ aggregateFunctions) {out : List Row}
    (hout : hashAggregateRows groupBy aggregates schema rows = .ok out) (hperm : rows'.Perm rows) :
    ∃ out', hashAggregateRows groupBy aggregates schema rows' = .ok out' ∧ out'.Perm out := by
  obtain ⟨haggregable, hempty, hgroups⟩ := hashAggregateRows_eq_ok hf hout
  obtain ⟨out', hout'⟩ := hashAggregateRows_ok hf (haggregable.of_subperm hperm.subperm)
  refine ⟨out', hout', ?_⟩
  obtain ⟨-, hempty', hgroups'⟩ := hashAggregateRows_eq_ok hf hout'
  by_cases hnone : groupBy = [] ∧ rows = []
  · rw [hempty hnone.1 hnone.2, hempty' hnone.1 (List.perm_nil.mp (hnone.2 ▸ hperm))]
  · obtain ⟨keys, hnodup, hmem, rfl⟩ := hgroups hnone
    obtain ⟨keys', hnodup', hmem', rfl⟩ := hgroups' fun hnone' =>
      hnone ⟨hnone'.1, List.nil_perm.mp (hnone'.2 ▸ hperm)⟩
    have hsame : keys'.Perm keys := by
      rw [List.perm_ext_iff_of_nodup hnodup' hnodup]
      intro k
      rw [hmem', hmem]
      exact exists_congr fun row => and_congr_left' hperm.mem_iff
    exact (hsame.map _).trans (.of_eq (List.map_congr_left fun k _ => h.groupRow_eq hperm k))

end Groups

end

end SqlOptimizer
