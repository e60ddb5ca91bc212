import SqlOptimizer.Execution.Aggregation
import SqlOptimizer.Execution.JoinAgreement
import SqlOptimizer.Execution.Success
import SqlOptimizer.Library.ExactSum

/-! The groups of `HashAggregateExec`: rows fall in one group when their keys print alike, which is
not when their keys have the same values.  A zero has one value, printed with and without a sign. -/

namespace SqlOptimizer

/-- A value without the sign of a zero. -/
def literalValue : Literal → Literal
  | .floating (.fin n m) => .floating (if m = 0 then Binary64.zero else .fin n m)
  | v => v

theorem literalValue_floating_eq {x y : Binary64} :
    literalValue (.floating x) = literalValue (.floating y) ↔ x = y ∨ Binary64.eq x y = true := by
  have hsigned : ∀ (n : Bool) (m : ℚ≥0), Binary64.signed n m = 0 ↔ m = 0 := by
    intro n m
    cases n <;> simp [Binary64.signed]
  have hnan : ∀ (n : Bool) (m : ℚ≥0), (if m = 0 then Binary64.zero else .fin n m) ≠ .nan := by
    intro n m h
    split at h <;> cases h
  have hinf : ∀ (n n' : Bool) (m : ℚ≥0),
      (if m = 0 then Binary64.zero else .fin n m) ≠ .inf n' := by
    intro n n' m h
    split at h <;> cases h
  cases x with
  | nan => cases y <;> simp [literalValue, Binary64.eq, (hnan _ _).symm]
  | inf n => cases y <;> simp [literalValue, Binary64.eq, (hinf _ _ _).symm]
  | fin n m =>
    cases y with
    | nan => simp [literalValue, Binary64.eq, hnan]
    | inf n' => simp [literalValue, Binary64.eq, hinf]
    | fin n' m' =>
      simp only [literalValue, Binary64.eq, Literal.floating.injEq, beq_iff_eq]
      by_cases hm : m = 0 <;> by_cases hm' : m' = 0
      · simp [hm, hm', (hsigned _ _).mpr]
      · simp [hm, hm', Binary64.zero, (hsigned n 0).mpr, eq_comm (a := (0 : ℚ)), hsigned,
          eq_comm (a := (0 : ℚ≥0))]
      · simp [hm, hm', Binary64.zero, (hsigned n' 0).mpr, hsigned]
      · rw [if_neg hm, if_neg hm']
        constructor
        · exact .inl
        · rintro (h | h)
          · exact h
          · exact Binary64.fin_congr h fun h0 => absurd ((hsigned _ _).mp h0) hm

/-- Two values are the same when they are equal or are doubles that `==` calls equal. -/
theorem literalValue_eq_iff {a b : Literal} : literalValue a = literalValue b ↔
    a = b ∨ ∃ x y, a = .floating x ∧ b = .floating y ∧ Binary64.eq x y = true := by
  have hkind : ∀ (c : Literal) (x : Binary64), literalValue c = literalValue (.floating x) →
      ∃ y, c = .floating y := by
    intro c x h
    cases c <;> cases x <;> first | exact ⟨_, rfl⟩ | cases h
  constructor
  · intro h
    cases a with
    | floating x =>
      obtain ⟨y, rfl⟩ := hkind b x h.symm
      rcases literalValue_floating_eq.mp h with rfl | h
      · exact .inl rfl
      · exact .inr ⟨x, y, rfl, rfl, h⟩
    | _ =>
      cases b with
      | floating y =>
        obtain ⟨x, hx⟩ := hkind _ y h
        cases hx
      | _ => exact .inl h
  · rintro (rfl | ⟨x, y, rfl, rfl, h⟩)
    · rfl
    · exact literalValue_floating_eq.mpr (.inr h)

/-- The values of a tuple, each printed and followed by the separator. -/
def printedKey (key : Row) : List Char :=
  key.flatMap fun v => (literalToString v).toList ++ ['\x1f']

/-- A value whose text no value of another kind but a string has. -/
def plainKey : Literal → Bool
  | .integer _ | .boolean _ | .null => true
  | _ => false

theorem separator_not_mem {v : Literal} (h : plainKey v = true) :
    '\x1f' ∉ (literalToString v).toList := by
  cases v with
  | integer i =>
    intro hmem
    rw [literalToString, String.toList_ofList] at hmem
    rcases Binary64.mem_intText hmem with h | h
    · exact absurd h (by decide)
    · exact absurd h (by decide)
  | boolean b => cases b <;> decide
  | null => decide
  | floating x => cases h
  | str s => cases h

theorem literalToString_inj_of_plain {a b : Literal} (ha : plainKey a = true)
    (hb : plainKey b = true) (h : literalToString a = literalToString b) : a = b := by
  have hTrue := intText_ne (s := "true") (c := 't') (by decide) (by decide)
  have hFalse := intText_ne (s := "false") (c := 'l') (by decide) (by decide)
  have hNull := intText_ne (s := "<null>") (c := 'l') (by decide) (by decide)
  have hbool : ∀ p : Bool, literalToString (.boolean p) ≠ "<null>" := by decide
  cases a with
  | integer i =>
    cases b with
    | integer j => rw [literalToString_integer_inj.mp h]
    | boolean q => cases q <;> simp [literalToString, hTrue, hFalse] at h
    | null => exact absurd h (hNull _)
    | floating y => cases hb
    | str t => cases hb
  | boolean p =>
    cases b with
    | integer j => cases p <;> simp [literalToString, (hTrue _).symm, (hFalse _).symm] at h
    | boolean q => cases p <;> cases q <;> first | rfl | exact absurd h (by decide)
    | null => exact absurd h (hbool p)
    | floating y => cases hb
    | str t => cases hb
  | null =>
    cases b with
    | integer j => exact absurd h.symm (hNull _)
    | boolean q => exact absurd h.symm (hbool q)
    | null => rfl
    | floating y => cases hb
    | str t => cases hb
  | floating x => cases ha
  | str s => cases ha

theorem eq_of_texts_eq {key key' : Row} (h : ∀ v ∈ key, plainKey v = true)
    (h' : ∀ v ∈ key', plainKey v = true)
    (heq : key.map literalToString = key'.map literalToString) : key = key' := by
  induction key generalizing key' with
  | nil => exact (List.map_eq_nil_iff.mp heq.symm).symm
  | cons v key ih =>
    obtain ⟨v', rest, rfl, hv, hrest⟩ := List.map_eq_cons_iff.mp heq.symm
    rw [literalToString_inj_of_plain (h v (by simp)) (h' v' (by simp)) hv.symm,
      ih (fun w hw => h w (by simp [hw])) (fun w hw => h' w (by simp [hw])) hrest.symm]

section

variable [Rounding]

/-- The outputs of the aggregates over the rows of a group; only the one group without GROUP BY can
be empty. -/
def aggregatesOver (aggregates : List AggregateExpr) (schema : RowSchema) (rows : List Row) : Row :=
  if rows = [] then emptyAggregateRow aggregates
  else aggregates.map fun agg => outputOf agg.func (valuesOf schema agg rows)

/-- The values of the GROUP BY expressions in a row. -/
def groupValues (groupBy : List Expression) (schema : RowSchema) (row : Row) : Row :=
  (groupKeyOf groupBy schema row).map literalValue

/-- The output has one row for each tuple of group values of the input, with the aggregates over the
rows that have these values.  Without GROUP BY the one tuple is empty, also over no rows. -/
def ReportsByValue (groupBy : List Expression) (aggregates : List AggregateExpr)
    (schema : RowSchema) (rows out : List Row) : Prop :=
  ∃ tuples : List Row, (tuples.map (List.map literalValue)).Nodup ∧
    (∀ v, v ∈ tuples.map (List.map literalValue) ↔
      (∃ row ∈ rows, groupValues groupBy schema row = v) ∨ groupBy = [] ∧ v = []) ∧
    out = tuples.map fun t => t ++ aggregatesOver aggregates schema
      (rows.filter fun row => groupValues groupBy schema row = t.map literalValue)

/-- Two rows fall in one group exactly when they have the same group values, and this is what the
output reports. -/
structure GroupsByValue (groupBy : List Expression) (aggregates : List AggregateExpr)
    (schema : RowSchema) (rows out : List Row) : Prop where
  together : ∀ row ∈ rows, ∀ row' ∈ rows,
    (∃ k, row ∈ groupMembers groupBy schema rows k ∧ row' ∈ groupMembers groupBy schema rows k) ↔
      groupValues groupBy schema row = groupValues groupBy schema row'
  reported : ReportsByValue groupBy aggregates schema rows out

/-- No two rows have keys of different values that print alike. -/
def KeysPrintApart (groupBy : List Expression) (schema : RowSchema) (rows : List Row) : Prop :=
  ∀ row ∈ rows, ∀ row' ∈ rows,
    printedKey (groupKeyOf groupBy schema row) = printedKey (groupKeyOf groupBy schema row') →
      groupValues groupBy schema row = groupValues groupBy schema row'

/-- No two rows have keys of the same values that print differently. -/
def KeysPrintAlike (groupBy : List Expression) (schema : RowSchema) (rows : List Row) : Prop :=
  ∀ row ∈ rows, ∀ row' ∈ rows,
    groupValues groupBy schema row = groupValues groupBy schema row' →
      printedKey (groupKeyOf groupBy schema row) = printedKey (groupKeyOf groupBy schema row')

instance (groupBy : List Expression) (schema : RowSchema) (rows : List Row) :
    Decidable (KeysPrintApart groupBy schema rows) :=
  inferInstanceAs (Decidable (∀ row ∈ rows, ∀ row' ∈ rows, _ → _))

instance (groupBy : List Expression) (schema : RowSchema) (rows : List Row) :
    Decidable (KeysPrintAlike groupBy schema rows) :=
  inferInstanceAs (Decidable (∀ row ∈ rows, ∀ row' ∈ rows, _ → _))

variable {groupBy : List Expression} {aggregates : List AggregateExpr} {schema : RowSchema}
  {rows out : List Row}

omit [Rounding] in
theorem groupKeyText_eq_iff {key key' : Row} :
    groupKeyText key = groupKeyText key' ↔ printedKey key = printedKey key' := by
  rw [← String.toList_inj, toList_groupKeyText, toList_groupKeyText]
  rfl

/-- Without GROUP BY the empty tuple is that of every row. -/
theorem exists_row_of_tuple {v : Row} (hne : ¬ (groupBy = [] ∧ rows = [])) :
    ((∃ row ∈ rows, groupValues groupBy schema row = v) ∨ groupBy = [] ∧ v = []) ↔
      ∃ row ∈ rows, groupValues groupBy schema row = v := by
  refine ⟨fun h => h.elim id ?_, .inl⟩
  rintro ⟨rfl, rfl⟩
  obtain ⟨row, hrow⟩ := List.exists_mem_of_ne_nil rows fun h => hne ⟨rfl, h⟩
  exact ⟨row, hrow, rfl⟩

theorem groupRow_eq_append {rows : List Row} (h : rows ≠ []) :
    groupRow groupBy aggregates schema rows =
      (rows.head?.map (groupKeyOf groupBy schema)).getD [] ++
        aggregatesOver aggregates schema rows := by
  rw [groupRow, aggregatesOver, if_neg h]

/-- The tuple of the first row of a group. -/
theorem exists_tuple_of_key (aggregates : List AggregateExpr) {k : String}
    (h : ∃ row ∈ rows, groupText groupBy schema row = k) :
    ∃ t, (∃ row ∈ rows, groupKeyOf groupBy schema row = t) ∧ groupKeyText t = k ∧
      groupRow groupBy aggregates schema (groupMembers groupBy schema rows k) =
        t ++ aggregatesOver aggregates schema (groupMembers groupBy schema rows k) := by
  obtain ⟨row, hrow, hk⟩ := h
  have hne : groupMembers groupBy schema rows k ≠ [] :=
    List.ne_nil_of_mem (List.mem_filter.mpr ⟨hrow, by simpa using hk⟩)
  obtain ⟨first, rest, hmembers⟩ := List.exists_cons_of_ne_nil hne
  have hfirst : first ∈ groupMembers groupBy schema rows k := by simp [hmembers]
  obtain ⟨hmem, htext⟩ := List.mem_filter.mp hfirst
  refine ⟨groupKeyOf groupBy schema first, ⟨first, hmem, rfl⟩, of_decide_eq_true htext, ?_⟩
  rw [groupRow_eq_append hne, hmembers]
  rfl

/-- The rows of a group are those that have its values. -/
theorem groupMembers_eq_filter (hapart : KeysPrintApart groupBy schema rows)
    (halike : KeysPrintAlike groupBy schema rows) {t : Row}
    (ht : ∃ row ∈ rows, groupKeyOf groupBy schema row = t) :
    groupMembers groupBy schema rows (groupKeyText t) =
      rows.filter fun row => groupValues groupBy schema row = t.map literalValue := by
  obtain ⟨row₀, hrow₀, rfl⟩ := ht
  refine List.filter_congr fun row hrow => ?_
  rw [decide_eq_decide]
  constructor
  · intro h
    exact hapart row hrow row₀ hrow₀ (groupKeyText_eq_iff.mp h)
  · intro h
    exact groupKeyText_eq_iff.mpr (halike row hrow row₀ hrow₀ h)

theorem reportsByValue_of_keys (hf : ∀ agg ∈ aggregates, agg.func ∈ aggregateFunctions)
    (h : hashAggregateRows groupBy aggregates schema rows = .ok out)
    (hapart : KeysPrintApart groupBy schema rows) (halike : KeysPrintAlike groupBy schema rows) :
    ReportsByValue groupBy aggregates schema rows out := by
  obtain ⟨-, hempty, hkeys⟩ := hashAggregateRows_eq_ok hf h
  by_cases hne : groupBy = [] ∧ rows = []
  · obtain ⟨rfl, rfl⟩ := hne
    refine ⟨[[]], List.nodup_singleton _, by simp, ?_⟩
    rw [hempty rfl rfl]
    simp [aggregatesOver]
  · obtain ⟨keys, hnodup, hmem, rfl⟩ := hkeys hne
    choose! tuple htuple htext hrow using fun k hk =>
      exists_tuple_of_key aggregates ((hmem k).mp hk)
    refine ⟨keys.map tuple, ?_, fun v => ?_, ?_⟩
    · rw [List.map_map]
      refine hnodup.map_on fun k hk k' hk' heq => ?_
      obtain ⟨row, hin, hkey⟩ := htuple k hk
      obtain ⟨row', hin', hkey'⟩ := htuple k' hk'
      have hvalues : groupValues groupBy schema row = groupValues groupBy schema row' := by
        rw [groupValues, groupValues, hkey, hkey']
        exact heq
      rw [← htext k hk, ← htext k' hk', ← hkey, ← hkey']
      exact groupKeyText_eq_iff.mpr (halike row hin row' hin' hvalues)
    · rw [exists_row_of_tuple hne, List.map_map, List.mem_map]
      constructor
      · rintro ⟨k, hk, rfl⟩
        obtain ⟨row, hin, hkey⟩ := htuple k hk
        exact ⟨row, hin, congrArg _ hkey⟩
      · rintro ⟨row, hin, rfl⟩
        have hk := (hmem _).mpr ⟨row, hin, rfl⟩
        obtain ⟨row', hin', hkey⟩ := htuple _ hk
        refine ⟨_, hk, ?_⟩
        rw [Function.comp_apply, ← hkey]
        refine hapart row' hin' row hin (groupKeyText_eq_iff.mp ?_)
        rw [hkey, htext _ hk]
        rfl
    · rw [List.map_map]
      refine List.map_congr_left fun k hk => ?_
      rw [hrow k hk, Function.comp_apply, ← groupMembers_eq_filter hapart halike (htuple k hk),
        htext k hk]

/-- A report by value has as many rows as the input has tuples of values, and as many as it has
texts. -/
theorem card_groupValues_eq (hf : ∀ agg ∈ aggregates, agg.func ∈ aggregateFunctions)
    (h : hashAggregateRows groupBy aggregates schema rows = .ok out)
    (hne : ¬ (groupBy = [] ∧ rows = []))
    (hvalue : ReportsByValue groupBy aggregates schema rows out) :
    (rows.toFinset.image (groupValues groupBy schema)).card =
      (rows.toFinset.image (groupText groupBy schema)).card := by
  obtain ⟨-, -, hkeys⟩ := hashAggregateRows_eq_ok hf h
  obtain ⟨keys, hnodup, hmem, hout⟩ := hkeys hne
  obtain ⟨tuples, htuples, htmem, hout'⟩ := hvalue
  have hlength : keys.length = (tuples.map (List.map literalValue)).length := by
    have := congrArg List.length (hout.symm.trans hout')
    simpa using this
  have hvalues : rows.toFinset.image (groupValues groupBy schema) =
      (tuples.map (List.map literalValue)).toFinset := by
    ext v
    simp only [Finset.mem_image, List.mem_toFinset]
    rw [htmem, exists_row_of_tuple hne]
  have htexts : rows.toFinset.image (groupText groupBy schema) = keys.toFinset := by
    ext k
    simp only [Finset.mem_image, List.mem_toFinset, hmem]
  rw [hvalues, htexts, List.toFinset_card_of_nodup hnodup, List.toFinset_card_of_nodup htuples,
    hlength]

/-- Texts and values that part the rows in one direction part them in the other, when the output is
by value. -/
theorem keys_of_reportsByValue (hf : ∀ agg ∈ aggregates, agg.func ∈ aggregateFunctions)
    (h : hashAggregateRows groupBy aggregates schema rows = .ok out)
    (hvalue : ReportsByValue groupBy aggregates schema rows out) :
    KeysPrintAlike groupBy schema rows ↔ KeysPrintApart groupBy schema rows := by
  by_cases hne : groupBy = [] ∧ rows = []
  · obtain ⟨-, rfl⟩ := hne
    simp [KeysPrintApart, KeysPrintAlike]
  · have hcard := card_groupValues_eq hf h hne hvalue
    constructor
    · intro halike row hrow row' hrow' heq
      refine Grouping.eq_of_card_eq rows.toFinset (g := groupText groupBy schema) ?_ hcard
        row (by simpa using hrow) row' (by simpa using hrow') (groupKeyText_eq_iff.mpr heq)
      intro a ha b hb hab
      exact groupKeyText_eq_iff.mpr (halike a (by simpa using ha) b (by simpa using hb) hab)
    · intro hapart row hrow row' hrow' heq
      refine groupKeyText_eq_iff.mp (Grouping.eq_of_card_eq rows.toFinset
        (f := groupText groupBy schema) ?_ hcard.symm row (by simpa using hrow) row'
        (by simpa using hrow') heq)
      intro a ha b hb hab
      exact hapart a (by simpa using ha) b (by simpa using hb) (groupKeyText_eq_iff.mp hab)

theorem together_iff : (∀ row ∈ rows, ∀ row' ∈ rows,
    (∃ k, row ∈ groupMembers groupBy schema rows k ∧ row' ∈ groupMembers groupBy schema rows k) ↔
      groupValues groupBy schema row = groupValues groupBy schema row') ↔
    KeysPrintApart groupBy schema rows ∧ KeysPrintAlike groupBy schema rows := by
  have hgroup : ∀ row ∈ rows, ∀ row' ∈ rows, (∃ k, row ∈ groupMembers groupBy schema rows k ∧
      row' ∈ groupMembers groupBy schema rows k) ↔
        printedKey (groupKeyOf groupBy schema row) =
          printedKey (groupKeyOf groupBy schema row') := by
    intro row hrow row' hrow'
    simp only [groupMembers, Grouping.members, List.mem_filter, hrow, hrow', true_and,
      decide_eq_true_eq, exists_eq_left']
    rw [eq_comm]
    exact groupKeyText_eq_iff
  constructor
  · intro h
    exact ⟨fun row hrow row' hrow' heq => (h row hrow row' hrow').mp
        ((hgroup row hrow row' hrow').mpr heq),
      fun row hrow row' hrow' heq => (hgroup row hrow row' hrow').mp
        ((h row hrow row' hrow').mpr heq)⟩
  · rintro ⟨hapart, halike⟩ row hrow row' hrow'
    rw [hgroup row hrow row' hrow']
    exact ⟨hapart row hrow row' hrow', halike row hrow row' hrow'⟩

/-- NULLs, integers and booleans print apart. -/
theorem keysPrintApart_of_plain
    (h : ∀ row ∈ rows, ∀ v ∈ groupKeyOf groupBy schema row, plainKey v = true) :
    KeysPrintApart groupBy schema rows := by
  intro row hrow row' hrow' heq
  have hsep : ∀ r ∈ rows, ∀ v ∈ groupKeyOf groupBy schema r, '\x1f' ∉ (literalToString v).toList :=
    fun r hr v hv => separator_not_mem (h r hr v hv)
  have htexts := groupKeyText_inj (hsep row hrow) (hsep row' hrow') (groupKeyText_eq_iff.mpr heq)
  exact congrArg (List.map literalValue) (eq_of_texts_eq (h row hrow) (h row' hrow') htexts)

/-- Values of these kinds that are the same print alike. -/
theorem keysPrintAlike_of_plain
    (h : ∀ row ∈ rows, ∀ v ∈ groupKeyOf groupBy schema row, plainKey v = true) :
    KeysPrintAlike groupBy schema rows := by
  have hself : ∀ row ∈ rows, groupValues groupBy schema row = groupKeyOf groupBy schema row := by
    intro row hrow
    refine (List.map_congr_left fun v hv => ?_).trans (List.map_id _)
    have hv := h row hrow v hv
    cases v <;> first | rfl | cases hv
  intro row hrow row' hrow' heq
  rw [hself row hrow, hself row' hrow'] at heq
  rw [heq]

/-- The groups are those of the values exactly when two keys print alike where they have the same
values.  Where the texts only merge values, or only split them, the output alone tells. -/
theorem hashAggregate_groupsByValue_iff {input : Executor}
    (hf : ∀ agg ∈ aggregates, agg.func ∈ aggregateFunctions) (hrows : input.run = .ok rows)
    (hout : (Executor.hashAggregate groupBy aggregates input).run = .ok out) :
    (GroupsByValue groupBy aggregates input.schema rows out ↔
      KeysPrintApart groupBy input.schema rows ∧ KeysPrintAlike groupBy input.schema rows) ∧
    (KeysPrintAlike groupBy input.schema rows →
      (ReportsByValue groupBy aggregates input.schema rows out ↔
        KeysPrintApart groupBy input.schema rows)) ∧
    (KeysPrintApart groupBy input.schema rows →
      (ReportsByValue groupBy aggregates input.schema rows out ↔
        KeysPrintAlike groupBy input.schema rows)) := by
  obtain ⟨rows', hrows', h⟩ := Executor.run_hashAggregate_eq_ok.mp hout
  obtain rfl : rows = rows' := Except.ok.inj (hrows.symm.trans hrows')
  refine ⟨⟨fun hg => together_iff.mp hg.together, fun hkeys =>
    ⟨together_iff.mpr hkeys, reportsByValue_of_keys hf h hkeys.1 hkeys.2⟩⟩, ?_, ?_⟩
  · intro halike
    exact ⟨fun hr => (keys_of_reportsByValue hf h hr).mp halike,
      fun hapart => reportsByValue_of_keys hf h hapart halike⟩
  · intro hapart
    exact ⟨fun hr => (keys_of_reportsByValue hf h hr).mpr hapart,
      fun halike => reportsByValue_of_keys hf h hapart halike⟩

end

/-! ### One column of names -/

/-- `COUNT(*)` -/
def countAll : AggregateExpr := ⟨"COUNT", .wildcard, none⟩

/-- A relation of one column `name`. -/
def namesOnly (names : List Literal) : Executor :=
  .externalRows "t" ⟨[⟨some "t", "name"⟩], []⟩ (names.map fun v => [v])

section

attribute [local instance] Rounding.exact

/-- NULL is counted with the string that it prints as. -/
theorem hashAggregate_null_with_string :
    (namesOnly [.null, .str "<null>"]).run = .ok [[.null], [.str "<null>"]] ∧
    (Executor.hashAggregate [.column none "name"] [countAll]
      (namesOnly [.null, .str "<null>"])).run = .ok [[.null, .integer 2]] ∧
    ¬ ReportsByValue [.column none "name"] [countAll] (namesOnly [.null, .str "<null>"]).schema
      [[.null], [.str "<null>"]] [[.null, .integer 2]] := by
  refine ⟨by decide, by decide, ?_⟩
  rintro ⟨tuples, -, hmem, hout⟩
  have hnull := (hmem [.null]).mpr (.inl ⟨[.null], by simp, by decide⟩)
  have hstr := (hmem [.str "<null>"]).mpr (.inl ⟨[.str "<null>"], by simp, by decide⟩)
  have hlength := congrArg List.length hout
  rw [List.length_map, List.length_singleton, eq_comm, List.length_eq_one_iff] at hlength
  obtain ⟨t, rfl⟩ := hlength
  have heq := (List.mem_singleton.mp hnull).trans (List.mem_singleton.mp hstr).symm
  exact absurd heq (by decide)

/-- Three rows with two names, and the two zeros, which print differently. -/
theorem hashAggregate_groupsByValue_names :
    GroupsByValue [.column none "name"] [countAll] (namesOnly [.str "a", .null, .str "a"]).schema
      [[.str "a"], [.null], [.str "a"]] [[.str "a", .integer 2], [.null, .integer 1]] ∧
    ¬ ReportsByValue [.column none "name"] [countAll] (namesOnly []).schema
      [[.floating (.fin false 0)], [.floating (.fin true 0)]]
      [[.floating (.fin false 0), .integer 1], [.floating (.fin true 0), .integer 1]] := by
  constructor
  · have hrows : (namesOnly [.str "a", .null, .str "a"]).run =
        .ok [[.str "a"], [.null], [.str "a"]] := by
      decide
    have hout : (Executor.hashAggregate [.column none "name"] [countAll]
        (namesOnly [.str "a", .null, .str "a"])).run =
          .ok [[.str "a", .integer 2], [.null, .integer 1]] := by
      decide
    exact (hashAggregate_groupsByValue_iff (by decide) hrows hout).1.mpr (by decide)
  · have hrows : (namesOnly [.floating (.fin false 0), .floating (.fin true 0)]).run =
        .ok [[.floating (.fin false 0)], [.floating (.fin true 0)]] := by
      decide
    have hout : (Executor.hashAggregate [.column none "name"] [countAll]
        (namesOnly [.floating (.fin false 0), .floating (.fin true 0)])).run =
          .ok [[.floating (.fin false 0), .integer 1], [.floating (.fin true 0), .integer 1]] := by
      decide
    exact fun h => absurd
      (((hashAggregate_groupsByValue_iff (by decide) hrows hout).2.2 (by decide)).mp h) (by decide)

end

end SqlOptimizer
