import SqlOptimizer.Distributed.MergeAggregates
import SqlOptimizer.Distributed.BroadcastJoin
import SqlOptimizer.Distributed.ShuffleJoin

/-! Aggregation above a shuffle join whose key is in GROUP BY: each group is on one worker, and the
groups of the workers are the groups of the join. -/

namespace SqlOptimizer

/-! ### Rows aggregated apart -/

section

variable [Rounding] {groupBy : List Expression} {aggregates : List AggregateExpr}
  {schema : RowSchema}

/-- The aggregation of rows whose keys have values. -/
theorem hashAggregateRows_eq_ok_iff (hg : groupBy ≠ []) {rows out : List Row} :
    hashAggregateRows groupBy aggregates schema rows = .ok out ↔
      (∀ row ∈ rows, ∃ key, (groupBy.mapM fun g => evaluate g row schema) = .ok key) ∧
        ∃ gs, Grouping.groupFold (groupText groupBy schema) (groupInit groupBy aggregates schema)
          (groupStep aggregates schema) rows = .ok gs ∧
            out = gs.map fun g => g.2.output aggregates := by
  have hempty : groupBy.isEmpty = false := by
    cases groupBy with
    | nil => exact absurd rfl hg
    | cons => rfl
  simp only [hashAggregateRows, hempty, Bool.false_and, Bool.false_eq_true, if_false,
    Except.bind_eq_ok, Except.pure_eq_ok, Except.ok.injEq, foldlM_aggregateRow]
  constructor
  · rintro ⟨gs, ⟨hkeys, hgs⟩, rfl⟩
    exact ⟨hkeys, gs, hgs, rfl⟩
  · rintro ⟨hkeys, gs, hgs, rfl⟩
    exact ⟨gs, ⟨hkeys, hgs⟩, rfl⟩

/-- Parts of the rows that have no group in common are aggregated apart. -/
theorem hashAggregateRows_flatMap_eq_ok (hg : groupBy ≠ []) {ι : Type} {is : List ι}
    {f : ι → List Row} {out : List Row}
    (hdisj : is.Pairwise fun i j => ∀ a ∈ f i, ∀ b ∈ f j,
      (∃ key, (groupBy.mapM fun g => evaluate g a schema) = .ok key) →
      (∃ key, (groupBy.mapM fun g => evaluate g b schema) = .ok key) →
        groupText groupBy schema a ≠ groupText groupBy schema b) :
    hashAggregateRows groupBy aggregates schema (is.flatMap f) = .ok out ↔
      ∃ outs : ι → List Row,
        (∀ i ∈ is, hashAggregateRows groupBy aggregates schema (f i) = .ok (outs i)) ∧
          out = is.flatMap outs := by
  have hsplit : (∀ i ∈ is, ∀ row ∈ f i,
      ∃ key, (groupBy.mapM fun g => evaluate g row schema) = .ok key) →
        Grouping.groupFold (groupText groupBy schema) (groupInit groupBy aggregates schema)
          (groupStep aggregates schema) (is.flatMap f) = (do
            return (← is.mapM fun i => Grouping.groupFold (groupText groupBy schema)
              (groupInit groupBy aggregates schema) (groupStep aggregates schema) (f i)).flatten) := by
    intro hkeys
    refine Grouping.groupFold_flatMap_of_disjoint ?_
    refine List.Pairwise.imp_of_mem (fun hi hj h a ha b hb => ?_) hdisj
    exact h a ha b hb (hkeys _ hi a ha) (hkeys _ hj b hb)
  rw [hashAggregateRows_eq_ok_iff hg]
  simp only [List.mem_flatMap, forall_exists_index, and_imp]
  constructor
  · rintro ⟨hkeys, gs, hgs, rfl⟩
    have hkeys' : ∀ i ∈ is, ∀ row ∈ f i,
        ∃ key, (groupBy.mapM fun g => evaluate g row schema) = .ok key :=
      fun i hi row hrow => hkeys row i hi hrow
    rw [hsplit hkeys', Except.bind_eq_ok] at hgs
    obtain ⟨gss, hgss, hgs⟩ := hgs
    cases hgs
    have : Nonempty (List (String × AccState)) := ⟨[]⟩
    obtain ⟨gsOf, hgsOf, rfl⟩ := Except.exists_map_of_mapM_eq_ok hgss
    refine ⟨fun i => (gsOf i).map fun g => g.2.output aggregates, fun i hi => ?_, ?_⟩
    · exact (hashAggregateRows_eq_ok_iff hg).mpr ⟨hkeys' i hi, gsOf i, hgsOf i hi, rfl⟩
    · rw [List.map_flatten, List.map_map, List.flatMap_def]
      rfl
  · rintro ⟨outs, houts, rfl⟩
    have hparts := fun i hi => (hashAggregateRows_eq_ok_iff hg).mp (houts i hi)
    choose! gsOf hgsOf houtsOf using fun i hi => (hparts i hi).2
    refine ⟨fun row i hi hrow => (hparts i hi).1 row hrow, (is.map gsOf).flatten, ?_, ?_⟩
    · rw [hsplit fun i hi => (hparts i hi).1, Except.mapM_eq_ok_map hgsOf]
      rfl
    · rw [List.map_flatten, List.map_map, ← List.flatMap_def]
      exact List.flatMap_congr houtsOf

/-- The output rows are of different groups. -/
theorem nodup_rowTag (hg : groupBy ≠ []) {rows out : List Row}
    (h : hashAggregateRows groupBy aggregates schema rows = .ok out) :
    (out.map (rowTag groupBy.length)).Nodup := by
  obtain ⟨hkeys, gs, hgs, rfl⟩ := (hashAggregateRows_eq_ok_iff hg).mp h
  have hgroups := Grouping.groupFold_groups hgs
  -- the state of a group has the key of its first member
  have htag : ∀ g ∈ gs, rowTag groupBy.length (g.2.output aggregates) = g.1 := by
    intro g hgmem
    have hstate := hgroups.states g hgmem
    cases hm : Grouping.members (groupText groupBy schema) rows g.1 with
    | nil =>
      rw [hm] at hstate
      cases hstate
    | cons row members =>
      rw [hm, Grouping.foldGroup, Option.some.injEq, foldlM_groupStep] at hstate
      obtain ⟨accs, -, hst⟩ := hstate
      have hrow : row ∈ rows ∧ groupText groupBy schema row = g.1 := by
        have hmem : row ∈ Grouping.members (groupText groupBy schema) rows g.1 := by simp [hm]
        simpa [Grouping.members] using hmem
      obtain ⟨key, hkey⟩ := hkeys row hrow.1
      have hof : groupKeyOf groupBy schema row = key := by simp [groupKeyOf, hkey, Except.toOption]
      have hlength : key.length = groupBy.length := (Except.mapM_eq_ok.mp hkey).length_eq.symm
      have hgroupKey : g.2.groupKey = key := by rw [hst, groupInit, hof]
      rw [rowTag, AccState.output, hgroupKey, List.take_left' hlength, ← hof]
      exact hrow.2
  have htags : gs.map (rowTag groupBy.length ∘ fun g => g.2.output aggregates) = gs.map (·.1) :=
    List.map_congr_left htag
  rw [List.map_map, htags]
  exact hgroups.nodup

end

/-! ### Keys in the columns that the workers read back -/

/-- A text with a dot, split at the last one. -/
theorem exists_last_dot {c : String} (h : '.' ∈ c.toList) :
    ∃ x z : String, c = x ++ "." ++ z ∧ '.' ∉ z.toList := by
  obtain ⟨rz, rx, hrev, hrz⟩ := List.eq_append_cons_of_mem (List.mem_reverse.mpr h)
  refine ⟨String.ofList rx.reverse, String.ofList rz.reverse, ?_, by simpa using hrz⟩
  have hc : c.toList = rx.reverse ++ '.' :: rz.reverse := by
    rw [← List.reverse_reverse c.toList, hrev]
    simp
  apply String.toList_injective
  simp [String.toList_append, hc]

theorem dotless_parseQualified (col : String) : '.' ∉ (parseQualified col).column.toList := by
  by_cases h : '.' ∈ col.toList
  · obtain ⟨x, z, rfl, hz⟩ := exists_last_dot h
    have hparse : parseQualified (x ++ "." ++ z) = ⟨some x, z⟩ :=
      parseQualified_qualifiedName (e := ⟨some x, z⟩) hz
    rw [hparse]
    exact hz
  · have hparse : parseQualified col = ⟨none, col⟩ :=
      parseQualified_qualifiedName (e := ⟨none, col⟩) h
    rw [hparse]
    exact h

theorem dotless_reread {s : RowSchema} : ∀ e ∈ (reread s).entries, '.' ∉ e.column.toList := by
  intro e he
  obtain ⟨col, -, rfl⟩ := List.mem_map.mp he
  exact dotless_parseQualified col

theorem reread_extend_reread (ls rs : RowSchema) :
    reread ((reread ls).extend (reread rs)) = (reread ls).extend (reread rs) := by
  refine reread_eq_self (fun e he => ?_) rfl
  rcases List.mem_append.mp he with he | he
  · exact dotless_reread e he
  · exact dotless_reread e he

/-- A reference without dots matches an entry that was read back when it matches the entry: a column
with a dot has changed its name, and has a dot in its table. -/
theorem matches_parseQualified {q x t c : String} (ht : '.' ∉ t.toList) (hc : '.' ∉ c.toList) :
    ((parseQualified (Entry.qualifiedName ⟨some q, x⟩)).column == c &&
        (parseQualified (Entry.qualifiedName ⟨some q, x⟩)).table.getD "" == t) =
      (x == c && q == t) := by
  by_cases hx : '.' ∈ x.toList
  · have hne : (x == c) = false := beq_eq_false_iff_ne.mpr fun h => hc (h ▸ hx)
    obtain ⟨y, z, rfl, hz⟩ := exists_last_dot hx
    have hname : Entry.qualifiedName ⟨some q, y ++ "." ++ z⟩ =
        Entry.qualifiedName ⟨some (q ++ "." ++ y), z⟩ := by
      simp [Entry.qualifiedName, String.append_assoc]
    have htable : ((q ++ "." ++ y) == t) = false := by
      refine beq_eq_false_iff_ne.mpr fun h => ht ?_
      rw [← h]
      simp [String.toList_append]
    rw [hname, parseQualified_qualifiedName hz, hne, Option.getD_some, htable, Bool.and_false,
      Bool.false_and]
  · rw [parseQualified_qualifiedName hx, Option.getD_some]

/-- A column that resolves is that of the entry. -/
theorem RowSchema.getElem?_of_resolve {s : RowSchema} {t : Option String} {c : String} {i : Nat}
    (h : s.resolve t c = some i) : ∃ e, s.entries[i]? = some e ∧ e.column = c := by
  have hfind : ∃ p : Entry → Bool, s.entries.findIdx? p = some i ∧
      ∀ e, p e = true → e.column = c := by
    cases t with
    | some t => exact ⟨_, h, fun e he => by simpa using (Bool.and_eq_true_iff.mp he).1⟩
    | none =>
      rw [RowSchema.resolve_none] at h
      split at h
      · exact ⟨_, h, fun e he => by simpa using he⟩
      · cases h
  obtain ⟨p, hp, hcolumn⟩ := hfind
  obtain ⟨hlt, hpi, -⟩ := List.findIdx?_eq_some_iff_getElem.mp hp
  exact ⟨s.entries[i], List.getElem?_eq_getElem hlt, hcolumn _ hpi⟩

/-- An unqualified column that resolves is the only one of its name. -/
theorem RowSchema.resolve_none_unique {s : RowSchema} {c : String} {i j : Nat} {e : Entry}
    (h : s.resolve none c = some j) (hi : s.entries[i]? = some e) (he : e.column = c) : j = i := by
  rw [RowSchema.resolve_none] at h
  split at h
  case isFalse => cases h
  case isTrue hcount =>
    obtain ⟨hj, hpj, hfirst⟩ := List.findIdx?_eq_some_iff_getElem.mp h
    obtain ⟨hilt, hie⟩ := List.getElem?_eq_some_iff.mp hi
    by_contra hne
    have hlt : j < i := by
      by_contra hnot
      have hij : i < j := by omega
      exact hfirst i hij (by rw [hie, he]; exact beq_self_eq_true c)
    have hsplit : s.entries.countP (·.column == c) =
        (s.entries.take i).countP (·.column == c) + (s.entries.drop i).countP (·.column == c) := by
      rw [← List.countP_append, List.take_append_drop]
    have htake : 0 < (s.entries.take i).countP (·.column == c) := by
      rw [List.countP_pos_iff]
      exact ⟨s.entries[j], List.mem_take_iff_getElem.mpr ⟨j, by omega, rfl⟩, hpj⟩
    have hdrop : 0 < (s.entries.drop i).countP (·.column == c) := by
      rw [List.countP_pos_iff]
      exact ⟨s.entries[i], List.mem_drop_iff_getElem.mpr ⟨0, by omega, by simp⟩, by simp [hie, he]⟩
    omega

section

variable {lq rq : String} {lcols rcols : List String} {t : Option String} {c : String} {i j : Nat}

theorem resolve_reread (q : String) (cols : List String) {t c : String} (ht : '.' ∉ t.toList)
    (hc : '.' ∉ c.toList) :
    (reread (scanSchema q cols)).resolve (some t) c = (scanSchema q cols).resolve (some t) c := by
  simp only [RowSchema.resolve_some, reread, externalSchema, RowSchema.qualifiedNames, scanSchema,
    List.findIdx?_map]
  congr 1
  funext x
  exact matches_parseQualified ht hc

/-- A column that resolves in what was read back has no dot. -/
theorem dotless_of_resolve {ls rs : RowSchema}
    (h : ((reread ls).extend (reread rs)).resolve t c = some j) : '.' ∉ c.toList := by
  obtain ⟨e, he, rfl⟩ := RowSchema.getElem?_of_resolve h
  rcases List.mem_append.mp (List.mem_of_getElem? he) with he | he
  · exact dotless_reread e he
  · exact dotless_reread e he

/-- The table of a qualified column that resolves in a scan. -/
theorem eq_of_resolve_scanSchema {q t : String} {cols : List String}
    (h : (scanSchema q cols).resolve (some t) c = some i) : q = t := by
  obtain ⟨hlt, hp, -⟩ := List.findIdx?_eq_some_iff_getElem.mp h
  have htable := (Bool.and_eq_true_iff.mp hp).2
  simpa [scanSchema] using htable

/-- The entry of a column without a dot that resolves in a scan, read back. -/
theorem getElem?_reread_scanSchema {q : String} {cols : List String} (hc : '.' ∉ c.toList)
    (h : (scanSchema q cols).resolve t c = some i) :
    (reread (scanSchema q cols)).entries[i]? = some ⟨some q, c⟩ := by
  obtain ⟨e, he, rfl⟩ := RowSchema.getElem?_of_resolve h
  obtain ⟨x, hx, rfl⟩ : ∃ x, cols[i]? = some x ∧ (⟨some q, x⟩ : Entry) = e := by
    simpa [scanSchema] using he
  simp [reread, externalSchema, RowSchema.qualifiedNames, scanSchema, hx,
    parseQualified_qualifiedName (e := ⟨some q, x⟩) hc]

/-- A key of the left side resolves in the joined rows to the column of the left rows. -/
theorem resolve_left_key (hlq : '.' ∉ lq.toList)
    (hi : (scanSchema lq lcols).resolve t c = some i)
    (hj : ((reread (scanSchema lq lcols)).extend (reread (scanSchema rq rcols))).resolve t c =
      some j) : j = i := by
  have hc := dotless_of_resolve hj
  cases t with
  | some t =>
    cases eq_of_resolve_scanSchema hi
    rw [RowSchema.resolve_extend_some, resolve_reread lq lcols hlq hc, hi, Option.some_or] at hj
    exact (Option.some.inj hj).symm
  | none =>
    have hentry := getElem?_reread_scanSchema hc hi
    have hlt := (List.getElem?_eq_some_iff.mp hentry).1
    refine RowSchema.resolve_none_unique hj (e := ⟨some lq, c⟩) ?_ rfl
    rw [RowSchema.extend, List.getElem?_append_left hlt, hentry]

/-- A key of the right side resolves in the joined rows to the column of the right rows. -/
theorem resolve_right_key (hne : lq ≠ rq) (hrq : '.' ∉ rq.toList)
    (hi : (scanSchema rq rcols).resolve t c = some i)
    (hj : ((reread (scanSchema lq lcols)).extend (reread (scanSchema rq rcols))).resolve t c =
      some j) : j = i + (scanSchema lq lcols).size := by
  have hc := dotless_of_resolve hj
  cases t with
  | some t =>
    cases eq_of_resolve_scanSchema hi
    have hleft : (scanSchema lq lcols).resolve (some rq) c = none := by
      rw [Option.eq_none_iff_forall_ne_some]
      exact fun k hk => hne (eq_of_resolve_scanSchema hk)
    rw [RowSchema.resolve_extend_some, resolve_reread lq lcols hrq hc, hleft,
      resolve_reread rq rcols hrq hc, hi, Option.none_or, Option.map_some, size_reread] at hj
    exact (Option.some.inj hj).symm
  | none =>
    have hentry := getElem?_reread_scanSchema hc hi
    refine RowSchema.resolve_none_unique hj (e := ⟨some rq, c⟩) ?_ rfl
    have hsize : (reread (scanSchema lq lcols)).entries.length = (scanSchema lq lcols).size :=
      size_reread _
    rw [RowSchema.extend, List.getElem?_append_right (by omega), hsize, Nat.add_sub_cancel, hentry]

end

section

variable [Rounding] {R : Type}

/-! ### The rows of a worker -/

/-- A joined row whose two parts were both sent to worker `i`. -/
def MetAt (ls rs : RowSchema) (n : Nat) (keyIdx : Nat × Nat) (i : Nat) (row : Row) : Prop :=
  ∃ a b, row = a ++ b ∧ a.length = ls.size ∧ b.length = rs.size ∧
    target n keyIdx.1 a = i ∧ target n keyIdx.2 b = i

omit [Rounding] in
theorem MetAt.of_left_value {ls rs : RowSchema} {n i idx : Nat} {keyIdx : Nat × Nat} {row : Row}
    {v : Literal} (h : MetAt ls rs n keyIdx i row) (hidx : idx = keyIdx.1) (hlt : idx < ls.size)
    (hv : rowAt row idx = .ok v) : hashPartitionOf v n = i := by
  obtain ⟨a, b, rfl, ha, -, hi, -⟩ := h
  rw [← hi, target, ← hidx]
  have hget := rowAt_eq_ok.mp hv
  rw [List.getElem?_append_left (by omega)] at hget
  rw [List.getD_eq_getElem?_getD, hget, Option.getD_some]

omit [Rounding] in
theorem MetAt.of_right_value {ls rs : RowSchema} {n i idx : Nat} {keyIdx : Nat × Nat} {row : Row}
    {v : Literal} (h : MetAt ls rs n keyIdx i row) (hidx : idx = keyIdx.2 + ls.size)
    (hv : rowAt row idx = .ok v) : hashPartitionOf v n = i := by
  obtain ⟨a, b, rfl, ha, -, -, hi⟩ := h
  have hget := rowAt_eq_ok.mp hv
  rw [List.getElem?_append_right (by omega), hidx, ha, Nat.add_sub_cancel] at hget
  rw [← hi, target, List.getD_eq_getElem?_getD, hget, Option.getD_some]

/-- Rows with one group text have one text of a GROUP BY column. -/
theorem text_eq_of_groupText_eq {groupBy : List Expression} {schema : RowSchema} {row row' : Row}
    {key key' : Row} {e : Expression} (he : e ∈ groupBy)
    (hkey : (groupBy.mapM fun g => evaluate g row schema) = .ok key)
    (hkey' : (groupBy.mapM fun g => evaluate g row' schema) = .ok key')
    (hsep : ∀ v ∈ key, '\x1f' ∉ (literalToString v).toList)
    (hsep' : ∀ v ∈ key', '\x1f' ∉ (literalToString v).toList)
    (htext : groupText groupBy schema row = groupText groupBy schema row') :
    ∃ v v', evaluate e row schema = .ok v ∧ evaluate e row' schema = .ok v' ∧
      literalToString v = literalToString v' := by
  have htexts : key.map literalToString = key'.map literalToString := by
    refine groupKeyText_inj hsep hsep' ?_
    simpa [groupText, groupKeyOf, hkey, hkey', Except.toOption] using htext
  obtain ⟨p, hp⟩ := List.mem_iff_getElem?.mp he
  obtain ⟨v, hv, hev⟩ := Except.getElem?_of_mapM_eq_ok hkey hp
  obtain ⟨v', hv', hev'⟩ := Except.getElem?_of_mapM_eq_ok hkey' hp
  refine ⟨v, v', hev, hev', ?_⟩
  have hat := congrArg (·[p]?) htexts
  simpa [hv, hv'] using hat

/-- The name by which the columns of a relation are qualified. -/
def relationName (p : PhysicalPlan R) : String :=
  (unwrapFilter p).aliasName.getD (unwrapFilter p).tableName

/-- The loaded table has the columns of the catalog, in their order. -/
def InCatalogOrder (schemaCatalog : Catalog) (p : PhysicalPlan R) (table : Table) : Prop :=
  ∃ tableSchema, schemaCatalog.get (unwrapFilter p).tableName = some tableSchema ∧
    tableSchema.columns.map (·.name) = table.columnNames

omit [Rounding] in
theorem InCatalogOrder.schemaForRelation_eq {schemaCatalog : Catalog} {p : PhysicalPlan R}
    {table : Table} (h : InCatalogOrder schemaCatalog p table) :
    schemaForRelation p schemaCatalog = scanSchema (relationName p) table.columnNames := by
  obtain ⟨tableSchema, hget, hcolumns⟩ := h
  simp only [schemaForRelation, hget, hcolumns, relationName]

section Exchange

variable {join : JoinNode R} {full : Database} {schemaCatalog : Catalog} {n : Nat}
  {left right : Table} {keyIdx : Nat × Nat}

/-- What a worker contributes to the exchange: rows of the two sides with their targets. -/
structure SentBy (join : JoinNode R) (left right : Table) (n : Nat) (keyIdx : Nat × Nat)
    (x : Exchange) : Prop where
  leftColumns : x.leftColumns = (join.leftSchema left).qualifiedNames
  rightColumns : x.rightColumns = (join.rightSchema right).qualifiedNames
  left : ∀ p ∈ x.left, p.2.length = (join.leftSchema left).size ∧ p.1 = target n keyIdx.1 p.2
  right : ∀ p ∈ x.right, p.2.length = (join.rightSchema right).size ∧ p.1 = target n keyIdx.2 p.2

theorem sentBy_of_exchangeFrom (hover : join.Over full schemaCatalog left right) {i : Nat}
    {x : Exchange} (h : exchangeFrom (executeOnPartition full schemaCatalog n) n join.left
      join.right keyIdx i = .ok x) : SentBy join left right n keyIdx x := by
  obtain ⟨l, hl, h⟩ := Except.bind_eq_ok.mp h
  obtain ⟨r, hr, h⟩ := Except.bind_eq_ok.mp h
  obtain ⟨tl, htl, h⟩ := Except.bind_eq_ok.mp h
  obtain ⟨tr, htr, h⟩ := Except.bind_eq_ok.mp h
  cases h
  obtain ⟨rowsL, hkeepsL, rfl⟩ := (executeOnPartition_relation_eq_ok hover.leftSingle
    hover.leftName hover.leftTable).mp hl
  obtain ⟨rowsR, hkeepsR, rfl⟩ := (executeOnPartition_relation_eq_ok hover.rightSingle
    hover.rightName hover.rightTable).mp hr
  obtain ⟨-, rfl⟩ := targetRows_eq_ok.mp htl
  obtain ⟨-, rfl⟩ := targetRows_eq_ok.mp htr
  refine ⟨rfl, rfl, fun p hp => ?_, fun p hp => ?_⟩
  · obtain ⟨a, ha, rfl⟩ := List.mem_map.mp hp
    refine ⟨?_, rfl⟩
    rw [size_relationSchema, hkeepsL.length ha, columnNames_filterTableToPartition]
  · obtain ⟨b, hb, rfl⟩ := List.mem_map.mp hp
    refine ⟨?_, rfl⟩
    rw [size_relationSchema, hkeepsR.length hb, columnNames_filterTableToPartition]

omit [Rounding] in
theorem mem_sentTo {i : Nat} {row : Row} {rows : List (Nat × Row)} :
    row ∈ sentTo i rows ↔ (i, row) ∈ rows := by
  simp [sentTo]

variable [CostNum R]

/-- The columns of the joined rows of the workers. -/
abbrev JoinNode.workerSchema (join : JoinNode R) (left right : Table) : RowSchema :=
  (reread (join.leftSchema left)).extend (reread (join.rightSchema right))

/-- The join of worker `i` over the rows it was sent. -/
theorem worker_join_spec {exchanges : List Exchange}
    (hsent : ∀ x ∈ exchanges, SentBy join left right n keyIdx x) {i : Nat} {db : Database}
    {out : ExecutionResult}
    (h : executePlan (shuffledJoin join (join.leftSchema left).qualifiedNames
      (join.rightSchema right).qualifiedNames) db (shuffledSets exchanges i) = .ok out) :
    (∀ row ∈ out.rows,
      MetAt (join.leftSchema left) (join.rightSchema right) n keyIdx i row) ∧
      out.columns = (join.workerSchema left right).qualifiedNames ∧
      ∃ e, buildExecutor (shuffledJoin join (join.leftSchema left).qualifiedNames
          (join.rightSchema right).qualifiedNames) db (shuffledSets exchanges i) = .ok e ∧
        e.run = .ok out.rows ∧ e.schema = join.workerSchema left right := by
  have hl : (shuffledSets exchanges i).lookup 0 =
      some (sentTo i (exchanges.flatMap (·.left))) := by
    rw [shuffledSets, AList.lookup_insert_ne (by decide)]
    rfl
  have hr : (shuffledSets exchanges i).lookup 1 =
      some (sentTo i (exchanges.flatMap (·.right))) := AList.lookup_insert _
  have hleft : ∀ a ∈ sentTo i (exchanges.flatMap (·.left)),
      a.length = (join.leftSchema left).size ∧ target n keyIdx.1 a = i := by
    intro a ha
    obtain ⟨x, hx, ha⟩ := List.mem_flatMap.mp (mem_sentTo.mp ha)
    obtain ⟨hlength, htarget⟩ := (hsent x hx).left _ ha
    exact ⟨hlength, htarget.symm⟩
  have hright : ∀ b ∈ sentTo i (exchanges.flatMap (·.right)),
      b.length = (join.rightSchema right).size ∧ target n keyIdx.2 b = i := by
    intro b hb
    obtain ⟨x, hx, hb⟩ := List.mem_flatMap.mp (mem_sentTo.mp hb)
    obtain ⟨hlength, htarget⟩ := (hsent x hx).right _ hb
    exact ⟨hlength, htarget.symm⟩
  obtain ⟨-, -, hout⟩ := (executePlan_shuffledJoin_eq_ok hl hr (fun a ha => (hleft a ha).1)
    (fun b hb => (hright b hb).1)).mp h
  obtain ⟨e, he, hrun, -⟩ := executePlan_eq_ok.mp h
  refine ⟨fun row hrow => ?_, by rw [hout], e, he, hrun, ?_⟩
  · rw [hout] at hrow
    obtain ⟨a, ha, b, hb, -, rfl⟩ := Pairs.mem_joinBy.mp hrow
    exact ⟨a, b, rfl, (hleft a ha).1, (hright b hb).1, (hleft a ha).2, (hright b hb).2⟩
  · exact schema_of_buildExecutor_join (buildExecutor_makeExternalRows hl 0)
      (buildExecutor_makeExternalRows hr 0) he

/-! ### Groups are on one worker -/

omit [Rounding] [CostNum R] in
theorem mem_of_safe {t : Option String} {c : String} {groupBy : List Expression}
    (h : partitionKeyIsSafeForGroupBy (.column t c) groupBy = true) :
    Expression.column t c ∈ groupBy := by
  obtain ⟨e, he, hmatch⟩ := List.any_eq_true.mp h
  cases e with
  | column t' c' =>
    obtain ⟨ht, hc⟩ := Bool.and_eq_true_iff.mp hmatch
    rw [beq_iff_eq] at ht hc
    exact ht ▸ hc ▸ he
  | _ => cases hmatch

omit [Rounding] [CostNum R] in
theorem resolveKey_eq_some {e : Expression} {s : RowSchema} {i : Nat}
    (h : resolveKey e s = some i) : ∃ t c, e = .column t c ∧ s.resolve t c = some i := by
  cases e with
  | column t c => exact ⟨t, c, rfl, h⟩
  | _ => cases h

omit [CostNum R] in
theorem evaluate_column_eq_ok_iff {t : Option String} {c : String} {s : RowSchema} {row : Row}
    {v : Literal} : evaluate (.column t c) row s = .ok v ↔
      ∃ i, s.resolve t c = some i ∧ rowAt row i = .ok v := by
  cases h : s.resolve t c with
  | none => simp [evaluate, h]
  | some i => simp [evaluate_column h]

omit [CostNum R] in
/-- Rows of two workers have two groups when GROUP BY has a key of the join. -/
theorem groupText_ne_of_metAt {keys : Expression × Expression} {groupBy : List Expression}
    (hcl : InCatalogOrder schemaCatalog join.left left)
    (hcr : InCatalogOrder schemaCatalog join.right right)
    (hne : relationName join.left ≠ relationName join.right)
    (hdl : '.' ∉ (relationName join.left).toList) (hdr : '.' ∉ (relationName join.right).toList)
    (hidx : shuffleKeyIndices keys join.left join.right schemaCatalog = .ok keyIdx)
    (hsafe : partitionKeyIsSafeForGroupBy keys.1 groupBy = true ∨
      partitionKeyIsSafeForGroupBy keys.2 groupBy = true)
    {i j : Nat} (hij : i ≠ j) {row row' key key' : Row}
    (hi : MetAt (join.leftSchema left) (join.rightSchema right) n keyIdx i row)
    (hj : MetAt (join.leftSchema left) (join.rightSchema right) n keyIdx j row')
    (hkey : (groupBy.mapM fun g => evaluate g row (join.workerSchema left right)) = .ok key)
    (hkey' : (groupBy.mapM fun g => evaluate g row' (join.workerSchema left right)) = .ok key')
    (hsep : ∀ v ∈ key, '\x1f' ∉ (literalToString v).toList)
    (hsep' : ∀ v ∈ key', '\x1f' ∉ (literalToString v).toList) :
    groupText groupBy (join.workerSchema left right) row ≠
      groupText groupBy (join.workerSchema left right) row' := by
  intro htext
  apply hij
  have hhash : ∀ {v v' : Literal}, literalToString v = literalToString v' →
      hashPartitionOf v n = hashPartitionOf v' n := by
    intro v v' h
    rw [hashPartitionOf, hashPartitionOf, h]
  unfold shuffleKeyIndices at hidx
  rw [hcl.schemaForRelation_eq, hcr.schemaForRelation_eq] at hidx
  split at hidx
  case h_2 => cases hidx
  case h_1 l r hl hr =>
    cases hidx
    obtain ⟨tl, cl, hkl, hrl⟩ := resolveKey_eq_some hl
    obtain ⟨tr, cr, hkr, hrr⟩ := resolveKey_eq_some hr
    rw [hkl, hkr] at hsafe
    rcases hsafe with hsafe | hsafe
    · obtain ⟨v, v', hv, hv', hvv'⟩ :=
        text_eq_of_groupText_eq (mem_of_safe hsafe) hkey hkey' hsep hsep' htext
      obtain ⟨idx, hat, hv⟩ := evaluate_column_eq_ok_iff.mp hv
      obtain ⟨idx', hat', hv'⟩ := evaluate_column_eq_ok_iff.mp hv'
      have hlt := RowSchema.resolve_lt hrl
      have h := resolve_left_key hdl hrl hat
      have h' := resolve_left_key hdl hrl hat'
      rw [← hi.of_left_value h (h ▸ hlt) hv, ← hj.of_left_value h' (h' ▸ hlt) hv', hhash hvv']
    · obtain ⟨v, v', hv, hv', hvv'⟩ :=
        text_eq_of_groupText_eq (mem_of_safe hsafe) hkey hkey' hsep hsep' htext
      obtain ⟨idx, hat, hv⟩ := evaluate_column_eq_ok_iff.mp hv
      obtain ⟨idx', hat', hv'⟩ := evaluate_column_eq_ok_iff.mp hv'
      have h := resolve_right_key hne hdr hrr hat
      have h' := resolve_right_key hne hdr hrr hat'
      rw [← hi.of_right_value h hv, ← hj.of_right_value h' hv', hhash hvv']

/-! ### Aggregation without a merge -/

omit [CostNum R] in
/-- The aggregate of a worker whose join succeeds. -/
theorem worker_aggregate_eq_ok {ann : Annotation R} {groupBy : List Expression}
    {aggregates : List AggregateExpr} {plan : PhysicalPlan R} {db : Database}
    {sets : ExternalRowSets} {e : Executor} {rows : List Row} {schema : RowSchema}
    {out : ExecutionResult} (he : buildExecutor plan db sets = .ok e) (hrun : e.run = .ok rows)
    (hschema : e.schema = schema) :
    executePlan (.hashAggregate ann groupBy aggregates plan) db sets = .ok out ↔
      hashAggregateRows groupBy aggregates schema rows = .ok out.rows ∧
        out.columns = (aggregateSchema groupBy aggregates).qualifiedNames := by
  rw [executePlan_hashAggregate_eq_ok]
  constructor
  · rintro ⟨e', rows', he', hrun', hout, hcolumns⟩
    cases he.symm.trans he'
    cases hrun.symm.trans hrun'
    exact ⟨hschema ▸ hout, hcolumns⟩
  · rintro ⟨hout, hcolumns⟩
    exact ⟨e, rows, he, hrun, hschema ▸ hout, hcolumns⟩

/-- The joins of the workers: `rowsOf i` are the joined rows of worker `i`. -/
structure WorkerJoins (join : JoinNode R) (full : Database) (schemaCatalog : Catalog) (n : Nat)
    (left right : Table) (keys : Expression × Expression) (keyIdx : Nat × Nat)
    (exchanges : List Exchange) (rowsOf : Nat → List Row) : Prop where
  resolves : resolveJoinKeys join.condition join.left join.right schemaCatalog = .ok keys
  indexed : shuffleKeyIndices keys join.left join.right schemaCatalog = .ok keyIdx
  sent : (List.range n).mapM (exchangeFrom (executeOnPartition full schemaCatalog n) n
    join.left join.right keyIdx) = .ok exchanges
  columns : (exchanges.getLast?.map fun x => (x.leftColumns, x.rightColumns)).getD ([], []) =
    ((join.leftSchema left).qualifiedNames, (join.rightSchema right).qualifiedNames)
  met : ∀ i ∈ List.range n, ∀ row ∈ rowsOf i,
    MetAt (join.leftSchema left) (join.rightSchema right) n keyIdx i row
  built : ∀ i ∈ List.range n, ∃ e, buildExecutor (shuffledJoin join
      (join.leftSchema left).qualifiedNames (join.rightSchema right).qualifiedNames)
      (filterDatabaseToPartition full schemaCatalog i n) (shuffledSets exchanges i) = .ok e ∧
    e.run = .ok (rowsOf i) ∧ e.schema = join.workerSchema left right

/-- A shuffle join without an aggregate collects the rows of such joins. -/
theorem exists_workerJoins {u : UnwrapResult R} {keys : Expression × Expression}
    {joined : ExecutionResult} (hover : join.Over full schemaCatalog left right) (hn : 0 < n)
    (hkeys : resolveJoinKeys join.condition join.left join.right schemaCatalog = .ok keys)
    (h : collectShuffle (executeOnPartition full schemaCatalog n) n join
      { u with aggregate := none } schemaCatalog = .ok (joined, false)) :
    ∃ keyIdx exchanges rowsOf,
      WorkerJoins join full schemaCatalog n left right keys keyIdx exchanges rowsOf ∧
        joined = ⟨(join.workerSchema left right).qualifiedNames, (List.range n).flatMap rowsOf⟩ := by
  obtain ⟨_, hkeys', h⟩ := Except.bind_eq_ok.mp h
  cases hkeys.symm.trans hkeys'
  obtain ⟨keyIdx, hidx, h⟩ := Except.bind_eq_ok.mp h
  obtain ⟨exchanges, hexchanges, h⟩ := Except.bind_eq_ok.mp h
  obtain ⟨responses, hresponses, h⟩ := Except.bind_eq_ok.mp h
  obtain ⟨_, hmerged, h⟩ := Except.bind_eq_ok.mp h
  cases hmerged
  cases h
  -- every worker names the columns of the two sides
  have : Nonempty Exchange := ⟨⟨[], [], [], []⟩⟩
  obtain ⟨x, hx, rfl⟩ := Except.exists_map_of_mapM_eq_ok hexchanges
  have hsent : ∀ y ∈ (List.range n).map x, SentBy join left right n keyIdx y := by
    intro y hy
    obtain ⟨i, hi, rfl⟩ := List.mem_map.mp hy
    exact sentBy_of_exchangeFrom hover (hx i hi)
  have hcolumns : ((((List.range n).map x).getLast?.map fun x =>
      (x.leftColumns, x.rightColumns)).getD ([], [])) =
        ((join.leftSchema left).qualifiedNames, (join.rightSchema right).qualifiedNames) := by
    obtain ⟨m, rfl⟩ := Nat.exists_eq_succ_of_ne_zero (by omega : n ≠ 0)
    have hlast := hsent (x m) (List.mem_map_of_mem (List.mem_range.mpr (Nat.lt_succ_self m)))
    simp [List.range_succ, hlast.leftColumns, hlast.rightColumns]
  rw [hcolumns] at hresponses
  have : Nonempty ExecutionResult := ⟨⟨[], []⟩⟩
  obtain ⟨resp, hresp, rfl⟩ := Except.exists_map_of_mapM_eq_ok hresponses
  have hworker := fun i hi => worker_join_spec hsent (hresp i hi)
  have hmap : (List.range n).map resp = (List.range n).map fun i =>
      ⟨(join.workerSchema left right).qualifiedNames, (resp i).rows⟩ := by
    refine List.map_congr_left fun i hi => ?_
    rw [← (hworker i hi).2.1]
  refine ⟨keyIdx, (List.range n).map x, fun i => (resp i).rows, ⟨hkeys, hidx, hexchanges, hcolumns,
    fun i hi => (hworker i hi).1, fun i hi => (hworker i hi).2.2⟩, ?_⟩
  rw [hmap, lastColumns_map hn, List.flatMap_map]

section Merge

variable {u : UnwrapResult R} {groupBy : List Expression} {aggregates : List AggregateExpr}
  {keys : Expression × Expression} {exchanges : List Exchange} {rowsOf : Nat → List Row}

/-- The aggregates of the workers when GROUP BY has a key of the join. -/
theorem collectShuffle_safe_eq_ok {res : ExecutionResult × Bool} (hn : 0 < n)
    (hby : WorkerJoins join full schemaCatalog n left right keys keyIdx exchanges rowsOf)
    (hu : u.aggregate = some (groupBy, aggregates))
    (hsafe : partitionKeyIsSafeForGroupBy keys.1 groupBy = true ∨
      partitionKeyIsSafeForGroupBy keys.2 groupBy = true) :
    collectShuffle (executeOnPartition full schemaCatalog n) n join u schemaCatalog = .ok res ↔
      ∃ outs : Nat → List Row, (∀ i ∈ List.range n, hashAggregateRows groupBy aggregates
          (join.workerSchema left right) (rowsOf i) = .ok (outs i)) ∧
        res = (⟨(aggregateSchema groupBy aggregates).qualifiedNames,
          (List.range n).flatMap outs⟩, true) := by
  have hworker : ∀ i ∈ List.range n, ∀ out, executeOnPartition full schemaCatalog n i
      (.hashAggregate (plainEstimates 0) groupBy aggregates (shuffledJoin join
        (join.leftSchema left).qualifiedNames (join.rightSchema right).qualifiedNames))
        (shuffledSets exchanges i) = .ok out ↔
      hashAggregateRows groupBy aggregates (join.workerSchema left right) (rowsOf i) =
          .ok out.rows ∧
        out.columns = (aggregateSchema groupBy aggregates).qualifiedNames := by
    intro i hi out
    obtain ⟨e, he, hrun, hschema⟩ := hby.built i hi
    exact worker_aggregate_eq_ok he hrun hschema
  have hsafe' : (partitionKeyIsSafeForGroupBy keys.1 groupBy ||
      partitionKeyIsSafeForGroupBy keys.2 groupBy) = true := Bool.or_eq_true_iff.mpr hsafe
  simp only [collectShuffle, hby.resolves, hby.indexed, hby.sent, Except.ok_bind, hu, hby.columns,
    hsafe', if_true, Except.bind_eq_ok, mergeResponses, Except.pure_eq_ok, Except.ok.injEq,
    eq_comm (b := res)]
  constructor
  · rintro ⟨outs, houts, rfl⟩
    have : Nonempty ExecutionResult := ⟨⟨[], []⟩⟩
    obtain ⟨out, hout, rfl⟩ := Except.exists_map_of_mapM_eq_ok houts
    have hmap : (List.range n).map out = (List.range n).map fun i =>
        ⟨(aggregateSchema groupBy aggregates).qualifiedNames, (out i).rows⟩ := by
      refine List.map_congr_left fun i hi => ?_
      rw [← ((hworker i hi _).mp (hout i hi)).2]
    refine ⟨fun i => (out i).rows, fun i hi => ((hworker i hi _).mp (hout i hi)).1, ?_⟩
    rw [hmap, lastColumns_map hn, List.flatMap_map]
  · rintro ⟨outs, houts, rfl⟩
    refine ⟨_, Except.mapM_eq_ok_map fun i hi => (hworker i hi
      ⟨(aggregateSchema groupBy aggregates).qualifiedNames, outs i⟩).mpr ⟨houts i hi, rfl⟩, ?_⟩
    rw [lastColumns_map hn, List.flatMap_map]

omit [CostNum R] in
/-- No group is on two workers. -/
theorem pairwise_groupText_ne (hcl : InCatalogOrder schemaCatalog join.left left)
    (hcr : InCatalogOrder schemaCatalog join.right right)
    (hne : relationName join.left ≠ relationName join.right)
    (hdl : '.' ∉ (relationName join.left).toList) (hdr : '.' ∉ (relationName join.right).toList)
    (hidx : shuffleKeyIndices keys join.left join.right schemaCatalog = .ok keyIdx)
    (hmet : ∀ i ∈ List.range n, ∀ row ∈ rowsOf i,
      MetAt (join.leftSchema left) (join.rightSchema right) n keyIdx i row)
    (hsafe : partitionKeyIsSafeForGroupBy keys.1 groupBy = true ∨
      partitionKeyIsSafeForGroupBy keys.2 groupBy = true)
    (hsep : ∀ row ∈ (List.range n).flatMap rowsOf, ∀ g ∈ groupBy, ∀ v,
      evaluate g row (join.workerSchema left right) = .ok v →
        '\x1f' ∉ (literalToString v).toList) :
    (List.range n).Pairwise fun i j => ∀ a ∈ rowsOf i, ∀ b ∈ rowsOf j,
      (∃ key, (groupBy.mapM fun g => evaluate g a (join.workerSchema left right)) = .ok key) →
      (∃ key, (groupBy.mapM fun g => evaluate g b (join.workerSchema left right)) = .ok key) →
        groupText groupBy (join.workerSchema left right) a ≠
          groupText groupBy (join.workerSchema left right) b := by
  refine List.pairwise_lt_range.imp_of_mem fun {i j} hi hj hij a ha b hb ⟨key, hkey⟩
    ⟨key', hkey'⟩ => ?_
  have hclean : ∀ {i : Nat} {row key : Row}, i ∈ List.range n → row ∈ rowsOf i →
      (groupBy.mapM fun g => evaluate g row (join.workerSchema left right)) = .ok key →
        ∀ v ∈ key, '\x1f' ∉ (literalToString v).toList := by
    intro i row key hi hrow hkey v hv
    obtain ⟨g, hg, hgv⟩ := Except.exists_of_mem_mapM hkey hv
    exact hsep row (List.mem_flatMap.mpr ⟨i, hi, hrow⟩) g hg v hgv
  exact groupText_ne_of_metAt hcl hcr hne hdl hdr hidx hsafe (Nat.ne_of_lt hij) (hmet i hi a ha)
    (hmet j hj b hb) hkey hkey' (hclean hi ha hkey) (hclean hj hb hkey')

omit [Rounding] [CostNum R] in
theorem ne_nil_of_safe (hsafe : partitionKeyIsSafeForGroupBy keys.1 groupBy = true ∨
    partitionKeyIsSafeForGroupBy keys.2 groupBy = true) : groupBy ≠ [] := by
  rintro rfl
  rcases hsafe with hsafe | hsafe <;> unfold partitionKeyIsSafeForGroupBy at hsafe <;>
    split at hsafe <;> cases hsafe

/-- Skipping the merge.  `joined` are the joined rows of all workers.  When GROUP BY has a key of the
join, its columns resolve in the catalog as in the loaded tables, and no value of a group contains
the separator, the aggregates of the workers together are the aggregate of `joined`: both succeed,
with the same columns and rows, one row for each group, or both fail. -/
theorem collectShuffle_skips_merge {joined : ExecutionResult} {ann : Annotation R} {name : String}
    {db : Database} {k : Nat} (hover : join.Over full schemaCatalog left right) (hn : 0 < n)
    (hu : u.aggregate = some (groupBy, aggregates))
    (hcl : InCatalogOrder schemaCatalog join.left left)
    (hcr : InCatalogOrder schemaCatalog join.right right)
    (hne : relationName join.left ≠ relationName join.right)
    (hdl : '.' ∉ (relationName join.left).toList) (hdr : '.' ∉ (relationName join.right).toList)
    (hkeys : resolveJoinKeys join.condition join.left join.right schemaCatalog = .ok keys)
    (hsafe : partitionKeyIsSafeForGroupBy keys.1 groupBy = true ∨
      partitionKeyIsSafeForGroupBy keys.2 groupBy = true)
    (hjoined : collectShuffle (executeOnPartition full schemaCatalog n) n join
      { u with aggregate := none } schemaCatalog = .ok (joined, false))
    (hsep : ∀ row ∈ joined.rows, ∀ g ∈ groupBy, ∀ v,
      evaluate g row (externalSchema joined.columns [] []) = .ok v →
        '\x1f' ∉ (literalToString v).toList) :
    Except.Agree (fun out res => res.2 = true ∧ res.1.columns = out.columns ∧
        res.1.rows = out.rows ∧ (res.1.rows.map (rowTag groupBy.length)).Nodup)
      (executePlan (.hashAggregate ann groupBy aggregates
        (makeExternalRows name joined.columns 0 k)) db (AList.singleton 0 joined.rows))
      (collectShuffle (executeOnPartition full schemaCatalog n) n join u schemaCatalog) := by
  obtain ⟨keyIdx, exchanges, rowsOf, hby, rfl⟩ := exists_workerJoins hover hn hkeys hjoined
  have hg := ne_nil_of_safe hsafe
  have hread : externalSchema (join.workerSchema left right).qualifiedNames [] [] =
    join.workerSchema left right := reread_extend_reread _ _
  rw [hread] at hsep
  have hdisj := pairwise_groupText_ne hcl hcr hne hdl hdr hby.indexed hby.met hsafe hsep
  have hwhole : ∀ out, executePlan (.hashAggregate ann groupBy aggregates
      (makeExternalRows name (join.workerSchema left right).qualifiedNames 0 k : PhysicalPlan R)) db
        (AList.singleton 0 ((List.range n).flatMap rowsOf)) = .ok out ↔
      hashAggregateRows groupBy aggregates (join.workerSchema left right)
          ((List.range n).flatMap rowsOf) = .ok out.rows ∧
        out.columns = (aggregateSchema groupBy aggregates).qualifiedNames := fun out =>
    worker_aggregate_eq_ok (buildExecutor_makeExternalRows (lookup_singleton _) k) rfl hread
  have hcollect : ∀ res, collectShuffle (executeOnPartition full schemaCatalog n) n join u
      schemaCatalog = .ok res ↔ _ := fun _ => collectShuffle_safe_eq_ok hn hby hu hsafe
  refine .of_imp (fun out hout => ?_) fun res hres => ?_
  · obtain ⟨hrows, hcolumns⟩ := (hwhole out).mp hout
    obtain ⟨outs, houts, hflat⟩ := (hashAggregateRows_flatMap_eq_ok hg hdisj).mp hrows
    refine ⟨_, (hcollect _).mpr ⟨outs, houts, rfl⟩, rfl, hcolumns.symm, hflat.symm, ?_⟩
    rw [← hflat]
    exact nodup_rowTag hg hrows
  · obtain ⟨outs, houts, rfl⟩ := (hcollect res).mp hres
    exact ⟨⟨_, _⟩, (hwhole ⟨_, _⟩).mpr
      ⟨(hashAggregateRows_flatMap_eq_ok hg hdisj).mpr ⟨outs, houts, rfl⟩, rfl⟩⟩

end Merge

end Exchange

end

/-! ### Two tables of ids and keys -/

/-- `SELECT COUNT(*) .. GROUP BY a.k` over a join. -/
def countedQuery (join : JoinNode ℚ) : UnwrapResult ℚ :=
  ⟨[], none, some ([.column (some "a") "k"], [⟨"COUNT", .wildcard, none⟩]),
    .join noEstimates join.kind join.joinType join.condition join.left join.right⟩

section

attribute [local instance] Rounding.exact

local instance mergeCosts : CostNum ℚ := CostNum.rational id

/-- Keys of two values in both tables. -/
def twoGroupsDatabase : Database :=
  AList.insert "b" (integerTable "id" "k" [(3, 1), (5, 2)])
    (AList.insert "a" (integerTable "id" "k" [(2, 1), (4, 2), (6, 1)]) ∅)

/-- The pairs of the key 1 on the first worker, then the pair of the key 2 on the second. -/
def twoGroupsJoined : ExecutionResult :=
  ⟨["a.id", "a.k", "b.id", "b.k"], [[.integer 2, .integer 1, .integer 3, .integer 1],
    [.integer 6, .integer 1, .integer 3, .integer 1],
    [.integer 4, .integer 2, .integer 5, .integer 2]]⟩

/-- Two groups, each on a worker of its own. -/
theorem collectShuffle_skips_merge_groups :
    let join := idKeyJoin .hashJoin
    Except.Agree (fun out res => res.2 = true ∧ res.1.columns = out.columns ∧
        res.1.rows = out.rows ∧ (res.1.rows.map (rowTag 1)).Nodup)
      (executePlan (.hashAggregate noEstimates [.column (some "a") "k"]
        [⟨"COUNT", .wildcard, none⟩]
        (makeExternalRows "joined" twoGroupsJoined.columns 0 1 : PhysicalPlan ℚ)) ∅
        (AList.singleton 0 twoGroupsJoined.rows))
      (collectShuffle (executeOnPartition twoGroupsDatabase idKeyCatalog 2) 2 join
        (countedQuery join) idKeyCatalog) := by
  have hover : (idKeyJoin .hashJoin).Over twoGroupsDatabase idKeyCatalog
      (integerTable "id" "k" [(2, 1), (4, 2), (6, 1)]) (integerTable "id" "k" [(3, 1), (5, 2)]) :=
    ⟨rfl, rfl, AList.mem_keys.mpr (by decide), AList.mem_keys.mpr (by decide), rfl, rfl⟩
  have hjoined : collectShuffle (executeOnPartition twoGroupsDatabase idKeyCatalog 2) 2
      (idKeyJoin .hashJoin) { countedQuery (idKeyJoin .hashJoin) with aggregate := none }
      idKeyCatalog = .ok (twoGroupsJoined, false) := by decide +kernel
  have hkeys : resolveJoinKeys (idKeyJoin .hashJoin).condition (idKeyJoin .hashJoin).left
      (idKeyJoin .hashJoin).right idKeyCatalog =
    .ok (.column (some "a") "k", .column (some "b") "k") := rfl
  refine collectShuffle_skips_merge hover (by decide) rfl ⟨_, rfl, rfl⟩ ⟨_, rfl, rfl⟩ (by decide)
    (by decide) (by decide) hkeys (.inl (by decide)) hjoined ?_
  have hprints : twoGroupsJoined.rows.all (fun row =>
      (evaluate (.column (some "a") "k") row
        (externalSchema twoGroupsJoined.columns [] [])).toOption.all fun v =>
          !(literalToString v).toList.contains '\x1f') = true := by decide +kernel
  intro row hrow g hg v hv
  cases List.mem_singleton.mp hg
  have hrow := List.all_eq_true.mp hprints row hrow
  rw [hv] at hrow
  simpa [Except.toOption] using hrow

end

end SqlOptimizer
