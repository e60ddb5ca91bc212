import SqlOptimizer.Integration.CacheKey
import SqlOptimizer.Library.Delimited
import SqlOptimizer.Parser.LexerRoundTrip

/-! The text of a catalog that `compute_schema_version` hashes determines the catalog, where all
names are identifiers. -/

namespace SqlOptimizer.Integration

/-- A letter or an underscore, then letters, digits and underscores. -/
def isIdentifier (name : String) : Bool :=
  match name.toList with
  | [] => false
  | c :: cs => (c.isAlpha || c = '_') && cs.all Lexer.isWordChar

/-- All names of a table are identifiers. -/
structure WellNamed (tableName : String) (schema : TableSchema) : Prop where
  table : isIdentifier tableName = true
  columns : ∀ col ∈ schema.columns, isIdentifier col.name = true
  indexes : ∀ idx ∈ schema.indexedColumns, isIdentifier idx = true

/-! ### The parts of the text -/

def numberText (n : UInt64) : List Char := (toString n.toNat).toList

def columnText (col : ColumnDef) : List Char :=
  col.name.toList ++ ':' :: ((dataTypeName col.dataType).toList ++
    [':', if col.nullable then '1' else '0'])

/-- The parts of a table, each of which ends at a NUL. -/
def tableParts (table : String × TableSchema) : List (List Char) :=
  table.1.toList :: numberText table.2.stats.rowCount :: numberText table.2.stats.avgRowBytes ::
    (table.2.columns.map columnText ++ table.2.indexedColumns.map String.toList)

def terminated (parts : List (List Char)) : List Char := parts.flatMap (· ++ ['\x00'])

/-- A loop that adds a text in each round. -/
theorem toList_foldl {α : Type} {step : String → α → String} {text : α → List Char}
    (hstep : ∀ dump a, (step dump a).toList = dump.toList ++ text a) (dump : String) (as : List α) :
    (as.foldl step dump).toList = dump.toList ++ as.flatMap text := by
  induction as generalizing dump with
  | nil => simp
  | cons a as ih => simp [ih, hstep]

theorem toList_foldl_append {α : Type} (f : α → String) (dump : String) (as : List α) :
    (as.foldl (fun dump a => dump ++ f a) dump).toList =
      dump.toList ++ as.flatMap fun a => (f a).toList := by
  refine toList_foldl ?_ dump as
  intro dump a
  rw [String.toList_append]

theorem toList_dumpColumn (col : ColumnDef) :
    (dumpColumn col).toList = columnText col ++ ['\x00'] := by
  cases hnull : col.nullable <;> simp [dumpColumn, columnText, hnull]

theorem toList_dumpTable (tableName : String) (schema : TableSchema) :
    (dumpTable tableName schema).toList = terminated (tableParts (tableName, schema)) := by
  rw [dumpTable, toList_foldl_append, toList_foldl_append]
  simp [terminated, tableParts, numberText, toList_dumpColumn, List.flatMap_map]

/-- The tables of a catalog in the order of their names. -/
def tablesOf (catalog : Catalog) : List (String × TableSchema) :=
  catalog.tableNames.filterMap fun tableName => (catalog.get tableName).map (tableName, ·)

theorem mem_tablesOf {catalog : Catalog} {tableName : String} {schema : TableSchema} :
    (tableName, schema) ∈ tablesOf catalog ↔ catalog.get tableName = some schema := by
  rw [tablesOf, List.mem_filterMap]
  constructor
  · rintro ⟨name, -, hmap⟩
    obtain ⟨schema', hget, heq⟩ := Option.map_eq_some_iff.mp hmap
    cases heq
    exact hget
  · intro hget
    refine ⟨tableName, ?_, by rw [hget]; rfl⟩
    rw [Catalog.tableNames, List.mem_insertionSort]
    exact AList.lookup_isSome.mp (by rw [← Catalog.get, hget]; rfl)

theorem toList_schemaDump (catalog : Catalog) :
    (schemaDump catalog).toList = terminated ((tablesOf catalog).flatMap tableParts) := by
  have hparts : (tablesOf catalog).flatMap tableParts = catalog.tableNames.flatMap fun name =>
      ((catalog.get name).map (name, ·)).toList.flatMap tableParts := by
    rw [tablesOf, List.filterMap_eq_flatMap_toList, List.flatMap_assoc]
  rw [hparts, terminated, List.flatMap_assoc]
  refine toList_foldl (fun dump name => ?_) "" catalog.tableNames
  cases hget : catalog.get name with
  | none => simp
  | some schema => simp [toList_dumpTable, terminated]

/-! ### Identifiers and numbers -/

/-- The characters of names. -/
theorem isIdentifier_iff {name : String} : isIdentifier name = true ↔
    ∃ c cs, name.toList = c :: cs ∧ (c.isAlpha = true ∨ c = '_') ∧
      ∀ d ∈ name.toList, Lexer.isWordChar d = true := by
  unfold isIdentifier
  split
  · next hnil => simp [hnil]
  · next c cs hcons =>
    have hword : c.isAlpha = true ∨ c = '_' → Lexer.isWordChar c = true := by
      rintro (h | rfl)
      · exact Lexer.isWordChar_of_isAlpha h
      · rfl
    rw [hcons, Bool.and_eq_true, Bool.or_eq_true, decide_eq_true_eq, List.all_eq_true]
    constructor
    · rintro ⟨hc, hcs⟩
      exact ⟨c, cs, rfl, hc, List.forall_mem_cons.mpr ⟨hword hc, hcs⟩⟩
    · rintro ⟨_, _, heq, hc, hall⟩
      cases heq
      exact ⟨hc, fun d hd => hall d (List.mem_cons_of_mem _ hd)⟩

theorem not_mem_of_isIdentifier {name : String} (h : isIdentifier name = true) {c : Char}
    (hc : Lexer.isWordChar c = false) : c ∉ name.toList := by
  obtain ⟨-, -, -, -, hall⟩ := isIdentifier_iff.mp h
  intro hmem
  rw [hall c hmem] at hc
  cases hc

theorem numberText_eq (n : UInt64) : numberText n = Nat.toDigits 10 n.toNat := Nat.toList_repr

theorem numberText_ne_identifier {name : String} (h : isIdentifier name = true) (n : UInt64) :
    name.toList ≠ numberText n := by
  obtain ⟨c, cs, hcons, hc, -⟩ := isIdentifier_iff.mp h
  intro heq
  have hdigit : c.isDigit = true :=
    Nat.isDigit_of_mem_toDigits (by decide) (by decide) (b := 10) (n := n.toNat)
      (by rw [← numberText_eq, ← heq, hcons]; exact List.mem_cons_self)
  rcases hc with halpha | rfl
  · rw [Lexer.isDigit_of_isAlpha halpha] at hdigit
    cases hdigit
  · cases hdigit

theorem numberText_injective {m n : UInt64} (h : numberText m = numberText n) : m = n := by
  rw [numberText_eq, numberText_eq] at h
  exact UInt64.toNat_inj.mp (Binary64.decimal_injective h)

theorem columnText_injective {col col' : ColumnDef} (hcol : isIdentifier col.name = true)
    (hcol' : isIdentifier col'.name = true) (h : columnText col = columnText col') :
    col = col' := by
  have hword : ∀ {name : String}, isIdentifier name = true → ∀ c ∈ name.toList,
      Lexer.isWordChar c = true := fun h => by
    obtain ⟨-, -, -, -, hall⟩ := isIdentifier_iff.mp h
    exact hall
  have hcolon : ∀ text : List Char, ∀ c ∈ (':' :: text).head?, Lexer.isWordChar c = false := by
    intro text c hc
    cases hc
    rfl
  obtain ⟨hname, hrest⟩ := Delimited.word_unique (hword hcol) (hword hcol') (hcolon _) (hcolon _) h
  obtain ⟨name, dataType, nullable⟩ := col
  obtain ⟨name', dataType', nullable'⟩ := col'
  cases String.toList_injective hname
  have hkind : dataType = dataType' ∧ nullable = nullable' := by
    cases dataType <;> cases dataType' <;> cases nullable <;> cases nullable' <;>
      simp_all [dataTypeName]
  rw [hkind.1, hkind.2]

theorem nul_notMem_tableParts {table : String × TableSchema} (h : WellNamed table.1 table.2)
    {part : List Char} (hpart : part ∈ tableParts table) : '\x00' ∉ part := by
  have hnul : Lexer.isWordChar '\x00' = false := by decide
  have hnumber : ∀ n, '\x00' ∉ numberText n := by
    intro n hmem
    rw [numberText_eq] at hmem
    exact absurd (Nat.isDigit_of_mem_toDigits (by decide) (by decide) hmem) (by decide)
  simp only [tableParts, List.mem_cons, List.mem_append, List.mem_map] at hpart
  rcases hpart with rfl | rfl | rfl | ⟨col, hcol, rfl⟩ | ⟨idx, hidx, rfl⟩
  · exact not_mem_of_isIdentifier h.table hnul
  · exact hnumber _
  · exact hnumber _
  · have hname := not_mem_of_isIdentifier (h.columns col hcol) hnul
    have hkind : '\x00' ∉ (dataTypeName col.dataType).toList := by
      cases col.dataType <;> decide
    have hflag : '\x00' ≠ if col.nullable then '1' else '0' := by
      cases col.nullable <;> decide
    simp [columnText, hname, hkind, hflag]
  · exact not_mem_of_isIdentifier (h.indexes idx hidx) hnul

/-! ### The parts of all tables -/

/-- Names of indexes, and the tables after them. -/
def indexParts (idxs : List String) (tables : List (String × TableSchema)) : List (List Char) :=
  idxs.map String.toList ++ tables.flatMap tableParts

/-- After the columns of a table comes a name, if anything. -/
theorem head_indexParts {idxs : List String} {tables : List (String × TableSchema)}
    (hidxs : ∀ idx ∈ idxs, isIdentifier idx = true)
    (htables : ∀ table ∈ tables, WellNamed table.1 table.2) {part : List Char}
    (hpart : part ∈ (indexParts idxs tables).head?) :
    ∃ name, isIdentifier name = true ∧ name.toList = part := by
  cases idxs with
  | cons idx idxs =>
    cases hpart
    exact ⟨idx, hidxs idx List.mem_cons_self, rfl⟩
  | nil =>
    cases tables with
    | nil => cases hpart
    | cons table tables =>
      cases hpart
      exact ⟨table.1, (htables table List.mem_cons_self).table, rfl⟩

/-- A name with a number after it is a table, so an index list ends where a table begins. -/
theorem indexParts_unique {idxs idxs' : List String} {tables tables' : List (String × TableSchema)}
    (hidxs : ∀ idx ∈ idxs, isIdentifier idx = true)
    (hidxs' : ∀ idx ∈ idxs', isIdentifier idx = true)
    (htables : ∀ table ∈ tables, WellNamed table.1 table.2)
    (htables' : ∀ table ∈ tables', WellNamed table.1 table.2)
    (h : indexParts idxs tables = indexParts idxs' tables') :
    idxs = idxs' ∧ tables.flatMap tableParts = tables'.flatMap tableParts := by
  have hends : ∀ {idx : String} {idxs : List String} {tables tables' : List (String × TableSchema)},
      (∀ idx ∈ idxs, isIdentifier idx = true) →
        (∀ table ∈ tables', WellNamed table.1 table.2) →
          indexParts [] tables ≠ idx.toList :: indexParts idxs tables' := by
    intro idx idxs tables tables' hidxs htables' heq
    cases tables with
    | nil => cases heq
    | cons table tables =>
      have htail := List.tail_eq_of_cons_eq heq
      have hhead : numberText table.2.stats.rowCount ∈ (indexParts idxs tables').head? := by
        rw [← htail]
        rfl
      obtain ⟨name, hname, hpart⟩ := head_indexParts hidxs htables' hhead
      exact numberText_ne_identifier hname _ hpart
  induction idxs generalizing idxs' with
  | nil =>
    cases idxs' with
    | nil => exact ⟨rfl, h⟩
    | cons idx' idxs' =>
      exact absurd h (hends (fun idx hidx => hidxs' idx (List.mem_cons_of_mem _ hidx)) htables')
  | cons idx idxs ih =>
    rw [List.forall_mem_cons] at hidxs
    cases idxs' with
    | nil => exact absurd h.symm (hends hidxs.2 htables)
    | cons idx' idxs' =>
      rw [List.forall_mem_cons] at hidxs'
      obtain ⟨hidx, hrest⟩ := List.cons.inj h
      obtain ⟨rfl, htables⟩ := ih hidxs.2 hidxs'.2 hrest
      rw [String.toList_injective hidx]
      exact ⟨rfl, htables⟩

/-- A part with a colon is a column, so a column list ends where the first index or table begins. -/
theorem columnParts_unique {cols cols' : List ColumnDef} {idxs idxs' : List String}
    {tables tables' : List (String × TableSchema)}
    (hcols : ∀ col ∈ cols, isIdentifier col.name = true)
    (hcols' : ∀ col ∈ cols', isIdentifier col.name = true)
    (hidxs : ∀ idx ∈ idxs, isIdentifier idx = true)
    (hidxs' : ∀ idx ∈ idxs', isIdentifier idx = true)
    (htables : ∀ table ∈ tables, WellNamed table.1 table.2)
    (htables' : ∀ table ∈ tables', WellNamed table.1 table.2)
    (h : cols.map columnText ++ indexParts idxs tables =
      cols'.map columnText ++ indexParts idxs' tables') :
    cols = cols' ∧ indexParts idxs tables = indexParts idxs' tables' := by
  have hcolumn : ∀ (cols : List ColumnDef), ∀ part ∈ cols.map columnText,
      decide (':' ∈ part) = true := by
    intro cols part hpart
    obtain ⟨col, -, rfl⟩ := List.mem_map.mp hpart
    simp [columnText]
  have hend : ∀ {idxs : List String} {tables : List (String × TableSchema)},
      (∀ idx ∈ idxs, isIdentifier idx = true) → (∀ table ∈ tables, WellNamed table.1 table.2) →
        ∀ part ∈ (indexParts idxs tables).head?, decide (':' ∈ part) = false := by
    intro idxs tables hidxs htables part hpart
    obtain ⟨name, hname, rfl⟩ := head_indexParts hidxs htables hpart
    exact decide_eq_false (not_mem_of_isIdentifier hname (by decide))
  obtain ⟨hmap, hrest⟩ := Delimited.word_unique (hcolumn cols) (hcolumn cols')
    (hend hidxs htables) (hend hidxs' htables') h
  refine ⟨?_, hrest⟩
  induction cols generalizing cols' with
  | nil => exact (List.map_eq_nil_iff.mp hmap.symm).symm
  | cons col cols ih =>
    cases cols' with
    | nil => cases hmap
    | cons col' cols' =>
      rw [List.forall_mem_cons] at hcols hcols'
      obtain ⟨hcol, hmap⟩ := List.cons.inj hmap
      rw [columnText_injective hcols.1 hcols'.1 hcol,
        ih hcols.2 hcols'.2 (congrArg₂ (· ++ ·) hmap hrest) hmap]

theorem tableParts_append (table : String × TableSchema) (tables : List (String × TableSchema)) :
    tableParts table ++ tables.flatMap tableParts =
      table.1.toList :: numberText table.2.stats.rowCount ::
        numberText table.2.stats.avgRowBytes ::
          (table.2.columns.map columnText ++ indexParts table.2.indexedColumns tables) := by
  simp [tableParts, indexParts]

theorem tableParts_unique {tables tables' : List (String × TableSchema)}
    (htables : ∀ table ∈ tables, WellNamed table.1 table.2)
    (htables' : ∀ table ∈ tables', WellNamed table.1 table.2)
    (h : tables.flatMap tableParts = tables'.flatMap tableParts) : tables = tables' := by
  induction tables generalizing tables' with
  | nil =>
    cases tables' with
    | nil => rfl
    | cons table' tables' => cases h
  | cons table tables ih =>
    cases tables' with
    | nil => cases h
    | cons table' tables' =>
      rw [List.forall_mem_cons] at htables htables'
      rw [List.flatMap_cons, List.flatMap_cons, tableParts_append, tableParts_append,
        List.cons.injEq, List.cons.injEq, List.cons.injEq] at h
      obtain ⟨hname, hrowCount, havgRowBytes, h⟩ := h
      obtain ⟨hcolumns, h⟩ := columnParts_unique htables.1.columns htables'.1.columns
        htables.1.indexes htables'.1.indexes htables.2 htables'.2 h
      obtain ⟨hindexes, hrest⟩ := indexParts_unique htables.1.indexes htables'.1.indexes htables.2
        htables'.2 h
      obtain ⟨name, columns, ⟨rowCount, avgRowBytes⟩, indexes⟩ := table
      obtain ⟨name', columns', ⟨rowCount', avgRowBytes'⟩, indexes'⟩ := table'
      cases String.toList_injective hname
      cases numberText_injective hrowCount
      cases numberText_injective havgRowBytes
      cases hcolumns
      cases hindexes
      rw [ih htables.2 htables'.2 hrest]

/-! ### The text -/

/-- All names of a catalog are identifiers. -/
def AllNamed (catalog : Catalog) : Prop :=
  ∀ tableName schema, catalog.get tableName = some schema →
    WellNamed tableName schema

/-- Two catalogs of identifiers with the same text have the same tables. -/
theorem schemaDump_injective {catalog catalog' : Catalog} (hnamed : AllNamed catalog)
    (hnamed' : AllNamed catalog') (h : schemaDump catalog = schemaDump catalog') :
    ∀ tableName, catalog.get tableName = catalog'.get tableName := by
  have htables : ∀ {catalog : Catalog}, AllNamed catalog →
      ∀ table ∈ tablesOf catalog, WellNamed table.1 table.2 :=
    fun hnamed table htable => hnamed _ _ (mem_tablesOf.mp htable)
  have hnul : ∀ {catalog : Catalog}, AllNamed catalog →
      ∀ part ∈ (tablesOf catalog).flatMap tableParts, '\x00' ∉ part := by
    intro catalog hnamed part hpart
    obtain ⟨table, htable, hpart⟩ := List.mem_flatMap.mp hpart
    exact nul_notMem_tableParts (htables hnamed table htable) hpart
  have htext := congrArg String.toList h
  rw [toList_schemaDump, toList_schemaDump] at htext
  have hparts := Delimited.terminated_unique (hnul hnamed) (hnul hnamed') htext
  have hsame := tableParts_unique (htables hnamed) (htables hnamed') hparts
  intro tableName
  ext schema
  rw [← mem_tablesOf, ← mem_tablesOf, hsame]

def ordersSchema : TableSchema :=
  ⟨[⟨"id", .int, false⟩, ⟨"total", .float, true⟩], ⟨1000, 64⟩, ["id", "total"]⟩

def usersSchema : TableSchema := ⟨[⟨"id", .int, false⟩], ⟨10, 32⟩, []⟩

def ordersFirst : Catalog := AList.insert "orders" ordersSchema (AList.insert "users" usersSchema ∅)

def usersFirst : Catalog := AList.insert "users" usersSchema (AList.insert "orders" ordersSchema ∅)

theorem allNamed_insert {catalog : Catalog} {tableName : String} {schema : TableSchema}
    (h : WellNamed tableName schema) (hnamed : AllNamed catalog) :
    AllNamed (AList.insert tableName schema catalog) := by
  intro name schema' hget
  by_cases hname : name = tableName
  · subst hname
    rw [Catalog.get, AList.lookup_insert, Option.some.injEq] at hget
    exact hget ▸ h
  · rw [Catalog.get, AList.lookup_insert_ne hname] at hget
    exact hnamed name schema' hget

/-- The order in which two tables are registered is not seen. -/
theorem schemaDump_injective_orders : ordersFirst.get "orders" = usersFirst.get "orders" := by
  have hempty : AllNamed ∅ := fun name schema hget => nomatch hget
  have horders : WellNamed "orders" ordersSchema :=
    ⟨by decide, by decide, by decide⟩
  have husers : WellNamed "users" usersSchema :=
    ⟨by decide, by decide, by decide⟩
  exact schemaDump_injective (allNamed_insert horders (allNamed_insert husers hempty))
    (allNamed_insert husers (allNamed_insert horders hempty)) (by decide) "orders"

end SqlOptimizer.Integration
