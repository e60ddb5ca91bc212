import SqlOptimizer.Distributed.DistributedAnswers
import SqlOptimizer.Storage.Loading

/-! `load_worker_partition`: workers that load their parts from the files of a directory, against
the parts of the database that the coordinator loads from it. -/

namespace SqlOptimizer

/-! ### The executor reads a database by name -/

section

variable {R : Type} {db db' : Database}

theorem buildExecutor_db_congr (h : ∀ name, db.get name = db'.get name) (plan : PhysicalPlan R)
    (sets : ExternalRowSets) : buildExecutor plan db sets = buildExecutor plan db' sets := by
  induction plan with
  | seqScan | indexScan => rw [buildExecutor, buildExecutor, loadedTable, loadedTable, h]
  | externalRows => rfl
  | join _ _ _ _ _ _ ihl ihr => rw [buildExecutor, buildExecutor, ihl, ihr]
  | filter _ _ _ ih | hashAggregate _ _ _ _ ih | project _ _ _ ih | sort _ _ _ ih | limit _ _ _ ih =>
    rw [buildExecutor, buildExecutor, ih]

theorem executePlan_db_congr [Rounding] (h : ∀ name, db.get name = db'.get name)
    (plan : PhysicalPlan R) (sets : ExternalRowSets) :
    executePlan plan db sets = executePlan plan db' sets := by
  rw [executePlan, executePlan, buildExecutor_db_congr h]

end

/-! ### The rows of all workers -/

/-- Each row of a table is on one worker exactly when each has an integer id; without an `id` column
every worker has every row. -/
theorem ownedOnce_iff {n : Nat} (hn : 0 < n) (table : Table) : OwnedOnce table n ↔
    match table.columnNames.findIdx? (· == "id") with
    | none => n = 1 ∨ table.rows = []
    | some idCol => ∀ row ∈ table.rows, ∃ id, row[idCol]? = some (.integer id) := by
  simp only [OwnedOnce, rows_filterTableToPartition]
  cases table.columnNames.findIdx? (· == "id") with
  | none => exact Parts.flatMap_const_perm_iff
  | some idCol =>
    have hparts := Parts.flatMap_filter_some_perm (ownerOf idCol n) n table.rows
    have hall : (∀ row ∈ table.rows, ∃ id, row[idCol]? = some (.integer id)) ↔
        ∀ row ∈ table.rows, (ownerOf idCol n row).any (· < n) = true :=
      forall₂_congr fun row _ => (ownerOf_any_lt hn).symm
    refine Iff.trans ?_ (Parts.filter_perm_iff.trans hall.symm)
    exact ⟨hparts.symm.trans, hparts.trans⟩

/-- Every schema of the catalog has an integer `id`. -/
def IntIds (schemaCatalog : Catalog) : Prop :=
  ∀ name schema, schemaCatalog.get name = some schema →
    ∃ col, schema.getColumn "id" = some col ∧ col.dataType = .int

/-- The header of a file has the columns of the schema in their order, and no record has an empty
`id`. -/
structure WellFilled (table : Table) (schema : TableSchema) : Prop where
  header : schema.columns.map (·.name) = table.columnNames
  ids : ∀ idCol, table.columnNames.findIdx? (· == "id") = some idCol →
    ∀ row ∈ table.rows, row[idCol]? ≠ some .null

/-- The value of a column that holds integers is one, or NULL. -/
theorem Table.Typed.integer {table : Table} {schema : TableSchema} (h : table.Typed schema)
    {col : ColumnDef} (hcol : schema.getColumn "id" = some col) (hint : col.dataType = .int)
    {idCol : Nat} (hid : table.columnNames.findIdx? (· == "id") = some idCol) {row : Row}
    (hrow : row ∈ table.rows) :
    (∃ id, row[idCol]? = some (.integer id)) ↔ row[idCol]? ≠ some .null := by
  obtain ⟨hlt, hname, -⟩ := List.findIdx?_eq_some_iff_getElem.mp hid
  have hvalues := h row hrow
  have hlt' : idCol < row.length := hvalues.length_eq ▸ hlt
  obtain ⟨col', hcol', htype⟩ := hvalues.get hlt' hlt
  have hid' : table.columnNames.get ⟨idCol, hlt⟩ = "id" := eq_of_beq hname
  rw [hid'] at hcol'
  cases hcol.symm.trans hcol'
  rw [hint] at htype
  rw [List.getElem?_eq_getElem hlt']
  constructor
  · rintro ⟨id, hvalue⟩ hnull
    cases hvalue.symm.trans hnull
  · intro hnull
    obtain ⟨id, hvalue⟩ := htype.int fun hv => hnull (congrArg some hv)
    exact ⟨id, congrArg some hvalue⟩

/-! ### The part of a worker -/

section

variable [NumberText]

/-- The loop of `load_database_from_directory` over the files, with each table cut to its part. -/
def loadWorkerPartition (files : FileSystem) (dir : String) (schemaCatalog : Catalog)
    (workerId numWorkers : Nat) : Except String Database :=
  Table.collect (fun name => (loadNamed files dir schemaCatalog name).map
    (Option.map (filterTableToPartition · workerId numWorkers))) schemaCatalog.tableNames ∅

variable {files : FileSystem} {dir : String} {schemaCatalog : Catalog} {full : Database} {n : Nat}

/-- `filter_database_to_partition` gives a worker its part of every loaded table. -/
theorem get_filterDatabaseToPartition_loaded
    (hload : loadDatabaseFromDirectory files dir schemaCatalog = .ok full) (i n : Nat)
    (name : String) : (filterDatabaseToPartition full schemaCatalog i n).get name =
      (full.get name).map (filterTableToPartition · i n) := by
  rw [get_filterDatabaseToPartition_eq]
  split
  case isTrue => rfl
  case isFalse hname =>
    cases htable : full.get name with
    | none => rfl
    | some table =>
      -- a loaded table is one of the catalog
      obtain ⟨schema, hschema, -⟩ := typed_loadDatabaseFromDirectory hload htable
      refine absurd (AList.lookup_isSome.mp ?_) hname
      rw [show AList.lookup name schemaCatalog = _ from hschema]
      rfl

/-- What a worker loads, by name: the parts of what the coordinator loads, or its failure. -/
theorem loadWorkerPartition_get (files : FileSystem) (dir : String) (schemaCatalog : Catalog)
    (i n : Nat) : (loadWorkerPartition files dir schemaCatalog i n).map Database.get =
      (loadDatabaseFromDirectory files dir schemaCatalog).map fun full =>
        (filterDatabaseToPartition full schemaCatalog i n).get := by
  have hmap : (loadWorkerPartition files dir schemaCatalog i n).map Database.get =
      (loadDatabaseFromDirectory files dir schemaCatalog).map fun full name =>
        (full.get name).map (filterTableToPartition · i n) :=
    Table.collect_map (filterTableToPartition · i n) (loadNamed files dir schemaCatalog)
      schemaCatalog.tableNames
  rw [hmap]
  cases hload : loadDatabaseFromDirectory files dir schemaCatalog with
  | error e => rfl
  | ok full =>
    exact congrArg Except.ok
      (funext fun name => (get_filterDatabaseToPartition_loaded hload i n name).symm)

/-- A worker that loaded its part from the files executes every plan as the coordinator does on that
part of its own database, and fails to load exactly as the coordinator does. -/
theorem loadWorkerPartition_executes [Rounding] {R : Type} (files : FileSystem) (dir : String)
    (schemaCatalog : Catalog) (n i : Nat) (plan : PhysicalPlan R) (sets : ExternalRowSets) :
    (loadWorkerPartition files dir schemaCatalog i n >>= fun db => executePlan plan db sets) =
      loadDatabaseFromDirectory files dir schemaCatalog >>= fun full =>
        executeOnPartition full schemaCatalog n i plan sets := by
  have hget := loadWorkerPartition_get files dir schemaCatalog i n
  cases hload : loadDatabaseFromDirectory files dir schemaCatalog with
  | error e =>
    rw [hload] at hget
    cases hworker : loadWorkerPartition files dir schemaCatalog i n with
    | error e' =>
      rw [hworker] at hget
      cases hget
      rfl
    | ok db =>
      rw [hworker] at hget
      cases hget
  | ok full =>
    rw [hload] at hget
    cases hworker : loadWorkerPartition files dir schemaCatalog i n with
    | error e' =>
      rw [hworker] at hget
      cases hget
    | ok db =>
      rw [hworker] at hget
      exact executePlan_db_congr (congrFun (Except.ok.inj hget)) plan sets

/-! ### Files that can be spread -/

/-- The loaded tables can be spread over the workers exactly when their files are filled so. -/
theorem partitionable_loaded_iff (hn : 0 < n) (hids : IntIds schemaCatalog)
    (hload : loadDatabaseFromDirectory files dir schemaCatalog = .ok full) :
    Partitionable schemaCatalog full n ↔ ∀ name table, full.get name = some table →
      ∃ schema, schemaCatalog.get name = some schema ∧ WellFilled table schema := by
  have howned : ∀ {name table schema}, full.get name = some table →
      schemaCatalog.get name = some schema → schema.columns.map (·.name) = table.columnNames →
      (OwnedOnce table n ↔ WellFilled table schema) := by
    intro name table schema htable hschema hheader
    obtain ⟨schema', hschema', htyped⟩ := typed_loadDatabaseFromDirectory hload htable
    cases hschema.symm.trans hschema'
    obtain ⟨col, hcol, hint⟩ := hids name schema hschema
    -- the header has the `id` of the schema
    obtain ⟨idCol, hidCol⟩ : ∃ idCol, table.columnNames.findIdx? (· == "id") = some idCol := by
      have hmem : "id" ∈ table.columnNames := by
        rw [← hheader]
        exact List.mem_map.mpr ⟨col, TableSchema.mem_of_getColumn hcol⟩
      cases hnone : table.columnNames.findIdx? (· == "id") with
      | some idCol => exact ⟨idCol, rfl⟩
      | none => exact absurd (List.findIdx?_eq_none_iff.mp hnone "id" hmem) (by simp)
    rw [ownedOnce_iff hn, hidCol]
    constructor
    · intro h
      refine ⟨hheader, fun idCol' hidCol' row hrow => ?_⟩
      cases hidCol.symm.trans hidCol'
      exact (htyped.integer hcol hint hidCol hrow).mp (h row hrow)
    · exact fun h row hrow => (htyped.integer hcol hint hidCol hrow).mpr (h.ids idCol hidCol row hrow)
  constructor
  · intro h name table htable
    obtain ⟨schema, hschema, hheader⟩ := h.loaded name table htable
    exact ⟨schema, hschema, (howned htable hschema hheader).mp (h.owned name table htable)⟩
  · intro h
    constructor
    · intro name table htable
      obtain ⟨schema, hschema, hfilled⟩ := h name table htable
      exact (howned htable hschema hfilled.header).mpr hfilled
    · intro name table htable
      obtain ⟨schema, hschema, hfilled⟩ := h name table htable
      exact ⟨schema, hschema, hfilled.header⟩

end

section

attribute [local instance] Integration.noNumbers

/-- A file `id`, `1`, `2`. -/
def idsFiles : FileSystem := ⟨fun _ => true, fun _ => some [105, 100, 10, 49, 10, 50, 10]⟩

def idsCatalog : Catalog := AList.singleton "t" ⟨[⟨"id", .int, false⟩], ⟨2, 8⟩, []⟩

def idsTable : Table := ⟨["id"], [[.integer 1], [.integer 2]], by decide⟩

theorem loadDatabaseFromDirectory_ids :
    loadDatabaseFromDirectory idsFiles "data" idsCatalog = .ok (AList.singleton "t" idsTable) := by
  rfl

theorem partitionable_loaded_ids : Partitionable idsCatalog (AList.singleton "t" idsTable) 2 := by
  refine (partitionable_loaded_iff (by decide) ?_ loadDatabaseFromDirectory_ids).mpr ?_
  · intro name schema hschema
    cases List.mem_singleton.mp (AList.mem_lookup_iff.mp hschema)
    exact ⟨_, rfl, rfl⟩
  · intro name table htable
    cases List.mem_singleton.mp (AList.mem_lookup_iff.mp htable)
    refine ⟨_, rfl, rfl, fun idCol hidCol => ?_⟩
    cases hidCol
    decide

end

end SqlOptimizer
