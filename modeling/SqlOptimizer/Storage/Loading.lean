import SqlOptimizer.Integration.CachedPlanner
import SqlOptimizer.Library.Table
import SqlOptimizer.Storage.CsvReader
import SqlOptimizer.Storage.Database

/-! `storage/table.cpp` and `storage/database.cpp`: the tables that are loaded from the CSV files of
a directory. -/

namespace SqlOptimizer

open Integration (stoInt bytesText)

/-- The paths that exist, and the bytes of the files that can be opened. -/
structure FileSystem where
  present : String → Bool
  contents : String → Option Bytes

/-- `path(dir) / (name + ".csv")` -/
def csvPath (dir name : String) : String :=
  let file := name ++ ".csv"
  if file.startsWith "/" then file
  else if dir.isEmpty || dir.endsWith "/" then dir ++ file
  else dir ++ "/" ++ file

/-! ### Rows -/

/-- NULL, or a value of the type. -/
def Literal.OfType : Literal → DataType → Prop
  | .null, _ => True
  | .integer _, .int => True
  | .floating _, .float => True
  | .str _, .text => True
  | .boolean _, .boolean => True
  | _, _ => False

theorem Literal.OfType.int {v : Literal} (h : v.OfType .int) (hnull : v ≠ .null) :
    ∃ n, v = .integer n := by
  cases v with
  | integer n => exact ⟨n, rfl⟩
  | null => exact absurd rfl hnull
  | floating | str | boolean => exact h.elim

/-- The names of the header, each with the type of its column. -/
abbrev Header := List (String × DataType)

/-- A row with a value of its type, or NULL, for each column. -/
abbrev TypedRow (header : Header) :=
  {row : Row // List.Forall₂ (fun v (column : String × DataType) => v.OfType column.2) row header}

/-- The table with these rows. -/
def Table.ofTyped (header : Header) (rows : List (TypedRow header)) : Table where
  columnNames := header.map (·.1)
  rows := rows.map (·.1)
  width row hrow := by
    obtain ⟨typed, -, rfl⟩ := List.mem_map.mp hrow
    rw [typed.2.length_eq, List.length_map]

/-! ### Headers -/

def loadHeader (path : String) (schema : TableSchema) (names : List Bytes) :
    Except String Header :=
  names.mapM fun bytes =>
    let name := String.ofList (bytesText bytes)
    match schema.getColumn name with
    | none => .error ("csv: column '" ++ name ++ "' in " ++ path ++ " not found in schema")
    | some col => .ok (name, col.dataType)

/-- Every column of the table is one of the schema, and holds values of its type or NULL. -/
def Table.Typed (table : Table) (schema : TableSchema) : Prop :=
  ∀ row ∈ table.rows, List.Forall₂ (fun v name =>
    ∃ col, schema.getColumn name = some col ∧ v.OfType col.dataType) row table.columnNames

theorem getColumn_of_loadHeader {path : String} {schema : TableSchema} {names : List Bytes}
    {header : Header} (h : loadHeader path schema names = .ok header) {column : String × DataType}
    (hcolumn : column ∈ header) :
    ∃ col, schema.getColumn column.1 = some col ∧ col.dataType = column.2 := by
  obtain ⟨bytes, -, hname⟩ := Except.exists_of_mem_mapM h hcolumn
  dsimp only at hname
  split at hname
  case h_1 => cases hname
  case h_2 col hcol =>
    cases hname
    exact ⟨col, hcol, rfl⟩

/-- Types that come from the schema. -/
theorem typed_iff_header {schema : TableSchema} {header : Header}
    (h : ∀ column ∈ header, ∃ col, schema.getColumn column.1 = some col ∧ col.dataType = column.2)
    {row : Row} : List.Forall₂ (fun v name =>
        ∃ col, schema.getColumn name = some col ∧ v.OfType col.dataType) row (header.map (·.1)) ↔
      List.Forall₂ (fun v (column : String × DataType) => v.OfType column.2) row header := by
  induction header generalizing row with
  | nil => simp
  | cons column header ih =>
    obtain ⟨col, hcol, htype⟩ := h column List.mem_cons_self
    cases row with
    | nil => simp
    | cons v row =>
      have hrest := @ih (fun c hc => h c (List.mem_cons_of_mem _ hc)) row
      simp only [List.map_cons, List.forall₂_cons, hrest, hcol, Option.some.injEq, exists_eq_left',
        htype]

theorem Table.typed_ofTyped {schema : TableSchema} {header : Header}
    (h : ∀ column ∈ header, ∃ col, schema.getColumn column.1 = some col ∧ col.dataType = column.2)
    (rows : List (TypedRow header)) : (Table.ofTyped header rows).Typed schema := by
  intro row hrow
  obtain ⟨typed, -, rfl⟩ := List.mem_map.mp hrow
  exact (typed_iff_header h).mpr typed.2

/-! ### Tables and databases -/

section Load

variable [NumberText]

/-- An empty field is NULL.  What `std::stoll` and `std::stod` throw is not caught. -/
def parseField (field : Bytes) (type : DataType) : Except String {v : Literal // v.OfType type} :=
  if field = [] then .ok ⟨.null, trivial⟩
  else
    match type with
    | .int => do
      let n ← stoInt "stoll" 64 field
      return ⟨.integer (Int64.ofInt n), trivial⟩
    | .float =>
      match NumberText.stod (bytesText field) with
      | .ok x => .ok ⟨.floating x, trivial⟩
      | .error _ => .error "stod"
    | .text => .ok ⟨.str (String.ofList (bytesText field)), trivial⟩
    | .boolean =>
      .ok ⟨.boolean (field == ascii "true" || field == ascii "1" || field == ascii "TRUE"), trivial⟩

def parseFields : (header : Header) → (fields : List Bytes) → fields.length = header.length →
    Except String (TypedRow header)
  | [], [], _ => .ok ⟨[], .nil⟩
  | column :: header, field :: fields, h => do
    let v ← parseField field column.2
    let row ← parseFields header fields (by simpa using h)
    return ⟨v.1 :: row.1, .cons v.2 row.2⟩

/-- A record, with its number in the file. -/
def loadRow (path : String) (header : Header) (record : List Bytes × Nat) :
    Except String (TypedRow header) :=
  if h : record.1.length = header.length then parseFields header record.1 h
  else .error ("csv: row " ++ toString record.2 ++ " in " ++ path ++ " has " ++
    toString record.1.length ++ " fields, expected " ++ toString header.length)

def loadTableFromCsv (files : FileSystem) (path : String) (schema : TableSchema) :
    Except String Table := do
  match ← Csv.readCsv files.contents path with
  | [] => return ⟨[], [], nofun⟩
  | names :: records =>
    let header ← loadHeader path schema names
    let rows ← (records.zipIdx 1).mapM (loadRow path header)
    return .ofTyped header rows

/-- What is loaded for a name of the catalog: nothing when there is no file. -/
def loadNamed (files : FileSystem) (dir : String) (schemaCatalog : Catalog) (name : String) :
    Except String (Option Table) :=
  if files.present (csvPath dir name) then
    match schemaCatalog.get name with
    | none => .ok none
    | some schema => (loadTableFromCsv files (csvPath dir name) schema).map some
  else .ok none

def loadDatabaseFromDirectory (files : FileSystem) (dir : String) (schemaCatalog : Catalog) :
    Except String Database :=
  Table.collect (loadNamed files dir schemaCatalog) schemaCatalog.tableNames ∅

/-! ### What is loaded -/

theorem typed_loadTableFromCsv {files : FileSystem} {path : String} {schema : TableSchema}
    {table : Table} (h : loadTableFromCsv files path schema = .ok table) : table.Typed schema := by
  obtain ⟨records, -, h⟩ := Except.bind_eq_ok.mp h
  cases records with
  | nil =>
    cases h
    exact nofun
  | cons names records =>
    obtain ⟨header, hheader, h⟩ := Except.bind_eq_ok.mp h
    obtain ⟨rows, -, h⟩ := Except.bind_eq_ok.mp h
    cases h
    exact Table.typed_ofTyped (fun _ => getColumn_of_loadHeader hheader) rows

variable {files : FileSystem} {dir name : String} {schemaCatalog : Catalog} {full : Database}
  {table : Table}

theorem exists_of_loadNamed (h : loadNamed files dir schemaCatalog name = .ok (some table)) :
    ∃ schema, schemaCatalog.get name = some schema ∧ table.Typed schema := by
  unfold loadNamed at h
  split at h
  case isFalse => cases h
  case isTrue =>
    split at h
    case h_1 => cases h
    case h_2 schema hschema =>
      cases hloaded : loadTableFromCsv files (csvPath dir name) schema with
      | error e =>
        rw [hloaded] at h
        cases h
      | ok loaded =>
        rw [hloaded] at h
        cases h
        exact ⟨schema, hschema, typed_loadTableFromCsv hloaded⟩

/-- A loaded table has its schema in the catalog and is typed by it. -/
theorem typed_loadDatabaseFromDirectory
    (hload : loadDatabaseFromDirectory files dir schemaCatalog = .ok full)
    (htable : full.get name = some table) :
    ∃ schema, schemaCatalog.get name = some schema ∧ table.Typed schema := by
  obtain ⟨-, hnamed⟩ := (Table.lookup_collect_empty hload).mp htable
  exact exists_of_loadNamed hnamed

end Load

end SqlOptimizer
