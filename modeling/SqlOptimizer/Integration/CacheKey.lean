import SqlOptimizer.Logical.Schema
import SqlOptimizer.Parser.SqlPrinter
import SqlOptimizer.Util.Hash
import Mathlib.Data.List.Sort

/-! `integration/cache_key.cpp`: the key under which a plan is cached. -/

namespace SqlOptimizer

/-- `Catalog::table_names`: sorted. -/
def Catalog.tableNames (catalog : Catalog) : List String := catalog.keys.insertionSort (· ≤ ·)

namespace Integration

def dataTypeName : DataType → String
  | .int => "Int"
  | .float => "Float"
  | .text => "Text"
  | .boolean => "Boolean"

def dumpColumn (col : ColumnDef) : String :=
  col.name ++ ":" ++ dataTypeName col.dataType ++ ":" ++ (if col.nullable then "1" else "0") ++
    "\x00"

def dumpTable (tableName : String) (schema : TableSchema) : String :=
  let dump := tableName ++ "\x00" ++ toString schema.stats.rowCount.toNat ++ "\x00" ++
    toString schema.stats.avgRowBytes.toNat ++ "\x00"
  let dump := schema.columns.foldl (fun dump col => dump ++ dumpColumn col) dump
  schema.indexedColumns.foldl (fun dump idx => dump ++ (idx ++ "\x00")) dump

/-- The text that `compute_schema_version` hashes. -/
def schemaDump (catalog : Catalog) : String :=
  catalog.tableNames.foldl (fun dump tableName =>
    match catalog.get tableName with
    | none => dump
    | some schema => dump ++ dumpTable tableName schema) ""

structure CacheVersions where
  schemaVersion : UInt64
  statsVersion : UInt64

def buildCacheKey (stmt : Statement) (versions : CacheVersions) : String :=
  "plan:" ++ hex64 (fnv1a64 (toCanonicalSql stmt)) ++ ":" ++ toString versions.schemaVersion.toNat ++
    ":" ++ toString versions.statsVersion.toNat

end Integration

end SqlOptimizer
