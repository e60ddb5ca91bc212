import SqlOptimizer.Parser.Ast
import Mathlib.Data.List.AList

/-! `logical/schema.hpp`: the schema catalog. -/

namespace SqlOptimizer

inductive DataType where
  | int | float | text | boolean
  deriving DecidableEq

structure ColumnDef where
  name : String
  dataType : DataType
  nullable : Bool

/-- `logical::TableStats`, the row count and row size that come with a schema. -/
structure SchemaStats where
  rowCount : UInt64
  avgRowBytes : UInt64

structure TableSchema where
  columns : List ColumnDef
  stats : SchemaStats
  indexedColumns : List String

def TableSchema.getColumn (s : TableSchema) (name : String) : Option ColumnDef :=
  s.columns.find? (·.name == name)

theorem TableSchema.mem_of_getColumn {s : TableSchema} {name : String} {col : ColumnDef}
    (h : s.getColumn name = some col) : col ∈ s.columns ∧ col.name = name :=
  ⟨List.mem_of_find?_eq_some h, by simpa using List.find?_some h⟩

def TableSchema.hasIndexOn (s : TableSchema) (column : String) : Bool :=
  s.indexedColumns.any (· == column)

/-- The schemas by table name, a `std::unordered_map`. -/
abbrev Catalog := AList fun _ : String => TableSchema

def Catalog.get (c : Catalog) (name : String) : Option TableSchema := c.lookup name

end SqlOptimizer
