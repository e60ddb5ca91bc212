import SqlOptimizer.Execution.ExprEval
import Mathlib.Data.List.AList

/-! `storage/table.hpp` and `storage/database.hpp`: the loaded tables. -/

namespace SqlOptimizer

/-- An in-memory table.  `load_table_from_csv` refuses a record whose number of fields is not that
of the header, so every row has one value for each column. -/
structure Table where
  columnNames : List String
  rows : List Row
  width : ∀ row ∈ rows, row.length = columnNames.length

/-- The tables of a database by name, a `std::unordered_map`. -/
abbrev Database := AList fun _ : String => Table

def Database.get (db : Database) (name : String) : Option Table := db.lookup name

end SqlOptimizer
