import SqlOptimizer.Library.Table
import SqlOptimizer.Logical.Schema
import SqlOptimizer.Storage.Database

/-! `distributed/partition.cpp`: the rows of the database that each worker holds. -/

namespace SqlOptimizer

/-- The worker that owns the row with this id.  The remainder of C++ has the sign of the id. -/
def partitionOf (id : Int64) (numWorkers : Nat) : Nat :=
  if numWorkers = 0 then 0
  else
    let m := id.toInt.tmod numWorkers
    (if m < 0 then m + numWorkers else m).toNat

/-- Whether worker `workerId` owns a row, by the integer in its id column. -/
def ownsRow (idCol workerId numWorkers : Nat) (row : Row) : Bool :=
  match row[idCol]? with
  | some (.integer id) => partitionOf id numWorkers == workerId
  | _ => false

/-- The rows of a table that a worker owns.  A table without an `id` column is loaded in full. -/
def filterTableToPartition (full : Table) (workerId numWorkers : Nat) : Table :=
  match full.columnNames.findIdx? (· == "id") with
  | none => full
  | some idCol =>
    { columnNames := full.columnNames
      rows := full.rows.filter (ownsRow idCol workerId numWorkers)
      width := fun row h => full.width row (List.mem_filter.mp h).1 }

/-- The database of a worker: its part of each table of the catalog. -/
def filterDatabaseToPartition (full : Database) (schemaCatalog : Catalog)
    (workerId numWorkers : Nat) : Database :=
  schemaCatalog.keys.foldl (fun db name =>
    match full.get name with
    | none => db
    | some table => db.insert name (filterTableToPartition table workerId numWorkers)) ∅

@[simp] theorem columnNames_filterTableToPartition (full : Table) (i n : Nat) :
    (filterTableToPartition full i n).columnNames = full.columnNames := by
  unfold filterTableToPartition
  split <;> rfl

/-- The part of a worker, by name. -/
theorem get_filterDatabaseToPartition_eq (full : Database) (schemaCatalog : Catalog) (i n : Nat)
    (name : String) : (filterDatabaseToPartition full schemaCatalog i n).get name =
      if name ∈ schemaCatalog then (full.get name).map (filterTableToPartition · i n) else none := by
  have hpart : filterDatabaseToPartition full schemaCatalog i n =
      schemaCatalog.keys.foldl (fun db name =>
        ((full.get name).map (filterTableToPartition · i n)).elim db (db.insert name)) ∅ := by
    unfold filterDatabaseToPartition
    congr 1
    funext db name
    cases full.get name <;> rfl
  rw [hpart, Database.get, Table.lookup_foldl_elim]
  simp only [AList.lookup_empty, Option.or_none, AList.mem_keys]

theorem get_filterDatabaseToPartition {full : Database} {schemaCatalog : Catalog} {name : String}
    {table : Table} (hname : name ∈ schemaCatalog) (htable : full.get name = some table)
    (i n : Nat) : (filterDatabaseToPartition full schemaCatalog i n).get name =
      some (filterTableToPartition table i n) := by
  rw [get_filterDatabaseToPartition_eq, if_pos hname, htable]
  rfl

/-- Every row of a table is on exactly one of the workers. -/
def OwnedOnce (table : Table) (numWorkers : Nat) : Prop :=
  ((List.range numWorkers).flatMap fun i =>
    (filterTableToPartition table i numWorkers).rows).Perm table.rows

instance (table : Table) (numWorkers : Nat) : Decidable (OwnedOnce table numWorkers) :=
  inferInstanceAs (Decidable (List.Perm _ _))

end SqlOptimizer
