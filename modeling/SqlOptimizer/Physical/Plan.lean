import SqlOptimizer.Physical.Cost

/-! `physical/physical_plan.hpp`: the plan tree, one constructor for each kind of node with the
fields that its factory function sets. -/

namespace SqlOptimizer

/-- One aggregate call of the SELECT list; `COUNT(*)` has the argument `*`. -/
structure AggregateExpr where
  func : String
  arg : Expression
  aliasName : Option String

/-- The estimates that every node carries. -/
structure Annotation (R : Type) where
  cost : Cost R
  rows : Nat
  reasoning : String
  confidence : R

/-- The three join operators. -/
inductive JoinKind where
  | nestedLoopJoin | hashJoin | indexNestedLoopJoin
  deriving DecidableEq

inductive PhysicalPlan (R : Type) where
  | seqScan (ann : Annotation R) (tableName : String) (aliasName : Option String)
      (projectedColumns : List String)
  | indexScan (ann : Annotation R) (tableName : String) (aliasName : Option String)
      (projectedColumns : List String) (indexColumn : String) (indexProbeValue : Expression)
  | filter (ann : Annotation R) (predicate : Expression) (input : PhysicalPlan R)
  | join (ann : Annotation R) (kind : JoinKind) (joinType : JoinType) (condition : Expression)
      (left right : PhysicalPlan R)
  | hashAggregate (ann : Annotation R) (groupBy : List Expression)
      (aggregates : List AggregateExpr) (input : PhysicalPlan R)
  | project (ann : Annotation R) (expressions : List (Expression × Option String))
      (input : PhysicalPlan R)
  | sort (ann : Annotation R) (orderBy : List OrderByItem) (input : PhysicalPlan R)
  | limit (ann : Annotation R) (count : Nat) (input : PhysicalPlan R)
  /-- Rows injected by the coordinator.  `groupBy` and `aggregates` are set when they are the
  output of an aggregate. -/
  | externalRows (ann : Annotation R) (tableName : String) (projectedColumns : List String)
      (slot : Nat) (groupBy : List Expression) (aggregates : List AggregateExpr)

namespace PhysicalPlan

variable {R : Type}

def ann : PhysicalPlan R → Annotation R
  | seqScan a .. | indexScan a .. | filter a .. | join a .. | hashAggregate a .. | project a ..
  | sort a .. | limit a .. | externalRows a .. => a

def estimatedCost (p : PhysicalPlan R) : Cost R := p.ann.cost

def estimatedRows (p : PhysicalPlan R) : Nat := p.ann.rows

end PhysicalPlan

end SqlOptimizer
