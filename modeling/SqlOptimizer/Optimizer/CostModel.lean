import SqlOptimizer.Physical.Plan

/-! `optimizer/cost_model.cpp`: the cost of a plan, recomputed from the estimated rows of its
nodes. -/

namespace SqlOptimizer

variable {R : Type} [CostNum R]

open CostNum

/-- `CostModel::estimate_cost`.  A scan has no statistics here, so that its page count is derived
from its rows. -/
def estimateCost : PhysicalPlan R → Cost R
  | .seqScan ann .. => Cost.seqScan ann.rows (Cost.pagesFor ann.rows 64)
  | .indexScan ann .. => Cost.indexScan ann.rows
  | .filter _ _ input => estimateCost input + Cost.filter input.estimatedRows
  | .join ann kind _ _ left right =>
    match kind with
    | .nestedLoopJoin =>
      let c := estimateCost left
      { c with cpu := c.cpu + ofSize left.estimatedRows * (estimateCost right).total } +
        Cost.nestedLoopJoin left.estimatedRows right.estimatedRows
    | .hashJoin => estimateCost left + estimateCost right +
        Cost.hashJoin left.estimatedRows right.estimatedRows
    -- the inner side is probed through its index, so that its own cost is left out
    | .indexNestedLoopJoin => estimateCost left +
        Cost.indexNestedLoopJoin left.estimatedRows ann.rows
  | .hashAggregate ann _ _ input => estimateCost input +
      Cost.hashAggregate input.estimatedRows ann.rows
  | .project _ _ input => estimateCost input + Cost.project input.estimatedRows
  | .sort _ _ input => estimateCost input + Cost.sort input.estimatedRows
  | .limit _ _ input => estimateCost input + Cost.limit input.estimatedRows
  | .externalRows .. => Cost.zero

end SqlOptimizer
