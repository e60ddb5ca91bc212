import SqlOptimizer.Parser.Ast
import Mathlib.Data.Rat.Floor

/-! `physical/cost.cpp`: the cost of each operator.  The planner computes with `double`; the model
computes in any type with a `CostNum` instance, which has the operations the planner uses and no
laws, so that a result about the planner holds however its arithmetic rounds. -/

namespace SqlOptimizer

/-- The operations of `double` that estimation and costing use. -/
class CostNum (R : Type) extends Add R, Sub R, Mul R, Div R where
  ofRat : ℚ → R
  ofSize : Nat → R
  ofDouble : Binary64 → R
  lt : R → R → Bool
  le : R → R → Bool
  round : R → R
  ceil : R → R
  log2 : R → R
  /-- `static_cast<size_t>` -/
  toSize : R → Nat
  /-- the text an output stream prints -/
  toText : R → String

/-- Exact arithmetic, with `log2` left to the caller. -/
@[reducible] def CostNum.rational (log2 : ℚ → ℚ) : CostNum ℚ where
  ofRat q := q
  ofSize n := n
  ofDouble
    | .fin n m => Binary64.signed n m
    | _ => 0
  lt a b := decide (a < b)
  le a b := decide (a ≤ b)
  -- `std::round` takes halves away from zero
  round q := if q < 0 then -(⌊-q + 1 / 2⌋ : ℚ) else ⌊q + 1 / 2⌋
  ceil q := ⌈q⌉
  log2 := log2
  toSize q := ⌊q⌋.toNat
  toText q := toString q

section

variable {R : Type} [CostNum R]

open CostNum

/-- `std::max`, which returns its first argument unless it is smaller. -/
def maxNum (a b : R) : R := if lt a b then b else a

def minNum (a b : R) : R := if lt b a then b else a

def clampNum (v lo hi : R) : R := if lt v lo then lo else if lt hi v then hi else v

/-- `rows_to_size` -/
def rowsToSize (rows : R) : Nat := toSize (maxNum (ofRat 1) (round rows))

end

/-- Cost by CPU, I/O and memory pressure. -/
structure Cost (R : Type) where
  cpu : R
  io : R
  memory : R

namespace Cost

variable {R : Type} [CostNum R]

open CostNum

def zero : Cost R := ⟨ofRat 0, ofRat 0, ofRat 0⟩

def total (c : Cost R) : R := c.cpu + c.io + c.memory

instance : Add (Cost R) := ⟨fun a b => ⟨a.cpu + b.cpu, a.io + b.io, a.memory + b.memory⟩⟩

def kCpuTupleCost : R := ofRat (1 / 100)
def kSeqPageCost : R := ofRat 1
def kRandomPageCost : R := ofRat 4
def kIndexTupleCost : R := ofRat (5 / 1000)
def kHashBuildCost : R := ofRat (2 / 100)
def kPageSizeBytes : Nat := 8192
def kMemoryPerRowCost : R := ofRat (1 / 1000)
def kMemoryBudgetRows : R := ofRat 100000
def kSpillIoCostPerRow : R := ofRat (5 / 100)

/-- The page count of a table without statistics. -/
def pagesFor (rowCount avgRowBytes : Nat) : R :=
  maxNum (ofRat 1) (ceil (ofSize rowCount * ofSize avgRowBytes / ofSize kPageSizeBytes))

/-- The I/O of spilling past the memory budget. -/
def spillPenalty (rows : Nat) : R :=
  if le (ofSize rows) (kMemoryBudgetRows : R) then ofRat 0
  else (ofSize rows - kMemoryBudgetRows) * kSpillIoCostPerRow

def seqScan (rowCount : Nat) (pageCount : R) : Cost R :=
  { cpu := ofSize rowCount * kCpuTupleCost
    io := maxNum (ofRat 1) pageCount * kSeqPageCost
    memory := ofRat 0 }

def indexScan (matchedRows : Nat) : Cost R :=
  { cpu := ofSize matchedRows * (kCpuTupleCost + kIndexTupleCost)
    io := ofSize matchedRows * kRandomPageCost
    memory := ofRat 0 }

def filter (inputRows : Nat) : Cost R :=
  { cpu := ofSize inputRows * kCpuTupleCost, io := ofRat 0, memory := ofRat 0 }

def nestedLoopJoin (leftRows rightRows : Nat) : Cost R :=
  { cpu := ofSize leftRows * ofSize rightRows * kCpuTupleCost * ofRat (1 / 100)
    io := ofRat 0
    memory := ofRat 0 }

/-- The smaller side is hashed and the larger one probes. -/
def hashJoin (leftRows rightRows : Nat) : Cost R :=
  let buildRows := min leftRows rightRows
  let probeRows := max leftRows rightRows
  { cpu := ofSize buildRows * kHashBuildCost + ofSize probeRows * kCpuTupleCost
    io := spillPenalty buildRows
    memory := ofSize buildRows * kMemoryPerRowCost }

def indexNestedLoopJoin (outerRows outputRows : Nat) : Cost R :=
  { cpu := ofSize outerRows * (kCpuTupleCost + kIndexTupleCost) + ofSize outputRows * kCpuTupleCost
    io := ofSize outerRows * kRandomPageCost
    memory := ofRat 0 }

def hashAggregate (inputRows estimatedGroups : Nat) : Cost R :=
  { cpu := ofSize inputRows * kHashBuildCost
    io := spillPenalty estimatedGroups
    memory := ofSize estimatedGroups * kMemoryPerRowCost }

def sort (inputRows : Nat) : Cost R :=
  let n : R := ofSize (max inputRows 1)
  { cpu := n * log2 n * kCpuTupleCost
    io := spillPenalty inputRows
    memory := n * kMemoryPerRowCost }

def project (inputRows : Nat) : Cost R :=
  { cpu := ofSize inputRows * kCpuTupleCost * ofRat (1 / 10), io := ofRat 0, memory := ofRat 0 }

def limit (inputRows : Nat) : Cost R :=
  { cpu := ofSize inputRows * kCpuTupleCost * ofRat (1 / 100), io := ofRat 0, memory := ofRat 0 }

end Cost

end SqlOptimizer
