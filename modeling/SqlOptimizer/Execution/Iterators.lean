import SqlOptimizer.Execution.Builder
import SqlOptimizer.Library.Pull

/-! `execution/operators.cpp` and `execution/query_runner.cpp`: the executors as pull iterators.
`Executor.State` has the members of an executor that `open` and `next` change, with the states of
its inputs.  A loop of the source runs here for at most `rounds` turns. -/

namespace SqlOptimizer

/-- What the C++ standard library leaves open: the order of rows that compare equal in `std::sort`,
and the order of the elements with equal keys in a `std::unordered_multimap`. -/
structure Containers where
  sort : (Row → Row → Except String Bool) → List Row → Except String (List Row)
  /-- The rows of `equal_range`, after the elements were inserted in the order of the list. -/
  equalRange : List (String × Row) → String → List Row
  equalRange_perm : ∀ build key,
    (equalRange build key).Perm ((build.filter fun kr => kr.1 == key).map (·.2))

/-- An insertion sort, and buckets in the order of insertion. -/
def Containers.standard : Containers where
  sort := sortRows
  equalRange build key := (build.filter fun kr => kr.1 == key).map (·.2)
  equalRange_perm _ _ := .refl _

/-! ### States -/

structure IndexScanState where
  pos : Nat
  probeCached : Literal
  colIdxCached : Nat

structure NestedLoopJoinState (L R : Type) where
  left : L
  right : R
  rightRows : List Row
  currentLeft : Option Row
  rightPos : Nat
  leftExhausted : Bool

structure HashJoinState (L R : Type) where
  left : L
  right : R
  build : List (String × Row)
  currentLeft : Option Row
  /-- The rows from `probe_it_` to `probe_end_`. -/
  probe : List Row
  probing : Bool

/-- The state of an operator that keeps its output, or its sorted input, in memory. -/
structure BufferState (S : Type) where
  input : S
  results : List Row
  pos : Nat

namespace Executor

def State : Executor → Type
  | .seqScan _ _ _ | .externalRows _ _ _ => Nat
  | .indexScan _ _ _ _ _ => IndexScanState
  | .filter _ input | .project _ input => input.State
  | .nestedLoopJoin _ left right => NestedLoopJoinState left.State right.State
  | .hashJoin _ _ _ left right => HashJoinState left.State right.State
  | .hashAggregate _ _ input | .sort _ input => BufferState input.State
  | .limit _ input => Nat × input.State

/-- The state after construction. -/
def initial : (e : Executor) → e.State
  | .seqScan _ _ _ | .externalRows _ _ _ => (0 : Nat)
  | .indexScan _ _ _ _ _ => (⟨0, .null, 0⟩ : IndexScanState)
  | .filter _ input | .project _ input => input.initial
  | .nestedLoopJoin _ left right =>
    (⟨left.initial, right.initial, [], none, 0, false⟩ :
      NestedLoopJoinState left.State right.State)
  | .hashJoin _ _ _ left right =>
    (⟨left.initial, right.initial, [], none, [], false⟩ : HashJoinState left.State right.State)
  | .hashAggregate _ _ input | .sort _ input => (⟨input.initial, [], 0⟩ : BufferState input.State)
  | .limit _ input => ((0, input.initial) : Nat × input.State)

end Executor

/-! ### Steps -/

/-- The error of a loop that is cut off. -/
def outOfRounds : String := "out of rounds"

/-- `std::vector::push_back` -/
def pushBack (rows : List Row) (row : Row) : Except String (List Row) := .ok (rows ++ [row])

section

variable {L R S : Type}

namespace NestedLoopJoinState

/-- `NestedLoopJoinExec::advance_left`, with what it returns. -/
def advanceLeft (next : Pull.Step String Row L) (st : NestedLoopJoinState L R) :
    Except String (Bool × NestedLoopJoinState L R) := do
  match ← next st.left with
  | (none, left) => return (false, { st with left := left, leftExhausted := true })
  | (some l, left) => return (true, { st with left := left, currentLeft := some l, rightPos := 0 })

/-- One turn of the two nested loops of `next_impl`: one right row is tried, or the left input is
advanced. -/
def turn (test : Row → Except String Bool) (next : Pull.Step String Row L)
    (st : NestedLoopJoinState L R) :
    Except String (Pull.Turn Row (NestedLoopJoinState L R)) := do
  if st.leftExhausted then return .leave none st
  else
    match st.rightRows[st.rightPos]? with
    | some r =>
      let st := { st with rightPos := st.rightPos + 1 }
      let combined := st.currentLeft.getD [] ++ r
      return if ← test combined then .leave (some combined) st else .again st
    | none =>
      match ← st.advanceLeft next with
      | (false, st) => return .leave none st
      | (true, st) => return .again st

/-- `NestedLoopJoinExec::next_impl` -/
def next (rounds : Nat) (test : Row → Except String Bool) (left : Pull.Step String Row L) :
    Pull.Step String Row (NestedLoopJoinState L R) := fun st => do
  if st.currentLeft.isNone && !st.leftExhausted then
    match ← st.advanceLeft left with
    | (false, st) => return (none, st)
    | (true, st) => Pull.loop outOfRounds (turn test left) rounds st
  else Pull.loop outOfRounds (turn test left) rounds st

end NestedLoopJoinState

namespace HashJoinState

/-- The next left row with the range of its key. -/
def advanceLeft (lib : Containers) (key : Row → Except String Literal)
    (next : Pull.Step String Row L) (st : HashJoinState L R) :
    Except String (Pull.Turn Row (HashJoinState L R)) := do
  match ← next st.left with
  | (none, left) => return .leave none { st with left := left }
  | (some l, left) =>
    let v ← key l
    return .again { st with
      left := left
      currentLeft := some l
      probe := lib.equalRange st.build (literalToString v)
      probing := true }

/-- The body of the loop of `HashJoinExec::next_impl`. -/
def turn (lib : Containers) (key : Row → Except String Literal) (next : Pull.Step String Row L)
    (st : HashJoinState L R) : Except String (Pull.Turn Row (HashJoinState L R)) :=
  if st.probing then
    match st.probe with
    | r :: probe => .ok (.leave (some (st.currentLeft.getD [] ++ r)) { st with probe := probe })
    | [] => { st with probing := false }.advanceLeft lib key next
  else st.advanceLeft lib key next

/-- `HashJoinExec::next_impl` -/
def next (lib : Containers) (rounds : Nat) (key : Row → Except String Literal)
    (left : Pull.Step String Row L) : Pull.Step String Row (HashJoinState L R) :=
  Pull.loop outOfRounds (turn lib key left) rounds

end HashJoinState

/-- The rows of a buffer, from its position on. -/
def BufferState.next : Pull.Step String Row (BufferState S) := fun st =>
  (Pull.scan st.results st.pos).map fun p => (p.1, { st with pos := p.2 })

end

section

variable [Rounding]

/-- The loop of `IndexScanExec::next_impl`. -/
def IndexScanState.next (rounds : Nat) (rows : List Row) : Pull.Step String Row IndexScanState :=
  fun st => (Pull.loop outOfRounds (Pull.filterTurn
      (fun row => do return literalEqual (← rowAt row st.colIdxCached) st.probeCached)
      (Pull.scan rows)) rounds st.pos).map fun p => (p.1, { st with pos := p.2 })

namespace Executor

variable (lib : Containers) (rounds : Nat)

/-- `next_impl` -/
def next : (e : Executor) → Pull.Step String Row e.State
  | .seqScan _ _ table => (Pull.scan table.rows : Pull.Step String Row Nat)
  | .externalRows _ _ rows => (Pull.scan rows : Pull.Step String Row Nat)
  | .indexScan _ _ table _ _ => IndexScanState.next rounds table.rows
  | .filter predicate input =>
    Pull.loop outOfRounds
      (Pull.filterTurn (fun row => passes predicate row input.schema) input.next) rounds
  | .nestedLoopJoin condition left right =>
    (NestedLoopJoinState.next rounds
      (fun row => passes condition row (left.schema.extend right.schema)) left.next :
      Pull.Step String Row (NestedLoopJoinState left.State right.State))
  | .hashJoin _ leftKey _ left right =>
    (HashJoinState.next lib rounds (fun row => evaluate leftKey row left.schema) left.next :
      Pull.Step String Row (HashJoinState left.State right.State))
  | .hashAggregate _ _ input => (BufferState.next : Pull.Step String Row (BufferState input.State))
  | .project expressions input =>
    Pull.map (fun row => expressions.mapM fun p => evaluate p.1 row input.schema) input.next
  | .sort _ input => (BufferState.next : Pull.Step String Row (BufferState input.State))
  | .limit count input => Pull.take count input.next

/-- `open_impl` -/
def «open» : (e : Executor) → e.State → Except String e.State
  | .seqScan _ _ _, _ | .externalRows _ _ _, _ => .ok (0 : Nat)
  | .indexScan _ schema _ indexColumn probeValue, _ => do
    let probe ← evaluate probeValue [] RowSchema.empty
    match schema.resolve none indexColumn with
    | none => .error ("execution: index column '" ++ indexColumn ++ "' not found")
    | some idx => return (⟨0, probe, idx⟩ : IndexScanState)
  | .filter _ input, st | .project _ input, st => input.open st
  | .nestedLoopJoin _ left right, (st : NestedLoopJoinState left.State right.State) => do
    let l ← left.open st.left
    let r ← right.open st.right
    let (rightRows, r) ← Pull.fold outOfRounds pushBack (right.next lib rounds) rounds [] r
    return ({ st with
      left := l
      right := r
      rightRows := rightRows
      rightPos := 0
      leftExhausted := false
      currentLeft := none } : NestedLoopJoinState left.State right.State)
  | .hashJoin _ _ rightKey left right, (st : HashJoinState left.State right.State) => do
    let l ← left.open st.left
    let r ← right.open st.right
    let emplace (build : List (String × Row)) (row : Row) :
        Except String (List (String × Row)) := do
      let key ← evaluate rightKey row right.schema
      return build ++ [(literalToString key, row)]
    let (build, r) ← Pull.fold outOfRounds emplace (right.next lib rounds) rounds [] r
    return ({ st with
      left := l
      right := r
      build := build
      currentLeft := none
      probing := false } : HashJoinState left.State right.State)
  | .hashAggregate groupBy aggregates input, (st : BufferState input.State) => do
    let i ← input.open st.input
    let (groups, i) ← Pull.fold outOfRounds (aggregateRow groupBy aggregates input.schema)
      (input.next lib rounds) rounds [] i
    let results := if groupBy.isEmpty && groups.isEmpty then [emptyAggregateRow aggregates]
      else groups.map fun g => g.2.output aggregates
    return (⟨i, results, 0⟩ : BufferState input.State)
  | .sort orderBy input, (st : BufferState input.State) => do
    let i ← input.open st.input
    let (rows, i) ← Pull.fold outOfRounds pushBack (input.next lib rounds) rounds [] i
    let rows ← lib.sort (sortLess orderBy input.schema) rows
    return (⟨i, rows, 0⟩ : BufferState input.State)
  | .limit _ input, ((_, st) : Nat × input.State) => do return (0, ← input.open st)

/-- `run_to_completion` on an executor tree in a state. -/
def runToCompletion (e : Executor) (st : e.State) : Except String (List Row × e.State) := do
  let st ← e.open lib rounds st
  Pull.fold outOfRounds pushBack (e.next lib rounds) rounds [] st

end Executor

end

end SqlOptimizer
