import SqlOptimizer.Execution.Iterators

/-! The evaluation of an executor tree on lists, and what each pull iterator yields in its terms. -/

namespace SqlOptimizer

section

variable [Rounding] (lib : Containers)

/-- `HashJoinExec` on lists: each left row with the right rows whose key prints alike. -/
def hashJoinWith (leftKey : Expression) (leftSchema : RowSchema) (build : List (String × Row))
    (left : Drain String Row) : Drain String Row :=
  left.flatMap fun l => do
    let key ← evaluate leftKey l leftSchema
    return (lib.equalRange build (literalToString key)).map (l ++ ·)

/-- The rows of an executor, evaluated on lists with the sort and the buckets of `lib`. -/
def Executor.drainWith : Executor → Except String (Drain String Row)
  | .seqScan _ _ table => .ok (.ofList table.rows)
  | .externalRows _ _ rows => .ok (.ofList rows)
  | .indexScan _ schema table indexColumn probeValue =>
    indexScanRows schema table.rows indexColumn probeValue
  | .filter predicate input => do
    return (← input.drainWith).filter fun row => passes predicate row input.schema
  | .nestedLoopJoin condition left right => do
    let l ← left.drainWith
    let r ← (← right.drainWith).collect
    return nestedLoopRows condition (left.schema.extend right.schema) l r
  | .hashJoin _ leftKey rightKey left right => do
    let l ← left.drainWith
    let build ← hashBuild rightKey right.schema (← (← right.drainWith).collect)
    return hashJoinWith lib leftKey left.schema build l
  | .hashAggregate groupBy aggregates input => do
    let rows ← (← input.drainWith).collect
    return .ofList (← hashAggregateRows groupBy aggregates input.schema rows)
  | .project expressions input => do
    return (← input.drainWith).map fun row => expressions.mapM fun p => evaluate p.1 row input.schema
  | .sort orderBy input => do
    return .ofList (← lib.sort (sortLess orderBy input.schema) (← (← input.drainWith).collect))
  | .limit count input => do return (← input.drainWith).take count

/-- The rows of a subplan and the schema they follow. -/
structure Listing where
  schema : RowSchema
  rows : Drain String Row

/-- The evaluation of a plan on lists, node by node. -/
def PhysicalPlan.listing {R : Type} (db : Database) (sets : ExternalRowSets) :
    PhysicalPlan R → Except String Listing
  | .seqScan _ tableName aliasName _ => do
    let table ← loadedTable db tableName
    return ⟨scanSchema (aliasName.getD tableName) table.columnNames, .ofList table.rows⟩
  | .indexScan _ tableName aliasName _ indexColumn probeValue => do
    let table ← loadedTable db tableName
    let schema := scanSchema (aliasName.getD tableName) table.columnNames
    return ⟨schema, ← indexScanRows schema table.rows indexColumn probeValue⟩
  | .externalRows _ _ projectedColumns slot groupBy aggregates =>
    match sets.lookup slot with
    | none => .error ("execution: no external rows supplied for slot " ++ toString slot)
    | some rows => .ok ⟨externalSchema projectedColumns groupBy aggregates, .ofList rows⟩
  | .filter _ predicate input => do
    let i ← input.listing db sets
    return ⟨i.schema, i.rows.filter fun row => passes predicate row i.schema⟩
  | .join _ kind _ condition left right => do
    let l ← left.listing db sets
    let r ← right.listing db sets
    let schema := l.schema.extend r.schema
    match kind with
    | .nestedLoopJoin | .indexNestedLoopJoin =>
      return ⟨schema, nestedLoopRows condition schema l.rows (← r.rows.collect)⟩
    | .hashJoin =>
      let (leftKey, rightKey) ← hashJoinKeys condition l.schema r.schema
      let build ← hashBuild rightKey r.schema (← r.rows.collect)
      return ⟨schema, hashJoinWith lib leftKey l.schema build l.rows⟩
  | .hashAggregate _ groupBy aggregates input => do
    let i ← input.listing db sets
    let rows ← hashAggregateRows groupBy aggregates i.schema (← i.rows.collect)
    return ⟨aggregateSchema groupBy aggregates, .ofList rows⟩
  | .project _ expressions input => do
    let i ← input.listing db sets
    return ⟨projectSchema expressions,
      i.rows.map fun row => expressions.mapM fun p => evaluate p.1 row i.schema⟩
  | .sort _ orderBy input => do
    let i ← input.listing db sets
    return ⟨i.schema, .ofList (← lib.sort (sortLess orderBy i.schema) (← i.rows.collect))⟩
  | .limit _ count input => do
    let i ← input.listing db sets
    return ⟨i.schema, i.rows.take count⟩

/-- The list that evaluation gives, if no row that is reached fails. -/
def PhysicalPlan.listRows {R : Type} (plan : PhysicalPlan R) (db : Database)
    (sets : ExternalRowSets) : Except String (List Row) := do
  (← plan.listing lib db sets).rows.collect

/-- A plan and its executor have the same evaluation. -/
theorem PhysicalPlan.listing_eq {R : Type} {plan : PhysicalPlan R} {db : Database}
    {sets : ExternalRowSets} {e : Executor} (hbuild : buildExecutor plan db sets = .ok e) :
    plan.listing lib db sets = do return ⟨e.schema, ← e.drainWith lib⟩ := by
  induction plan generalizing e with
  | seqScan ann tableName aliasName cols =>
    obtain ⟨table, htable, h⟩ := Except.bind_eq_ok.mp hbuild
    cases h
    rw [listing, htable]
    rfl
  | indexScan ann tableName aliasName cols indexColumn probe =>
    obtain ⟨table, htable, h⟩ := Except.bind_eq_ok.mp hbuild
    cases h
    rw [listing, htable]
    rfl
  | externalRows ann tableName cols slot groupBy aggregates =>
    rw [buildExecutor] at hbuild
    rw [listing]
    cases hslot : sets.lookup slot with
    | none =>
      rw [hslot] at hbuild
      cases hbuild
    | some rows =>
      rw [hslot] at hbuild
      cases hbuild
      rfl
  | filter ann predicate input ih | project ann expressions input ih | limit ann count input ih =>
    obtain ⟨i, hi, h⟩ := Except.bind_eq_ok.mp hbuild
    cases h
    rw [listing, ih hi, Executor.drainWith]
    cases i.drainWith lib <;> rfl
  | hashAggregate ann groupBy aggregates input ih =>
    obtain ⟨i, hi, h⟩ := Except.bind_eq_ok.mp hbuild
    cases h
    rw [listing, ih hi, Executor.drainWith]
    simp only [bind_assoc, Except.pure_eq_ok, Except.ok_bind]
    rfl
  | sort ann orderBy input ih =>
    obtain ⟨i, hi, h⟩ := Except.bind_eq_ok.mp hbuild
    cases h
    rw [listing, ih hi, Executor.drainWith]
    simp only [bind_assoc, Except.pure_eq_ok, Except.ok_bind]
    rfl
  | join ann kind joinType condition left right ihl ihr =>
    obtain ⟨l, hl, h⟩ := Except.bind_eq_ok.mp hbuild
    obtain ⟨r, hr, h⟩ := Except.bind_eq_ok.mp h
    rw [listing, ihl hl, ihr hr]
    cases kind with
    | nestedLoopJoin | indexNestedLoopJoin =>
      cases h
      simp only [Executor.drainWith, bind_assoc, Except.pure_eq_ok, Except.ok_bind]
      rfl
    | hashJoin =>
      obtain ⟨⟨leftKey, rightKey⟩, hkeys, h⟩ := Except.bind_eq_ok.mp h
      cases h
      simp only [Executor.drainWith, bind_assoc, Except.pure_eq_ok, Except.ok_bind, hkeys]
      rfl

end

section

variable [Rounding]

/-- With an insertion sort and buckets in the order of insertion, this is `Executor.drain`. -/
theorem Executor.drainWith_standard (e : Executor) :
    e.drainWith Containers.standard = e.drain := by
  induction e with
  | seqScan | externalRows | indexScan => rfl
  | filter p input ih | limit n input ih | project es input ih => rw [drainWith, drain, ih]
  | nestedLoopJoin c l r ihl ihr => rw [drainWith, drain, ihl, ihr]
  | hashAggregate g a input ih => rw [drainWith, drain, ih]
  | sort o input ih =>
    rw [drainWith, drain, ih]
    rfl
  | hashJoin c lk rk l r ihl ihr =>
    rw [drainWith, drain, ihl, ihr]
    simp only [hashJoinWith, hashJoinRows, Containers.standard, List.map_map, Function.comp_def]

end

/-! ### The loops of the joins -/

namespace NestedLoopJoinState

variable {L R : Type} {test : Row → Except String Bool} {left : Pull.Step String Row L}

/-- The pairs that are still to come: those of the current row, then those of the left rows. -/
def pairs (test : Row → Except String Bool) (l : Row) (rest rightRows : List Row)
    (d : Drain String Row) : Drain String Row :=
  ((d.flatMap fun l => .ok (rightRows.map (l ++ ·))).prepend (rest.map (l ++ ·))).filter test

theorem pairs_cons (l r : Row) (rest rightRows : List Row) (d : Drain String Row) :
    pairs test l (r :: rest) rightRows d =
      match test (l ++ r) with
      | .error e => ⟨[], some e⟩
      | .ok b => (pairs test l rest rightRows d).prepend (if b then [l ++ r] else []) := by
  show Drain.filter test ⟨(l ++ r) :: _, _⟩ = _
  rw [Drain.filter_cons]
  cases test (l ++ r) <;> rfl

theorem pairs_nil_cons (l l' : Row) (rightRows rows : List Row) (fault : Option String) :
    pairs test l [] rightRows ⟨l' :: rows, fault⟩ =
      pairs test l' rightRows rightRows ⟨rows, fault⟩ := rfl

/-- The state at a position of the current row. -/
def probing (sl : L) (sr : R) (rightRows : List Row) (l : Row) (pos : Nat) :
    NestedLoopJoinState L R := ⟨sl, sr, rightRows, some l, pos, false⟩

/-- The rest of the current row, when the state after it is known. -/
theorem turns_probing {sl : L} {sr : R} {rightRows : List Row} {l : Row} {d : Drain String Row}
    {n : Nat} (hend : Pull.Turns (turn test left) n (probing sl sr rightRows l rightRows.length)
      (pairs test l [] rightRows d)) {pos : Nat} (hpos : pos ≤ rightRows.length) :
    Pull.Turns (turn test left) (n + (rightRows.length - pos)) (probing sl sr rightRows l pos)
      (pairs test l (rightRows.drop pos) rightRows d) := by
  induction hlen : rightRows.length - pos generalizing pos with
  | zero =>
    obtain rfl : pos = rightRows.length := by omega
    rwa [List.drop_length]
  | succ k ih =>
    have hlt : pos < rightRows.length := by omega
    have hrest := ih (show pos + 1 ≤ rightRows.length by omega) (by omega)
    have hturn : turn test left (probing sl sr rightRows l pos) =
        (test (l ++ rightRows[pos])).map fun b =>
          if b then .leave (some (l ++ rightRows[pos])) (probing sl sr rightRows l (pos + 1))
          else .again (probing sl sr rightRows l (pos + 1)) := by
      simp only [turn, probing, List.getElem?_eq_getElem hlt, Bool.false_eq_true, if_false,
        Option.getD_some]
      cases test (l ++ rightRows[pos]) <;> rfl
    rw [List.drop_eq_getElem_cons hlt, pairs_cons]
    cases ht : test (l ++ rightRows[pos]) with
    | error e => exact .fault (by rw [hturn, ht]; rfl)
    | ok b =>
      cases b with
      | true => exact .row (by rw [hturn, ht]; rfl) (hrest.mono (by omega))
      | false => exact .again (by rw [hturn, ht]; rfl) hrest

section

variable {sl sl' : L} {sr : R} {rightRows : List Row} {l l' : Row} {e : String}

/-- At the end of the right rows, a turn asks the left input. -/
theorem turn_end_error (h : left sl = .error e) :
    turn test left (probing sl sr rightRows l rightRows.length) = .error e := by
  simp only [turn, probing, List.getElem?_length, Bool.false_eq_true, if_false, advanceLeft, h]
  rfl

theorem turn_end_none (h : left sl = .ok (none, sl')) :
    turn test left (probing sl sr rightRows l rightRows.length) =
      .ok (.leave none ⟨sl', sr, rightRows, some l, rightRows.length, true⟩) := by
  simp only [turn, probing, List.getElem?_length, Bool.false_eq_true, if_false, advanceLeft, h]
  rfl

theorem turn_end_some (h : left sl = .ok (some l', sl')) :
    turn test left (probing sl sr rightRows l rightRows.length) =
      .ok (.again (probing sl' sr rightRows l' 0)) := by
  simp only [turn, probing, List.getElem?_length, Bool.false_eq_true, if_false, advanceLeft, h]
  rfl

end

/-- At the end of the current row, the loop goes through the left rows that are still to come. -/
theorem turns_left {sl : L} {d : Drain String Row} (h : Pull.Yields left sl d) (sr : R)
    (rightRows : List Row) (l : Row) :
    Pull.Turns (turn test left) (d.rows.length * (rightRows.length + 1))
      (probing sl sr rightRows l rightRows.length) (pairs test l [] rightRows d) := by
  induction h generalizing l with
  | fault h => exact .fault (turn_end_error h)
  | done h _ => exact .done (turn_end_none h) rfl
  | @row sl sl' l' rows fault h _ ih =>
    rw [pairs_nil_cons, List.length_cons, Nat.add_one_mul, ← Nat.add_assoc]
    have hrow := turns_probing (ih l') (Nat.zero_le rightRows.length)
    exact .again (turn_end_some h) hrow

/-- Once a row is current, or the left input is at its end, a step is a run of the loop. -/
def Started (st : NestedLoopJoinState L R) : Prop :=
  st.currentLeft.isSome ∨ st.leftExhausted

theorem next_eq_loop {rounds : Nat} {st : NestedLoopJoinState L R} (h : st.Started) :
    next rounds test left st = Pull.loop outOfRounds (turn test left) rounds st := by
  have hstart : (st.currentLeft.isNone && !st.leftExhausted) = false := by
    rcases h with h | h
    · rw [Option.isNone_eq_false_iff.mpr h, Bool.false_and]
    · rw [h, Bool.not_true, Bool.and_false]
  rw [next, hstart]
  rfl

/-- No turn takes the current row away. -/
theorem started_turn {st : NestedLoopJoinState L R} (h : st.Started)
    {t : Pull.Turn Row (NestedLoopJoinState L R)} (ht : turn test left st = .ok t) :
    match t with
    | .again st' | .leave _ st' => st'.Started := by
  unfold turn at ht
  split at ht
  · cases ht
    exact h
  rename_i hexhausted
  have hcurrent : st.currentLeft.isSome := h.resolve_right hexhausted
  split at ht
  · obtain ⟨b, -, hb⟩ := Except.bind_eq_ok.mp ht
    cases b <;> (cases hb; exact .inl hcurrent)
  · obtain ⟨⟨found, st'⟩, hadvance, hfound⟩ := Except.bind_eq_ok.mp ht
    obtain ⟨⟨_ | l, sl⟩, -, hrow⟩ := Except.bind_eq_ok.mp hadvance
    · cases hrow
      cases hfound
      exact .inr rfl
    · cases hrow
      cases hfound
      exact .inl rfl

/-- Neither does a step. -/
theorem started_loop {rounds : Nat} {st st' : NestedLoopJoinState L R} {out : Option Row}
    (h : st.Started) (hloop : Pull.loop outOfRounds (turn test left) rounds st = .ok (out, st')) :
    st'.Started :=
  Pull.loop_preserves outOfRounds (fun _ _ hst ht => started_turn hst ht)
    (fun _ _ _ hst ht => started_turn hst ht) h hloop

/-- After `open`: the join advances its left input, and then loops. -/
theorem yields_next {rounds : Nat} {sl : L} {d : Drain String Row} (h : Pull.Yields left sl d)
    (sr : R) (rightRows : List Row) (hr : d.rows.length * (rightRows.length + 1) < rounds) :
    Pull.Yields (next rounds test left) ⟨sl, sr, rightRows, none, 0, false⟩
      ((d.flatMap fun l => .ok (rightRows.map (l ++ ·))).filter test) := by
  cases h with
  | fault h => exact .fault (by rw [next, advanceLeft, h]; rfl)
  | @done _ sl' h _ =>
    have hend : next rounds test left ⟨sl, sr, rightRows, none, 0, false⟩ =
        .ok (none, ⟨sl', sr, rightRows, none, 0, true⟩) := by rw [next, advanceLeft, h]; rfl
    refine .done hend ?_
    obtain ⟨r, rfl⟩ : ∃ r, rounds = r + 1 := ⟨rounds - 1, by omega⟩
    rfl
  | @row _ sl' l rows fault h hrest =>
    have hturns : Pull.Turns (turn test left) _ _ _ :=
      turns_probing (turns_left hrest sr rightRows l) (Nat.zero_le _)
    rw [List.length_cons, Nat.add_one_mul] at hr
    have hloop : Pull.Yields (Pull.loop outOfRounds (turn test left) rounds)
        (probing sl' sr rightRows l 0) (pairs test l rightRows rightRows ⟨rows, fault⟩) :=
      hturns.yields (by simp only [Nat.sub_zero]; omega)
    have hyields : Pull.Yields (next rounds test left) (probing sl' sr rightRows l 0)
        (pairs test l rightRows rightRows ⟨rows, fault⟩) :=
      hloop.congr (I := Started) (fun _ _ _ hst hstep => started_loop hst hstep)
        (fun st hst => next_eq_loop hst) (.inl rfl)
    have hstarted : Started (probing sl' sr rightRows l 0 : NestedLoopJoinState L R) := .inl rfl
    exact .of_eq (by rw [next_eq_loop hstarted, next, advanceLeft, h]; rfl) hyields

end NestedLoopJoinState

namespace HashJoinState

variable {L R : Type} {key : Row → Except String Literal} {left : Pull.Step String Row L}
  {lib : Containers}

/-- Every left row with its range, as it is looked up in the build table. -/
def matching (lib : Containers) (key : Row → Except String Literal)
    (build : List (String × Row)) (l : Row) : Except String (List Row) := do
  let v ← key l
  return (lib.equalRange build (literalToString v)).map (l ++ ·)

theorem turns_probing {n : Nat} {sl : L} {sr : R} {build : List (String × Row)} {l : Row}
    {d : Drain String Row}
    (hend : ∀ current, Pull.Turns (turn lib key left) n ⟨sl, sr, build, current, [], false⟩ d)
    (probe : List Row) :
    Pull.Turns (turn lib key left) n ⟨sl, sr, build, some l, probe, true⟩
      (d.prepend (probe.map (l ++ ·))) := by
  induction probe with
  | nil =>
    have hnil : Pull.Turns (turn lib key left) n ⟨sl, sr, build, some l, [], false⟩
        (d.prepend []) := hend (some l)
    exact .of_eq (by rfl) hnil
  | cons r probe ih => exact .row rfl ih

section

variable {sl sl' : L} {sr : R} {build : List (String × Row)} {current : Option Row} {probe : List Row}
  {l : Row} {e : String}

/-- When the range of the current row is at its end, a turn asks the left input. -/
theorem turn_left_error (h : left sl = .error e) :
    turn lib key left (⟨sl, sr, build, current, probe, false⟩ : HashJoinState L R) = .error e := by
  simp only [turn, advanceLeft, Bool.false_eq_true, if_false, h]
  rfl

theorem turn_left_none (h : left sl = .ok (none, sl')) :
    turn lib key left (⟨sl, sr, build, current, probe, false⟩ : HashJoinState L R) =
      .ok (.leave none ⟨sl', sr, build, current, probe, false⟩) := by
  simp only [turn, advanceLeft, Bool.false_eq_true, if_false, h]
  rfl

theorem turn_left_some (h : left sl = .ok (some l, sl')) :
    turn lib key left (⟨sl, sr, build, current, probe, false⟩ : HashJoinState L R) =
      (key l).map fun v => .again
        ⟨sl', sr, build, some l, lib.equalRange build (literalToString v), true⟩ := by
  simp only [turn, advanceLeft, Bool.false_eq_true, if_false, h]
  show (key l).bind _ = _
  cases key l <;> rfl

end

/-- A step looks for the next left row, when the range of the current row is at its end. -/
theorem turns_left {sl : L} {d : Drain String Row} (h : Pull.Yields left sl d) (sr : R)
    (build : List (String × Row)) (current : Option Row) (probe : List Row) :
    Pull.Turns (turn lib key left) d.rows.length ⟨sl, sr, build, current, probe, false⟩
      (d.flatMap (matching lib key build)) := by
  induction h generalizing current probe with
  | fault h => exact .fault (turn_left_error h)
  | done h hstay => exact .done (turn_left_none h) (turn_left_none hstay)
  | @row sl sl' l rows fault h _ ih =>
    rw [Drain.flatMap_cons, matching]
    cases hk : key l with
    | error e => exact .fault (by rw [turn_left_some h, hk]; rfl)
    | ok v =>
      have hrange := turns_probing (l := l) (fun current => ih current [])
        (lib.equalRange build (literalToString v))
      exact .again (by rw [turn_left_some h, hk]; rfl) hrange

end HashJoinState

end SqlOptimizer
