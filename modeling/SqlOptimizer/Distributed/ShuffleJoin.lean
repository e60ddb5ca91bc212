import SqlOptimizer.Distributed.Relations
import SqlOptimizer.Execution.OuterJoin

/-! The shuffle join of two relations against the join on the whole database. -/

namespace SqlOptimizer

section

variable [Rounding] {R : Type}

/-! ### The exchange -/

/-- The worker that a row is sent to. -/
def target (n keyIdx : Nat) (row : Row) : Nat := hashPartitionOf (row.getD keyIdx .null) n

omit [Rounding] in
theorem target_lt {n : Nat} (hn : 0 < n) (keyIdx : Nat) (row : Row) : target n keyIdx row < n := by
  rw [target, hashPartitionOf, if_neg (by omega)]
  exact Nat.mod_lt _ hn

omit [Rounding] in
theorem targetRows_eq_ok {n keyIdx : Nat} {rows : List Row} {out : List (Nat × Row)} :
    targetRows n keyIdx rows = .ok out ↔
      (∀ row ∈ rows, keyIdx < row.length) ∧
        out = rows.map fun row => (target n keyIdx row, row) := by
  have hstep : ∀ row : Row, keyIdx < row.length →
      (do return (hashPartitionOf (← rowAt row keyIdx) n, row) : Except String (Nat × Row)) =
        .ok (target n keyIdx row, row) := by
    intro row h
    have hat : rowAt row keyIdx = .ok row[keyIdx] :=
      rowAt_eq_ok.mpr (List.getElem?_eq_getElem h)
    simp [hat, target, List.getD_eq_getElem?_getD, List.getElem?_eq_getElem h]
  constructor
  · intro h
    have hall : ∀ row ∈ rows, keyIdx < row.length := by
      intro row hrow
      obtain ⟨_, hb⟩ := Except.ok_of_mapM_eq_ok h hrow
      obtain ⟨v, hv, -⟩ := Except.bind_eq_ok.mp hb
      exact (List.getElem?_eq_some_iff.mp (rowAt_eq_ok.mp hv)).1
    refine ⟨hall, ?_⟩
    rw [targetRows, Except.mapM_eq_ok_map fun row hrow => hstep row (hall row hrow)] at h
    exact (Except.ok.inj h).symm
  · rintro ⟨hall, rfl⟩
    exact Except.mapM_eq_ok_map fun row hrow => hstep row (hall row hrow)

omit [Rounding] in
theorem sentTo_map_target (n keyIdx i : Nat) (rows : List Row) :
    sentTo i (rows.map fun row => (target n keyIdx row, row)) =
      Parts.part (target n keyIdx) i rows := by
  simp [sentTo, Parts.part, List.filter_map, Function.comp_def]

/-! ### The join of the workers -/

variable [CostNum R]

theorem executePlan_shuffledJoin_eq_ok {join : JoinNode R} {db : Database}
    {sets : ExternalRowSets} {ls rs : RowSchema} {l r : List Row} {out : ExecutionResult}
    (hl : sets.lookup 0 = some l) (hr : sets.lookup 1 = some r)
    (hlw : ∀ a ∈ l, a.length = ls.size) (hrw : ∀ b ∈ r, b.length = rs.size) :
    executePlan (shuffledJoin join ls.qualifiedNames rs.qualifiedNames) db sets = .ok out ↔
      joinAccepts join.kind join.condition (reread ls) (reread rs) ∧
        (∀ a ∈ l, ∀ b ∈ r,
          ∃ v, joinMatch join.kind join.condition (reread ls) (reread rs) a b = .ok v) ∧
        out = ⟨((reread ls).extend (reread rs)).qualifiedNames,
          joined join.kind join.condition (reread ls) (reread rs) l r⟩ := by
  rw [shuffledJoin, JoinNode.plan, executePlan_join_eq_ok
    (buildExecutor_makeExternalRows hl 0) (buildExecutor_makeExternalRows hr 0)
    (wide_externalRows hlw) (wide_externalRows hrw)]
  refine and_congr_right fun _ => ?_
  constructor
  · rintro ⟨_, _, ⟨rfl⟩, ⟨rfl⟩, hall, hout⟩
    exact ⟨hall, hout⟩
  · rintro ⟨hall, hout⟩
    exact ⟨l, r, rfl, rfl, hall, hout⟩

section Collect

variable {join : JoinNode R} {u : UnwrapResult R} {full : Database} {schemaCatalog : Catalog}
  {n : Nat} {ls rs : RowSchema} {rowsL rowsR : Nat → List Row} {rows : List Row}

/-- What the exchange needs: each worker has its rows of both sides. -/
structure Supplies (join : JoinNode R) (full : Database) (schemaCatalog : Catalog) (n : Nat)
    (ls rs : RowSchema) (rowsL rowsR : Nat → List Row) : Prop where
  left : ∀ i, executeOnPartition full schemaCatalog n i join.left ∅ =
    .ok ⟨ls.qualifiedNames, rowsL i⟩
  right : ∀ i, executeOnPartition full schemaCatalog n i join.right ∅ =
    .ok ⟨rs.qualifiedNames, rowsR i⟩
  leftWidth : ∀ i, ∀ a ∈ rowsL i, a.length = ls.size
  rightWidth : ∀ i, ∀ b ∈ rowsR i, b.length = rs.size

/-- The rows of one side from all the workers. -/
def supplied (n : Nat) (rowsOf : Nat → List Row) : List Row := (List.range n).flatMap rowsOf

/-- What worker `i` contributes to the exchange. -/
def suppliedExchange (n : Nat) (ls rs : RowSchema) (rowsL rowsR : Nat → List Row)
    (keyIdx : Nat × Nat) (i : Nat) : Exchange where
  leftColumns := ls.qualifiedNames
  rightColumns := rs.qualifiedNames
  left := (rowsL i).map fun a => (target n keyIdx.1 a, a)
  right := (rowsR i).map fun b => (target n keyIdx.2 b, b)

omit [CostNum R] in
theorem exchanges_eq_ok (hs : Supplies join full schemaCatalog n ls rs rowsL rowsR)
    {keyIdx : Nat × Nat} {exchanges : List Exchange} :
    (List.range n).mapM (exchangeFrom (executeOnPartition full schemaCatalog n) n join.left
        join.right keyIdx) = .ok exchanges ↔
      (∀ a ∈ supplied n rowsL, keyIdx.1 < a.length) ∧
      (∀ b ∈ supplied n rowsR, keyIdx.2 < b.length) ∧
      exchanges = (List.range n).map (suppliedExchange n ls rs rowsL rowsR keyIdx) := by
  have hone : ∀ i x, exchangeFrom (executeOnPartition full schemaCatalog n) n join.left join.right
      keyIdx i = .ok x ↔ (∀ a ∈ rowsL i, keyIdx.1 < a.length) ∧
        (∀ b ∈ rowsR i, keyIdx.2 < b.length) ∧
        x = suppliedExchange n ls rs rowsL rowsR keyIdx i := by
    intro i x
    simp only [exchangeFrom, hs.left i, hs.right i, Except.ok_bind, Except.bind_eq_ok,
      targetRows_eq_ok, Except.pure_eq_ok, Except.ok.injEq]
    constructor
    · rintro ⟨_, ⟨h1, rfl⟩, _, ⟨h2, rfl⟩, rfl⟩
      exact ⟨h1, h2, rfl⟩
    · rintro ⟨h1, h2, rfl⟩
      exact ⟨_, ⟨h1, rfl⟩, _, ⟨h2, rfl⟩, rfl⟩
  simp only [supplied, List.mem_flatMap, forall_exists_index, and_imp]
  constructor
  · intro h
    have hall := fun i hi => Except.ok_of_mapM_eq_ok h (a := i) hi
    refine ⟨fun a i hi ha => ?_, fun b i hi hb => ?_, ?_⟩
    · obtain ⟨x, hx⟩ := hall i hi
      exact ((hone i x).mp hx).1 a ha
    · obtain ⟨x, hx⟩ := hall i hi
      exact ((hone i x).mp hx).2.1 b hb
    · rw [Except.mapM_eq_ok_map fun i hi => ?_] at h
      · exact (Except.ok.inj h).symm
      · obtain ⟨x, hx⟩ := hall i hi
        exact (hone i _).mpr ⟨((hone i x).mp hx).1, ((hone i x).mp hx).2.1, rfl⟩
  · rintro ⟨h1, h2, rfl⟩
    refine Except.mapM_eq_ok_map fun i hi => (hone i _).mpr ⟨?_, ?_, rfl⟩
    · exact fun a ha => h1 a i hi ha
    · exact fun b hb => h2 b i hi hb

omit [Rounding] in
/-- Each worker is sent the rows whose key has its number. -/
theorem shuffledSets_lookup (n : Nat) (ls rs : RowSchema) (rowsL rowsR : Nat → List Row)
    (keyIdx : Nat × Nat) (i : Nat) :
    let sets := shuffledSets ((List.range n).map (suppliedExchange n ls rs rowsL rowsR keyIdx)) i
    sets.lookup 0 = some (Parts.part (target n keyIdx.1) i (supplied n rowsL)) ∧
      sets.lookup 1 = some (Parts.part (target n keyIdx.2) i (supplied n rowsR)) := by
  have hpart : ∀ (idx : Nat) (rowsOf : Nat → List Row),
      sentTo i ((List.range n).flatMap fun i => (rowsOf i).map fun a => (target n idx a, a)) =
        Parts.part (target n idx) i (supplied n rowsOf) := by
    intro idx rowsOf
    rw [← sentTo_map_target, supplied, List.map_flatMap]
  simp only [shuffledSets, List.flatMap_map, suppliedExchange, hpart]
  constructor
  · rw [AList.lookup_insert_ne (by decide)]
    rfl
  · exact AList.lookup_insert _

/-- What the workers return for the rows `l` and `r` of the two sides. -/
def workerResponses (join : JoinNode R) (n : Nat) (keyIdx : Nat × Nat) (ls rs : RowSchema)
    (l r : List Row) : List ExecutionResult :=
  (List.range n).map fun i =>
    ⟨((reread ls).extend (reread rs)).qualifiedNames,
      joined join.kind join.condition (reread ls) (reread rs)
        (Parts.part (target n keyIdx.1) i l) (Parts.part (target n keyIdx.2) i r)⟩

/-- The workers succeed exactly when they accept the condition and decide every pair of rows that
meet. -/
theorem workers_eq_ok (hs : Supplies join full schemaCatalog n ls rs rowsL rowsR) (hn : 0 < n)
    {keyIdx : Nat × Nat} {responses : List ExecutionResult} :
    (List.range n).mapM (fun i => executeOnPartition full schemaCatalog n i
        (shuffledJoin join ls.qualifiedNames rs.qualifiedNames)
        (shuffledSets ((List.range n).map (suppliedExchange n ls rs rowsL rowsR keyIdx)) i)) =
          .ok responses ↔
      joinAccepts join.kind join.condition (reread ls) (reread rs) ∧
      (∀ a ∈ supplied n rowsL, ∀ b ∈ supplied n rowsR, target n keyIdx.1 a = target n keyIdx.2 b →
        ∃ v, joinMatch join.kind join.condition (reread ls) (reread rs) a b = .ok v) ∧
      responses = workerResponses join n keyIdx ls rs (supplied n rowsL) (supplied n rowsR) := by
  have hwidth : ∀ {rowsOf : Nat → List Row} {s : RowSchema} {kl : Row → Nat} {i : Nat},
      (∀ i, ∀ a ∈ rowsOf i, a.length = s.size) →
      ∀ a ∈ Parts.part kl i (supplied n rowsOf), a.length = s.size := by
    intro rowsOf s kl i h a ha
    obtain ⟨j, -, hj⟩ := List.mem_flatMap.mp (Parts.mem_part.mp ha).1
    exact h j a hj
  have hone : ∀ i out, executeOnPartition full schemaCatalog n i
      (shuffledJoin join ls.qualifiedNames rs.qualifiedNames)
      (shuffledSets ((List.range n).map (suppliedExchange n ls rs rowsL rowsR keyIdx)) i) =
        .ok out ↔ _ := fun i out =>
    executePlan_shuffledJoin_eq_ok (shuffledSets_lookup n ls rs rowsL rowsR keyIdx i).1
      (shuffledSets_lookup n ls rs rowsL rowsR keyIdx i).2 (hwidth hs.leftWidth)
      (hwidth hs.rightWidth)
  constructor
  · intro h
    have hall := fun i hi => Except.ok_of_mapM_eq_ok h (a := i) hi
    have hrange : ∀ a, target n keyIdx.1 a ∈ List.range n := fun a =>
      List.mem_range.mpr (target_lt hn _ _)
    refine ⟨?_, fun a ha b hb hab => ?_, ?_⟩
    · obtain ⟨out, hout⟩ := hall 0 (List.mem_range.mpr hn)
      exact ((hone 0 out).mp hout).1
    · obtain ⟨out, hout⟩ := hall _ (hrange a)
      exact ((hone _ out).mp hout).2.1 a (Parts.mem_part.mpr ⟨ha, rfl⟩) b
        (Parts.mem_part.mpr ⟨hb, hab.symm⟩)
    · rw [Except.mapM_eq_ok_map fun i hi => ?_] at h
      · exact (Except.ok.inj h).symm
      · obtain ⟨out, hout⟩ := hall i hi
        exact (hone i _).mpr ⟨((hone i out).mp hout).1, ((hone i out).mp hout).2.1, rfl⟩
  · rintro ⟨haccepts, hpairs, rfl⟩
    refine Except.mapM_eq_ok_map fun i _ => (hone i _).mpr ⟨haccepts, fun a ha b hb => ?_, rfl⟩
    obtain ⟨ha, hai⟩ := Parts.mem_part.mp ha
    obtain ⟨hb, hbi⟩ := Parts.mem_part.mp hb
    exact hpairs a ha b hb (hai.trans hbi.symm)

/-- A shuffle join without an aggregate succeeds exactly when its keys resolve in the catalog, every
row has a value at the index of its key, and the workers succeed. -/
theorem collectShuffle_eq_ok (hs : Supplies join full schemaCatalog n ls rs rowsL rowsR)
    (hn : 0 < n) (hu : u.aggregate = none) :
    (∃ res, collectShuffle (executeOnPartition full schemaCatalog n) n join u schemaCatalog =
        .ok (res, false) ∧ res.rows = rows) ↔
      ∃ keys keyIdx, resolveJoinKeys join.condition join.left join.right schemaCatalog = .ok keys ∧
        shuffleKeyIndices keys join.left join.right schemaCatalog = .ok keyIdx ∧
        (∀ a ∈ supplied n rowsL, keyIdx.1 < a.length) ∧
        (∀ b ∈ supplied n rowsR, keyIdx.2 < b.length) ∧
        joinAccepts join.kind join.condition (reread ls) (reread rs) ∧
        (∀ a ∈ supplied n rowsL, ∀ b ∈ supplied n rowsR,
          target n keyIdx.1 a = target n keyIdx.2 b →
            ∃ v, joinMatch join.kind join.condition (reread ls) (reread rs) a b = .ok v) ∧
        rows = (workerResponses join n keyIdx ls rs (supplied n rowsL)
          (supplied n rowsR)).flatMap (·.rows) := by
  obtain ⟨m, rfl⟩ : ∃ m, n = m + 1 := ⟨n - 1, by omega⟩
  -- the last worker, like every one, names the columns of the two sides
  have hlast : ∀ keyIdx, (((List.range (m + 1)).map
      (suppliedExchange (m + 1) ls rs rowsL rowsR keyIdx)).getLast?.map fun x =>
        (x.leftColumns, x.rightColumns)).getD ([], []) =
          (ls.qualifiedNames, rs.qualifiedNames) := by
    intro keyIdx
    simp [List.range_succ, suppliedExchange]
  simp only [collectShuffle, hu, Except.bind_eq_ok, exchanges_eq_ok hs, Except.pure_eq_ok,
    mergeResponses, Except.ok.injEq, Prod.mk.injEq, and_true]
  constructor
  · rintro ⟨res, ⟨keys, hkeys, keyIdx, hidx, _, ⟨h1, h2, rfl⟩, responses, hrun, _, rfl, rfl⟩, rfl⟩
    rw [hlast keyIdx, workers_eq_ok hs hn] at hrun
    obtain ⟨haccepts, hpairs, rfl⟩ := hrun
    exact ⟨keys, keyIdx, hkeys, hidx, h1, h2, haccepts, hpairs, rfl⟩
  · rintro ⟨keys, keyIdx, hkeys, hidx, h1, h2, haccepts, hpairs, rfl⟩
    refine ⟨_, ⟨keys, hkeys, keyIdx, hidx, _, ⟨h1, h2, rfl⟩,
      workerResponses join (m + 1) keyIdx ls rs (supplied (m + 1) rowsL) (supplied (m + 1) rowsR),
      ?_, _, rfl, rfl⟩, rfl⟩
    rw [hlast keyIdx]
    exact (workers_eq_ok hs hn).mpr ⟨haccepts, hpairs, rfl⟩

end Collect

/-! ### The shuffle join against the join -/

/-- The inputs on which the shuffle join is the join.  Its condition is an equality whose sides
resolve in the catalog's schemas; each row has a value at the catalog's index of its key; the
condition means the same over the column names that the workers read back; and two rows whose keys
at these indices are sent to different workers do not match. -/
def shuffleKept (join : JoinNode R) (schemaCatalog : Catalog) (n : Nat) (ls rs : RowSchema)
    (l r : List Row) : Prop :=
  ∃ keys keyIdx, resolveJoinKeys join.condition join.left join.right schemaCatalog = .ok keys ∧
    shuffleKeyIndices keys join.left join.right schemaCatalog = .ok keyIdx ∧
    (∀ a ∈ l, keyIdx.1 < a.length) ∧ (∀ b ∈ r, keyIdx.2 < b.length) ∧
    joinAccepts join.kind join.condition (reread ls) (reread rs) ∧
    ∀ a ∈ l, ∀ b ∈ r,
      if target n keyIdx.1 a = target n keyIdx.2 b then
        joinMatch join.kind join.condition (reread ls) (reread rs) a b =
          joinMatch join.kind join.condition ls rs a b
      else joinMatch join.kind join.condition ls rs a b = .ok false

omit [CostNum R] in
/-- Rows from the workers, in whatever order, against the join: the same bag exactly when the pairs
that meet are decided alike and the others do not match. -/
theorem workerResponses_perm_iff {join : JoinNode R} {n : Nat} {keyIdx : Nat × Nat}
    {ls rs : RowSchema} {l r l' r' : List Row} (hn : 0 < n) (hl : l'.Perm l) (hr : r'.Perm r)
    (hlw : ∀ a ∈ l, a.length = ls.size)
    (hall : ∀ a ∈ l, ∀ b ∈ r, ∃ v, joinMatch join.kind join.condition ls rs a b = .ok v) :
    ((∀ a ∈ l', ∀ b ∈ r', target n keyIdx.1 a = target n keyIdx.2 b →
        ∃ v, joinMatch join.kind join.condition (reread ls) (reread rs) a b = .ok v) ∧
      ((workerResponses join n keyIdx ls rs l' r').flatMap (·.rows)).Perm
        (joined join.kind join.condition ls rs l r)) ↔
      ∀ a ∈ l, ∀ b ∈ r,
        if target n keyIdx.1 a = target n keyIdx.2 b then
          joinMatch join.kind join.condition (reread ls) (reread rs) a b =
            joinMatch join.kind join.condition ls rs a b
        else joinMatch join.kind join.condition ls rs a b = .ok false := by
  have hshuffled : ((workerResponses join n keyIdx ls rs l' r').flatMap (·.rows)).Perm
      (Pairs.joinBy (· ++ ·) (fun a b => target n keyIdx.1 a == target n keyIdx.2 b &&
        (joinMatch join.kind join.condition (reread ls) (reread rs) a b).toOption.getD false)
        l r) := by
    rw [workerResponses, List.flatMap_map]
    exact (Parts.flatMap_joinBy_part_perm fun a _ => target_lt hn _ _).trans
      ((Pairs.joinBy_perm_left _ _ _ hl).trans (Pairs.joinBy_perm_right _ _ _ hr))
  rw [hshuffled.congr_left, joined, Pairs.joinBy_perm_iff (Pairs.separates_append hlw)]
  simp only [hl.mem_iff, hr.mem_iff]
  rw [← forall₂_and]
  refine forall₂_congr fun a ha => ?_
  rw [← forall₂_and]
  refine forall₂_congr fun b hb => ?_
  obtain ⟨v, hv⟩ := hall a ha b hb
  by_cases ht : target n keyIdx.1 a = target n keyIdx.2 b
  · simp only [ht, if_true, forall_const, beq_self_eq_true, Bool.true_and, hv]
    cases joinMatch join.kind join.condition (reread ls) (reread rs) a b <;>
      simp [Except.toOption]
  · have hbeq : (target n keyIdx.1 a == target n keyIdx.2 b) = false := beq_eq_false_iff_ne.mpr ht
    simp only [ht, if_false, hbeq, hv, Bool.false_and, false_imp_iff, true_and, Except.ok.injEq]
    exact eq_comm

omit [Rounding] [CostNum R] in
/-- Keys that resolve in the catalog name tables of the catalog. -/
theorem mem_catalog_of_resolveJoinKeys {condition : Expression} {left right : PhysicalPlan R}
    {schemaCatalog : Catalog} {keys : Expression × Expression}
    (h : resolveJoinKeys condition left right schemaCatalog = .ok keys) :
    (unwrapFilter left).tableName ∈ schemaCatalog ∧
      (unwrapFilter right).tableName ∈ schemaCatalog := by
  have hmem : ∀ {e : Expression} {p : PhysicalPlan R},
      isColumnOf e (schemaForRelation p schemaCatalog) = true →
        (unwrapFilter p).tableName ∈ schemaCatalog := by
    intro e p he
    obtain ⟨t, c, i, -, hi⟩ := isColumnOf_iff.mp he
    by_contra hnot
    have hnone : schemaCatalog.get (unwrapFilter p).tableName = none :=
      AList.lookup_eq_none.mpr hnot
    rw [schemaForRelation, hnone] at hi
    exact absurd (RowSchema.resolve_lt hi) (Nat.not_lt_zero i)
  unfold resolveJoinKeys at h
  split at h
  case h_2 => cases h
  case h_1 a b =>
    dsimp only at h
    split at h
    case isTrue hab =>
      obtain ⟨ha, hb⟩ := Bool.and_eq_true_iff.mp hab
      exact ⟨hmem ha, hmem hb⟩
    case isFalse =>
      split at h
      case isTrue hba =>
        obtain ⟨hb, ha⟩ := Bool.and_eq_true_iff.mp hba
        exact ⟨hmem hb, hmem ha⟩
      case isFalse => cases h

/-- The shuffle join of two relations whose rows are each on one worker.  Where the join on the
whole database succeeds, the shuffle join succeeds with the same rows exactly on the inputs of
`shuffleKept`. -/
theorem collectShuffle_perm_iff {join : JoinNode R} {u : UnwrapResult R} {full : Database}
    {schemaCatalog : Catalog} {n : Nat} {ann : Annotation R} {left right : Table}
    {l r out : ExecutionResult} (hleft : isSingleRelation join.left = true)
    (hright : isSingleRelation join.right = true) (hn : 0 < n) (hu : u.aggregate = none)
    (htl : full.get (unwrapFilter join.left).tableName = some left)
    (htr : full.get (unwrapFilter join.right).tableName = some right)
    (hol : OwnedOnce left n) (hor : OwnedOnce right n)
    (hl : executePlan join.left full ∅ = .ok l) (hr : executePlan join.right full ∅ = .ok r)
    (hout : executePlan (.join ann join.kind join.joinType join.condition join.left join.right)
      full ∅ = .ok out) :
    (∃ res, collectShuffle (executeOnPartition full schemaCatalog n) n join u schemaCatalog =
        .ok (res, false) ∧ res.rows.Perm out.rows) ↔
      shuffleKept join schemaCatalog n (relationSchema join.left left.columnNames)
        (relationSchema join.right right.columnNames) l.rows r.rows := by
  obtain ⟨le, hle, hls, hlrun⟩ := exists_relation_executor hleft htl ∅
  obtain ⟨re, hre, hrs, hrrun⟩ := exists_relation_executor hright htr ∅
  have hwide : ∀ {p : PhysicalPlan R} {table : Table} {e : Executor},
      e.schema = relationSchema p table.columnNames → (∀ rows, e.run = .ok rows ↔
        Keeps (relationSchema p table.columnNames) p table.rows rows) → e.Wide := by
    intro p table e hs hrun rows hrows row hrow
    rw [hs, size_relationSchema]
    exact ((hrun rows).mp hrows).length hrow
  have hkeeps : ∀ {p : PhysicalPlan R} {table : Table} {e : Executor} {res : ExecutionResult},
      buildExecutor p full ∅ = .ok e → (∀ rows, e.run = .ok rows ↔
        Keeps (relationSchema p table.columnNames) p table.rows rows) →
      executePlan p full ∅ = .ok res →
        e.run = .ok res.rows ∧ Keeps (relationSchema p table.columnNames) p table.rows res.rows := by
    intro p table e res he hrun hres
    obtain ⟨e', he', hrows, -⟩ := executePlan_eq_ok.mp hres
    rw [he] at he'
    cases he'
    exact ⟨hrows, (hrun _).mp hrows⟩
  obtain ⟨hlrows, hlkeeps⟩ := hkeeps hle hlrun hl
  obtain ⟨hrrows, hrkeeps⟩ := hkeeps hre hrrun hr
  obtain ⟨-, l', r', hl', hr', hall, rfl⟩ :=
    (executePlan_join_eq_ok hle hre (hwide hls hlrun) (hwide hrs hrrun)).mp hout
  cases hlrows.symm.trans hl'
  cases hrrows.symm.trans hr'
  rw [hls, hrs] at hall ⊢
  by_cases hk : ∃ keys, resolveJoinKeys join.condition join.left join.right schemaCatalog = .ok keys
  case neg =>
    refine iff_of_false ?_ fun ⟨keys, _, hkeys, _⟩ => hk ⟨keys, hkeys⟩
    rintro ⟨res, hres, -⟩
    obtain ⟨keys, hkeys, -⟩ := Except.bind_eq_ok.mp hres
    exact hk ⟨keys, hkeys⟩
  case pos =>
    obtain ⟨keys, hkeys⟩ := hk
    obtain ⟨hnl, hnr⟩ := mem_catalog_of_resolveJoinKeys hkeys
    obtain ⟨rowsL, hrowsL, hsubL, hpermL⟩ := exists_rows_on_partitions hleft hnl htl hol hlkeeps
    obtain ⟨rowsR, hrowsR, hsubR, hpermR⟩ := exists_rows_on_partitions hright hnr htr hor hrkeeps
    have hlw : ∀ a ∈ l.rows, a.length = (relationSchema join.left left.columnNames).size := by
      intro a ha
      rw [size_relationSchema]
      exact hlkeeps.length ha
    have hrw : ∀ b ∈ r.rows, b.length = (relationSchema join.right right.columnNames).size := by
      intro b hb
      rw [size_relationSchema]
      exact hrkeeps.length hb
    have hs : Supplies join full schemaCatalog n (relationSchema join.left left.columnNames)
        (relationSchema join.right right.columnNames) rowsL rowsR :=
      ⟨hrowsL, hrowsR, fun i a ha => hlw a (hsubL i ha), fun i b hb => hrw b (hsubR i hb)⟩
    have hmemL : ∀ a, a ∈ supplied n rowsL ↔ a ∈ l.rows := fun a => hpermL.mem_iff
    have hmemR : ∀ b, b ∈ supplied n rowsR ↔ b ∈ r.rows := fun b => hpermR.mem_iff
    constructor
    · rintro ⟨res, hres, hperm⟩
      obtain ⟨keys, keyIdx, hkeys, hidx, h1, h2, haccepts, hpairs, hrows⟩ :=
        (collectShuffle_eq_ok hs hn hu).mp ⟨res, hres, rfl⟩
      rw [hrows] at hperm
      refine ⟨keys, keyIdx, hkeys, hidx, fun a ha => h1 a ((hmemL a).mpr ha),
        fun b hb => h2 b ((hmemR b).mpr hb), haccepts, ?_⟩
      exact (workerResponses_perm_iff hn hpermL hpermR hlw hall).mp ⟨hpairs, hperm⟩
    · rintro ⟨keys, keyIdx, hkeys, hidx, h1, h2, haccepts, hpairs⟩
      obtain ⟨hdecided, hperm⟩ :=
        (workerResponses_perm_iff hn hpermL hpermR hlw hall).mpr hpairs
      obtain ⟨res, hres, hrows⟩ := (collectShuffle_eq_ok hs hn hu).mpr ⟨keys, keyIdx, hkeys, hidx,
        fun a ha => h1 a ((hmemL a).mp ha), fun b hb => h2 b ((hmemR b).mp hb), haccepts,
        hdecided, rfl⟩
      exact ⟨res, hres, hrows ▸ hperm⟩

end

/-! ### Two tables of ids and keys -/

/-- A table with two integer columns. -/
def integerTable (c c' : String) (rows : List (Int64 × Int64)) : Table where
  columnNames := [c, c']
  rows := rows.map fun p => [.integer p.1, .integer p.2]
  width := by
    intro row h
    obtain ⟨p, -, rfl⟩ := List.mem_map.mp h
    rfl

/-- The tables `a` and `b` with the columns `id` and `k`. -/
def idKeyCatalog : Catalog :=
  let schema : TableSchema :=
    { columns := [⟨"id", .int, false⟩, ⟨"k", .int, false⟩]
      stats := ⟨0, 0⟩
      indexedColumns := [] }
  AList.insert "b" schema (AList.insert "a" schema ∅)

/-- `b` has the row `(id = 3, k = 1)`. -/
def idKeyDatabase (a : Table) : Database :=
  AList.insert "b" (integerTable "id" "k" [(3, 1)]) (AList.insert "a" a ∅)

def idKeyJoin (kind : JoinKind) : JoinNode ℚ where
  kind := kind
  joinType := .inner
  condition := keyedCondition
  left := .seqScan noEstimates "a" none []
  right := .seqScan noEstimates "b" none []

/-- A query that is only the join. -/
def plainQuery (join : JoinNode ℚ) : UnwrapResult ℚ :=
  ⟨[], none, none, .join noEstimates join.kind join.joinType join.condition join.left join.right⟩

section

attribute [local instance] Rounding.exact

local instance : CostNum ℚ := CostNum.rational id

/-- Both tables in the order of the catalog. -/
theorem collectShuffle_perm_same_order :
    ∃ out res,
      executePlan (plainQuery (idKeyJoin .hashJoin)).core
        (idKeyDatabase (integerTable "id" "k" [(2, 1)])) ∅ = .ok out ∧
      collectShuffle (executeOnPartition (idKeyDatabase (integerTable "id" "k" [(2, 1)]))
        idKeyCatalog 2) 2 (idKeyJoin .hashJoin) (plainQuery (idKeyJoin .hashJoin)) idKeyCatalog =
          .ok (res, false) ∧ res.rows.Perm out.rows := by
  obtain ⟨out, hout⟩ : ∃ out, executePlan (plainQuery (idKeyJoin .hashJoin)).core
      (idKeyDatabase (integerTable "id" "k" [(2, 1)])) ∅ = .ok out := ⟨_, rfl⟩
  have ha : (idKeyDatabase (integerTable "id" "k" [(2, 1)])).get "a" =
    some (integerTable "id" "k" [(2, 1)]) := rfl
  have hb : (idKeyDatabase (integerTable "id" "k" [(2, 1)])).get "b" =
    some (integerTable "id" "k" [(3, 1)]) := rfl
  have hl : executePlan (idKeyJoin .hashJoin).left
      (idKeyDatabase (integerTable "id" "k" [(2, 1)])) ∅ =
    .ok ⟨["a.id", "a.k"], [[.integer 2, .integer 1]]⟩ := by decide
  have hr : executePlan (idKeyJoin .hashJoin).right
      (idKeyDatabase (integerTable "id" "k" [(2, 1)])) ∅ =
    .ok ⟨["b.id", "b.k"], [[.integer 3, .integer 1]]⟩ := by decide
  obtain ⟨res, hres, hperm⟩ : ∃ res, collectShuffle (executeOnPartition
      (idKeyDatabase (integerTable "id" "k" [(2, 1)])) idKeyCatalog 2) 2 (idKeyJoin .hashJoin)
        (plainQuery (idKeyJoin .hashJoin)) idKeyCatalog = .ok (res, false) ∧
          res.rows.Perm out.rows :=
    (collectShuffle_perm_iff rfl rfl (by decide) rfl ha hb (by decide) (by decide)
      hl hr hout).mpr ⟨(.column (some "a") "k", .column (some "b") "k"), (1, 1), rfl, rfl, by decide,
        by decide, by decide, by decide⟩
  exact ⟨out, res, hout, hres, hperm⟩

/-- `a` loaded with its columns in the other order: its row is sent by its id, and the pair is
lost.  The broadcast join has it. -/
theorem collectShuffle_loses_pair :
    executePlan (plainQuery (idKeyJoin .hashJoin)).core
        (idKeyDatabase (integerTable "k" "id" [(1, 2)])) ∅ =
      .ok ⟨["a.k", "a.id", "b.id", "b.k"], [[.integer 1, .integer 2, .integer 3, .integer 1]]⟩ ∧
    OwnedOnce (integerTable "k" "id" [(1, 2)]) 2 ∧ OwnedOnce (integerTable "id" "k" [(3, 1)]) 2 ∧
    collectShuffle (executeOnPartition (idKeyDatabase (integerTable "k" "id" [(1, 2)]))
        idKeyCatalog 2) 2 (idKeyJoin .hashJoin) (plainQuery (idKeyJoin .hashJoin)) idKeyCatalog =
      .ok (⟨["a.k", "a.id", "b.id", "b.k"], []⟩, false) ∧
    collectBroadcast (executeOnPartition (idKeyDatabase (integerTable "k" "id" [(1, 2)]))
        idKeyCatalog 2) 2 (idKeyJoin .hashJoin) true (plainQuery (idKeyJoin .hashJoin)) =
      .ok ⟨["a.k", "a.id", "b.id", "b.k"], [[.integer 1, .integer 2, .integer 3, .integer 1]]⟩ ∧
    ¬ ([] : List Row).Perm [[.integer 1, .integer 2, .integer 3, .integer 1]] := by
  refine ⟨by decide, by decide, by decide, by decide,
    by decide, by decide⟩

end

end SqlOptimizer
