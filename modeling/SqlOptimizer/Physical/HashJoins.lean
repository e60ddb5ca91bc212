import SqlOptimizer.Execution.Builder
import SqlOptimizer.Execution.JoinAgreement
import SqlOptimizer.Optimizer.JoinSearchRows
import SqlOptimizer.Physical.Planner

/-! The hash joins of the planner against the test of the `HashJoinExec` constructor. -/

namespace SqlOptimizer

variable {R : Type}

/-! ### Hash joins are on equalities -/

namespace PhysicalPlan

/-- Every hash join of a plan is on an equality. -/
def equiHashed : PhysicalPlan R → Bool
  | .join _ kind _ condition left right =>
    (kind != .hashJoin || isEquality condition) && left.equiHashed && right.equiHashed
  | .filter _ _ input | .hashAggregate _ _ _ input | .project _ _ input | .sort _ _ input
  | .limit _ _ input => input.equiHashed
  | _ => true

end PhysicalPlan

section Search

variable [CostNum R] {catalog : Catalog} {stats : StatisticsCatalog R} {g : JoinGraph}

theorem equiHashed_bestAccessPath (rel : Relation) :
    (bestAccessPath catalog stats rel).equiHashed = true :=
  bestAccessPath_forall (P := fun p => p.equiHashed = true) (fun _ _ _ _ => rfl)
    (fun _ _ _ _ _ => rfl) fun _ _ _ h => h

theorem equiHashed_findBestPlan {plan : PhysicalPlan R}
    (h : findBestPlan catalog stats g = .ok plan) : plan.equiHashed = true := by
  refine findBestPlan_forall (P := fun p => p.equiHashed = true) equiHashed_bestAccessPath ?_ h
  intro ann kind condition outer inner hann ho hi
  have htest : (kind != .hashJoin || isEquality condition) = true := by
    rw [Bool.or_eq_true, bne_iff_ne]
    exact or_iff_not_imp_left.mpr fun hkind => hann.equality (not_not.mp hkind)
  rw [PhysicalPlan.equiHashed, htest, ho, hi]
  rfl

end Search

/-! ### The test of the constructor -/

theorem hashJoinKeys_ok_iff {a b : Expression} {ls rs : RowSchema} :
    (∃ keys, hashJoinKeys (.binaryOp a .eq b) ls rs = .ok keys) ↔
      (isColumnOf a ls = true ∧ isColumnOf b rs = true) ∨
        (isColumnOf a rs = true ∧ isColumnOf b ls = true) := by
  simp only [hashJoinKeys, ← Bool.and_eq_true]
  by_cases h : (isColumnOf a ls && isColumnOf b rs) = true
  · simp [h]
  · by_cases h' : (isColumnOf a rs && isColumnOf b ls) = true <;> simp [h, h']

/-- Whether a column resolves does not depend on the order of the entries. -/
theorem isColumnOf_perm {s s' : RowSchema} (h : s.entries.Perm s'.entries) (e : Expression) :
    isColumnOf e s = isColumnOf e s' := by
  cases e with
  | column t c =>
    cases t with
    | some t =>
      rw [Bool.eq_iff_iff]
      simp only [isColumnOf, RowSchema.resolve_some, List.findIdx?_isSome, List.any_eq_true,
        h.mem_iff]
    | none =>
      have hcount : ∀ s : RowSchema, isColumnOf (.column none c) s =
          decide (s.entries.countP (·.column == c) = 1) := by
        intro s
        rw [isColumnOf, RowSchema.resolve_none]
        split
        case isTrue h1 =>
          have hany : s.entries.any (·.column == c) = true := by
            have hpos : 0 < s.entries.countP (·.column == c) := by omega
            obtain ⟨e, he, hc⟩ := List.countP_pos_iff.mp hpos
            exact List.any_eq_true.mpr ⟨e, he, hc⟩
          simp [List.findIdx?_isSome, hany, h1]
        case isFalse h1 => simp [h1]
      rw [hcount, hcount, h.countP_eq]
  | _ => rfl

/-- An equality, either way round, of a column of the left side and a column of the right side. -/
theorem hashJoinKeys_ok_of {c x y : Expression} {ls rs : RowSchema}
    (hc : c = .binaryOp x .eq y ∨ c = .binaryOp y .eq x) (hx : isColumnOf x ls = true)
    (hy : isColumnOf y rs = true) : ∃ keys, hashJoinKeys c ls rs = .ok keys := by
  rcases hc with rfl | rfl
  · exact hashJoinKeys_ok_iff.mpr (.inl ⟨hx, hy⟩)
  · exact hashJoinKeys_ok_iff.mpr (.inr ⟨hy, hx⟩)

/-- Whether the constructor accepts does not depend on the order of the entries. -/
theorem hashJoinKeys_ok_perm {c : Expression} {ls ls' rs rs' : RowSchema}
    (hl : ls.entries.Perm ls'.entries) (hr : rs.entries.Perm rs'.entries)
    (h : ∃ keys, hashJoinKeys c ls rs = .ok keys) : ∃ keys, hashJoinKeys c ls' rs' = .ok keys := by
  obtain ⟨⟨lk, rk⟩, hk⟩ := h
  obtain ⟨hlk, hrk, hc⟩ := hashJoinKeys_eq_ok hk
  rw [isColumnOf_perm hl] at hlk
  rw [isColumnOf_perm hr] at hrk
  exact hashJoinKeys_ok_of hc hlk hrk

/-! ### The executors of the search -/

section Executors

variable {db : Database} {sets : ExternalRowSets}

/-- The executor of a plan can be built, and has these columns. -/
def Builds (plan : PhysicalPlan R) (db : Database) (sets : ExternalRowSets) (schema : RowSchema) :
    Prop :=
  ∃ e, buildExecutor plan db sets = .ok e ∧ e.schema = schema

theorem Builds.filter {ann : Annotation R} {p : Expression} {plan : PhysicalPlan R}
    {s : RowSchema} (h : Builds plan db sets s) : Builds (.filter ann p plan) db sets s := by
  obtain ⟨e, he, hs⟩ := h
  exact ⟨.filter p e, by simp [buildExecutor, he], hs⟩

variable [CostNum R] {catalog : Catalog} {stats : StatisticsCatalog R}

theorem Builds.addResidual {s : RowSchema} (ps : List Expression) {plan : PhysicalPlan R}
    (h : Builds plan db sets s) : Builds (ps.foldl addResidual plan) db sets s := by
  induction ps generalizing plan with
  | nil => exact h
  | cons p ps ih => exact ih h.filter

theorem builds_bestAccessPath {rel : Relation} {table : Table}
    (ht : db.get rel.tableName = some table) :
    Builds (bestAccessPath catalog stats rel) db sets (scanSchema rel.ident table.columnNames) := by
  have hload : loadedTable db rel.tableName = .ok table := by simp [loadedTable, ht]
  have hseq : ∀ ann : Annotation R, Builds (.seqScan ann rel.tableName rel.aliasName []) db sets
      (scanSchema rel.ident table.columnNames) := by
    intro ann
    exact ⟨_, by simp [buildExecutor, hload]; rfl, rfl⟩
  have hindex : ∀ (ann : Annotation R) c l, Builds (.indexScan ann rel.tableName rel.aliasName [] c l)
      db sets (scanSchema rel.ident table.columnNames) := by
    intro ann c l
    exact ⟨_, by simp [buildExecutor, hload]; rfl, rfl⟩
  exact bestAccessPath_forall
    (P := fun plan => Builds plan db sets (scanSchema rel.ident table.columnNames))
    (fun _ _ _ _ => hseq _) (fun _ _ _ _ _ => hindex _ _ _) fun _ _ _ h => h.filter

omit [CostNum R] in
theorem Builds.join {ann : Annotation R} {kind : JoinKind} {joinType : JoinType} {c : Expression}
    {l r : PhysicalPlan R} {ls rs : RowSchema} (hl : Builds l db sets ls) (hr : Builds r db sets rs)
    (hkeys : kind = .hashJoin → ∃ keys, hashJoinKeys c ls rs = .ok keys) :
    Builds (.join ann kind joinType c l r) db sets (ls.extend rs) := by
  obtain ⟨le, hle, rfl⟩ := hl
  obtain ⟨re, hre, rfl⟩ := hr
  cases kind with
  | hashJoin =>
    obtain ⟨keys, hk⟩ := hkeys rfl
    exact ⟨.hashJoin c keys.1 keys.2 le re, by simp [buildExecutor, hle, hre, hk], rfl⟩
  | nestedLoopJoin => exact ⟨.nestedLoopJoin c le re, by simp [buildExecutor, hle, hre], rfl⟩
  | indexNestedLoopJoin => exact ⟨.nestedLoopJoin c le re, by simp [buildExecutor, hle, hre], rfl⟩

/-- A qualified column of a block resolves in every layout that has the block. -/
theorem isColumnOf_layoutSchema {B : Blocks} {π : List Nat} {i : Nat} {t c : String}
    (hi : i ∈ π) (h : isColumnOf (.column (some t) c) (B.schemaOf i) = true) :
    isColumnOf (.column (some t) c) (B.layoutSchema π) = true := by
  simp only [isColumnOf, RowSchema.resolve_some, List.findIdx?_isSome, List.any_eq_true] at h ⊢
  obtain ⟨e, he, hc⟩ := h
  exact ⟨e, List.mem_flatMap.mpr ⟨i, hi, he⟩, hc⟩

/-- The edges of the same two relations. -/
def JoinEdge.SameEnds (edge edge' : JoinEdge) : Prop :=
  (edge.left = edge'.left ∧ edge.right = edge'.right) ∨
    (edge.left = edge'.right ∧ edge.right = edge'.left)

instance (edge edge' : JoinEdge) : Decidable (edge.SameEnds edge') :=
  inferInstanceAs (Decidable (_ ∨ _))

/-- The constructor accepts, on the two relations that it links, every link that is an equality and
that `find_connecting_edge` can return: the first one between its relations. -/
def linksAccepted (B : Blocks) (edges : List JoinEdge) : Prop :=
  ∀ (k : Nat) (edge : JoinEdge), edges[k]? = some edge →
    (∀ j < k, ∀ edge' : JoinEdge, edges[j]? = some edge' → ¬ edge'.SameEnds edge) →
    isEquality edge.predicate = true →
    ∃ keys, hashJoinKeys edge.predicate (B.schemaOf edge.left) (B.schemaOf edge.right) = .ok keys

/-- Then it accepts the link between a tree and a further relation, on either side. -/
theorem linksAccepted.between {B : Blocks} {edges : List JoinEdge} (h : linksAccepted B edges)
    (hcols : EdgeColumns B edges) {edge : JoinEdge} {π : List Nat} {r k : Nat}
    (hk : edges[k]? = some edge) (hl : edge.Links π r) (hf : FirstLink edges π r k)
    (heq : isEquality edge.predicate = true) :
    (∃ keys, hashJoinKeys edge.predicate (B.layoutSchema π) (B.schemaOf r) = .ok keys) ∧
      ∃ keys, hashJoinKeys edge.predicate (B.schemaOf r) (B.layoutSchema π) = .ok keys := by
  have hfirst : ∀ j < k, ∀ edge', edges[j]? = some edge' → ¬ edge'.SameEnds edge := by
    rintro j hj edge' he hsame
    refine hf j hj edge' he ?_
    rcases hsame with ⟨h1, h2⟩ | ⟨h1, h2⟩
    · exact hl.imp (by rw [h1, h2]; exact id) (by rw [h1, h2]; exact id)
    · exact hl.symm.imp (by rw [h1, h2]; exact id) (by rw [h1, h2]; exact id)
  have hedge := List.mem_of_getElem? hk
  obtain ⟨⟨lk, rk⟩, hkeys⟩ := h k edge hk hfirst heq
  obtain ⟨hlk, hrk, hc⟩ := hashJoinKeys_eq_ok hkeys
  have hlayout : ∀ {e : Expression} {i : Nat}, isColumnOf e (B.schemaOf i) = true →
      (∀ x ∈ e.columns, x ∈ edge.predicate.columns) → i ∈ π →
        isColumnOf e (B.layoutSchema π) = true := by
    intro e i he hsub hi
    obtain ⟨t, c, _, rfl, -⟩ := isColumnOf_iff.mp he
    have hmem := hsub (t, c) (by simp [Expression.columns])
    rcases hcols edge hedge t c hmem with rfl | rfl <;> exact isColumnOf_layoutSchema hi he
  have hsub : (∀ x ∈ lk.columns, x ∈ edge.predicate.columns) ∧
      ∀ x ∈ rk.columns, x ∈ edge.predicate.columns := by
    rcases hc with hc | hc <;> rw [hc] <;>
      exact ⟨fun x hx => by simp [Expression.columns, hx], fun x hx => by
        simp [Expression.columns, hx]⟩
  rcases hl with ⟨hπ, rfl⟩ | ⟨hπ, rfl⟩
  · have hk' := hlayout hlk hsub.1 hπ
    exact ⟨hashJoinKeys_ok_of hc hk' hrk, hashJoinKeys_ok_of hc.symm hrk hk'⟩
  · have hk' := hlayout hrk hsub.2 hπ
    exact ⟨hashJoinKeys_ok_of hc.symm hk' hlk, hashJoinKeys_ok_of hc hlk hk'⟩

omit [CostNum R] in
/-- The tree of a search can be built, with the blocks in its order. -/
theorem JoinedBy.builds {B : Blocks} {path : Nat → Option (PhysicalPlan R)}
    {edges : List JoinEdge} {π used : List Nat} {plan : PhysicalPlan R}
    (hj : JoinedBy path edges π used plan)
    (hpath : ∀ i p, path i = some p → Builds p db sets (B.schemaOf i))
    (hlinks : linksAccepted B edges) (hcols : EdgeColumns B edges)
    (heq : plan.equiHashed = true) : Builds plan db sets (B.layoutSchema π) := by
  have hextend : ∀ ls rs : List Nat, (B.layoutSchema ls).extend (B.layoutSchema rs) =
      B.layoutSchema (ls ++ rs) := fun ls rs => (Blocks.layoutSchema_append ls rs).symm
  induction hj with
  | leaf hp =>
    rw [Blocks.layoutSchema_singleton]
    exact hpath _ _ hp
  | @last π used p q r k edge ann kind hp hq hr hk hl hf ih =>
    simp only [PhysicalPlan.equiHashed, Bool.and_eq_true, Bool.or_eq_true, bne_iff_ne] at heq
    have hkeys : kind = .hashJoin → _ := fun hkind =>
      (hlinks.between hcols hk hl hf (heq.1.1.resolve_left (· hkind))).1
    have hq' := hpath _ _ hq
    rw [← hextend, Blocks.layoutSchema_singleton]
    exact (ih heq.1.2).join hq' hkeys
  | @first π used p q r k edge ann kind hp hq hr hk hl hf ih =>
    simp only [PhysicalPlan.equiHashed, Bool.and_eq_true, Bool.or_eq_true, bne_iff_ne] at heq
    have hkeys : kind = .hashJoin → _ := fun hkind =>
      (hlinks.between hcols hk hl hf (heq.1.1.resolve_left (· hkind))).2
    have hq' := hpath _ _ hq
    rw [← List.singleton_append, ← hextend, Blocks.layoutSchema_singleton]
    exact hq'.join (ih heq.2) hkeys

end Executors

/-! ### The plans of the planner -/

namespace LogicalPlan

/-- The columns of a logical plan over the loaded tables. -/
def loadedSchema (db : Database) : LogicalPlan → RowSchema
  | .scan tableName aliasName _ => scanSchema (scanIdent (tableName, aliasName))
    (scanTable db (tableName, aliasName)).columnNames
  | .filter _ input | .sort _ input | .limit _ input => input.loadedSchema db
  | .join _ _ left right => (left.loadedSchema db).extend (right.loadedSchema db)
  | .aggregate groupBy aggregates _ => aggregateSchema groupBy aggregates
  | .project expressions _ => projectSchema expressions

/-- The equalities that the planner may hash pass the test of the constructor: in a subtree that is
searched, which has at most as many scans as a mask has bits, the first link between two scans if it
is an equality, on these scans; elsewhere, each join condition that is an equality on the two
inputs. -/
def Hashable (db : Database) (node : LogicalPlan) : Prop :=
  if isJoinSearchCandidate node then
    node.scans.length ≤ 64 ∧ linksAccepted (node.blocks db) node.links
  else match node with
    | .scan _ _ _ => True
    | .filter _ input | .aggregate _ _ input | .project _ input | .sort _ input
    | .limit _ input => input.Hashable db
    | .join _ condition left right => left.Hashable db ∧ right.Hashable db ∧
        (isEquality condition = true → ∃ keys,
          hashJoinKeys condition (left.loadedSchema db) (right.loadedSchema db) = .ok keys)

/-- The columns of a subtree of scans, filters and joins are those of its scans. -/
theorem loadedSchema_of_collect {db : Database} {node : LogicalPlan} {out raw : RawExtraction}
    (h : collect node out = .ok raw) :
    (node.loadedSchema db).entries = node.scans.flatMap fun s =>
      (scanSchema (scanIdent s) (scanTable db s).columnNames).entries := by
  induction node generalizing out raw with
  | scan => simp [loadedSchema, scans]
  | filter predicate input ih => exact ih h
  | join joinType condition left right ihl ihr =>
    obtain ⟨mid, hl, hr⟩ := Except.bind_eq_ok.mp h
    simp only [loadedSchema, RowSchema.extend, scans, List.flatMap_append, ihl hl, ihr hr]
  | _ => cases h

end LogicalPlan

theorem layoutSchema_scanIds (node : LogicalPlan) (db : Database) :
    ((node.blocks db).layoutSchema node.scanIds).entries = node.scans.flatMap fun s =>
      (scanSchema (scanIdent s) (scanTable db s).columnNames).entries := by
  conv_rhs => rw [scans_eq_map, List.flatMap_map]
  rfl

section Planner

variable [CostNum R] {catalog : Catalog} {stats : StatisticsCatalog R} {db : Database}
  {sets : ExternalRowSets} {node : LogicalPlan} {plan : PhysicalPlan R}

theorem builds_planJoinSearch (hload : ∀ s ∈ node.scans, (db.get s.1).isSome = true)
    (hwidth : node.scans.length ≤ 64) (hlinks : linksAccepted (node.blocks db) node.links)
    (h : planJoinSearch catalog stats node = .ok plan) :
    ∃ schema, Builds plan db sets schema ∧
      schema.entries.Perm (node.loadedSchema db).entries := by
  obtain ⟨ex, hex, h⟩ := Except.bind_eq_ok.mp h
  obtain ⟨best, hbest, h⟩ := Except.bind_eq_ok.mp h
  cases h
  obtain ⟨raw, hraw, -⟩ := Except.bind_eq_ok.mp hex
  rw [buildJoinGraph_eq_ok hex] at hbest ⊢
  obtain ⟨π, used, hj, hperm⟩ := findBestPlan_joinedBy (joinGraph_fitsMask hwidth) hbest
  have hids : π.Perm node.scanIds := by
    simpa [LogicalPlan.scanIds, LogicalPlan.joinGraph, baseRelations] using hperm
  have hpath : ∀ i p, pathOf catalog stats node.joinGraph i = some p →
      Builds p db sets ((node.blocks db).schemaOf i) := by
    intro i p hp
    obtain ⟨rel, hrel, rfl⟩ := Option.map_eq_some_iff.mp hp
    obtain ⟨base, hbase, rfl⟩ : ∃ base, (baseRelations node)[i]? = some base ∧
        withLocals (baseRelations node) node.conjuncts base = rel := by
      simpa [LogicalPlan.joinGraph, List.getElem?_map, Option.map_eq_some_iff] using hrel
    have hlt : i < node.scans.length := by
      have hlen := (List.getElem?_eq_some_iff.mp hbase).1
      simpa [baseRelations] using hlen
    rw [baseRelations_getElem? hlt] at hbase
    cases hbase
    have hmem : node.scanAt i ∈ node.scans := List.mem_of_getElem? (scans_getElem? hlt)
    obtain ⟨table, ht⟩ := Option.isSome_iff_exists.mp (hload _ hmem)
    have hschema : (node.blocks db).schemaOf i =
        scanSchema (scanIdent (node.scanAt i)) table.columnNames := by
      simp [Blocks.schemaOf, LogicalPlan.blocks, scanTable, ht]
    rw [hschema]
    exact builds_bestAccessPath ht
  refine ⟨_, (hj.builds hpath hlinks links_edgeColumns
    (equiHashed_findBestPlan hbest)).addResidual _, ?_⟩
  rw [LogicalPlan.loadedSchema_of_collect hraw, ← layoutSchema_scanIds]
  exact hids.flatMap_right _

omit [CostNum R] in
/-- The executor over one input, from the executor of the input. -/
theorem Builds.over {outer : PhysicalPlan R} {f : Executor → Executor} {s : RowSchema}
    (h : Builds plan db sets s)
    (hbuild : ∀ e, buildExecutor plan db sets = .ok e →
      buildExecutor outer db sets = .ok (f e)) {s' : RowSchema}
    (hs : ∀ e, e.schema = s → (f e).schema = s') : Builds outer db sets s' := by
  obtain ⟨e, he, hse⟩ := h
  exact ⟨f e, hbuild e he, hs e hse⟩

theorem builds_chooseJoinStrategy {joinType : JoinType} {condition : Expression}
    {l r : PhysicalPlan R} {left right : LogicalPlan} {ls rs : RowSchema}
    (hl : Builds l db sets ls) (hr : Builds r db sets rs)
    (hkeys : isEquality condition = true → ∃ keys, hashJoinKeys condition ls rs = .ok keys) :
    Builds (chooseJoinStrategy stats joinType condition l r left right) db sets
      (ls.extend rs) := by
  obtain ⟨ann, kind, hplan, hann⟩ := chooseJoinStrategy_eq stats joinType condition l r
    left right
  rw [hplan]
  exact hl.join hr fun hkind => hkeys (hann.equality hkind)

theorem builds_indexScanOf {predicate : Expression} {input : LogicalPlan}
    (hload : ∀ s ∈ input.scans, (db.get s.1).isSome = true)
    (h : indexScanOf catalog stats predicate input = some plan) :
    Builds plan db sets (input.loadedSchema db) := by
  cases input with
  | scan tableName aliasName columns =>
    obtain ⟨table, ht⟩ := Option.isSome_iff_exists.mp
      (hload (tableName, aliasName) (by simp [LogicalPlan.scans]))
    have hloaded : loadedTable db tableName = .ok table := by simp [loadedTable, ht]
    obtain ⟨rows, reasoning, confidence, t, column, lit, -, rfl⟩ := tryIndexScan_eq_some h
    exact ⟨_, by simp [buildExecutor, hloaded]; rfl, by
      simp [LogicalPlan.loadedSchema, scanTable, ht, Executor.schema, scanIdent]⟩
  | _ => cases h

theorem builds_planNode (hload : ∀ s ∈ node.scans, (db.get s.1).isSome = true)
    (hkeys : node.Hashable db)
    (h : planNode catalog stats node = .ok plan) :
    ∃ schema, Builds plan db sets schema ∧
      schema.entries.Perm (node.loadedSchema db).entries := by
  induction node generalizing plan with
  | scan tableName aliasName columns =>
    cases h
    obtain ⟨table, ht⟩ := Option.isSome_iff_exists.mp
      (hload (tableName, aliasName) (by simp [LogicalPlan.scans]))
    have hloaded : loadedTable db tableName = .ok table := by simp [loadedTable, ht]
    refine ⟨_, ⟨_, by simp [planScan, buildExecutor, hloaded]; rfl, rfl⟩, ?_⟩
    simp [LogicalPlan.loadedSchema, scanTable, ht, Executor.schema, scanIdent]
  | filter predicate input ih =>
    unfold planNode at h
    unfold LogicalPlan.Hashable at hkeys
    split at h
    case isTrue hc =>
      rw [if_pos hc] at hkeys
      exact builds_planJoinSearch hload hkeys.1 hkeys.2 h
    case isFalse hc =>
      rw [if_neg hc] at hkeys
      dsimp only at h
      split at h
      case h_1 hindex =>
        cases h
        have hscan : Builds _ db sets (input.loadedSchema db) := builds_indexScanOf hload hindex
        exact ⟨_, hscan, .refl _⟩
      case h_2 =>
        obtain ⟨inner, hinner, h⟩ := Except.bind_eq_ok.mp h
        cases h
        obtain ⟨schema, hb, hp⟩ := ih hload hkeys hinner
        exact ⟨schema, hb.filter, hp⟩
  | join joinType condition left right ihl ihr =>
    unfold planNode at h
    unfold LogicalPlan.Hashable at hkeys
    split at h
    case isTrue hc =>
      rw [if_pos hc] at hkeys
      exact builds_planJoinSearch hload hkeys.1 hkeys.2 h
    case isFalse hc =>
      rw [if_neg hc] at hkeys
      obtain ⟨hkl, hkr, hcond⟩ := hkeys
      obtain ⟨l, hl, h⟩ := Except.bind_eq_ok.mp h
      obtain ⟨r, hr, h⟩ := Except.bind_eq_ok.mp h
      cases h
      simp only [LogicalPlan.scans, List.mem_append] at hload
      obtain ⟨ls, hbl, hpl⟩ := ihl (fun s hs => hload s (.inl hs)) hkl hl
      obtain ⟨rs, hbr, hpr⟩ := ihr (fun s hs => hload s (.inr hs)) hkr hr
      refine ⟨_, builds_chooseJoinStrategy hbl hbr fun heq => ?_, hpl.append hpr⟩
      exact hashJoinKeys_ok_perm hpl.symm hpr.symm (hcond heq)
  | aggregate groupBy aggregates input ih =>
    simp only [planNode, isJoinSearchCandidate, LogicalPlan.unwrapFilters, Bool.false_eq_true,
      if_false] at h
    simp only [LogicalPlan.Hashable, isJoinSearchCandidate, LogicalPlan.unwrapFilters,
      Bool.false_eq_true, if_false] at hkeys
    obtain ⟨inner, hinner, h⟩ := Except.bind_eq_ok.mp h
    cases h
    obtain ⟨schema, hb, -⟩ := ih hload hkeys hinner
    exact ⟨_, hb.over (f := .hashAggregate groupBy aggregates)
      (fun e he => by simp [buildExecutor, he]) fun _ _ => rfl, .refl _⟩
  | project expressions input ih =>
    simp only [planNode, isJoinSearchCandidate, LogicalPlan.unwrapFilters, Bool.false_eq_true,
      if_false] at h
    simp only [LogicalPlan.Hashable, isJoinSearchCandidate, LogicalPlan.unwrapFilters,
      Bool.false_eq_true, if_false] at hkeys
    obtain ⟨inner, hinner, h⟩ := Except.bind_eq_ok.mp h
    cases h
    obtain ⟨schema, hb, -⟩ := ih hload hkeys hinner
    exact ⟨_, hb.over (f := .project expressions)
      (fun e he => by simp [buildExecutor, he]) fun _ _ => rfl, .refl _⟩
  | sort orderBy input ih =>
    simp only [planNode, isJoinSearchCandidate, LogicalPlan.unwrapFilters, Bool.false_eq_true,
      if_false] at h
    simp only [LogicalPlan.Hashable, isJoinSearchCandidate, LogicalPlan.unwrapFilters,
      Bool.false_eq_true, if_false] at hkeys
    obtain ⟨inner, hinner, h⟩ := Except.bind_eq_ok.mp h
    cases h
    obtain ⟨schema, hb, hp⟩ := ih hload hkeys hinner
    exact ⟨schema, hb.over (f := .sort orderBy)
      (fun e he => by simp [buildExecutor, he]) fun _ hs => hs, hp⟩
  | limit count input ih =>
    simp only [planNode, isJoinSearchCandidate, LogicalPlan.unwrapFilters, Bool.false_eq_true,
      if_false] at h
    simp only [LogicalPlan.Hashable, isJoinSearchCandidate, LogicalPlan.unwrapFilters,
      Bool.false_eq_true, if_false] at hkeys
    obtain ⟨inner, hinner, h⟩ := Except.bind_eq_ok.mp h
    cases h
    obtain ⟨schema, hb, hp⟩ := ih hload hkeys hinner
    exact ⟨schema, hb.over (f := .limit count)
      (fun e he => by simp [buildExecutor, he]) fun _ hs => hs, hp⟩

end Planner

namespace PhysicalPlan

/-- The executors of the inputs of every hash join of a plan can be built, and the constructor
accepts its condition on their columns. -/
def hashJoinsAccepted (db : Database) (sets : ExternalRowSets) : PhysicalPlan R → Prop
  | .join _ kind _ condition left right =>
    left.hashJoinsAccepted db sets ∧ right.hashJoinsAccepted db sets ∧
      (kind = .hashJoin → ∃ ls rs keys, Builds left db sets ls ∧ Builds right db sets rs ∧
        hashJoinKeys condition ls rs = .ok keys)
  | .filter _ _ input | .hashAggregate _ _ _ input | .project _ _ input | .sort _ _ input
  | .limit _ _ input => input.hashJoinsAccepted db sets
  | _ => True

/-- The tables and the row sets of the leaves of a plan are there. -/
def leavesLoaded (db : Database) (sets : ExternalRowSets) : PhysicalPlan R → Bool
  | .seqScan _ tableName _ _ | .indexScan _ tableName _ _ _ _ => (db.get tableName).isSome
  | .externalRows _ _ _ slot _ _ => (sets.lookup slot).isSome
  | .join _ _ _ _ left right => left.leavesLoaded db sets && right.leavesLoaded db sets
  | .filter _ _ input | .hashAggregate _ _ _ input | .project _ _ input | .sort _ _ input
  | .limit _ _ input => input.leavesLoaded db sets

/-- A plan whose executor can be built has only hash joins that were accepted. -/
theorem hashJoinsAccepted_of_build {db : Database} {sets : ExternalRowSets}
    {plan : PhysicalPlan R} {e : Executor} (h : buildExecutor plan db sets = .ok e) :
    plan.hashJoinsAccepted db sets := by
  induction plan generalizing e with
  | seqScan | indexScan | externalRows => trivial
  | join ann kind joinType condition left right ihl ihr =>
    obtain ⟨l, hl, h⟩ := Except.bind_eq_ok.mp h
    obtain ⟨r, hr, h⟩ := Except.bind_eq_ok.mp h
    refine ⟨ihl hl, ihr hr, ?_⟩
    rintro rfl
    obtain ⟨keys, hk, -⟩ := Except.bind_eq_ok.mp h
    exact ⟨_, _, keys, ⟨l, hl, rfl⟩, ⟨r, hr, rfl⟩, hk⟩
  | filter _ _ _ ih | hashAggregate _ _ _ _ ih | project _ _ _ ih | sort _ _ _ ih
  | limit _ _ _ ih =>
    obtain ⟨inner, hinner, -⟩ := Except.bind_eq_ok.mp h
    exact ih hinner

/-- The constructors of the hash joins are the only ones that throw. -/
theorem build_of_hashJoinsAccepted {db : Database} {sets : ExternalRowSets}
    {plan : PhysicalPlan R} (hleaves : plan.leavesLoaded db sets = true)
    (h : plan.hashJoinsAccepted db sets) : ∃ e, buildExecutor plan db sets = .ok e := by
  induction plan with
  | seqScan | indexScan =>
    obtain ⟨table, ht⟩ := Option.isSome_iff_exists.mp hleaves
    exact ⟨_, by simp [buildExecutor, loadedTable, ht]; rfl⟩
  | externalRows =>
    obtain ⟨rows, hrows⟩ := Option.isSome_iff_exists.mp hleaves
    exact ⟨_, by simp [buildExecutor, hrows]; rfl⟩
  | join ann kind joinType condition left right ihl ihr =>
    simp only [leavesLoaded, Bool.and_eq_true] at hleaves
    obtain ⟨hal, har, hkeys⟩ := h
    obtain ⟨l, hl⟩ := ihl hleaves.1 hal
    obtain ⟨r, hr⟩ := ihr hleaves.2 har
    have hjoin : Builds (.join ann kind joinType condition left right) db sets
        (l.schema.extend r.schema) := by
      refine Builds.join ⟨l, hl, rfl⟩ ⟨r, hr, rfl⟩ fun hkind => ?_
      obtain ⟨_, _, keys, ⟨l', hl', rfl⟩, ⟨r', hr', rfl⟩, hk⟩ := hkeys hkind
      rw [hl] at hl'
      rw [hr] at hr'
      cases hl'
      cases hr'
      exact ⟨keys, hk⟩
    exact hjoin.imp fun _ he => he.1
  | filter _ _ _ ih | hashAggregate _ _ _ _ ih | project _ _ _ ih | sort _ _ _ ih
  | limit _ _ _ ih =>
    obtain ⟨inner, hinner⟩ := ih hleaves h
    exact ⟨_, by simp [buildExecutor, hinner]; rfl⟩

end PhysicalPlan

/-- Where the equalities that the planner may hash compare a column of one side with a column of the
other, every hash join it emits is accepted and the executor of the plan can be built. -/
theorem generatePhysicalPlan_builds [CostNum R] {node : LogicalPlan} {db : Database}
    {sets : ExternalRowSets} (hload : ∀ s ∈ node.scans, (db.get s.1).isSome = true)
    (hkeys : node.Hashable db) (catalog : Catalog)
    (stats : StatisticsCatalog R) {plan : PhysicalPlan R}
    (h : generatePhysicalPlan node catalog stats = .ok plan) :
    plan.hashJoinsAccepted db sets ∧ ∃ e, buildExecutor plan db sets = .ok e := by
  obtain ⟨schema, hbuilds, -⟩ := builds_planNode hload hkeys h
  obtain ⟨e, he, -⟩ : Builds plan db sets schema := hbuilds
  exact ⟨PhysicalPlan.hashJoinsAccepted_of_build he, e, he⟩

/-- `a.x + 1 = b.x` -/
def successorEqual : Expression :=
  .binaryOp (.binaryOp (.column (some "a") "x") .add (.literal (.integer 1))) .eq
    (.column (some "b") "x")

/-- Of two links between the same scans only the first one is hashed. -/
theorem generatePhysicalPlan_builds_columns :
    let node := pairJoin (.binaryOp (columnsEqual "x") .and successorEqual)
    ∃ plan, @generatePhysicalPlan ℚ exactCosts node ∅ ∅ = .ok plan ∧
      plan.hashJoinsAccepted pairDatabase ∅ ∧ ∃ e, buildExecutor plan pairDatabase ∅ = .ok e := by
  intro node
  have hkeys : node.Hashable pairDatabase := by
    unfold LogicalPlan.Hashable
    rw [if_pos (by decide)]
    refine ⟨by decide, ?_⟩
    have hlinks : node.links = [⟨0, 1, columnsEqual "x"⟩, ⟨0, 1, successorEqual⟩] := rfl
    rw [hlinks]
    rintro (_ | _ | k) edge hk hfirst -
    · cases hk
      exact ⟨_, rfl⟩
    · cases hk
      exact absurd (.inl ⟨rfl, rfl⟩) (hfirst 0 (by decide) _ rfl)
    · cases hk
  obtain ⟨plan, hplan⟩ : ∃ plan, @generatePhysicalPlan ℚ exactCosts node ∅ ∅ = .ok plan := ⟨_, rfl⟩
  exact ⟨plan, hplan, @generatePhysicalPlan_builds ℚ exactCosts _ pairDatabase ∅ (by decide)
    hkeys ∅ ∅ plan hplan⟩

/-- All columns of the condition resolve, and it is an equality: the search hashes it, and the
constructor throws. -/
theorem generatePhysicalPlan_not_builds :
    (∀ s ∈ (pairJoin successorEqual).scans, (pairDatabase.get s.1).isSome = true) ∧
      (successorEqual.columns.all fun tc => (((pairJoin successorEqual).loadedSchema
        pairDatabase).resolve tc.1 tc.2).isSome) = true ∧
      ∃ plan, @generatePhysicalPlan ℚ exactCosts (pairJoin successorEqual) ∅ ∅ = .ok plan ∧
        ¬ plan.hashJoinsAccepted pairDatabase ∅ ∧
          ∃ message, buildExecutor plan pairDatabase ∅ = .error message := by
  obtain ⟨plan, hplan⟩ : ∃ plan,
      @generatePhysicalPlan ℚ exactCosts (pairJoin successorEqual) ∅ ∅ = .ok plan := ⟨_, rfl⟩
  have hrun : (@generatePhysicalPlan ℚ exactCosts (pairJoin successorEqual) ∅ ∅).map (fun plan =>
      (plan.leavesLoaded pairDatabase ∅, (buildExecutor plan pairDatabase ∅).isOk)) =
        .ok (true, false) := by
    decide +kernel
  rw [hplan] at hrun
  simp only [Except.map, Except.ok.injEq, Prod.mk.injEq] at hrun
  obtain ⟨hleaves, hfail⟩ := hrun
  refine ⟨by decide, by decide, plan, hplan, ?_, ?_⟩
  · intro h
    obtain ⟨e, he⟩ := PhysicalPlan.build_of_hashJoinsAccepted hleaves h
    rw [he] at hfail
    cases hfail
  · cases he : buildExecutor plan pairDatabase ∅ with
    | error message => exact ⟨message, rfl⟩
    | ok e =>
      rw [he] at hfail
      cases hfail

end SqlOptimizer
