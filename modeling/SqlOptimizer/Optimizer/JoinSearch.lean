import SqlOptimizer.Optimizer.SearchInvariant
import SqlOptimizer.Physical.Planner

/-! What the join search returns: a left-deep tree over the access paths of all relations, in some
order, in which each join takes one edge of the graph. -/

namespace SqlOptimizer

/-! ### The graph of a subtree -/

/-- The relations of a subtree before its predicates are classified. -/
def baseRelations (node : LogicalPlan) : List Relation :=
  node.scans.mapIdx fun i s => ⟨i, s.1, s.2, []⟩

theorem collect_eq_ok {node : LogicalPlan} {out out' : RawExtraction}
    (h : collect node out = .ok out') :
    out'.relations = out.relations ++
        node.scans.mapIdx (fun i s => ⟨out.relations.length + i, s.1, s.2, []⟩) ∧
      out'.predicates = out.predicates ++ node.conjuncts := by
  induction node generalizing out out' with
  | scan tableName aliasName columns =>
    cases h
    simp [LogicalPlan.scans, LogicalPlan.conjuncts]
  | filter predicate input ih =>
    obtain ⟨h1, h2⟩ := ih h
    exact ⟨h1, by simp [h2, LogicalPlan.conjuncts]⟩
  | join joinType condition left right ihl ihr =>
    obtain ⟨mid, hl, hr⟩ := Except.bind_eq_ok.mp h
    obtain ⟨hl1, hl2⟩ := ihl hl
    obtain ⟨hr1, hr2⟩ := ihr hr
    refine ⟨?_, by simp [hr2, hl2, LogicalPlan.conjuncts]⟩
    simp only [hr1, hl1, LogicalPlan.scans, List.mapIdx_append, List.append_assoc,
      List.length_append, List.length_mapIdx]
    congr 3
    funext i s
    congr 1
    omega
  | aggregate groupBy aggregates input => cases h
  | project expressions input => cases h
  | sort orderBy input => cases h
  | limit count input => cases h

/-- The aliases and numbers of relations, which is all that a reference is looked up in. -/
def relationKeys (rels : List Relation) : List (String × Nat) := rels.map fun r => (r.ident, r.id)

theorem findRelation_eq (g : JoinGraph) (name : String) :
    g.findRelation name = ((relationKeys g.relations).find? (·.1 == name)).map (·.2) := by
  simp [JoinGraph.findRelation, relationKeys, List.find?_map, Function.comp_def]

theorem referencedRelationIds_congr {g g' : JoinGraph}
    (h : relationKeys g.relations = relationKeys g'.relations) (e : Expression) :
    referencedRelationIds e g = referencedRelationIds e g' := by
  have hfind : g.findRelation = g'.findRelation := by
    funext name
    rw [findRelation_eq, findRelation_eq, h]
  simp only [referencedRelationIds, hfind]

/-- The relations that a predicate of the subtree mentions. -/
def refsIn (rels : List Relation) (p : Expression) : Option (List Nat) :=
  referencedRelationIds p ⟨rels, []⟩

def localTo (rels : List Relation) (i : Nat) (p : Expression) : Bool := refsIn rels p == some [i]

def edgeOf (rels : List Relation) (p : Expression) : Option JoinEdge :=
  match refsIn rels p with
  | some [a, b] => some ⟨a, b, p⟩
  | _ => none

def isResidual (rels : List Relation) (p : Expression) : Bool :=
  match refsIn rels p with
  | some [_] | some [_, _] => false
  | _ => true

/-- A relation with the predicates of `ps` that are local to it. -/
def withLocals (rels : List Relation) (ps : List Expression) (r : Relation) : Relation :=
  { r with localFilters := r.localFilters ++ ps.filter (localTo rels r.id) }

theorem relationKeys_withLocals (base : List Relation) (ps : List Expression)
    (rels : List Relation) : relationKeys (rels.map (withLocals base ps)) = relationKeys rels := by
  simp [relationKeys, withLocals, Relation.ident, Function.comp_def]

theorem withLocals_cons (base : List Relation) (p : Expression) (ps : List Expression)
    (r : Relation) : withLocals base (p :: ps) r = withLocals base ps (withLocals base [p] r) := by
  simp only [withLocals, List.filter_cons, List.filter_nil]
  split <;> simp

/-- Each relation stands at the position of its number. -/
def Numbered (rels : List Relation) : Prop :=
  ∀ (i : Nat) (r : Relation), rels[i]? = some r → r.id = i

theorem Numbered.withLocals {rels : List Relation} (h : Numbered rels) (base : List Relation)
    (ps : List Expression) : Numbered (rels.map (withLocals base ps)) := by
  intro i r hr
  rw [List.getElem?_map, Option.map_eq_some_iff] at hr
  obtain ⟨r', hr', rfl⟩ := hr
  exact h i r' hr'

theorem Numbered.modify_eq_map {rels : List Relation} (hid : Numbered rels) (id : Nat)
    (f : Relation → Relation) :
    rels.modify id f = rels.map fun r => if r.id = id then f r else r := by
  apply List.ext_getElem?
  intro i
  rw [List.getElem?_modify, List.getElem?_map]
  cases h : rels[i]? with
  | none => rfl
  | some r =>
    have hr := hid i r h
    by_cases hi : id = i
    · simp [hi, hr]
    · simp [hi, hr, Ne.symm hi]

/-- What classifying one predicate gives. -/
theorem classifyPredicate_eq {rels base : List Relation} (p : Expression) (hid : Numbered rels)
    (hkeys : relationKeys rels = relationKeys base) (edges : List JoinEdge)
    (residual : List Expression) :
    classifyPredicate ⟨⟨rels, edges⟩, residual⟩ p =
      ⟨⟨rels.map (withLocals base [p]), edges ++ (edgeOf base p).toList⟩,
        residual ++ if isResidual base p then [p] else []⟩ := by
  have hrefs : referencedRelationIds p ⟨rels, edges⟩ = refsIn base p :=
    referencedRelationIds_congr hkeys p
  have hsame : (∀ i, localTo base i p = false) → rels.map (withLocals base [p]) = rels := by
    intro h
    rw [List.map_congr_left (g := id), List.map_id]
    intro r _
    simp [withLocals, h]
  rw [classifyPredicate, hrefs]
  split
  case h_1 id h =>
    have hmap : rels.map (withLocals base [p]) = rels.modify id fun r =>
        { r with localFilters := r.localFilters ++ [p] } := by
      rw [hid.modify_eq_map]
      apply List.map_congr_left
      intro r _
      by_cases hr : r.id = id
      · simp [withLocals, localTo, h, hr]
      · simp [withLocals, localTo, h, hr, Ne.symm hr]
    simp [JoinGraph.addLocalFilter, hmap, edgeOf, isResidual, h]
  case h_2 a b h =>
    rw [hsame fun i => by simp [localTo, h]]
    simp [JoinGraph.addEdge, edgeOf, isResidual, h]
  case h_3 h1 h2 =>
    have hlocal : ∀ i, localTo base i p = false := by
      intro i
      simpa [localTo] using h1 i
    have hedge : edgeOf base p = none := by
      unfold edgeOf
      split
      case h_1 a b h => exact absurd h (h2 a b)
      case h_2 => rfl
    have hres : isResidual base p = true := by
      unfold isResidual
      split
      case h_1 i h => exact absurd h (h1 i)
      case h_2 a b h => exact absurd h (h2 a b)
      case h_3 => rfl
    simp [hsame hlocal, hedge, hres]

/-- What classifying the predicates of a subtree gives. -/
theorem foldl_classifyPredicate {rels base : List Relation} (ps : List Expression)
    (hid : Numbered rels) (hkeys : relationKeys rels = relationKeys base)
    (edges : List JoinEdge) (residual : List Expression) :
    ps.foldl classifyPredicate ⟨⟨rels, edges⟩, residual⟩ =
      ⟨⟨rels.map (withLocals base ps), edges ++ ps.filterMap (edgeOf base)⟩,
        residual ++ ps.filter (isResidual base)⟩ := by
  induction ps generalizing rels edges residual with
  | nil =>
    have hid : withLocals base [] = id := funext fun r => by simp [withLocals]
    simp [hid]
  | cons p ps ih =>
    have hstep : (withLocals base ps) ∘ (withLocals base [p]) = withLocals base (p :: ps) :=
      funext fun r => (withLocals_cons base p ps r).symm
    rw [List.foldl_cons, classifyPredicate_eq p hid hkeys,
      ih (hid.withLocals base [p]) ((relationKeys_withLocals base [p] rels).trans hkeys),
      List.map_map, hstep, List.filterMap_cons, List.filter_cons]
    cases edgeOf base p <;> by_cases hr : isResidual base p = true <;> simp [hr]

theorem numbered_baseRelations (node : LogicalPlan) : Numbered (baseRelations node) := by
  intro i r hr
  simp only [baseRelations, List.getElem?_mapIdx, Option.map_eq_some_iff] at hr
  obtain ⟨s, -, rfl⟩ := hr
  rfl

/-- The extraction of a subtree: its relations with their local filters, the edges and the
residuals, each in the order of the conjuncts. -/
theorem buildJoinGraph_eq_ok {node : LogicalPlan} {ex : JoinGraphExtraction}
    (h : buildJoinGraph node = .ok ex) :
    ex = ⟨⟨(baseRelations node).map (withLocals (baseRelations node) node.conjuncts),
      node.conjuncts.filterMap (edgeOf (baseRelations node))⟩,
      node.conjuncts.filter (isResidual (baseRelations node))⟩ := by
  obtain ⟨raw, hraw, h⟩ := Except.bind_eq_ok.mp h
  obtain ⟨h1, h2⟩ := collect_eq_ok hraw
  have hrel : raw.relations = baseRelations node := by simpa [baseRelations] using h1
  cases h
  rw [h2, hrel, foldl_classifyPredicate _ (numbered_baseRelations node) rfl]
  simp

theorem findRelation_eq_some {g : JoinGraph} {name : String} {i : Nat}
    (h : g.findRelation name = some i) : ∃ r ∈ g.relations, r.ident = name ∧ r.id = i := by
  obtain ⟨r, hr, rfl⟩ := Option.map_eq_some_iff.mp h
  exact ⟨r, List.mem_of_find?_eq_some hr, by simpa using List.find?_some hr, rfl⟩

/-- A predicate with references mentions them and no other relation. -/
theorem refsIn_eq_some {rels : List Relation} {p : Expression} {ids : List Nat}
    (h : refsIn rels p = some ids) :
    (∀ t c, (t, c) ∈ p.columns → ∃ r ∈ rels, t = some r.ident ∧ r.id ∈ ids) ∧
      (∀ i ∈ ids, ∃ r ∈ rels, r.id = i) ∧ ids.Nodup := by
  obtain ⟨is, his, rfl⟩ := Option.map_eq_some_iff.mp h
  obtain ⟨hleft, hright⟩ := Option.mapM_eq_some his
  have hfound : ∀ (t : Option String) (i : Nat),
      t.bind (JoinGraph.findRelation ⟨rels, []⟩) = some i →
        ∃ r ∈ rels, t = some r.ident ∧ r.id = i := by
    intro t i hi
    obtain ⟨q, rfl, hq⟩ := Option.bind_eq_some_iff.mp hi
    obtain ⟨r, hr, rfl, rfl⟩ := findRelation_eq_some hq
    exact ⟨r, hr, rfl, rfl⟩
  refine ⟨?_, ?_, List.nodup_dedup is⟩
  · intro t c htc
    obtain ⟨i, hi, hti⟩ := hleft (t, c) htc
    obtain ⟨r, hr, ht, rfl⟩ := hfound t i hti
    exact ⟨r, hr, ht, List.mem_dedup.mpr hi⟩
  · intro i hi
    obtain ⟨tc, -, hti⟩ := hright i (List.mem_dedup.mp hi)
    obtain ⟨r, hr, -, hri⟩ := hfound tc.1 i hti
    exact ⟨r, hr, hri⟩

/-! ### The trees of the search -/

section

variable {R : Type}

/-- An edge between relation `r` and the relations of `π`. -/
def JoinEdge.Links (edge : JoinEdge) (π : List Nat) (r : Nat) : Prop :=
  (edge.left ∈ π ∧ edge.right = r) ∨ (edge.right ∈ π ∧ edge.left = r)

/-- No edge before position `k` is between relation `r` and the relations of `π`. -/
def FirstLink (edges : List JoinEdge) (π : List Nat) (r k : Nat) : Prop :=
  ∀ j < k, ∀ edge, edges[j]? = some edge → ¬ edge.Links π r

/-- A tree over the plans of the relations in the order `π`, which joins one relation at a time by
the first edge that links it, at the positions `used`. -/
inductive JoinedBy (path : Nat → Option (PhysicalPlan R)) (edges : List JoinEdge) :
    List Nat → List Nat → PhysicalPlan R → Prop where
  | leaf {i : Nat} {p : PhysicalPlan R} (hp : path i = some p) : JoinedBy path edges [i] [] p
  | last {π used : List Nat} {p q : PhysicalPlan R} {r k : Nat} {edge : JoinEdge}
      {ann : Annotation R} {kind : JoinKind} (hp : JoinedBy path edges π used p)
      (hq : path r = some q) (hr : r ∉ π) (hk : edges[k]? = some edge) (hl : edge.Links π r)
      (hf : FirstLink edges π r k) :
      JoinedBy path edges (π ++ [r]) (k :: used) (.join ann kind .inner edge.predicate p q)
  | first {π used : List Nat} {p q : PhysicalPlan R} {r k : Nat} {edge : JoinEdge}
      {ann : Annotation R} {kind : JoinKind} (hp : JoinedBy path edges π used p)
      (hq : path r = some q) (hr : r ∉ π) (hk : edges[k]? = some edge) (hl : edge.Links π r)
      (hf : FirstLink edges π r k) :
      JoinedBy path edges (r :: π) (k :: used) (.join ann kind .inner edge.predicate q p)

namespace JoinedBy

variable {path : Nat → Option (PhysicalPlan R)} {edges : List JoinEdge} {π used : List Nat}
  {p : PhysicalPlan R}

theorem nodup (h : JoinedBy path edges π used p) : π.Nodup := by
  induction h with
  | leaf hp => simp
  | last hp hq hr hk hl hf ih =>
    rw [List.nodup_append_comm]
    exact List.nodup_cons.mpr ⟨hr, ih⟩
  | first hp hq hr hk hl hf ih => exact List.nodup_cons.mpr ⟨hr, ih⟩

theorem length_used (h : JoinedBy path edges π used p) : used.length + 1 = π.length := by
  induction h with
  | leaf hp => rfl
  | last hp hq hr hk hl hf ih => simp [ih]
  | first hp hq hr hk hl hf ih => simp [ih]

/-- The ends of the edges that a tree uses are in the tree. -/
theorem ends_mem (h : JoinedBy path edges π used p) :
    ∀ k ∈ used, ∃ edge, edges[k]? = some edge ∧ edge.left ∈ π ∧ edge.right ∈ π := by
  have hends : ∀ {edge : JoinEdge} {ρ : List Nat} {r : Nat}, edge.Links ρ r →
      ∀ {σ : List Nat}, (∀ i ∈ ρ, i ∈ σ) → r ∈ σ → edge.left ∈ σ ∧ edge.right ∈ σ := by
    rintro edge ρ r (⟨hl, rfl⟩ | ⟨hl, rfl⟩) σ hσ hr
    · exact ⟨hσ _ hl, hr⟩
    · exact ⟨hr, hσ _ hl⟩
  induction h with
  | leaf hp => simp
  | last hp hq hr hk hl hf ih =>
    intro k' hk'
    rcases List.mem_cons.mp hk' with rfl | hk'
    · exact ⟨_, hk, hends hl (fun i hi => by simp [hi]) (by simp)⟩
    · obtain ⟨edge', h1, h2, h3⟩ := ih k' hk'
      exact ⟨edge', h1, by simp [h2], by simp [h3]⟩
  | first hp hq hr hk hl hf ih =>
    intro k' hk'
    rcases List.mem_cons.mp hk' with rfl | hk'
    · exact ⟨_, hk, hends hl (fun i hi => by simp [hi]) (by simp)⟩
    · obtain ⟨edge', h1, h2, h3⟩ := ih k' hk'
      exact ⟨edge', h1, by simp [h2], by simp [h3]⟩

theorem used_subset (h : JoinedBy path edges π used p) : used ⊆ List.range edges.length := by
  intro k hk
  obtain ⟨edge, hedge, -⟩ := h.ends_mem k hk
  exact List.mem_range.mpr (List.getElem?_eq_some_iff.mp hedge).1

/-- No edge is used twice: each join adds a relation that the edges below do not touch. -/
theorem used_nodup (h : JoinedBy path edges π used p) : used.Nodup := by
  have hnew : ∀ {ρ used' : List Nat} {q : PhysicalPlan R} {r k : Nat} {edge : JoinEdge},
      JoinedBy path edges ρ used' q → r ∉ ρ → edges[k]? = some edge → edge.Links ρ r →
        k ∉ used' := by
    intro ρ used' q r k edge hq hr hk hl hmem
    obtain ⟨edge', h1, h2, h3⟩ := hq.ends_mem k hmem
    cases hk.symm.trans h1
    rcases hl with ⟨-, rfl⟩ | ⟨-, rfl⟩
    · exact hr h3
    · exact hr h2
  induction h with
  | leaf hp => simp
  | last hp hq hr hk hl hf ih => exact List.nodup_cons.mpr ⟨hnew hp hr hk hl, ih⟩
  | first hp hq hr hk hl hf ih => exact List.nodup_cons.mpr ⟨hnew hp hr hk hl, ih⟩

theorem path_isSome (h : JoinedBy path edges π used p) : ∀ i ∈ π, ∃ p, path i = some p := by
  induction h with
  | leaf hp =>
    intro i hi
    exact ⟨_, List.mem_singleton.mp hi ▸ hp⟩
  | last hp hq hr hk hl hf ih =>
    intro i hi
    rcases List.mem_append.mp hi with hi | hi
    · exact ih i hi
    · exact ⟨_, List.mem_singleton.mp hi ▸ hq⟩
  | first hp hq hr hk hl hf ih =>
    intro i hi
    rcases List.mem_cons.mp hi with rfl | hi
    · exact ⟨_, hq⟩
    · exact ih i hi

theorem ne_nil (h : JoinedBy path edges π used p) : π ≠ [] := by
  cases h <;> simp

/-- A tree over one relation is its plan. -/
theorem path_eq (h : JoinedBy path edges π used p) {i : Nat} (hi : ∀ j, j ∈ π ↔ j = i) :
    path i = some p := by
  cases h with
  | leaf hp =>
    rw [← (hi _).mp (List.mem_singleton_self _)]
    exact hp
  | last hp hq hr hk hl hf =>
    obtain ⟨j, hj⟩ := List.exists_mem_of_ne_nil _ hp.ne_nil
    have h1 := (hi j).mp (by simp [hj])
    have h2 := (hi _).mp (List.mem_append_right _ (List.mem_singleton_self _))
    exact absurd (h2.trans h1.symm ▸ hj) hr
  | first hp hq hr hk hl hf =>
    obtain ⟨j, hj⟩ := List.exists_mem_of_ne_nil _ hp.ne_nil
    have h1 := (hi j).mp (by simp [hj])
    have h2 := (hi _).mp List.mem_cons_self
    exact absurd (h2.trans h1.symm ▸ hj) hr

end JoinedBy

end

/-! ### Masks -/

theorem testBit_relationBit {i : Nat} (hi : i < 64) (j : Nat) :
    (relationBit i).testBit j = decide (i = j) := by
  rw [relationBit, Nat.mod_eq_of_lt hi, Nat.testBit_two_pow]

theorem and_relationBit_ne_zero {mask i : Nat} (hi : i < 64) :
    mask &&& relationBit i ≠ 0 ↔ mask.testBit i = true := by
  constructor
  · intro h
    by_contra hbit
    refine h (Nat.eq_of_testBit_eq fun j => ?_)
    rw [Nat.testBit_and, testBit_relationBit hi, Nat.zero_testBit]
    by_cases hij : i = j
    · simpa [← hij] using hbit
    · simp [hij]
  · intro hbit h
    have hand : (mask &&& relationBit i).testBit i = true := by
      rw [Nat.testBit_and, testBit_relationBit hi, hbit]
      simp
    rw [h, Nat.zero_testBit] at hand
    cases hand

/-- An edge between a set and one relation. -/
theorem edgeConnects_iff_links {edge : JoinEdge} {π : List Nat} {mask r : Nat}
    (hmask : ∀ i, i ∈ π ↔ mask.testBit i = true) (hr : r < 64) (hleft : edge.left < 64)
    (hright : edge.right < 64) :
    edgeConnects edge mask (relationBit r) = true ↔ edge.Links π r := by
  have hone : ∀ i, i < 64 → ((relationBit r &&& relationBit i != 0) = true ↔ i = r) := by
    intro i hi
    rw [bne_iff_ne, and_relationBit_ne_zero hi, testBit_relationBit hr, decide_eq_true_iff, eq_comm]
  have hset : ∀ i, i < 64 → ((mask &&& relationBit i != 0) = true ↔ i ∈ π) := fun i hi => by
    rw [bne_iff_ne, and_relationBit_ne_zero hi, hmask]
  rw [edgeConnects, Bool.or_eq_true, Bool.and_eq_true, Bool.and_eq_true, hset _ hleft,
    hset _ hright, hone _ hleft, hone _ hright]
  rfl

/-- The bits of `subset & ~r_mask`. -/
theorem testBit_without {subset r : Nat} (hs : subset < 2 ^ 64) (hr : r < 64) (i : Nat) :
    (subset &&& complementMask (relationBit r)).testBit i = true ↔
      subset.testBit i = true ∧ i ≠ r := by
  have hlt : relationBit r < 2 ^ 64 := by
    rw [relationBit, Nat.mod_eq_of_lt hr]
    exact Nat.pow_lt_pow_right (by decide) hr
  rw [complementMask, Nat.testBit_and, Nat.testBit_two_pow_sub_succ hlt, testBit_relationBit hr]
  by_cases hi : i < 64
  · simp only [hi, decide_true, Bool.true_and, Bool.and_eq_true, Bool.not_eq_true',
      decide_eq_false_iff_not, ne_eq, eq_comm (a := i)]
  · have hbit : subset.testBit i = false :=
      Nat.testBit_lt_two_pow (hs.trans_le (Nat.pow_le_pow_right (by decide) (by omega)))
    simp [hbit]

theorem testBit_fullMask {n : Nat} (hn : n ≤ 64) (i : Nat) :
    (fullMask n).testBit i = true ↔ i < n := by
  unfold fullMask
  split
  case isTrue h =>
    rw [Nat.testBit_two_pow_sub_one, decide_eq_true_iff, h]
  case isFalse h => rw [relationBit, Nat.mod_eq_of_lt (by omega), Nat.testBit_two_pow_sub_one,
    decide_eq_true_iff]

theorem subsetsOfSize_lt {n size subset : Nat} (h : subset ∈ subsetsOfSize n size) :
    subset < 2 ^ 64 := by
  have hlimit : (if n = 64 then 2 ^ 64 - 1 else relationBit n) ≤ 2 ^ 64 := by
    split
    · exact Nat.sub_le _ _
    · exact Nat.pow_le_pow_right (by decide) (Nat.mod_lt n (by decide)).le
  obtain ⟨hlow, hhigh⟩ := List.mem_range'_1.mp (List.mem_filter.mp h).1
  exact lt_of_lt_of_le (by omega) hlimit

/-! ### The invariant of the memo -/

section

variable {R : Type} [CostNum R] {catalog : Catalog} {stats : StatisticsCatalog R} {g : JoinGraph}

/-- The access path of relation `i`. -/
def pathOf (catalog : Catalog) (stats : StatisticsCatalog R) (g : JoinGraph) (i : Nat) :
    Option (PhysicalPlan R) :=
  g.relations[i]?.map (bestAccessPath catalog stats)

/-- A plan that joins exactly the relations of `mask`. -/
def Solves (catalog : Catalog) (stats : StatisticsCatalog R) (g : JoinGraph) (mask : RelationMask)
    (plan : PhysicalPlan R) : Prop :=
  ∃ π used, JoinedBy (pathOf catalog stats g) g.edges π used plan ∧
    ∀ i, i ∈ π ↔ mask.testBit i = true

/-- Every entry of the memo joins the relations of its mask. -/
def MemoSound (catalog : Catalog) (stats : StatisticsCatalog R) (g : JoinGraph) (memo : Memo R) :
    Prop :=
  ∀ mask plan, memo mask = some plan → Solves catalog stats g mask plan

/-- Every candidate joins the two plans by the edge, in one of the two orders. -/
theorem generateBestCandidate_cases (leftMask rightMask : RelationMask) (l r : PhysicalPlan R)
    (edge : JoinEdge) :
    ∃ ann kind,
      generateBestCandidate catalog stats leftMask rightMask l r edge g =
          .join ann kind .inner edge.predicate l r ∨
        generateBestCandidate catalog stats leftMask rightMask l r edge g =
          .join ann kind .inner edge.predicate r l := by
  obtain ⟨ann, kind, outer, inner, hcase, -, ⟨rfl, rfl⟩ | ⟨rfl, rfl⟩⟩ :=
    @generateBestCandidate_eq R _ catalog stats g leftMask rightMask l r edge
  · exact ⟨ann, kind, .inl hcase⟩
  · exact ⟨ann, kind, .inr hcase⟩

/-- The graphs that fit a mask: at most 64 relations, and edges between them. -/
structure JoinGraph.FitsMask (g : JoinGraph) : Prop where
  width : g.relations.length ≤ 64
  ends : ∀ edge ∈ g.edges, edge.left < g.relations.length ∧ edge.right < g.relations.length

/-- One join of the search keeps the invariant. -/
theorem candidateFor_solves {memo : Memo R} {subset r : Nat} {plan : PhysicalPlan R}
    (hg : g.FitsMask) (hm : MemoSound catalog stats g memo) (hs : subset < 2 ^ 64)
    (hr : r < g.relations.length)
    (h : candidateFor catalog stats g memo subset r = some plan) :
    Solves catalog stats g subset plan := by
  have hr64 : r < 64 := hr.trans_le hg.width
  unfold candidateFor at h
  simp only at h
  split at h
  case isTrue => cases h
  case isFalse hbit =>
    split at h
    case isTrue => cases h
    case isFalse =>
      simp only [Option.bind_eq_bind, Option.bind_eq_some_iff] at h
      obtain ⟨lp, hlp, rp, hrp, edge, hedge, h⟩ := h
      cases h
      obtain ⟨π, used, hπ, hmask⟩ := hm _ _ hlp
      obtain ⟨ρ, used', hρ, hmask'⟩ := hm _ _ hrp
      have hpath : pathOf catalog stats g r = some rp := by
        apply hρ.path_eq
        intro j
        rw [hmask', testBit_relationBit hr64, decide_eq_true_iff, eq_comm]
      have hmem : ∀ i, i ∈ π ↔ subset.testBit i = true ∧ i ≠ r := fun i =>
        (hmask i).trans (testBit_without hs hr64 i)
      have hnot : r ∉ π := fun h => ((hmem r).mp h).2 rfl
      have hsub : ∀ i, i ∈ π ∨ i = r ↔ subset.testBit i = true := by
        intro i
        rw [hmem]
        by_cases hi : i = r
        · simp [hi, (and_relationBit_ne_zero hr64).mp hbit]
        · simp [hi]
      obtain ⟨hconn, k, hk, hget, hbefore⟩ := List.find?_eq_some_iff_getElem.mp hedge
      have hconnects : ∀ {j : Nat} {e : JoinEdge}, g.edges[j]? = some e →
          (edgeConnects e (subset &&& complementMask (relationBit r)) (relationBit r) = true ↔
            e.Links π r) := by
        intro j e he
        obtain ⟨hel, her⟩ := hg.ends e (List.mem_of_getElem? he)
        exact edgeConnects_iff_links hmask hr64 (hel.trans_le hg.width) (her.trans_le hg.width)
      have hk' : g.edges[k]? = some edge := by rw [List.getElem?_eq_getElem hk, hget]
      have hlinks : edge.Links π r := (hconnects hk').mp hconn
      have hfirst : FirstLink g.edges π r k := by
        intro j hj e he hl
        have hnot := hbefore j hj
        obtain ⟨hjlt, rfl⟩ := List.getElem?_eq_some_iff.mp he
        rw [(hconnects he).mpr hl] at hnot
        cases hnot
      obtain ⟨ann, kind, hcase | hcase⟩ := @generateBestCandidate_cases R _ catalog stats g
        (subset &&& complementMask (relationBit r)) (relationBit r) lp rp edge
      · rw [hcase]
        exact ⟨π ++ [r], k :: used, .last hπ hpath hnot hk' hlinks hfirst,
          by simpa using hsub⟩
      · rw [hcase]
        refine ⟨r :: π, k :: used, .first hπ hpath hnot hk' hlinks hfirst, fun i => ?_⟩
        rw [List.mem_cons, or_comm]
        exact hsub i

theorem solveSubset_sound {memo : Memo R} {subset : Nat} (hg : g.FitsMask)
    (hm : MemoSound catalog stats g memo) (hs : subset < 2 ^ 64) :
    MemoSound catalog stats g (solveSubset catalog stats g memo subset) := by
  unfold solveSubset
  simp only
  split
  case h_1 plan hplan =>
    intro mask p hp
    by_cases hmask : mask = subset
    · subst hmask
      rw [Function.update_self] at hp
      cases hp
      exact foldl_betterCandidate (fun r hr p hp => candidateFor_solves hg hm hs
        (List.mem_range.mp hr) hp) (by simp) hplan
    · rw [Function.update_of_ne hmask] at hp
      exact hm mask p hp
  case h_2 => exact hm

theorem baseMemo_sound (hg : g.FitsMask) :
    MemoSound catalog stats g (baseMemo catalog stats g) := by
  unfold baseMemo
  have hstep : ∀ (ris : List (Relation × Nat)) (memo : Memo R),
      (∀ ri ∈ ris, g.relations[ri.2]? = some ri.1) → MemoSound catalog stats g memo →
        MemoSound catalog stats g (ris.foldl (fun memo ri => Function.update memo
          (relationBit ri.2) (some (bestAccessPath catalog stats ri.1))) memo) := by
    intro ris
    induction ris with
    | nil => exact fun memo _ hm => hm
    | cons ri ris ih =>
      intro memo hris hm
      refine ih _ (fun x hx => hris x (by simp [hx])) fun mask plan hp => ?_
      beta_reduce at hp
      by_cases hmask : mask = relationBit ri.2
      · subst hmask
        rw [Function.update_self] at hp
        cases hp
        have hget := hris ri (by simp)
        have hlt : ri.2 < 64 :=
          (List.getElem?_eq_some_iff.mp hget).1.trans_le hg.width
        refine ⟨[ri.2], [], .leaf (by simp [pathOf, hget]), fun i => ?_⟩
        rw [testBit_relationBit hlt, decide_eq_true_iff, List.mem_singleton, eq_comm]
      · rw [Function.update_of_ne hmask] at hp
        exact hm mask plan hp
  apply hstep
  · intro ri hri
    exact List.mem_zipIdx_iff_getElem?.mp hri
  · intro mask plan h
    cases h

theorem solveAll_sound (hg : g.FitsMask) : MemoSound catalog stats g (solveAll catalog stats g) := by
  unfold solveAll
  apply List.foldlRecOn (motive := MemoSound catalog stats g)
  · exact baseMemo_sound hg
  · intro memo hm subset hsubset
    obtain ⟨size, -, hsize⟩ := List.mem_flatMap.mp hsubset
    exact solveSubset_sound hg hm (subsetsOfSize_lt hsize)

/-- The plan of a search joins all relations, each once. -/
theorem findBestPlan_joinedBy {plan : PhysicalPlan R} (hg : g.FitsMask)
    (h : findBestPlan catalog stats g = .ok plan) :
    ∃ π used, JoinedBy (pathOf catalog stats g) g.edges π used plan ∧
      π.Perm (List.range g.relations.length) := by
  have hsolved : Solves catalog stats g (fullMask g.relations.length) plan := by
    unfold findBestPlan at h
    split at h
    case h_1 => cases h
    case h_2 rel hrel =>
      cases h
      refine ⟨[0], [], .leaf (by simp [pathOf, hrel]), fun i => ?_⟩
      rw [testBit_fullMask hg.width, hrel, List.mem_singleton]
      simp
    case h_3 =>
      split at h
      case h_1 p hp =>
        cases h
        exact solveAll_sound hg _ _ hp
      case h_2 => cases h
  obtain ⟨π, used, hj, hmask⟩ := hsolved
  refine ⟨π, used, hj, ?_⟩
  rw [List.perm_ext_iff_of_nodup hj.nodup List.nodup_range]
  intro i
  rw [hmask, testBit_fullMask hg.width, List.mem_range]

end

end SqlOptimizer
