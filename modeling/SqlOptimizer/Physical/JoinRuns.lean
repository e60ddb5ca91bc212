import SqlOptimizer.Execution.Success
import SqlOptimizer.Optimizer.AccessRows
import SqlOptimizer.Physical.HashJoins

/-! The executors of a join search.  Where the links have a truth value and their keys print alike
only when they are equal, the executor of a tree returns the rows of its relational reading,
whichever join operators the costs chose. -/

namespace SqlOptimizer

theorem keysAgree_symm {a b : Literal} (h : keysAgree a b) : keysAgree b a := by
  rw [keysAgree_iff] at h ⊢
  rw [eq_comm, literalEqual_symm]
  exact h

section

variable [Rounding] {R : Type} {B : Blocks} {edges : List JoinEdge}
  {path : Nat → Option (PhysicalPlan R)} {dom : Nat → List Row} {db : Database}
  {sets : ExternalRowSets}

/-- One row of each relation of `ρ`. -/
def Chosen (path : Nat → Option (PhysicalPlan R)) (dom : Nat → List Row) (ρ : List Nat)
    (e : Nat → Row) : Prop :=
  ∀ i ∈ ρ, (∃ p, path i = some p) ∧ e i ∈ dom i

/-- On the rows of the relations, each link has a truth value, and the operands of an equality are
equal when they print alike. -/
structure LinksDecided (B : Blocks) (edges : List JoinEdge) (path : Nat → Option (PhysicalPlan R))
    (dom : Nat → List Row) : Prop where
  truth : ∀ edge ∈ edges, ∀ ρ e, B.Distinct ρ → edge.left ∈ ρ → edge.right ∈ ρ →
    Chosen path dom ρ e →
      ∃ b, passes edge.predicate (Blocks.layout ρ e) (B.layoutSchema ρ) = .ok b
  keys : ∀ edge ∈ edges, ∀ x y, edge.predicate = .binaryOp x .eq y →
    ∀ ρ e, B.Distinct ρ → edge.left ∈ ρ → edge.right ∈ ρ → Chosen path dom ρ e →
      ∀ v w, evaluate x (Blocks.layout ρ e) (B.layoutSchema ρ) = .ok v →
        evaluate y (Blocks.layout ρ e) (B.layoutSchema ρ) = .ok w → keysAgree v w

omit [Rounding] in
/-- Two layouts without a common scan have no common qualified column. -/
theorem isColumnOf_layoutSchema_eq_false {ρ ρ' : List Nat} (hd : B.Distinct (ρ ++ ρ'))
    {t c : String} (h : isColumnOf (.column (some t) c) (B.layoutSchema ρ') = true) :
    isColumnOf (.column (some t) c) (B.layoutSchema ρ) = false := by
  rw [Blocks.Distinct, List.map_append, List.nodup_append] at hd
  have hname : ∀ {π : List Nat}, isColumnOf (.column (some t) c) (B.layoutSchema π) = true →
      t ∈ π.map B.ident := by
    intro π hπ
    by_contra hnot
    rw [isColumnOf, Blocks.layoutSchema_resolve_none fun i hi hit =>
      hnot (List.mem_map.mpr ⟨i, hi, hit⟩)] at hπ
    cases hπ
  by_contra hcol
  exact hd.2.2 t (hname (Bool.of_not_eq_false hcol)) t (hname h) rfl

/-- The rows that a join of two layouts takes in. -/
def SideRows (path : Nat → Option (PhysicalPlan R)) (dom : Nat → List Row) (ρ ρ' : List Nat)
    (l r : List Row) : Prop :=
  ∀ a ∈ l, ∀ b ∈ r, ∃ e, Chosen path dom (ρ ++ ρ') e ∧ a = Blocks.layout ρ e ∧
    b = Blocks.layout ρ' e

variable {edge : JoinEdge} {ρ ρ' : List Nat} {le re : Executor} {l r : List Row}

/-- The hash join of two layouts keeps the pairs on which its link is true. -/
theorem LinksDecided.hash_eq (h : LinksDecided B edges path dom) (hedge : edge ∈ edges)
    (hcols : EdgeColumns B edges) (hd : B.Distinct (ρ ++ ρ')) (hleft : edge.left ∈ ρ ++ ρ')
    (hright : edge.right ∈ ρ ++ ρ') {e : Nat → Row} (he : Chosen path dom (ρ ++ ρ') e)
    (hw : (Blocks.layout ρ e).length = (B.layoutSchema ρ).size) {lk rk : Expression}
    (hkeys : hashJoinKeys edge.predicate (B.layoutSchema ρ) (B.layoutSchema ρ') = .ok (lk, rk)) :
    (literalToString (keyOf rk (Blocks.layout ρ' e) (B.layoutSchema ρ')) ==
        literalToString (keyOf lk (Blocks.layout ρ e) (B.layoutSchema ρ))) =
      holds edge.predicate (Blocks.layout ρ e ++ Blocks.layout ρ' e)
        ((B.layoutSchema ρ).extend (B.layoutSchema ρ')) := by
  obtain ⟨v, hv⟩ := h.truth edge hedge (ρ ++ ρ') e hd hleft hright he
  have hagree := fun x y hxy => h.keys edge hedge x y hxy (ρ ++ ρ') e hd hleft hright he
  rw [Blocks.layout_append, Blocks.layoutSchema_append] at hv
  simp only [Blocks.layout_append, Blocks.layoutSchema_append] at hagree
  obtain ⟨hlk, hrk, hcond⟩ := hashJoinKeys_eq_ok hkeys
  have hnot : isColumnOf rk (B.layoutSchema ρ) = false := by
    obtain ⟨t, c, -, rfl, -⟩ := isColumnOf_iff.mp hrk
    have hmem : (t, c) ∈ edge.predicate.columns := by
      rcases hcond with hc | hc <;> rw [hc] <;> simp [Expression.columns]
    rcases hcols edge hedge t c hmem with rfl | rfl
    · exact isColumnOf_layoutSchema_eq_false hd hrk
    · exact isColumnOf_layoutSchema_eq_false hd hrk
  refine (keys_match_iff hkeys hw hv).mpr ?_
  rw [joinKeysAgree, hnot, if_neg Bool.false_ne_true]
  rcases hcond with hc | hc
  · rw [hc] at hv
    obtain ⟨va, vb, ha, hb, -⟩ := passes_eq_eq_ok hv
    have hkey := hagree lk rk hc va vb ha hb
    rwa [evaluate_extend_left hlk hw ha, evaluate_extend_right hrk hnot hw hb] at hkey
  · rw [hc] at hv
    obtain ⟨vb, va, hb, ha, -⟩ := passes_eq_eq_ok hv
    have hkey := keysAgree_symm (hagree rk lk hc vb va hb ha)
    rwa [evaluate_extend_left hlk hw ha, evaluate_extend_right hrk hnot hw hb] at hkey

/-- A join of two layouts by a link, whichever operator it uses. -/
theorem LinksDecided.join {left right : PhysicalPlan R} {ann : Annotation R} {kind : JoinKind}
    (h : LinksDecided B edges path dom) (hedge : edge ∈ edges) (hcols : EdgeColumns B edges)
    (hd : B.Distinct (ρ ++ ρ')) (hleft : edge.left ∈ ρ ++ ρ') (hright : edge.right ∈ ρ ++ ρ')
    (hle : buildExecutor left db sets = .ok le) (hre : buildExecutor right db sets = .ok re)
    (hls : le.schema = B.layoutSchema ρ) (hrs : re.schema = B.layoutSchema ρ')
    (hl : le.run = .ok l) (hr : re.run = .ok r) (hrows : SideRows path dom ρ ρ' l r)
    (hlw : ∀ a ∈ l, a.length = (B.layoutSchema ρ).size)
    (hrw : ∀ b ∈ r, b.length = (B.layoutSchema ρ').size)
    (haccepts : kind = .hashJoin → ∃ keys,
      hashJoinKeys edge.predicate (B.layoutSchema ρ) (B.layoutSchema ρ') = .ok keys) :
    ∃ e, buildExecutor (.join ann kind .inner edge.predicate left right) db sets = .ok e ∧
      e.schema = B.layoutSchema (ρ ++ ρ') ∧
      e.run = .ok (joinMeaning edge.predicate (B.layoutSchema ρ) (B.layoutSchema ρ') l r) := by
  have hpasses : ∀ a ∈ l, ∀ b ∈ r, ∃ v, passes edge.predicate (a ++ b)
      ((B.layoutSchema ρ).extend (B.layoutSchema ρ')) = .ok v := by
    intro a ha b hb
    obtain ⟨e, he, rfl, rfl⟩ := hrows a ha b hb
    rw [← Blocks.layout_append, ← Blocks.layoutSchema_append]
    exact h.truth edge hedge (ρ ++ ρ') e hd hleft hright he
  have hloop : (Executor.nestedLoopJoin edge.predicate le re).run =
      .ok (joinMeaning edge.predicate (B.layoutSchema ρ) (B.layoutSchema ρ') l r) := by
    rw [← hls, ← hrs] at hpasses ⊢
    exact Executor.run_nestedLoopJoin hl hr hpasses
  have hschema : le.schema.extend re.schema = B.layoutSchema (ρ ++ ρ') := by
    rw [hls, hrs, Blocks.layoutSchema_append]
  cases kind with
  | nestedLoopJoin =>
    exact ⟨.nestedLoopJoin edge.predicate le re, by simp [buildExecutor, hle, hre], hschema, hloop⟩
  | indexNestedLoopJoin =>
    exact ⟨.nestedLoopJoin edge.predicate le re, by simp [buildExecutor, hle, hre], hschema, hloop⟩
  | hashJoin =>
    obtain ⟨⟨lk, rk⟩, hkeys⟩ := haccepts rfl
    refine ⟨.hashJoin edge.predicate lk rk le re, by simp [buildExecutor, hle, hre, hls, hrs, hkeys],
      hschema, ?_⟩
    obtain ⟨hlk, hrk, -⟩ := hashJoinKeys_eq_ok hkeys
    have hkl : ∀ a ∈ l, evaluate lk a le.schema = .ok (keyOf lk a (B.layoutSchema ρ)) := by
      rw [hls]
      exact fun a ha => evaluate_eq_ok_keyOf hlk (hlw a ha)
    have hkr : ∀ b ∈ r, evaluate rk b re.schema = .ok (keyOf rk b (B.layoutSchema ρ')) := by
      rw [hrs]
      exact fun b hb => evaluate_eq_ok_keyOf hrk (hrw b hb)
    rw [Executor.run_hashJoin hl hr hkl hkr]
    refine congrArg _ (Pairs.joinBy_congr fun a ha b hb => ?_)
    obtain ⟨e, he, rfl, rfl⟩ := hrows a ha b hb
    exact h.hash_eq hedge hcols hd hleft hright he (hlw _ ha) hkeys

/-- The plans of the relations run, and return their rows. -/
def PathsRun (B : Blocks) (path : Nat → Option (PhysicalPlan R)) (dom : Nat → List Row)
    (db : Database) (sets : ExternalRowSets) : Prop :=
  ∀ i p, path i = some p → ∃ e, buildExecutor p db sets = .ok e ∧ e.schema = B.schemaOf i ∧
    e.run = .ok (dom i)

variable {π used : List Nat} {plan : PhysicalPlan R}

/-- The rows of a tree are choices of one row for each of its relations. -/
theorem JoinedBy.exists_choice (h : JoinedBy path edges π used plan)
    (hd : PathsReturn B path dom db sets) (hB : EdgeColumns B edges) (hπ : B.Distinct π)
    {s : RowSchema} {rows : List Row} (hrows : relational plan db sets = .ok (s, rows)) :
    ∀ a ∈ rows, ∃ e, Chosen path dom π e ∧ a = Blocks.layout π e := by
  obtain ⟨rows', hrows', hperm⟩ := h.relational_eq hd hB hπ
  rw [hrows] at hrows'
  cases hrows'
  intro a ha
  obtain ⟨e, he, rfl⟩ := List.mem_map.mp (hperm.mem_iff.mp ha)
  refine ⟨e, fun i hi => ⟨h.path_isSome i hi, ?_⟩, rfl⟩
  exact Assignment.mem_dom_of_mem_all (List.mem_of_mem_filter he) hi

/-- The executor of a plan returns the rows of its relational reading, laid out in the order `π`. -/
def RunsAs (B : Blocks) (plan : PhysicalPlan R) (db : Database) (sets : ExternalRowSets)
    (π : List Nat) : Prop :=
  ∃ e rows rows', buildExecutor plan db sets = .ok e ∧ e.schema = B.layoutSchema π ∧
    e.run = .ok rows ∧ relational plan db sets = .ok (B.layoutSchema π, rows') ∧ rows.Perm rows'

theorem PathsReturn.length_layout (hd : PathsReturn B path dom db sets) {e : Nat → Row}
    (he : Chosen path dom π e) :
    (Blocks.layout π e).length = (B.layoutSchema π).size := by
  rw [Blocks.layout, Blocks.layoutSchema, RowSchema.size, List.length_flatMap, List.length_flatMap]
  refine congrArg List.sum (List.map_congr_left fun i hi => ?_)
  obtain ⟨⟨p, hp⟩, hrow⟩ := he i hi
  rw [hd.width i p hp _ hrow, ← RowSchema.size, Blocks.schemaOf_size]

/-- Two trees joined by a link. -/
theorem RunsAs.join {used' : List Nat} {left right : PhysicalPlan R} {ann : Annotation R}
    {kind : JoinKind} (hd : PathsReturn B path dom db sets) (hB : EdgeColumns B edges)
    (hdecided : LinksDecided B edges path dom) (hl : JoinedBy path edges ρ used left)
    (hr : JoinedBy path edges ρ' used' right) (hleft : RunsAs B left db sets ρ)
    (hright : RunsAs B right db sets ρ') (hπ : B.Distinct (ρ ++ ρ')) (hedge : edge ∈ edges)
    (hends : edge.left ∈ ρ ++ ρ' ∧ edge.right ∈ ρ ++ ρ')
    (haccepts : kind = .hashJoin → ∃ keys,
      hashJoinKeys edge.predicate (B.layoutSchema ρ) (B.layoutSchema ρ') = .ok keys) :
    RunsAs B (.join ann kind .inner edge.predicate left right) db sets (ρ ++ ρ') := by
  obtain ⟨le, l, l', hle, hls, hlrun, hlrel, hlperm⟩ := hleft
  obtain ⟨re, r, r', hre, hrs, hrrun, hrrel, hrperm⟩ := hright
  have hρ : B.Distinct ρ ∧ B.Distinct ρ' ∧ ∀ i ∈ ρ', i ∉ ρ := by
    have hnodup := hπ.nodup
    rw [Blocks.Distinct, List.map_append, List.nodup_append] at hπ
    rw [List.nodup_append] at hnodup
    exact ⟨hπ.1, hπ.2.1, fun i hi hi' => hnodup.2.2 i hi' i hi rfl⟩
  have hlchoice : ∀ a ∈ l, _ := fun a ha =>
    hl.exists_choice hd hB hρ.1 hlrel a (hlperm.mem_iff.mp ha)
  have hrchoice : ∀ b ∈ r, _ := fun b hb =>
    hr.exists_choice hd hB hρ.2.1 hrrel b (hrperm.mem_iff.mp hb)
  have hrows : SideRows path dom ρ ρ' l r := by
    intro a ha b hb
    obtain ⟨e, he, rfl⟩ := hlchoice a ha
    obtain ⟨f, hf, rfl⟩ := hrchoice b hb
    have hsame : ∀ i ∈ ρ, (if i ∈ ρ then e i else f i) = e i := fun i hi => if_pos hi
    have hother : ∀ i ∈ ρ', (if i ∈ ρ then e i else f i) = f i := fun i hi => if_neg (hρ.2.2 i hi)
    refine ⟨fun i => if i ∈ ρ then e i else f i, fun i hi => ?_, ?_, ?_⟩
    · dsimp only
      rcases List.mem_append.mp hi with hi | hi
      · rw [hsame i hi]
        exact he i hi
      · rw [hother i hi]
        exact hf i hi
    · exact (List.flatMap_congr hsame).symm
    · exact (List.flatMap_congr hother).symm
  have hlw : ∀ a ∈ l, a.length = (B.layoutSchema ρ).size := by
    intro a ha
    obtain ⟨e, he, rfl⟩ := hlchoice a ha
    exact hd.length_layout he
  have hrw : ∀ b ∈ r, b.length = (B.layoutSchema ρ').size := by
    intro b hb
    obtain ⟨e, he, rfl⟩ := hrchoice b hb
    exact hd.length_layout he
  have hjoin : ∃ e, buildExecutor (.join ann kind .inner edge.predicate left right) db sets = .ok e ∧
      e.schema = B.layoutSchema (ρ ++ ρ') ∧
      e.run = .ok (joinMeaning edge.predicate (B.layoutSchema ρ) (B.layoutSchema ρ') l r) :=
    hdecided.join hedge hB hπ hends.1 hends.2 hle hre hls hrs hlrun hrrun hrows hlw hrw haccepts
  obtain ⟨e, hbuild, hschema, hout⟩ := hjoin
  refine ⟨e, _, _, hbuild, hschema, hout, ?_,
    (Pairs.joinBy_perm_left _ _ _ hlperm).trans (Pairs.joinBy_perm_right _ _ _ hrperm)⟩
  rw [relational_join hlrel hrrel, Blocks.layoutSchema_append]
  rfl

/-- The executor of a tree returns the rows of its relational reading. -/
theorem JoinedBy.runsAs (h : JoinedBy path edges π used plan) (hd : PathsReturn B path dom db sets)
    (hrun : PathsRun B path dom db sets) (hB : EdgeColumns B edges) (hπ : B.Distinct π)
    (hlinks : linksAccepted B edges) (hdecided : LinksDecided B edges path dom)
    (hequi : plan.equiHashed = true) : RunsAs B plan db sets π := by
  have hleaf : ∀ {i : Nat} {p : PhysicalPlan R}, path i = some p → RunsAs B p db sets [i] := by
    intro i p hp
    obtain ⟨e, hbuild, hschema, hrows⟩ := hrun i p hp
    rw [← Blocks.layoutSchema_singleton] at hschema
    refine ⟨e, dom i, dom i, hbuild, hschema, hrows, ?_, .refl _⟩
    rw [Blocks.layoutSchema_singleton]
    exact hd.rows i p hp
  induction h with
  | leaf hp => exact hleaf hp
  | @last π used p q r k edge ann kind hp hq hr hk hl hf ih =>
    simp only [PhysicalPlan.equiHashed, Bool.and_eq_true, Bool.or_eq_true, bne_iff_ne] at hequi
    have hedge := List.mem_of_getElem? hk
    have hends : edge.left ∈ π ++ [r] ∧ edge.right ∈ π ++ [r] := by
      rcases hl with ⟨hmem, rfl⟩ | ⟨hmem, rfl⟩ <;> simp [hmem]
    have hπ' : B.Distinct π := by
      rw [Blocks.Distinct, List.map_append, List.nodup_append] at hπ
      exact hπ.1
    refine (ih hπ' hequi.1.2).join hd hB hdecided hp (.leaf hq) (hleaf hq) hπ hedge hends ?_
    intro hkind
    rw [Blocks.layoutSchema_singleton]
    exact (hlinks.between hB hk hl hf (hequi.1.1.resolve_left (· hkind))).1
  | @first π used p q r k edge ann kind hp hq hr hk hl hf ih =>
    simp only [PhysicalPlan.equiHashed, Bool.and_eq_true, Bool.or_eq_true, bne_iff_ne] at hequi
    have hedge := List.mem_of_getElem? hk
    have hends : edge.left ∈ [r] ++ π ∧ edge.right ∈ [r] ++ π := by
      rcases hl with ⟨hmem, rfl⟩ | ⟨hmem, rfl⟩ <;> simp [hmem]
    show RunsAs B (.join ann kind .inner edge.predicate q p) db sets ([r] ++ π)
    refine (hleaf hq).join hd hB hdecided (.leaf hq) hp (ih hπ.of_cons hequi.2) hπ hedge hends ?_
    intro hkind
    rw [Blocks.layoutSchema_singleton]
    exact (hlinks.between hB hk hl hf (hequi.1.1.resolve_left (· hkind))).2

end

end SqlOptimizer
