import SqlOptimizer.Optimizer.JoinEnumerator

/-! What the join search keeps: a property of the access paths that each join of two plans passes on
holds of every plan in the memo. -/

namespace SqlOptimizer

variable {R : Type} [CostNum R] {catalog : Catalog} {stats : StatisticsCatalog R} {g : JoinGraph}

/-! ### One join -/

/-- The cost of a join operator over an outer and an inner plan. -/
def joinCost (kind : JoinKind) (outer inner : PhysicalPlan R) (outRows : Nat) : Cost R :=
  match kind with
  | .nestedLoopJoin => nestedLoopCost outer inner
  | .hashJoin => outer.estimatedCost + inner.estimatedCost +
      Cost.hashJoin outer.estimatedRows inner.estimatedRows
  | .indexNestedLoopJoin => outer.estimatedCost +
      Cost.indexNestedLoopJoin outer.estimatedRows outRows

/-- The annotation of a join whose operator the planner chose. -/
structure JoinAnnotated (kind : JoinKind) (condition : Expression) (outer inner : PhysicalPlan R)
    (ann : Annotation R) : Prop where
  rows : ∃ rows : R, ann.rows = rowsToSize rows
  cost : ann.cost = joinCost kind outer inner ann.rows
  equality : kind = .hashJoin → isEquality condition = true

theorem foldl_cheaper_mem (cs : List (PhysicalPlan R)) (c : PhysicalPlan R) :
    cs.foldl cheaper c ∈ c :: cs := by
  induction cs generalizing c with
  | nil => simp
  | cons d cs ih =>
    rw [List.foldl_cons]
    rcases List.mem_cons.mp (ih (cheaper c d)) with h | h
    · rw [h, cheaper]
      split <;> simp
    · simp [h]

/-- Every candidate joins the two plans by the edge, in one of the two orders. -/
theorem generateBestCandidate_eq (leftMask rightMask : RelationMask) (l r : PhysicalPlan R)
    (edge : JoinEdge) :
    ∃ ann kind outer inner,
      generateBestCandidate catalog stats leftMask rightMask l r edge g =
          .join ann kind .inner edge.predicate outer inner ∧
        JoinAnnotated kind edge.predicate outer inner ann ∧
        ((outer = l ∧ inner = r) ∨ (outer = r ∧ inner = l)) := by
  have hmem : generateBestCandidate catalog stats leftMask rightMask l r edge g ∈
      _ :: otherCandidates catalog leftMask rightMask l r edge g _ _ := foldl_cheaper_mem _ _
  rcases List.mem_cons.mp hmem with hmem | hmem
  · exact ⟨_, _, _, _, hmem, ⟨⟨_, rfl⟩, rfl, nofun⟩, .inl ⟨rfl, rfl⟩⟩
  · unfold otherCandidates tryIndexNestedLoop at hmem
    split at hmem
    case isTrue hequality =>
      simp only [List.mem_append, List.mem_cons, List.not_mem_nil, or_false] at hmem
      rcases hmem with (hmem | hmem) | hmem
      · exact ⟨_, _, _, _, hmem, ⟨⟨_, rfl⟩, rfl, nofun⟩, .inr ⟨rfl, rfl⟩⟩
      · exact ⟨_, _, _, _, hmem, ⟨⟨_, rfl⟩, rfl, fun _ => hequality⟩, .inl ⟨rfl, rfl⟩⟩
      · split at hmem
        · simp only [Option.toList_some, List.mem_singleton] at hmem
          exact ⟨_, _, _, _, hmem, ⟨⟨_, rfl⟩, rfl, nofun⟩, .inl ⟨rfl, rfl⟩⟩
        · split at hmem
          · simp only [Option.toList_some, List.mem_singleton] at hmem
            exact ⟨_, _, _, _, hmem, ⟨⟨_, rfl⟩, rfl, nofun⟩, .inr ⟨rfl, rfl⟩⟩
          · simp at hmem
    case isFalse =>
      rw [List.mem_singleton] at hmem
      exact ⟨_, _, _, _, hmem, ⟨⟨_, rfl⟩, rfl, nofun⟩, .inr ⟨rfl, rfl⟩⟩

/-- The best of several candidates has what they all have. -/
theorem foldl_betterCandidate {P : PhysicalPlan R → Prop} {cand : Nat → Option (PhysicalPlan R)}
    {rs : List Nat} {best : Option (PhysicalPlan R)} {plan : PhysicalPlan R}
    (hc : ∀ r ∈ rs, ∀ p, cand r = some p → P p) (hb : ∀ p, best = some p → P p)
    (h : rs.foldl (fun best r => betterCandidate best (cand r)) best = some plan) : P plan := by
  induction rs generalizing best with
  | nil => exact hb plan h
  | cons r rs ih =>
    refine ih (fun r' hr' => hc r' (by simp [hr'])) ?_ h
    intro p hp
    beta_reduce at hp
    cases hcand : cand r with
    | none =>
      rw [hcand] at hp
      cases best <;> exact hb p hp
    | some c =>
      have hPc : P c := hc r (by simp) c hcand
      rw [hcand] at hp
      cases best with
      | none =>
        cases hp
        exact hPc
      | some b =>
        simp only [betterCandidate, cheaper, Option.some.injEq] at hp
        split at hp
        · exact hp ▸ hPc
        · exact hb p (congrArg some hp)

/-! ### The whole search -/

/-- Every plan of a memo satisfies `P`. -/
def MemoForall (P : PhysicalPlan R → Prop) (memo : Memo R) : Prop :=
  ∀ mask plan, memo mask = some plan → P plan

omit [CostNum R] in
theorem MemoForall.update {P : PhysicalPlan R → Prop} {memo : Memo R} (hm : MemoForall P memo)
    (subset : RelationMask) {plan : PhysicalPlan R} (hp : P plan) :
    MemoForall P (Function.update memo subset (some plan)) := by
  intro mask p h
  by_cases hmask : mask = subset
  · subst hmask
    rw [Function.update_self] at h
    cases h
    exact hp
  · rw [Function.update_of_ne hmask] at h
    exact hm mask p h

/-- What holds of the access paths and of every join of two plans holds of every plan in the
memo. -/
theorem solveAll_forall {P : PhysicalPlan R → Prop}
    (hbase : ∀ rel, P (bestAccessPath catalog stats rel))
    (hstep : ∀ leftMask rightMask l r edge, P l → P r →
      P (generateBestCandidate catalog stats leftMask rightMask l r edge g)) :
    MemoForall P (solveAll catalog stats g) := by
  have hcandidate : ∀ {memo : Memo R} {subset r : Nat} {p : PhysicalPlan R},
      MemoForall P memo → candidateFor catalog stats g memo subset r = some p → P p := by
    intro memo subset r p hm hp
    unfold candidateFor at hp
    simp only at hp
    split at hp
    · cases hp
    · split at hp
      · cases hp
      · simp only [Option.bind_eq_bind, Option.bind_eq_some_iff] at hp
        obtain ⟨lp, hlp, rp, hrp, edge, -, hp⟩ := hp
        cases hp
        exact hstep _ _ _ _ _ (hm _ _ hlp) (hm _ _ hrp)
  have hsubset : ∀ {memo : Memo R} {subset : Nat}, MemoForall P memo →
      MemoForall P (solveSubset catalog stats g memo subset) := by
    intro memo subset hm
    unfold solveSubset
    simp only
    split
    case h_1 best hbest =>
      exact hm.update subset
        (foldl_betterCandidate (fun r _ p hp => hcandidate hm hp) (by simp) hbest)
    case h_2 => exact hm
  have hbaseMemo : MemoForall P (baseMemo catalog stats g) := by
    apply List.foldlRecOn (motive := MemoForall P)
    · exact fun _ _ h => nomatch h
    · exact fun memo hm ri _ => hm.update _ (hbase ri.1)
  apply List.foldlRecOn (motive := MemoForall P)
  · exact hbaseMemo
  · exact fun memo hm subset _ => hsubset hm

/-- What holds of the access paths and is kept by joins holds of the plan of the search. -/
theorem findBestPlan_forall {P : PhysicalPlan R → Prop} {plan : PhysicalPlan R}
    (hbase : ∀ rel, P (bestAccessPath catalog stats rel))
    (hjoin : ∀ ann kind condition outer inner, JoinAnnotated kind condition outer inner ann →
      P outer → P inner → P (.join ann kind .inner condition outer inner))
    (h : findBestPlan catalog stats g = .ok plan) : P plan := by
  unfold findBestPlan at h
  split at h
  case h_1 => cases h
  case h_2 rel _ =>
    cases h
    exact hbase rel
  case h_3 =>
    split at h
    case h_1 p hp =>
      cases h
      refine solveAll_forall hbase (fun leftMask rightMask l r edge hl hr => ?_) _ _ hp
      obtain ⟨ann, kind, outer, inner, hcase, hann, ⟨rfl, rfl⟩ | ⟨rfl, rfl⟩⟩ :=
        @generateBestCandidate_eq R _ catalog stats g leftMask rightMask l r edge
      · rw [hcase]
        exact hjoin _ _ _ _ _ hann hl hr
      · rw [hcase]
        exact hjoin _ _ _ _ _ hann hr hl
    case h_2 => cases h

end SqlOptimizer
