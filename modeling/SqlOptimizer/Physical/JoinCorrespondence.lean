import SqlOptimizer.Execution.Correspondence
import SqlOptimizer.Physical.HashJoins

/-! Join trees whose rows correspond: a choice of rows reads the same in every order of its tables, and
so do the joins of rows that read alike, by a nested loop or by a hash join that pairs the same
rows. -/

namespace SqlOptimizer

variable [Rounding]

/-! ### Joined rows -/

theorem evaluate_extend {ls rs : RowSchema} {l r : Row} (hl : l.length = ls.size)
    (t : Option String) (c : String) :
    evaluate (.column t c) (l ++ r) (ls.extend rs) =
      if isColumnOf (.column t c) (ls.extend rs) then
        if isColumnOf (.column t c) ls then evaluate (.column t c) l ls
        else evaluate (.column t c) r rs
      else .error ("execution: cannot resolve column '" ++ columnText t c ++ "'") := by
  cases hext : (ls.extend rs).resolve t c with
  | none => simp [evaluate, isColumnOf, hext]
  | some i =>
    cases hres : ls.resolve t c with
    | some j =>
      have hij : i = j := by
        cases t with
        | some t =>
          rw [RowSchema.resolve_extend_some, hres, Option.some_or] at hext
          exact (Option.some.inj hext).symm
        | none =>
          rcases RowSchema.resolve_extend_none hext with ⟨h, -⟩ | ⟨_, h, -⟩
          · exact Option.some.inj (h.symm.trans hres)
          · rw [hres] at h
            cases h
      have hlt : j < l.length := hl ▸ RowSchema.resolve_lt hres
      simp [evaluate, isColumnOf, hext, hres, hij, rowAt_append_left hlt]
    | none =>
      obtain ⟨j, hj, rfl⟩ : ∃ j, rs.resolve t c = some j ∧ i = j + ls.size := by
        cases t with
        | some t =>
          rw [RowSchema.resolve_extend_some, hres, Option.none_or, Option.map_eq_some_iff] at hext
          obtain ⟨j, hj, rfl⟩ := hext
          exact ⟨j, hj, rfl⟩
        | none =>
          rcases RowSchema.resolve_extend_none hext with ⟨h, -⟩ | ⟨j, -, hj, rfl⟩
          · rw [hres] at h
            cases h
          · exact ⟨j, hj, rfl⟩
      simp [evaluate, isColumnOf, hext, hres, hj, ← hl, rowAt_append_right]

/-- Two schemas with the columns of tables only, in some order. -/
structure SameColumns (s s' : RowSchema) : Prop where
  entries : s.entries.Perm s'.entries
  left : s.aggEntries = []
  right : s'.aggEntries = []

namespace SameColumns

variable {ls ls' rs rs' : RowSchema}

omit [Rounding] in
theorem extend (hl : SameColumns ls ls') (hr : SameColumns rs rs') :
    SameColumns (ls.extend rs) (ls'.extend rs') where
  entries := hl.entries.append hr.entries
  left := by rw [RowSchema.extend, hl.left, hr.left, List.append_nil]
  right := by rw [RowSchema.extend, hl.right, hr.right, List.append_nil]

theorem evaluate_function {s s' : RowSchema} (h : SameColumns s s') (a a' : Row) (name : String)
    (args : List Expression) :
    evaluate (.function name args) a s = evaluate (.function name args) a' s' := by
  simp [evaluate, RowSchema.resolveAggregate, h.left, h.right]

end SameColumns

/-- Rows of the widths of their schemas that read alike, joined. -/
theorem ReadsAlike.append {ls ls' rs rs' : RowSchema} {a a' b b' : Row}
    (ha : ReadsAlike ls ls' a a') (hb : ReadsAlike rs rs' b b') (hl : SameColumns ls ls')
    (hr : SameColumns rs rs') (hwidth : a.length = ls.size) (hwidth' : a'.length = ls'.size) :
    ReadsAlike (ls.extend rs) (ls'.extend rs') (a ++ b) (a' ++ b') := by
  intro x
  refine evaluate_congr (fun t c _ => ?_) ((hl.extend hr).evaluate_function _ _)
  rw [evaluate_extend hwidth, evaluate_extend hwidth', isColumnOf_perm (hl.extend hr).entries,
    isColumnOf_perm hl.entries, ha, hb]

namespace Blocks

variable {B : Blocks} {π ρ : List Nat}

omit [Rounding] in
theorem sameColumns_layoutSchema (hperm : π.Perm ρ) :
    SameColumns (B.layoutSchema π) (B.layoutSchema ρ) :=
  ⟨entries_layoutSchema_perm hperm, rfl, rfl⟩

/-- A choice reads the same in any order of its blocks. -/
theorem readsAlike_layout (hperm : π.Perm ρ) (hρ : B.Distinct ρ) {t : Nat → Row}
    (hfit : B.Fits ρ t) :
    ReadsAlike (B.layoutSchema π) (B.layoutSchema ρ) (layout π t) (layout ρ t) :=
  evaluate_layout_perm hperm hρ hfit

end Blocks

/-! ### Join trees -/

section Trees

variable {fixed : Prop} {le le' re re' : Executor} {condition : Expression}

/-- Corresponding executors of join trees: their columns are those of the same tables. -/
structure TreeCorrespond (fixed : Prop) (e e' : Executor) : Prop extends Correspond fixed e e' where
  columns : SameColumns e.schema e'.schema
  wide : e.Wide
  wide' : e'.Wide

theorem TreeCorrespond.imp {fixed' : Prop} {e e' : Executor} (h : TreeCorrespond fixed e e')
    (himp : fixed' → fixed) : TreeCorrespond fixed' e e' where
  toCorrespond := h.toCorrespond.imp himp
  columns := h.columns
  wide := h.wide
  wide' := h.wide'

/-- The hash join of a condition keeps the pairs of rows on which it is true: the constructor accepts
it, it has a truth value on each pair, and the keys print alike exactly when they are equal. -/
structure Hashes (condition : Expression) (left right : Executor) : Prop where
  accepted : ∃ keys, hashJoinKeys condition left.schema right.schema = .ok keys
  truth : ∀ l r, left.run = .ok l → right.run = .ok r → ∀ a ∈ l, ∀ b ∈ r,
    ∃ v, passes condition (a ++ b) (left.schema.extend right.schema) = .ok v
  keys : ∀ l r, left.run = .ok l → right.run = .ok r → ∀ a ∈ l, ∀ b ∈ r, ∀ lk rk,
    hashJoinKeys condition left.schema right.schema = .ok (lk, rk) →
      joinKeysAgree lk rk left.schema right.schema a b

omit [Rounding] in
theorem hashJoinKeys_perm {ls ls' rs rs' : RowSchema} (hl : ls.entries.Perm ls'.entries)
    (hr : rs.entries.Perm rs'.entries) (c : Expression) :
    hashJoinKeys c ls rs = hashJoinKeys c ls' rs' := by
  unfold hashJoinKeys
  split
  · rw [isColumnOf_perm hl, isColumnOf_perm hl, isColumnOf_perm hr, isColumnOf_perm hr]
  · rfl

/-- A join operator decides corresponding pairs of rows alike. -/
theorem joinMatch_congr (kind : JoinKind) {ls ls' rs rs' : RowSchema} {a a' b b' : Row}
    (ha : ReadsAlike ls ls' a a') (hb : ReadsAlike rs rs' b b') (hl : SameColumns ls ls')
    (hr : SameColumns rs rs') (hwidth : a.length = ls.size) (hwidth' : a'.length = ls'.size) :
    joinMatch kind condition ls rs a b = joinMatch kind condition ls' rs' a' b' := by
  cases kind with
  | hashJoin =>
    simp only [joinMatch, hashJoinKeys_perm hl.entries hr.entries condition]
    refine bind_congr fun keys => ?_
    rw [ha keys.1, hb keys.2]
  | nestedLoopJoin | indexNestedLoopJoin =>
    exact (ha.append hb hl hr hwidth hwidth').passes_eq condition

/-- Where the hash join of a condition keeps the right pairs, it decides each pair as the condition
does. -/
theorem Hashes.joinMatch_eq (h : Hashes condition le re) {l r : List Row} (hl : le.run = .ok l)
    (hr : re.run = .ok r) (hlw : le.Wide) (hrw : re.Wide) {a b : Row} (ha : a ∈ l) (hb : b ∈ r) :
    joinMatch .hashJoin condition le.schema re.schema a b =
      joinMatch .nestedLoopJoin condition le.schema re.schema a b := by
  obtain ⟨⟨lk, rk⟩, hkeys⟩ := h.accepted
  obtain ⟨hlk, hrk, -⟩ := hashJoinKeys_eq_ok hkeys
  obtain ⟨v, hv⟩ := h.truth l r hl hr a ha b hb
  have hmatch := (keys_match_iff hkeys (hlw l hl a ha) hv).mpr
    (h.keys l r hl hr a ha b hb lk rk hkeys)
  have hnested : joinMatch .nestedLoopJoin condition le.schema re.schema a b = .ok v := hv
  rw [hnested]
  simp only [joinMatch, hkeys, Except.ok_bind, evaluate_eq_ok_keyOf hlk (hlw l hl a ha),
    evaluate_eq_ok_keyOf hrk (hrw r hr b hb), Except.pure_eq_ok]
  rw [hmatch, holds, hv]

/-- Joins of corresponding rows by operators that decide corresponding pairs alike. -/
theorem SameRows.joined {ls ls' rs rs' : RowSchema} {l l' r r' : List Row}
    (hl : SameRows fixed ls ls' l l') (hr : SameRows fixed rs rs' r r') (hls : SameColumns ls ls')
    (hrs : SameColumns rs rs') (hlw : ∀ a ∈ l, a.length = ls.size)
    (hlw' : ∀ a ∈ l', a.length = ls'.size) {m m' : Row → Row → Bool}
    (hm : ∀ a ∈ l, ∀ a' ∈ l', ∀ b ∈ r, ∀ b' ∈ r', ReadsAlike ls ls' a a' → ReadsAlike rs rs' b b' →
      m a b = m' a' b') :
    SameRows fixed (ls.extend rs) (ls'.extend rs') (Pairs.joinBy (· ++ ·) m l r)
      (Pairs.joinBy (· ++ ·) m' l' r') := by
  obtain ⟨ps, hl₁, hl₂, hps⟩ := hl
  obtain ⟨qs, hr₁, hr₂, hqs⟩ := hr
  have hmem : ∀ p ∈ ps, p.1 ∈ l ∧ p.2 ∈ l' := fun p hp =>
    ⟨hl₁.mem_iff.mpr (List.mem_map_of_mem hp), hl₂.mem_iff.mpr (List.mem_map_of_mem hp)⟩
  have hmem' : ∀ q ∈ qs, q.1 ∈ r ∧ q.2 ∈ r' := fun q hq =>
    ⟨hr₁.mem_iff.mpr (List.mem_map_of_mem hq), hr₂.mem_iff.mpr (List.mem_map_of_mem hq)⟩
  refine ⟨Pairs.joinBy (fun p q => (p.1 ++ q.1, p.2 ++ q.2)) (fun p q => m p.1 q.1) ps qs, ?_, ?_, ?_⟩
  · rw [Pairs.map_joinBy]
    refine ((Pairs.joinBy_perm_left _ _ _ hl₁).trans (Pairs.joinBy_perm_right _ _ _ hr₁)).trans ?_
    rw [Pairs.joinBy_map]
  · rw [Pairs.map_joinBy]
    refine ((Pairs.joinBy_perm_left _ _ _ hl₂).trans (Pairs.joinBy_perm_right _ _ _ hr₂)).trans ?_
    rw [Pairs.joinBy_map]
    refine .of_eq (Pairs.joinBy_congr fun p hp q hq => ?_)
    exact (hm p.1 (hmem p hp).1 p.2 (hmem p hp).2 q.1 (hmem' q hq).1 q.2 (hmem' q hq).2
      (hps p hp).1 (hqs q hq).1).symm
  · intro z hz
    obtain ⟨p, hp, q, hq, -, rfl⟩ := Pairs.mem_joinBy.mp hz
    refine ⟨(hps p hp).1.append (hqs q hq).1 hls hrs (hlw _ (hmem p hp).1) (hlw' _ (hmem p hp).2),
      fun hfixed => ?_⟩
    rw [(hps p hp).2 hfixed, (hqs q hq).2 hfixed]

theorem Executor.Wide.nestedLoopJoin (hl : le.Wide) (hr : re.Wide) :
    (Executor.nestedLoopJoin condition le re).Wide := by
  intro rows hrows row hrow
  obtain ⟨l, r, hlrun, hrrun, -, rfl⟩ := Executor.run_nestedLoopJoin_eq_ok.mp hrows
  obtain ⟨a, ha, b, hb, -, rfl⟩ := Pairs.mem_joinBy.mp hrow
  rw [List.length_append, hl l hlrun a ha, hr r hrrun b hb, Executor.schema, RowSchema.extend_size]

theorem Executor.Wide.hashJoin (hl : le.Wide) (hr : re.Wide) {lk rk : Expression}
    (hkeys : hashJoinKeys condition le.schema re.schema = .ok (lk, rk)) :
    (Executor.hashJoin condition lk rk le re).Wide := by
  intro rows hrows row hrow
  obtain ⟨l, r, hlrun, hrrun, rfl⟩ := (Executor.run_hashJoin_eq_ok hl hr hkeys).mp hrows
  obtain ⟨a, ha, b, hb, -, rfl⟩ := Pairs.mem_joinBy.mp hrow
  rw [List.length_append, hl l hlrun a ha, hr r hrrun b hb, Executor.schema, RowSchema.extend_size]

/-- The rows of two joins, one of them a nested loop, on which the operators agree. -/
theorem TreeCorrespond.sameRows_joined (hl : TreeCorrespond fixed le le')
    (hr : TreeCorrespond fixed re re') (kind : JoinKind)
    (hkind : kind = .nestedLoopJoin ∨ kind = .hashJoin ∧ Hashes condition le re)
    {l l' r r' : List Row} (hlrun : le.run = .ok l) (hlrun' : le'.run = .ok l')
    (hrrun : re.run = .ok r) (hls : SameRows fixed le.schema le'.schema l l')
    (hrs : SameRows fixed re.schema re'.schema r r') :
    SameRows fixed (le.schema.extend re.schema) (le'.schema.extend re'.schema)
      (joined .nestedLoopJoin condition le.schema re.schema l r)
      (joined kind condition le'.schema re'.schema l' r') := by
  refine hls.joined hrs hl.columns hr.columns (hl.wide l hlrun) (hl.wide' l' hlrun') ?_
  intro a ha a' ha' b hb b' hb' haa hbb
  rw [← joinMatch_congr kind haa hbb hl.columns hr.columns (hl.wide l hlrun a ha)
    (hl.wide' l' hlrun' a' ha')]
  rcases hkind with rfl | ⟨rfl, hhashes⟩
  · rfl
  · rw [hhashes.joinMatch_eq hlrun hrrun hl.wide hr.wide ha hb]

theorem TreeCorrespond.extend_schema (hl : TreeCorrespond fixed le le')
    (hr : TreeCorrespond fixed re re') (hfixed : fixed) :
    le.schema.extend re.schema = le'.schema.extend re'.schema := by
  rw [hl.schema hfixed, hr.schema hfixed]

/-- Two nested loops. -/
theorem TreeCorrespond.exists_nestedLoopJoin (hl : TreeCorrespond fixed le le')
    (hr : TreeCorrespond fixed re re') {out : List Row}
    (hout : (Executor.nestedLoopJoin condition le re).run = .ok out) :
    ∃ out', (Executor.nestedLoopJoin condition le' re').run = .ok out' ∧
      SameRows fixed (le.schema.extend re.schema) (le'.schema.extend re'.schema) out out' := by
  obtain ⟨l, r, hlrun, hrrun, hall, rfl⟩ := Executor.run_nestedLoopJoin_eq_ok.mp hout
  obtain ⟨l', hlrun', hls⟩ := hl.rows.of_ok hlrun
  obtain ⟨r', hrrun', hrs⟩ := hr.rows.of_ok hrrun
  refine ⟨_, Executor.run_nestedLoopJoin_eq_ok.mpr ⟨l', r', hlrun', hrrun', ?_, rfl⟩,
    hl.sameRows_joined hr .nestedLoopJoin (.inl rfl) hlrun hlrun' hrrun hls hrs⟩
  intro a' ha' b' hb'
  obtain ⟨a, ha, haa⟩ := hls.exists_left ha'
  obtain ⟨b, hb, hbb⟩ := hrs.exists_left hb'
  rw [← (haa.append hbb hl.columns hr.columns (hl.wide l hlrun a ha)
    (hl.wide' l' hlrun' a' ha')).passes_eq condition]
  exact hall a ha b hb

theorem TreeCorrespond.symm {e e' : Executor} (h : TreeCorrespond fixed e e') :
    TreeCorrespond fixed e' e where
  toCorrespond := h.toCorrespond.symm
  columns := ⟨h.columns.entries.symm, h.columns.right, h.columns.left⟩
  wide := h.wide'
  wide' := h.wide

theorem TreeCorrespond.nestedLoopJoin (hl : TreeCorrespond fixed le le')
    (hr : TreeCorrespond fixed re re') (condition : Expression) :
    TreeCorrespond fixed (.nestedLoopJoin condition le re) (.nestedLoopJoin condition le' re') where
  toCorrespond := .of_imp (hl.extend_schema hr) (fun _ hout => hl.exists_nestedLoopJoin hr hout)
    fun _ hout => (hl.symm.exists_nestedLoopJoin hr.symm hout).imp fun _ h => h.1
  columns := hl.columns.extend hr.columns
  wide := hl.wide.nestedLoopJoin hr.wide
  wide' := hl.wide'.nestedLoopJoin hr.wide'

/-- A nested loop and a hash join. -/
theorem TreeCorrespond.hashJoin (hl : TreeCorrespond fixed le le')
    (hr : TreeCorrespond fixed re re') (hhashes : Hashes condition le re) {lk rk : Expression}
    (hkeys : hashJoinKeys condition le'.schema re'.schema = .ok (lk, rk)) :
    TreeCorrespond fixed (.nestedLoopJoin condition le re)
      (.hashJoin condition lk rk le' re') where
  toCorrespond := by
    refine .of_imp (hl.extend_schema hr) (fun out hout => ?_) fun out hout => ?_
    · obtain ⟨l, r, hlrun, hrrun, -, rfl⟩ := Executor.run_nestedLoopJoin_eq_ok.mp hout
      obtain ⟨l', hlrun', hls⟩ := hl.rows.of_ok hlrun
      obtain ⟨r', hrrun', hrs⟩ := hr.rows.of_ok hrrun
      exact ⟨_, (Executor.run_hashJoin_eq_ok hl.wide' hr.wide' hkeys).mpr
        ⟨l', r', hlrun', hrrun', rfl⟩,
        hl.sameRows_joined hr .hashJoin (.inr ⟨rfl, hhashes⟩) hlrun hlrun' hrrun hls hrs⟩
    · obtain ⟨l', r', hlrun', hrrun', -⟩ :=
        (Executor.run_hashJoin_eq_ok hl.wide' hr.wide' hkeys).mp hout
      obtain ⟨l, hlrun, -⟩ := hl.rows.of_ok_right hlrun'
      obtain ⟨r, hrrun, -⟩ := hr.rows.of_ok_right hrrun'
      exact ⟨_, Executor.run_nestedLoopJoin_eq_ok.mpr
        ⟨l, r, hlrun, hrrun, hhashes.truth l r hlrun hrrun, rfl⟩⟩
  columns := hl.columns.extend hr.columns
  wide := hl.wide.nestedLoopJoin hr.wide
  wide' := hl.wide'.hashJoin hr.wide' hkeys

theorem Executor.Wide.filter {e : Executor} (h : e.Wide) (p : Expression) :
    (Executor.filter p e).Wide := by
  intro rows hrows row hrow
  obtain ⟨rows', hrun, -, rfl⟩ := Executor.run_filter_eq_ok.mp hrows
  exact h rows' hrun row (List.mem_of_mem_filter hrow)

theorem TreeCorrespond.filter {e e' : Executor} (h : TreeCorrespond fixed e e') (p : Expression) :
    TreeCorrespond fixed (.filter p e) (.filter p e') where
  toCorrespond := h.toCorrespond.filter p
  columns := h.columns
  wide := h.wide.filter p
  wide' := h.wide'.filter p

end Trees

end SqlOptimizer
