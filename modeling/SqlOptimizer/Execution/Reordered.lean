import SqlOptimizer.Execution.Success
import SqlOptimizer.Library.SortKeys

/-! Operators over the same rows in another order. -/

namespace SqlOptimizer

/-! ### Sorting -/

section

variable {less : Row → Row → Except String Bool} {row : Row} {rows out : List Row}

theorem perm_insertRow (h : insertRow less row rows = .ok out) : out.Perm (row :: rows) := by
  induction rows generalizing out with
  | nil =>
    cases h
    exact .refl _
  | cons r rs ih =>
    obtain ⟨b, -, h⟩ := Except.bind_eq_ok.mp h
    cases b with
    | true =>
      cases h
      exact .refl _
    | false =>
      obtain ⟨rest, hrest, h⟩ := Except.bind_eq_ok.mp h
      cases h
      exact ((ih hrest).cons r).trans (.swap row r rs)

theorem perm_sortRows (h : sortRows less rows = .ok out) : out.Perm rows := by
  have hall : ∀ {start : List Row},
      rows.foldlM (fun sorted row => insertRow less row sorted) start = .ok out →
        out.Perm (rows ++ start) := by
    clear h
    induction rows with
    | nil =>
      rintro start ⟨⟩
      exact .refl _
    | cons row rows ih =>
      intro start h
      rw [List.foldlM_cons] at h
      obtain ⟨next, hnext, h⟩ := Except.bind_eq_ok.mp h
      exact (ih h).trans (((perm_insertRow hnext).append_left rows).trans List.perm_middle)
  have hout := hall h
  rwa [List.append_nil] at hout

theorem exists_insertRow (h : ∀ r ∈ rows, ∃ b, less row r = .ok b) :
    ∃ out, insertRow less row rows = .ok out := by
  induction rows with
  | nil => exact ⟨_, rfl⟩
  | cons r rs ih =>
    obtain ⟨b, hb⟩ := h r List.mem_cons_self
    obtain ⟨out, hout⟩ := ih fun r' hr' => h r' (List.mem_cons_of_mem r hr')
    rw [insertRow, hb, Except.ok_bind, hout]
    cases b with
    | true => exact ⟨_, rfl⟩
    | false => exact ⟨_, rfl⟩

/-- Rows of which any two are compared without an error are sorted. -/
theorem exists_sortRows (h : ∀ a ∈ rows, ∀ b ∈ rows, ∃ t, less a b = .ok t) :
    ∃ out, sortRows less rows = .ok out := by
  have hall : ∀ {todo start : List Row}, (∀ a ∈ todo, a ∈ rows) → (∀ a ∈ start, a ∈ rows) →
      ∃ out, todo.foldlM (fun sorted row => insertRow less row sorted) start = .ok out := by
    intro todo
    induction todo with
    | nil => exact fun _ _ => ⟨_, rfl⟩
    | cons row todo ih =>
      intro start htodo hstart
      have hrow := htodo row List.mem_cons_self
      obtain ⟨next, hnext⟩ := exists_insertRow fun r hr => h row hrow r (hstart r hr)
      obtain ⟨out, hout⟩ := @ih next (fun a ha => htodo a (List.mem_cons_of_mem row ha))
        fun a ha => by
          rcases List.mem_cons.mp ((perm_insertRow hnext).mem_iff.mp ha) with rfl | ha
          · exact hrow
          · exact hstart a ha
      exact ⟨out, by rw [List.foldlM_cons, hnext, Except.ok_bind, hout]⟩
  exact hall (fun a ha => ha) nofun

/-- No row of the list comes after one that it precedes. -/
def SortedBy (less : Row → Row → Except String Bool) (rows : List Row) : Prop :=
  rows.Pairwise fun a b => less b a ≠ .ok true

theorem sortedBy_insertRow (hweak : StrictWeakOn {r | r ∈ row :: rows} (less · · = .ok true))
    (h : insertRow less row rows = .ok out) (hsorted : SortedBy less rows) :
    SortedBy less out := by
  induction rows generalizing out with
  | nil =>
    cases h
    exact List.pairwise_singleton _ _
  | cons r rs ih =>
    obtain ⟨hr, hrs⟩ := List.pairwise_cons.mp hsorted
    obtain ⟨b, hb, h⟩ := Except.bind_eq_ok.mp h
    cases b with
    | true =>
      cases h
      refine List.pairwise_cons.mpr ⟨fun x hx hxrow => ?_, hsorted⟩
      rcases List.mem_cons.mp hx with rfl | hx
      · exact hweak.asymm row (by simp) x (by simp) hb hxrow
      · exact hr x hx (hweak.trans x (by simp [hx]) row (by simp) r (by simp) hxrow hb)
    | false =>
      obtain ⟨rest, hrest, h⟩ := Except.bind_eq_ok.mp h
      cases h
      have hsub : StrictWeakOn {x | x ∈ row :: rs} (less · · = .ok true) := StrictWeakOn.subset hweak (by
        intro x hx
        rcases List.mem_cons.mp hx with rfl | hx
        · exact List.mem_cons_self
        · exact List.mem_cons_of_mem _ (List.mem_cons_of_mem _ hx))
      refine List.pairwise_cons.mpr ⟨fun x hx hxr => ?_, ih hsub hrest hrs⟩
      rcases List.mem_cons.mp ((perm_insertRow hrest).mem_iff.mp hx) with rfl | hx
      · rw [hb] at hxr
        cases hxr
      · exact hr x hx hxr

/-- Sorted rows are in the order of a comparator that is a strict weak order on them. -/
theorem sortedBy_sortRows (hweak : StrictWeakOn {r | r ∈ rows} (less · · = .ok true))
    (h : sortRows less rows = .ok out) : SortedBy less out := by
  have hall : ∀ {todo start : List Row}, (∀ r ∈ todo, r ∈ rows) → (∀ r ∈ start, r ∈ rows) →
      SortedBy less start →
        todo.foldlM (fun sorted row => insertRow less row sorted) start = .ok out →
          SortedBy less out := by
    intro todo
    induction todo with
    | nil =>
      rintro start - - hsorted ⟨⟩
      exact hsorted
    | cons row todo ih =>
      intro start htodo hstart hsorted h
      rw [List.foldlM_cons] at h
      obtain ⟨next, hnext, h⟩ := Except.bind_eq_ok.mp h
      have hmem : ∀ r ∈ row :: start, r ∈ rows := by
        intro r hr
        rcases List.mem_cons.mp hr with rfl | hr
        · exact htodo r List.mem_cons_self
        · exact hstart r hr
      exact ih (fun r hr => htodo r (List.mem_cons_of_mem _ hr))
        (fun r hr => hmem r ((perm_insertRow hnext).mem_iff.mp hr))
        (sortedBy_insertRow (StrictWeakOn.subset hweak hmem) hnext hsorted) h
  exact hall (fun r hr => hr) (fun r hr => absurd hr List.not_mem_nil) List.Pairwise.nil h

end

/-! ### Rows in another order -/

variable [Rounding]

namespace Executor

variable {e e' : Executor} {out : List Row}

theorem run_filter_eq_ok {p : Expression} : (filter p e).run = .ok out ↔
    ∃ rows, e.run = .ok rows ∧ (∀ row ∈ rows, ∃ b, passes p row e.schema = .ok b) ∧
      out = rows.filter fun row => (passes p row e.schema).toOption.getD false := by
  simp only [run, drain, Except.bind_eq_ok, Except.pure_eq_ok, Except.ok.injEq, Drain.collect_eq_ok]
  constructor
  · rintro ⟨_, ⟨d, hd, rfl⟩, hout⟩
    obtain ⟨hfault, hall, hout⟩ := Drain.collect_filter_eq_ok.mp (Drain.collect_eq_ok.mpr hout)
    exact ⟨d.rows, ⟨d, hd, rfl, hfault⟩, hall, hout⟩
  · rintro ⟨rows, ⟨d, hd, rfl, hfault⟩, hall, hout⟩
    exact ⟨_, ⟨d, hd, rfl⟩,
      Drain.collect_eq_ok.mp (Drain.collect_filter_eq_ok.mpr ⟨hfault, hall, hout⟩)⟩

theorem run_project_eq_ok {expressions : List (Expression × Option String)} :
    (project expressions e).run = .ok out ↔ ∃ rows, e.run = .ok rows ∧
      (rows.mapM fun row => expressions.mapM fun p => evaluate p.1 row e.schema) = .ok out := by
  simp only [run, drain, Except.bind_eq_ok, Except.pure_eq_ok, Except.ok.injEq, Drain.collect_eq_ok]
  constructor
  · rintro ⟨_, ⟨d, hd, rfl⟩, hout⟩
    obtain ⟨hfault, hrows⟩ := Drain.collect_map_eq_ok.mp (Drain.collect_eq_ok.mpr hout)
    exact ⟨d.rows, ⟨d, hd, rfl, hfault⟩, hrows⟩
  · rintro ⟨rows, ⟨d, hd, rfl, hfault⟩, hrows⟩
    exact ⟨_, ⟨d, hd, rfl⟩,
      Drain.collect_eq_ok.mp (Drain.collect_map_eq_ok.mpr ⟨hfault, hrows⟩)⟩

theorem run_sort_eq_ok {orderBy : List OrderByItem} : (sort orderBy e).run = .ok out ↔
    ∃ rows, e.run = .ok rows ∧ sortRows (sortLess orderBy e.schema) rows = .ok out := by
  simp only [run, drain, Except.bind_eq_ok, Except.pure_eq_ok, Except.ok.injEq]
  constructor
  · rintro ⟨_, ⟨d, hd, rows, hrows, sorted, hsorted, rfl⟩, ⟨⟩⟩
    exact ⟨rows, ⟨d, hd, hrows⟩, hsorted⟩
  · rintro ⟨rows, ⟨d, hd, hrows⟩, hsorted⟩
    exact ⟨_, ⟨d, hd, rows, hrows, out, hsorted, rfl⟩, rfl⟩

/-- `e'` returns the rows of `e`, in some order. -/
structure Reorders (e e' : Executor) : Prop where
  schema : e'.schema = e.schema
  rows : ∀ rows, e.run = .ok rows → ∃ rows', e'.run = .ok rows' ∧ rows'.Perm rows

namespace Reorders

theorem filter (h : Reorders e e') (p : Expression) :
    Reorders (Executor.filter p e) (Executor.filter p e') where
  schema := h.schema
  rows out hout := by
    obtain ⟨rows, hrows, hall, rfl⟩ := run_filter_eq_ok.mp hout
    obtain ⟨rows', hrows', hperm⟩ := h.rows rows hrows
    refine ⟨_, run_filter_eq_ok.mpr ⟨rows', hrows', ?_, rfl⟩, ?_⟩
    · rw [h.schema]
      exact fun row hrow => hall row (hperm.mem_iff.mp hrow)
    · rw [h.schema]
      exact hperm.filter _

theorem project (h : Reorders e e') (expressions : List (Expression × Option String)) :
    Reorders (Executor.project expressions e) (Executor.project expressions e') where
  schema := rfl
  rows out hout := by
    obtain ⟨rows, hrows, hmap⟩ := run_project_eq_ok.mp hout
    obtain ⟨rows', hrows', hperm⟩ := h.rows rows hrows
    obtain ⟨out', hout', hperm'⟩ := Except.mapM_perm hmap hperm
    exact ⟨out', run_project_eq_ok.mpr ⟨rows', hrows', by rw [h.schema]; exact hout'⟩, hperm'⟩

/-- Rows of which the comparator decides any two. -/
theorem sort (h : Reorders e e') (orderBy : List OrderByItem)
    (hdecided : ∀ rows, e.run = .ok rows → ∀ a ∈ rows, ∀ b ∈ rows,
      ∃ t, sortLess orderBy e.schema a b = .ok t) :
    Reorders (Executor.sort orderBy e) (Executor.sort orderBy e') where
  schema := h.schema
  rows out hout := by
    obtain ⟨rows, hrows, hsorted⟩ := run_sort_eq_ok.mp hout
    obtain ⟨rows', hrows', hperm⟩ := h.rows rows hrows
    obtain ⟨out', hout'⟩ := @exists_sortRows (sortLess orderBy e.schema) rows'
      fun a ha b hb => hdecided rows hrows a (hperm.mem_iff.mp ha) b (hperm.mem_iff.mp hb)
    refine ⟨out', run_sort_eq_ok.mpr ⟨rows', hrows', by rw [h.schema]; exact hout'⟩, ?_⟩
    exact (perm_sortRows hout').trans (hperm.trans (perm_sortRows hsorted).symm)

end Reorders

end Executor

end SqlOptimizer
