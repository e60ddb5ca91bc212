import SqlOptimizer.Execution.Operators

/-! Rows that lay the rows of several scans side by side.  With distinct aliases a qualified column
reads the same value wherever the block of its scan stands. -/

namespace SqlOptimizer

/-- An unqualified column of a scan resolves as a qualified one when the table has one column of
that name. -/
theorem scanSchema_resolve_none {q c : String} {cols : List String} (h : cols.count c = 1) :
    (scanSchema q cols).resolve none c = cols.findIdx? (· == c) := by
  rw [RowSchema.resolve_none]
  simp only [scanSchema, List.countP_map, List.findIdx?_map, Function.comp_def]
  rw [if_pos]
  exact h

theorem scanSchema_resolve_some {q c : String} {cols : List String} :
    (scanSchema q cols).resolve (some q) c = cols.findIdx? (· == c) := by
  simp [RowSchema.resolve_some, scanSchema, List.findIdx?_map, Function.comp_def]

/-- The one column of a name resolves with its table as without. -/
theorem RowSchema.resolve_none_eq_some {s : RowSchema} {q c : String}
    (h : s.entries.countP (·.column == c) = 1) (he : ⟨some q, c⟩ ∈ s.entries) :
    s.resolve none c = s.resolve (some q) c := by
  rw [resolve_none, if_pos h, resolve_some]
  generalize s.entries = entries at h he
  induction entries with
  | nil => cases he
  | cons e es ih =>
    by_cases hc : e.column = c
    · have hnone : es.countP (·.column == c) = 0 := by simpa [hc] using h
      have heq : e = ⟨some q, c⟩ := by
        rcases List.mem_cons.mp he with he | he
        · exact he.symm
        · exact absurd (beq_self_eq_true c) (List.countP_eq_zero.mp hnone _ he)
      simp [heq, List.findIdx?_cons]
    · have hes : ⟨some q, c⟩ ∈ es := by
        rcases List.mem_cons.mp he with rfl | he
        · exact absurd rfl hc
        · exact he
      have hcount : es.countP (·.column == c) = 1 := by simpa [hc] using h
      simp [List.findIdx?_cons, hc, ih hcount hes]

/-- The scans of a join, by number: the alias and the columns of each. -/
structure Blocks where
  ident : Nat → String
  columns : Nat → List String

namespace Blocks

variable (B : Blocks)

def schemaOf (i : Nat) : RowSchema := scanSchema (B.ident i) (B.columns i)

/-- The schema of the blocks in the order of `π`. -/
def layoutSchema (π : List Nat) : RowSchema := ⟨π.flatMap fun i => (B.schemaOf i).entries, []⟩

/-- The rows of an assignment, in the order of `π`. -/
def layout (π : List Nat) (e : Nat → Row) : Row := π.flatMap e

/-- The aliases of `π` are different. -/
def Distinct (π : List Nat) : Prop := (π.map B.ident).Nodup

/-- Each row of `π` has the width of its block. -/
def Fits (π : List Nat) (e : Nat → Row) : Prop := ∀ i ∈ π, (e i).length = (B.columns i).length

variable {B}

theorem Distinct.nodup {π : List Nat} (h : B.Distinct π) : π.Nodup := List.Nodup.of_map _ h

theorem Distinct.of_cons {i : Nat} {π : List Nat} (h : B.Distinct (i :: π)) : B.Distinct π :=
  (List.nodup_cons.mp h).2

theorem Distinct.eq_of_ident {π : List Nat} (h : B.Distinct π) {i j : Nat} (hi : i ∈ π)
    (hj : j ∈ π) (hij : B.ident i = B.ident j) : i = j :=
  List.inj_on_of_nodup_map h hi hj hij

theorem layoutSchema_cons (i : Nat) (π : List Nat) :
    B.layoutSchema (i :: π) = (B.schemaOf i).extend (B.layoutSchema π) := rfl

theorem layoutSchema_append (π ρ : List Nat) :
    B.layoutSchema (π ++ ρ) = (B.layoutSchema π).extend (B.layoutSchema ρ) := by
  simp [layoutSchema, RowSchema.extend]

theorem layout_append (π ρ : List Nat) (e : Nat → Row) :
    layout (π ++ ρ) e = layout π e ++ layout ρ e := by
  simp [layout]

theorem layout_update_of_not_mem {π : List Nat} {r : Nat} (hr : r ∉ π) (e : Nat → Row) (a : Row) :
    layout π (Function.update e r a) = layout π e := by
  apply List.flatMap_congr
  intro i hi
  rw [Function.update_of_ne (ne_of_mem_of_not_mem hi hr)]

theorem layoutSchema_singleton (i : Nat) : B.layoutSchema [i] = B.schemaOf i := by
  simp [layoutSchema, schemaOf, scanSchema]

@[simp] theorem schemaOf_size (i : Nat) : (B.schemaOf i).size = (B.columns i).length := by
  simp [schemaOf, scanSchema, RowSchema.size]

theorem schemaOf_resolve (i : Nat) (t c : String) :
    (B.schemaOf i).resolve (some t) c =
      if B.ident i = t then (B.columns i).findIdx? (· == c) else none := by
  simp only [RowSchema.resolve_some, schemaOf, scanSchema, List.findIdx?_map]
  split
  case isTrue h => simp [h, Function.comp_def]
  case isFalse h => simp [h, Function.comp_def]

/-- A column of a scan that is not there does not resolve. -/
theorem layoutSchema_resolve_none {π : List Nat} {t c : String} (h : ∀ i ∈ π, B.ident i ≠ t) :
    (B.layoutSchema π).resolve (some t) c = none := by
  induction π with
  | nil => rfl
  | cons i π ih =>
    rw [layoutSchema_cons, RowSchema.resolve_extend_some, schemaOf_resolve,
      if_neg (h i (by simp)), ih fun j hj => h j (by simp [hj])]
    rfl

theorem entries_layoutSchema_perm {π ρ : List Nat} (hperm : π.Perm ρ) :
    (B.layoutSchema π).entries.Perm (B.layoutSchema ρ).entries :=
  hperm.flatMap_right _

/-- An entry of a layout names its table. -/
theorem exists_table {π : List Nat} {e : Entry} (h : e ∈ (B.layoutSchema π).entries) :
    ∃ q c, e = ⟨some q, c⟩ := by
  obtain ⟨i, -, he⟩ := List.mem_flatMap.mp h
  obtain ⟨c, -, rfl⟩ := List.mem_map.mp he
  exact ⟨_, c, rfl⟩

section

variable [Rounding]

/-- A column qualified by the alias of block `i` has the value of that block. -/
theorem evaluate_layout {π : List Nat} {e : Nat → Row} (hd : B.Distinct π) (hf : B.Fits π e)
    {i : Nat} (hi : i ∈ π) (c : String) :
    evaluate (.column (some (B.ident i)) c) (layout π e) (B.layoutSchema π) =
      evaluate (.column (some (B.ident i)) c) (e i) (B.schemaOf i) := by
  induction π with
  | nil => cases hi
  | cons j π ih =>
    have hlen : (e j).length = (B.schemaOf j).size := by simp [hf j (by simp)]
    simp only [evaluate, layoutSchema_cons, RowSchema.resolve_extend_some, layout,
      List.flatMap_cons]
    by_cases hij : i = j
    · subst hij
      have hrest : (B.layoutSchema π).resolve (some (B.ident i)) c = none := by
        apply layoutSchema_resolve_none
        intro k hk hki
        exact (List.nodup_cons.mp hd).1 (List.mem_map.mpr ⟨k, hk, hki⟩)
      rw [hrest]
      cases hres : (B.schemaOf i).resolve (some (B.ident i)) c with
      | none => rfl
      | some idx => exact rowAt_append_left (hlen ▸ RowSchema.resolve_lt hres)
    · have hi' : i ∈ π := (List.mem_cons.mp hi).resolve_left hij
      have hne : B.ident j ≠ B.ident i := fun h => hij (hd.eq_of_ident hi (by simp) h.symm)
      rw [schemaOf_resolve j, if_neg hne, Option.none_or]
      have ih := ih hd.of_cons (fun k hk => hf k (by simp [hk])) hi'
      simp only [evaluate, layout] at ih
      cases hres : (B.layoutSchema π).resolve (some (B.ident i)) c with
      | none => simpa [hres] using ih
      | some idx =>
        rw [hres] at ih
        simp only [Option.map_some, ← hlen, rowAt_append_right]
        exact ih

/-- Two layouts give an expression with qualified columns the same value when the scans that its
columns name are in both, with the same rows, or in neither. -/
theorem evaluate_layout_congr {π ρ : List Nat} {e f : Nat → Row} (hπ : B.Distinct π)
    (hρ : B.Distinct ρ) (hfe : B.Fits π e) (hff : B.Fits ρ f) {p : Expression}
    (hp : ∀ t c, (t, c) ∈ p.columns → ∃ q, t = some q ∧
      ((∃ i ∈ π, i ∈ ρ ∧ B.ident i = q ∧ e i = f i) ∨
        ((∀ i ∈ π, B.ident i ≠ q) ∧ ∀ i ∈ ρ, B.ident i ≠ q))) :
    evaluate p (layout π e) (B.layoutSchema π) = evaluate p (layout ρ f) (B.layoutSchema ρ) := by
  apply evaluate_congr
  · intro t c htc
    obtain ⟨q, rfl, ⟨i, hi, hj, rfl, hef⟩ | ⟨hn, hn'⟩⟩ := hp t c htc
    · rw [evaluate_layout hπ hfe hi, evaluate_layout hρ hff hj, hef]
    · simp only [evaluate, layoutSchema_resolve_none hn, layoutSchema_resolve_none hn']
  · intro name args
    rfl

theorem holds_layout_congr {π ρ : List Nat} {e f : Nat → Row} (hπ : B.Distinct π)
    (hρ : B.Distinct ρ) (hfe : B.Fits π e) (hff : B.Fits ρ f) {p : Expression}
    (hp : ∀ t c, (t, c) ∈ p.columns → ∃ q, t = some q ∧
      ((∃ i ∈ π, i ∈ ρ ∧ B.ident i = q ∧ e i = f i) ∨
        ((∀ i ∈ π, B.ident i ≠ q) ∧ ∀ i ∈ ρ, B.ident i ≠ q))) :
    holds p (layout π e) (B.layoutSchema π) = holds p (layout ρ f) (B.layoutSchema ρ) := by
  simp only [holds, passes, evaluate_layout_congr hπ hρ hfe hff hp]

/-- Rows laid out in two orders give every expression the same value, also by columns that do not
name their table. -/
theorem evaluate_layout_perm {π ρ : List Nat} {e : Nat → Row} (hperm : π.Perm ρ)
    (hρ : B.Distinct ρ) (hfit : B.Fits ρ e) (x : Expression) :
    evaluate x (layout π e) (B.layoutSchema π) = evaluate x (layout ρ e) (B.layoutSchema ρ) := by
  have hπ : B.Distinct π := (hperm.map _).nodup_iff.mpr hρ
  have hqualified : ∀ q c, evaluate (.column (some q) c) (layout π e) (B.layoutSchema π) =
      evaluate (.column (some q) c) (layout ρ e) (B.layoutSchema ρ) := by
    intro q c
    refine evaluate_layout_congr hπ hρ (fun i hi => hfit i (hperm.mem_iff.mp hi)) hfit
      fun t' c' htc => ?_
    cases List.mem_singleton.mp htc
    refine ⟨q, rfl, ?_⟩
    by_cases hq : ∃ i ∈ ρ, B.ident i = q
    · obtain ⟨i, hi, hq⟩ := hq
      exact .inl ⟨i, hperm.mem_iff.mpr hi, hi, hq, rfl⟩
    · push Not at hq
      exact .inr ⟨fun i hi => hq i (hperm.mem_iff.mp hi), hq⟩
  refine evaluate_congr (fun t c _ => ?_) fun name args => rfl
  cases t with
  | some q => exact hqualified q c
  | none =>
    by_cases hcount : (B.layoutSchema ρ).entries.countP (·.column == c) = 1
    · obtain ⟨entry, hentry, hc⟩ := List.countP_pos_iff.mp (hcount ▸ Nat.one_pos)
      obtain ⟨q, c', rfl⟩ := exists_table hentry
      obtain rfl : c' = c := by simpa using hc
      have hbare : ∀ {σ : List Nat} (row : Row), σ.Perm ρ →
          evaluate (.column none c') row (B.layoutSchema σ) =
            evaluate (.column (some q) c') row (B.layoutSchema σ) := by
        intro σ row hσ
        have hentries := entries_layoutSchema_perm (B := B) hσ
        rw [evaluate, evaluate, RowSchema.resolve_none_eq_some
          (hentries.countP_eq _ ▸ hcount) (hentries.mem_iff.mpr hentry)]
        cases hres : (B.layoutSchema σ).resolve (some q) c' with
        | some i => rfl
        | none =>
          exfalso
          rw [RowSchema.resolve_some, List.findIdx?_eq_none_iff] at hres
          simpa using hres _ (hentries.mem_iff.mpr hentry)
      rw [hbare _ hperm, hbare _ (.refl ρ)]
      exact hqualified q c'
    · have hnone : ∀ {σ : List Nat}, σ.Perm ρ → (B.layoutSchema σ).resolve none c = none := by
        intro σ hσ
        rw [RowSchema.resolve_none, if_neg]
        rwa [(entries_layoutSchema_perm (B := B) hσ).countP_eq]
      simp only [evaluate, hnone hperm, hnone (.refl ρ)]

end

end Blocks

end SqlOptimizer
