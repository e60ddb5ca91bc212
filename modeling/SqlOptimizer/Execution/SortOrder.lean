import SqlOptimizer.Execution.ValueOrder
import SqlOptimizer.Library.SortKeys

/-! The comparator of ORDER BY.  NULL and NaN have no place in the order of values: `std::sort` gets a
strict weak order exactly when no row shows one of them to a descending item first, and none stands
between rows that the items tell apart. -/

namespace SqlOptimizer

/-! ### The values -/

section

variable {a b c : Literal}

/-- Equal values are numbers with equal doubles, equal strings or equal truth values. -/
theorem literalEqual_eq_true (h : literalEqual a b = true) :
    (∃ x y, numeric? a = some x ∧ numeric? b = some y ∧ Binary64.eq x y = true) ∨
      ((∃ s, a = .str s) ∨ ∃ t, a = .boolean t) ∧ a = b := by
  cases a <;> cases b <;> simp_all [literalEqual, numeric?, literalIsNull]

theorem literalEqual_trans (hab : literalEqual a b = true) (hbc : literalEqual b c = true) :
    literalEqual a c = true := by
  rcases literalEqual_eq_true hab with ⟨x, y, ha, hb, hxy⟩ | ⟨-, rfl⟩
  · rcases literalEqual_eq_true hbc with ⟨y', z, hb', hc, hyz⟩ | ⟨-, rfl⟩
    · cases hb.symm.trans hb'
      obtain ⟨e, hx, hy⟩ := Binary64.eq_eq_true.mp hxy
      obtain ⟨e', hy', hz⟩ := Binary64.eq_eq_true.mp hyz
      cases hy.symm.trans hy'
      rw [literalEqual_of_numeric ha hc, Binary64.eq_eq_true]
      exact ⟨e, hx, hz⟩
    · exact hab
  · exact hbc

theorem less_of_literalEqual_left (hab : literalEqual a b = true) (hbc : less b c = true) :
    less a c = true := by
  rcases literalEqual_eq_true hab with ⟨x, y, ha, hb, hxy⟩ | ⟨-, rfl⟩
  · rcases less_eq_true hbc with ⟨y', z, hb', hc, hyz⟩ | ⟨s, t, rfl, rfl, -⟩
    · cases hb.symm.trans hb'
      obtain ⟨e, hx, hy⟩ := Binary64.eq_eq_true.mp hxy
      obtain ⟨e', d, hy', hz, hlt⟩ := Binary64.lt_eq_true.mp hyz
      cases hy.symm.trans hy'
      rw [less_of_numeric ha hc, Binary64.lt_eq_true]
      exact ⟨e, d, hx, hz, hlt⟩
    · cases hb
  · exact hbc

theorem less_of_literalEqual_right (hab : less a b = true) (hbc : literalEqual b c = true) :
    less a c = true := by
  rcases literalEqual_eq_true hbc with ⟨y, z, hb, hc, hyz⟩ | ⟨-, rfl⟩
  · rcases less_eq_true hab with ⟨x, y', ha, hb', hxy⟩ | ⟨s, t, rfl, rfl, -⟩
    · cases hb.symm.trans hb'
      obtain ⟨e, hy, hz⟩ := Binary64.eq_eq_true.mp hyz
      obtain ⟨d, e', hx, hy', hlt⟩ := Binary64.lt_eq_true.mp hxy
      cases hy.symm.trans hy'
      rw [less_of_numeric ha hc, Binary64.lt_eq_true]
      exact ⟨d, e, hx, hz, hlt⟩
    · cases hb
  · exact hab

theorem less_irrefl (a : Literal) : less a a = false := by
  by_contra h
  rcases less_eq_true (Bool.eq_true_of_not_eq_false h) with ⟨x, y, ha, hb, hxy⟩ | ⟨s, t, hs, ht, hst⟩
  · cases ha.symm.trans hb
    obtain ⟨d, e, hx, hy, hlt⟩ := Binary64.lt_eq_true.mp hxy
    cases hx.symm.trans hy
    exact lt_irrefl d hlt
  · cases hs.symm.trans ht
    exact String.lt_irrefl s hst

/-- Values that are compared equal themselves. -/
theorem literalEqual_self_of_less (h : less a b = true) :
    literalEqual a a = true ∧ literalEqual b b = true := by
  rcases less_eq_true h with ⟨x, y, ha, hb, hxy⟩ | ⟨s, t, rfl, rfl, -⟩
  · obtain ⟨d, e, hx, hy, -⟩ := Binary64.lt_eq_true.mp hxy
    rw [literalEqual_of_numeric ha ha, literalEqual_of_numeric hb hb, Binary64.eq_eq_true,
      Binary64.eq_eq_true]
    exact ⟨⟨d, hx, hx⟩, e, hy, hy⟩
  · simp [literalEqual, numeric?, literalIsNull]

/-- Two different values that `literal_less` takes are in order. -/
theorem less_or_less (h : comparable a b = true) (ha : literalEqual a a = true)
    (hb : literalEqual b b = true) (hab : literalEqual a b = false) :
    less a b = true ∨ less b a = true := by
  rcases Bool.or_eq_true_iff.mp h with h | h
  · obtain ⟨hna, hnb⟩ := Bool.and_eq_true_iff.mp h
    obtain ⟨x, hx⟩ := Option.isSome_iff_exists.mp hna
    obtain ⟨y, hy⟩ := Option.isSome_iff_exists.mp hnb
    rw [literalEqual_of_numeric hx hx, Binary64.eq_eq_true] at ha
    rw [literalEqual_of_numeric hy hy, Binary64.eq_eq_true] at hb
    obtain ⟨d, hd, -⟩ := ha
    obtain ⟨e, he, -⟩ := hb
    rw [literalEqual_of_numeric hx hy, Bool.eq_false_iff, Ne, Binary64.eq_iff_extended hd he] at hab
    rw [less_of_numeric hx hy, less_of_numeric hy hx, Binary64.lt_iff_extended hd he,
      Binary64.lt_iff_extended he hd]
    exact lt_or_gt_of_ne hab
  · cases a <;> cases b <;> simp [isStr] at h
    next s t _ =>
    rw [less_str, less_str, decide_eq_true_iff, decide_eq_true_iff]
    have hne := hab
    simp [literalEqual, numeric?, literalIsNull] at hne
    rcases Std.lt_trichotomy s t with hst | hst | hst
    · exact .inl hst
    · exact absurd hst hne
    · exact .inr hst

end

/-- The order that the comparator asks for. -/
def literalValues : PartialValues Literal where
  same := literalEqual
  below := less
  same_symm h := literalEqual_symm _ _ ▸ h
  same_trans := literalEqual_trans
  below_trans := less_trans
  below_irrefl := less_irrefl _
  below_of_same_left := less_of_literalEqual_left
  below_of_same_right := less_of_literalEqual_right
  placed_left h := (literalEqual_self_of_less h).1
  placed_right h := (literalEqual_self_of_less h).2

/-! ### The comparator -/

section

variable [Rounding] {orderBy : List OrderByItem} {schema : RowSchema}

/-- The value of a sort item in a row.  The comparator evaluates an item only when the items before
it do not tell two rows apart. -/
def sortValue (e : Expression) (schema : RowSchema) (row : Row) : Literal :=
  (evaluate e row schema).toOption.getD .null

def sortKeys (orderBy : List OrderByItem) (schema : RowSchema) : List (SortKey Row Literal) :=
  orderBy.map fun item => ⟨sortValue item.expression schema, item.ascending⟩

theorem sortValue_eq {e : Expression} {row : Row} {v : Literal} (h : evaluate e row schema = .ok v) :
    sortValue e schema row = v := by
  rw [sortValue, h]
  rfl

/-- Without an error, the comparator compares by the sort keys and finds two values that it can
order. -/
theorem sortLess_eq_ok {a b : Row} {t : Bool} (h : sortLess orderBy schema a b = .ok t) :
    t = SortKey.less literalValues (sortKeys orderBy schema) a b ∧
      SortKey.Decided literalValues (sortKeys orderBy schema) a b := by
  induction orderBy with
  | nil =>
    cases h
    exact ⟨rfl, trivial⟩
  | cons item rest ih =>
    obtain ⟨va, ha, h⟩ := Except.bind_eq_ok.mp h
    obtain ⟨vb, hb, h⟩ := Except.bind_eq_ok.mp h
    rw [sortKeys, List.map_cons, ← sortKeys, SortKey.less, SortKey.Decided]
    simp only [sortValue_eq ha, sortValue_eq hb, literalValues]
    by_cases hab : literalEqual va vb = true
    · rw [if_pos hab] at h
      rw [if_pos hab, if_pos hab]
      exact ih h
    · rw [if_neg hab] at h
      rw [if_neg hab, if_neg hab]
      obtain ⟨l, hl, h⟩ := Except.bind_eq_ok.mp h
      have hless : less va vb = l := by
        rw [less, hl]
        rfl
      refine ⟨?_, fun hpa hpb => ?_⟩
      · cases h
        rw [hless]
      · have hna : literalIsNull va = false := by
          cases va <;> simp_all [literalIsNull]
        have hnb : literalIsNull vb = false := by
          cases vb <;> simp_all [literalIsNull]
        exact less_or_less ((literalLess_eq_ok hna hnb).mp ⟨l, hl⟩) hpa hpb
          (Bool.eq_false_of_not_eq_true hab)

/-- On rows that it compares without an error, the comparator is a strict weak order if and only if
the first sort value of each row that is NULL or NaN belongs to an ascending item, and the rows that
are equal to such a row on the items before it are tied. -/
theorem sortLess_strictWeakOn {S : Set Row}
    (hok : ∀ a ∈ S, ∀ b ∈ S, ∃ t, sortLess orderBy schema a b = .ok t) :
    StrictWeakOn S (fun a b => sortLess orderBy schema a b = .ok true) ↔
      (∀ a ∈ S, SortKey.Ascends literalValues (sortKeys orderBy schema) a) ∧
        ∀ a ∈ S, ∀ b ∈ S, ∀ c ∈ S,
          SortKey.Meets literalValues (sortKeys orderBy schema) a b →
            SortKey.Meets literalValues (sortKeys orderBy schema) c b →
              SortKey.Tied literalValues (sortKeys orderBy schema) a c := by
  have hless : ∀ a ∈ S, ∀ b ∈ S, (sortLess orderBy schema a b = .ok true ↔
      SortKey.less literalValues (sortKeys orderBy schema) a b = true) := by
    intro a ha b hb
    obtain ⟨t, ht⟩ := hok a ha b hb
    rw [ht, ← (sortLess_eq_ok ht).1, Except.ok.injEq]
  rw [← SortKey.strictWeakOn_less fun a ha b hb =>
    (sortLess_eq_ok (hok a ha b hb).choose_spec).2]
  exact ⟨fun h => h.congr hless, fun h => h.congr fun a ha b hb => (hless a ha b hb).symm⟩

end

attribute [local instance] Rounding.exact

/-- `ORDER BY a DESC` in a table `t` with the columns `a` and `b`. -/
def descendingA : List OrderByItem := [⟨.column none "a", false⟩]

theorem sortLess_strictWeakOn_numbers :
    StrictWeakOn {[Literal.integer 1, .null], [.integer 2, .null]} (fun a b =>
      sortLess descendingA (scanSchema "t" ["a", "b"]) a b = .ok true) := by
  have hplaced : ∀ a ∈ ({[Literal.integer 1, .null], [.integer 2, .null]} : Set Row),
      literalEqual (sortValue (.column none "a") (scanSchema "t" ["a", "b"]) a)
        (sortValue (.column none "a") (scanSchema "t" ["a", "b"]) a) = true := by
    rintro a (rfl | rfl) <;> decide
  refine (sortLess_strictWeakOn ?_).mpr ⟨fun a ha => ?_, fun a _ b hb c _ hab _ => ?_⟩
  · rintro a (rfl | rfl) b (rfl | rfl) <;> exact ⟨_, rfl⟩
  · exact (if_pos (hplaced a ha)).mpr trivial
  · exact (hab (hplaced b hb)).2.elim

/-- A row whose `a` is NULL comes before itself. -/
theorem sortLess_not_strictWeakOn : ¬∀ (orderBy : List OrderByItem) (schema : RowSchema)
    (S : Set Row), (∀ a ∈ S, ∀ b ∈ S, ∃ t, sortLess orderBy schema a b = .ok t) →
      StrictWeakOn S (fun a b => sortLess orderBy schema a b = .ok true) := by
  intro h
  have hweak := h descendingA (scanSchema "t" ["a", "b"]) {[.null, .null]} (by
    rintro a rfl b rfl
    exact ⟨_, rfl⟩)
  exact hweak.irrefl _ rfl (by decide)

end SqlOptimizer
